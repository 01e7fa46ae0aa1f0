import VectorLang.Command.Arguments
import VectorLang.Command.Directory
import VectorLang.Scope.Analysis
import VectorLang.Text.Lines
import VectorLang.Traceback
import VectorLang.Tree.Document
import VectorLang.Tree.Parser

/-!
# What a command does

A command reads a program, checks it and runs it.  It writes the lines that the program
prints to the standard output, and what goes wrong to the standard error output.
-/

namespace VectorLang.Command

/-- What no report is written for. -/
inductive Crash where
  /-- A numeral of the program has too many digits. -/
  | numeralTooLong (digits : Nat)
  /-- The name of the file holds a null character. -/
  | nullCharacter
  /-- The file is not written in UTF-8. -/
  | notUtf8
  /-- The fuel of the reader or of the run was used up. -/
  | outOfFuel
deriving DecidableEq, Inhabited

/-- The text of a crash. -/
def Crash.message : Crash → String
  | numeralTooLong digits => (ParseError.numeralTooLong digits).message
  | nullCharacter => "embedded null byte"
  | notUtf8 => "The file is not written in UTF-8"
  | outOfFuel => "The fuel is used up"

/-- How a command ends. -/
inductive Exit where
  /-- With an exit code. -/
  | code (n : Nat)
  /-- Without a report. -/
  | crash (c : Crash)
deriving DecidableEq, Inhabited

/-- What a command writes, and how it ends. -/
structure Report where
  /-- What it writes to the standard output. -/
  stdout : String
  /-- What it writes to the standard error output. -/
  stderr : String
  /-- How it ends. -/
  ending : Exit
deriving DecidableEq, Inhabited

namespace Report

/-- A report of something that went wrong. -/
def failure (text : String) : Report := ⟨"", text ++ "\n", .code 1⟩

/-- No report. -/
def crash (c : Crash) : Report := ⟨"", "", .crash c⟩

/-- Writes a text to the standard output before everything else. -/
def preceded (text : String) (r : Report) : Report :=
  { r with stdout := text ++ r.stdout }

/-- Writes a text to the standard error output before everything else. -/
def prompted (text : String) (r : Report) : Report :=
  { r with stderr := text ++ r.stderr }

end Report

/-! ## Running a program -/

/-- The document of a token. -/
def tokenJson (t : Token) : Json :=
  .obj [("type", .str t.kind.name), ("value", .str t.text), ("line", .num t.line),
    ("column", .num t.column)]

/-- The document of a set of names. -/
def namesJson (names : List String) : Json :=
  .arr ((sortedNames names).map .str)

/-- The document of a scope. -/
def scopeJson (s : Scope) : Json :=
  .obj [("formal_params", .arr (s.params.map .str)), ("functions", namesJson s.functions),
    ("variables", namesJson s.vars), ("definition", .str s.definition.name)]

/-- The document of all that is known about a program before it is run. -/
def dump (tokens : List Token) (p : Program) (scopes : ScopeTable) : Json :=
  .obj [("tokens", .arr (tokens.map tokenJson)), ("ast", p.toJson),
    ("scopes", .obj (scopes.toList.map fun (name, s) => (name, scopeJson s)))]

/-- Why a program is not run. -/
inductive Rejection where
  /-- The text is no program. -/
  | text (e : ParseError)
  /-- The names of the program are not in order. -/
  | names (e : SemanticError)

/-- The report of a program that is not run. -/
def Rejection.report : Rejection → Report
  | text e =>
    match e with
    | .lexical _ => .failure ("VeclLexError: " ++ e.message)
    | .unexpected .. | .globalParameter _ => .failure ("VeclSyntaxError: " ++ e.message)
    | .numeralTooLong digits => .crash (.numeralTooLong digits)
    | .outOfFuel => .crash .outOfFuel
  | names e => .failure ("VeclSemanticError: " ++ e.message)

/-- Reads the program that a text holds and checks its names. -/
def prepare (file text : String) : Except Rejection (Program × ScopeTable) := do
  let p ← (parse text file).mapError .text
  let scopes ← (analyze p).mapError .names
  return (p, scopes)

/-- What is shown of a program before it is run.  The text is read and checked for it, and its
    tokens are read once more, all of them. -/
def debugDump (file text : String) : Except Rejection Json := do
  let (p, scopes) ← prepare file text
  let tokens ← (tokenize text).mapError (.text ∘ .lexical)
  return dump tokens p scopes

/-- Lines of text, each with its end. -/
def unlines (lines : List String) : String :=
  String.join (lines.map (· ++ "\n"))

/-- The lines that are written before the program is read for its run. -/
def dumpLines (settings : Settings) (file text : String) : Except Rejection (List String) :=
  if settings.debug then (debugDump file text).map fun shown => [shown.pretty] else .ok []

/-- What is written of a run that a fault ended. -/
def tracebackLines (settings : Settings) (t : Traceback) : List String :=
  t.text :: if settings.tracebackJson then [t.json.pretty] else []

/-- What is written of a run. -/
def runReport (settings : Settings) (o : Outcome) : Report :=
  let stdout := unlines o.machine.output.toList
  match o.ending, Traceback.ofOutcome? o with
  | .finished, _ => ⟨stdout, "", .code 0⟩
  | .outOfFuel, _ => ⟨stdout, "", .crash .outOfFuel⟩
  | .failed _, some t => ⟨stdout, unlines (tracebackLines settings t), .code 1⟩
  | .failed _, none => ⟨stdout, "", .code 1⟩

/-- Reads, checks and runs the program that a text holds. -/
def interpret (fuel : Nat) (settings : Settings) (file text : String) : Report :=
  match prepare file text with
  | .error e => e.report
  | .ok (_, scopes) => runReport settings (run ⟨scopes, settings.verbose⟩ fuel)

/-- Shows the program that a text holds, if that is asked for, and runs it. -/
def execute (fuel : Nat) (settings : Settings) (file text : String) : Report :=
  match dumpLines settings file text with
  | .error e => e.report
  | .ok lines => (interpret fuel settings file text).preceded (unlines lines)

/-! ## Reading a program -/

/-- Where a program comes from. -/
inductive Origin where
  /-- Nowhere: its text is asked for and not given. -/
  | missing
  /-- The standard input. -/
  | stdin
  /-- The command line. -/
  | literal (text : String)
  /-- A file. -/
  | file (path : String)
deriving DecidableEq, Inhabited

/-- Where the program of a command line comes from. -/
def Settings.origin (s : Settings) : Origin :=
  match s.program, s.source with
  | none, true => .missing
  | none, false => .stdin
  | some text, true => .literal text
  | some path, false => .file path

/-- What is written before a program is typed. -/
def prompt : String := "Write your program (end it with CTRL+D to execute):\n"

/-- The report of a command line without the program that it announces. -/
def missingReport : Report := .failure "-source requires a program string"

/-- The program in a text that was read: every line end is a newline. -/
def readText (text : String) : String :=
  String.ofList (Text.unifyNewlines text.toList)

/-- Runs the program that is read from the standard input, from a terminal or not. -/
def executeStdin (fuel : Nat) (settings : Settings) (text : String) (terminal : Bool) : Report :=
  (execute fuel settings "<stdin>" (readText text)).prompted (if terminal then prompt else "")

/-- Runs the program that is given on the command line. -/
def executeLiteral (fuel : Nat) (settings : Settings) (text : String) : Report :=
  execute fuel settings "<string>" text

/-- Runs the program in a file, if it can be read. -/
def executeFile (fuel : Nat) (settings : Settings) (path : String)
    (bytes : Except ReadFailure ByteArray) : Report :=
  match bytes with
  | .error .nullCharacter => .crash .nullCharacter
  | .error f => .failure (f.message path)
  | .ok bytes =>
    match String.fromUTF8? bytes with
    | none => .crash .notUtf8
    | some text => execute fuel settings path (readText text)

/-- What a command finds when it is started. -/
structure Surroundings where
  /-- The files. -/
  directory : Directory
  /-- The standard input. -/
  stdin : String
  /-- Whether the standard input is a terminal. -/
  terminal : Bool

/-- What a command does, with a bound on the run. -/
def respondWithin (fuel : Nat) (s : Surroundings) (args : List String) : Report :=
  match Request.ofArguments args with
  | .help => ⟨helpText, "", .code 0⟩
  | .misuse message => ⟨"", misuseText message, .code 2⟩
  | .run settings =>
    match settings.origin with
    | .missing => missingReport
    | .stdin => executeStdin fuel settings s.stdin s.terminal
    | .literal text => executeLiteral fuel settings text
    | .file path => executeFile fuel settings path (s.directory.read path)

/-- What a command does. -/
def respond (s : Surroundings) (args : List String) : Report :=
  respondWithin ampleFuel s args

end VectorLang.Command
