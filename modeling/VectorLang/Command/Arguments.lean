import VectorLang.Text.Digit
import VectorLang.Text.Quoted

/-!
# Command-line arguments

A command line names at most one program and any number of switches.  A switch may be
shortened to what tells it from the others.  After `--` nothing is a switch.

Words that look like a switch and are none, and programs after the first, are collected
and reported together at the end; a help switch before that wins.
-/

namespace VectorLang.Command

/-- What a switch asks for. -/
inductive Switch where
  | help
  | source
  | debug
  | verbose
  | tracebackJson
deriving DecidableEq, Inhabited

/-- The spellings of all switches. -/
def switches : List (String × Switch) :=
  [("-h", .help), ("--help", .help), ("-source", .source), ("--source", .source),
    ("--debug", .debug), ("-verbose", .verbose), ("--verbose", .verbose),
    ("--traceback-json", .tracebackJson)]

/-- All spellings of a switch. -/
def Switch.title (s : Switch) : String :=
  String.intercalate "/" ((switches.filter (·.2 = s)).map Prod.fst)

/-- How a word of the command line is taken. -/
inductive Word where
  /-- The name of a program, or its text. -/
  | plain
  /-- A switch. -/
  | switch (s : Switch)
  /-- A switch after two dashes, with a value after an equals sign. -/
  | valued (s : Switch) (value : List Char)
  /-- A switch after one dash, with letters after it or after an equals sign. -/
  | clustered (s : Switch) (letters : List Char)
  /-- A word that looks like a switch and is none. -/
  | unknown

/-- Whether a word is a negative number: a minus sign, then digits, or digits, a point and
    digits.  A newline may follow. -/
def isNegativeNumber (cs : List Char) : Bool :=
  match cs with
  | '-' :: cs =>
    let cs := if cs.getLast? = some '\n' then cs.dropLast else cs
    match cs.dropWhile Text.isDecimalDigit with
    | [] => !cs.isEmpty
    | '.' :: fraction => !fraction.isEmpty && fraction.all Text.isDecimalDigit
    | _ => false
  | _ => false

/-- The parts of a word before and after its first equals sign. -/
def splitValue (cs : List Char) : List Char × Option (List Char) :=
  match cs.dropWhile (· != '=') with
  | [] => (cs, none)
  | _ :: value => (cs.takeWhile (· != '='), some value)

/-- The switch of spelling `name`, which may have a value. -/
def Word.ofValue (name : String) (s : Switch) (value : Option (List Char)) : Word :=
  match value with
  | none => .switch s
  | some value => if "--".isPrefixOf name then .valued s value else .clustered s value

/-- The switches that a word may stand for, with their full spellings.  After two dashes a
    word is a start of the spelling, up to an equals sign; after one dash it is a start of
    the spelling, or a letter that is a switch with more letters after it. -/
def candidates (cs : List Char) : List (String × Word) :=
  match cs with
  | '-' :: '-' :: _ =>
    let (start, value) := splitValue cs
    (switches.filter fun (name, _) => start.isPrefixOf name.toList).map fun (name, s) =>
      (name, .ofValue name s value)
  | _ =>
    switches.filterMap fun (name, s) =>
      if name.toList = cs.take 2 then some (name, .clustered s (cs.drop 2))
      else if cs.isPrefixOf name.toList then some (name, .switch s)
      else none

/-- How a word is taken, or why it cannot be. -/
def classify (word : String) : Except String Word :=
  match word.toList with
  | '-' :: c :: cs =>
    let all := '-' :: c :: cs
    let (start, value) := splitValue all
    let name := String.ofList start
    match switches.lookup word, value, switches.lookup name with
    | some s, _, _ => .ok (.switch s)
    | none, some value, some s => .ok (.ofValue name s (some value))
    | none, _, _ =>
      match candidates all with
      | [(_, w)] => .ok w
      | [] => .ok (if isNegativeNumber all || all.contains ' ' then .plain else .unknown)
      | several =>
        .error ("ambiguous option: " ++ word ++ " could match " ++
          String.intercalate ", " (several.map Prod.fst))
  | _ => .ok .plain

/-! ## Settings -/

/-- What a command line asks for. -/
structure Settings where
  /-- The program: the name of its file, or its text. -/
  program : Option String
  /-- The program is given as a text. -/
  source : Bool
  /-- The tokens, the tree and the scopes are written before the run. -/
  debug : Bool
  /-- Tracebacks show variables. -/
  verbose : Bool
  /-- Tracebacks are written as JSON too. -/
  tracebackJson : Bool
deriving DecidableEq, Inhabited

/-- The settings with a switch turned on.  The help is no setting. -/
def Settings.turnOn (s : Switch) (settings : Settings) : Settings :=
  match s with
  | .help => settings
  | .source => { settings with source := true }
  | .debug => { settings with debug := true }
  | .verbose => { settings with verbose := true }
  | .tracebackJson => { settings with tracebackJson := true }

/-- What to do for a command line. -/
inductive Request where
  /-- Show the help. -/
  | help
  /-- Report that the command line is wrong. -/
  | misuse (message : String)
  /-- Run a program. -/
  | run (settings : Settings)
deriving DecidableEq, Inhabited

/-- Why reading the words of a command line stops early. -/
inductive Halt where
  /-- The help is asked for. -/
  | help
  /-- A word cannot be taken. -/
  | misuse (message : String)

/-- The words of a command line read so far. -/
structure Progress where
  /-- What they ask for. -/
  settings : Settings
  /-- The words that have no use. -/
  extras : List String
  /-- Whether the last word is the program. -/
  endsInProgram : Bool

namespace Progress

/-- No words. -/
def start : Progress := ⟨⟨none, false, false, false, false⟩, [], false⟩

/-- Adds a word that has no use. -/
def addExtra (word : String) (p : Progress) : Progress :=
  { p with extras := p.extras ++ [word], endsInProgram := false }

/-- Adds a program.  Only the first one is of use. -/
def addPlain (word : String) (p : Progress) : Progress :=
  if p.settings.program.isNone then
    ⟨{ p.settings with program := some word }, p.extras, true⟩
  else p.addExtra word

/-- Turns a switch on.  The help is shown at once. -/
def addSwitch (s : Switch) (p : Progress) : Except Halt Progress :=
  if s = .help then .error .help else .ok ⟨p.settings.turnOn s, p.extras, false⟩

end Progress

/-- The report of a value after a switch; no switch takes one. -/
def ignoredValue {α : Type} (s : Switch) (value : List Char) : Except Halt α :=
  .error (.misuse ("argument " ++ s.title ++ ": ignored explicit argument " ++
    Text.quoted (String.ofList value)))

/-- The switches that a switch after one dash and the letters after it stand for.  Each
    letter must be a switch of its own. -/
def clusterSwitches (s : Switch) : List Char → Except Halt (List Switch)
  | [] => .ok [s]
  | c :: letters =>
    match switches.lookup (String.ofList ['-', c]) with
    | none => ignoredValue s (c :: letters)
    | some next => (clusterSwitches next letters).map (s :: ·)

/-- Reads one word.  All switches of a word are looked up before the first is turned on. -/
def Progress.addWord (p : Progress) (word : String × Word) : Except Halt Progress :=
  match word.2 with
  | .plain => .ok (p.addPlain word.1)
  | .unknown => .ok (p.addExtra word.1)
  | .switch s => p.addSwitch s
  | .valued s value => ignoredValue s value
  | .clustered s [] => ignoredValue s []
  | .clustered s letters => do
    (← clusterSwitches s letters).foldlM (fun p s => p.addSwitch s) p

/-- Reads the words after `--`.  The dashes themselves have a use only beside the program. -/
def Progress.addRest (p : Progress) : List String → Progress
  | [] => if p.settings.program.isNone || p.endsInProgram then p else p.addExtra "--"
  | word :: words =>
    let p :=
      if p.settings.program.isNone then p.addPlain word
      else if p.endsInProgram then p.addExtra word
      else (p.addExtra "--").addExtra word
    words.foldl (fun p word => p.addExtra word) p

/-- Reads the words from the first `--` on, if there is one. -/
def Progress.addAfter (p : Progress) : List String → Progress
  | [] => p
  | _ :: words => p.addRest words

/-- What all words together ask for. -/
def Progress.request (p : Progress) : Request :=
  if p.extras.isEmpty then .run p.settings
  else .misuse ("unrecognized arguments: " ++ String.intercalate " " p.extras)

/-- What is done when reading the words stops early. -/
def Halt.request : Halt → Request
  | help => .help
  | misuse message => .misuse message

/-- The request of words that are classified, and of those after them. -/
def Request.ofWords (words : List (String × Word)) (after : List String) : Request :=
  match words.foldlM Progress.addWord .start with
  | .error halt => halt.request
  | .ok p => (p.addAfter after).request

/-- The request that a command line makes.  All words are classified before the first one
    is read. -/
def Request.ofArguments (args : List String) : Request :=
  let before := args.takeWhile (· != "--")
  let after := args.dropWhile (· != "--")
  match before.mapM fun word => (classify word).map fun w => (word, w) with
  | .error message => .misuse message
  | .ok words => .ofWords words after

/-! ## Texts -/

/-- How the command is used. -/
def usage : String :=
  "usage: vecl [-h] [-source] [--debug] [-verbose] [--traceback-json] [program]\n"

/-- The help. -/
def helpText : String :=
  usage ++
    "\nvecl reference interpreter\n" ++
    "\npositional arguments:\n" ++
    "  program              Source file path or literal source with -source\n" ++
    "\noptions:\n" ++
    "  -h, --help           show this help message and exit\n" ++
    "  -source, --source    Treat program argument as literal source text\n" ++
    "  --debug              Dump tokens, AST and scopes as JSON before running\n" ++
    "  -verbose, --verbose  Emit env snapshots in tracebacks\n" ++
    "  --traceback-json     Also emit JSON traceback\n"

/-- The report of a wrong command line. -/
def misuseText (message : String) : String :=
  usage ++ "vecl: error: " ++ message ++ "\n"

end VectorLang.Command
