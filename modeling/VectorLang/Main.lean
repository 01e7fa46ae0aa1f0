import VectorLang.Command.Report

/-!
# The command

Reads what `VectorLang.Command` needs to know, and writes its report.
-/

namespace VectorLang.Command

/-- Reads a stream to its end. -/
partial def readAll (stream : IO.FS.Stream) (bytes : ByteArray) : IO ByteArray := do
  let chunk ← stream.read 65536
  if chunk.isEmpty then return bytes
  readAll stream (bytes ++ chunk)

/-- The reason of the operating system that a number stands for.  The number may be given
    with a minus sign, in 32 bits. -/
def ReadFailure.ofCode (code : UInt32) (reason : String) : ReadFailure :=
  match if code.toNat < 0x80000000 then code.toNat else 0x100000000 - code.toNat with
  | 2 => .notFound
  | 20 => .notDirectory
  | 21 => .isDirectory
  | 36 => .nameTooLong
  | n => .other n reason

/-- Why the operating system did not give the bytes of a file. -/
def ReadFailure.ofError : IO.Error → ReadFailure
  | .noFileOrDirectory _ code _ => .ofCode code ""
  | .inappropriateType _ code _ => .ofCode code "Is a directory"
  | .permissionDenied _ code _ => .ofCode code "Permission denied"
  | .invalidArgument _ code reason => .ofCode code reason
  | e => .other 5 (toString e)

/-- Reads a file. -/
def readFile (path : String) : IO (Except ReadFailure ByteArray) := do
  if path.toList.contains '\x00' then return .error .nullCharacter
  try
    return .ok (← IO.FS.readBinFile path)
  catch e =>
    return .error (.ofError e)

/-- Runs the program from the standard input. -/
def respondStdin (settings : Settings) : IO Report := do
  let stdin ← IO.getStdin
  let terminal ← stdin.isTty
  if terminal then IO.eprint prompt
  let bytes ← readAll stdin .empty
  match String.fromUTF8? bytes with
  | none => return .crash .notUtf8
  | some text => return executeStdin ampleFuel settings text false

/-- Does what a command line asks for. -/
def perform (args : List String) : IO Report :=
  match Request.ofArguments args with
  | .help => return ⟨helpText, "", .code 0⟩
  | .misuse message => return ⟨"", misuseText message, .code 2⟩
  | .run settings =>
    match settings.origin with
    | .missing => return missingReport
    | .stdin => respondStdin settings
    | .literal text => return executeLiteral ampleFuel settings text
    | .file path => return executeFile ampleFuel settings path (← readFile path)

end VectorLang.Command

/-- Does what the command line asks for, and ends with its exit code. -/
def main (args : List String) : IO UInt32 := do
  let report ← VectorLang.Command.perform args
  IO.print report.stdout
  IO.eprint report.stderr
  match report.ending with
  | .code n => return n.toUInt32
  | .crash c =>
    IO.eprintln c.message
    return 1
