import VectorLang.Text.Quoted

/-!
# Reading files

A directory is a set of files with their bytes and of directories, each known by the names
on the way to it.  Reading a path gives the bytes of a file, or the reason why there are
none.
-/

namespace VectorLang.Command

/-- Why a file cannot be read. -/
inductive ReadFailure where
  /-- There is nothing of that name. -/
  | notFound
  /-- A name before the last one is no directory. -/
  | notDirectory
  /-- The path leads to a directory. -/
  | isDirectory
  /-- The path or one of its names is too long. -/
  | nameTooLong
  /-- The path holds a null character. -/
  | nullCharacter
  /-- The operating system gives another reason. -/
  | other (code : Nat) (reason : String)
deriving DecidableEq, Inhabited

namespace ReadFailure

/-- The number and the text of a reason that the operating system gives. -/
def reason : ReadFailure → Nat × String
  | notFound => (2, "No such file or directory")
  | notDirectory => (20, "Not a directory")
  | isDirectory => (21, "Is a directory")
  | nameTooLong => (36, "File name too long")
  | nullCharacter => (22, "Invalid argument")
  | other code reason => (code, reason)

/-- The report of a path that cannot be read. -/
def message (path : String) (f : ReadFailure) : String :=
  let (code, text) := f.reason
  "Failed to read " ++ path ++ ": [Errno " ++ code.repr ++ "] " ++ text ++ ": " ++
    Text.quoted path

end ReadFailure

/-- The most bytes that a name may have. -/
def maxNameBytes : Nat := 255

/-- The most bytes that a path may have. -/
def maxPathBytes : Nat := 4095

/-- The files of a directory and of those below it. -/
structure Directory where
  /-- The bytes of the files; a directory has none. -/
  entries : List (List String × Option ByteArray)

namespace Directory

/-- What a place holds. -/
inductive Target where
  /-- A file. -/
  | file (bytes : ByteArray)
  /-- A directory. -/
  | directory
  /-- Nothing. -/
  | nothing

/-- What the names on the way to a place lead to. -/
def target (d : Directory) (names : List String) : Target :=
  match names, d.entries.lookup names with
  | [], _ => .directory
  | _, some (some bytes) => .file bytes
  | _, some none => .directory
  | _, none =>
    if d.entries.any fun (path, _) => names.isPrefixOf path then .directory else .nothing

/-- The place around a place.  A place is known by the names on the way to it, or lies
    outside the directory (`none`). -/
def parent : Option (List String) → Option (List String)
  | none | some [] => none
  | some names => some names.dropLast

/-- Follows the names of a path from a place.  Of what lies outside nothing is known but
    the directories on the way there. -/
def follow (d : Directory) (place : Option (List String)) :
    List String → Except ReadFailure ByteArray
  | [] =>
    match place.elim .directory d.target with
    | .file bytes => .ok bytes
    | .directory => .error .isDirectory
    | .nothing => .error .notFound
  | name :: names =>
    match place.elim .directory d.target with
    | .file _ => .error .notDirectory
    | .nothing => .error .notFound
    | .directory =>
      if name = "" || name = "." then d.follow place names
      else if name = ".." then d.follow (parent place) names
      else if maxNameBytes < name.utf8ByteSize then .error .nameTooLong
      else
        match place with
        | none => .error .notFound
        | some path => d.follow (some (path ++ [name])) names

/-- The bytes of the file at a path.  A path that starts with a slash starts outside. -/
def read (d : Directory) (path : String) : Except ReadFailure ByteArray :=
  if path.toList.contains '\x00' then .error .nullCharacter
  else if path.isEmpty then .error .notFound
  else if maxPathBytes < path.utf8ByteSize then .error .nameTooLong
  else
    let start := if path.toList.head? = some '/' then none else some []
    d.follow start (path.splitOn "/")

end Directory

end VectorLang.Command
