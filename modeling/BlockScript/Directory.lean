/-!
# A directory of files

What reading a path gives in a directory that holds the given files and nothing else.
-/

namespace BlockScript

/-- Why a path cannot be read as text. -/
inductive ReadFault where
  | notFound
  | isDirectory
  | notDirectory
  | nameTooLong
  | notText
  /-- any other reason, in the words of the system -/
  | other (reason : String)
deriving DecidableEq, Repr

/-- The reason as it is shown. -/
def ReadFault.message : ReadFault → String
  | .notFound => "No such file or directory (os error 2)"
  | .isDirectory => "Is a directory (os error 21)"
  | .notDirectory => "Not a directory (os error 20)"
  | .nameTooLong => "File name too long (os error 36)"
  | .notText => "stream did not contain valid UTF-8"
  | .other reason => reason

/-- The text in UTF-8 bytes. -/
def textOfBytes (bytes : ByteArray) : Except ReadFault String :=
  match String.fromUTF8? bytes with
  | some text => .ok text
  | none => .error .notText

/-- The files of a directory, each under its path from there. -/
structure Directory where
  files : List (List String × ByteArray)

namespace Directory

/-- The steps of a path. A slash at the end asks for one more step, which stays where it is. -/
def steps (path : String) : List String := (path.splitOn "/").map fun s => if s = "." then "" else s

/-- The directory that holds files given by their paths. -/
def ofFiles (files : List (String × ByteArray)) : Directory :=
  ⟨files.map fun (path, bytes) => ((steps path).filter (· ≠ ""), bytes)⟩

/-- What stands at a place. -/
inductive Entry where
  | file (bytes : ByteArray)
  | directory
  | missing

/-- What stands at a place below the directory. -/
def entry (d : Directory) (place : List String) : Entry :=
  match d.files.find? (·.1 = place) with
  | some (_, bytes) => .file bytes
  | none => if place.isEmpty || d.files.any (place.isPrefixOf ·.1) then .directory else .missing

/-- The largest number of bytes in one step of a path. -/
def maxStep : Nat := 255

/-- The largest number of bytes in a path. -/
def maxPath : Nat := 4095

/-- Follows steps from a directory inside (`some`) or outside of the files (`none`). -/
def walk (d : Directory) : Option (List String) → List String → Except ReadFault ByteArray
  | _, [] => .error .isDirectory
  | here, "" :: steps => d.walk here steps
  | none, ".." :: steps => d.walk none steps
  | some place, ".." :: steps =>
    d.walk (if place.isEmpty then none else some place.dropLast) steps
  | none, step :: _ => .error (if maxStep < step.utf8ByteSize then .nameTooLong else .notFound)
  | some place, step :: steps =>
    if maxStep < step.utf8ByteSize then .error .nameTooLong
    else
      match d.entry (place ++ [step]) with
      | .file bytes => if steps.isEmpty then .ok bytes else .error .notDirectory
      | .directory => d.walk (some (place ++ [step])) steps
      | .missing => .error .notFound

/-- The text of the file at a path. -/
def readText (d : Directory) (path : String) : Except ReadFault String := do
  if maxPath < path.utf8ByteSize then throw .nameTooLong
  let start := if path.startsWith "/" then none else some []
  textOfBytes (← d.walk start (steps path))

end Directory

end BlockScript
