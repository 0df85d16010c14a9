import Linearizer.Text.Lines

/-!
# Files

A file argument is a path: names with slashes between them, which lead through a tree of
directories.

* `ReadError` is why a path gives no text;
* `Entry` is what a name stands for in a directory, and `Location` a directory with those above it;
* `Files.read` follows a path. Its names are taken in order and the first that fails decides.
-/

namespace Linearizer
namespace Dump

/-- Why a text cannot be read. -/
inductive ReadError where
  /-- There is no such file. -/
  | missing
  /-- The file may not be read. -/
  | denied
  /-- The path goes on after a file. -/
  | notDirectory
  /-- The path leads to a directory. -/
  | directory
  /-- The path, or a name in it, is longer than any can be. -/
  | tooLong
  /-- What was read is no text. -/
  | notText
  /-- Another reason, in the words of the system. -/
  | other (reason : String)
deriving DecidableEq

/-- The text of a reason. -/
def ReadError.message : ReadError → String
  | .missing => "No such file or directory (os error 2)"
  | .denied => "Permission denied (os error 13)"
  | .notDirectory => "Not a directory (os error 20)"
  | .directory => "Is a directory (os error 21)"
  | .tooLong => "File name too long (os error 36)"
  | .notText => "stream did not contain valid UTF-8"
  | .other reason => reason

/-- The most bytes that a name can have. -/
def maxNameSize : Nat := 255

/-- The most bytes that a path can have. -/
def maxPathSize : Nat := 4095

/-- What a name stands for in a directory. -/
inductive Entry where
  | file (text : String)
  | directory (entries : List (String × Entry))

/-- A directory and the directories above it, the nearest first. -/
structure Location where
  entries : List (String × Entry)
  above : List (List (String × Entry)) := []

namespace Location

/-- The directory above; the root is above itself. -/
def parent (p : Location) : Location :=
  match p.above with
  | [] => p
  | up :: rest => ⟨up, rest⟩

/-- A directory below. -/
def enter (p : Location) (entries : List (String × Entry)) : Location :=
  ⟨entries, p.entries :: p.above⟩

/-- What a name stands for. -/
def find (p : Location) (name : String) : Except ReadError Entry :=
  if maxNameSize < name.utf8ByteSize then .error .tooLong
  else
    match p.entries.lookup name with
    | some entry => .ok entry
    | none => .error .missing

/-- The text that names lead to. An empty name stands for the directory itself, like a point, so
after the name of a file no name can follow, not even an empty one. -/
def read (p : Location) : List String → Except ReadError String
  | [] => .error .directory
  | name :: rest =>
    if name = "" ∨ name = "." then read p rest
    else if name = ".." then read p.parent rest
    else
      match p.find name with
      | .error e => .error e
      | .ok (.directory entries) => read (p.enter entries) rest
      | .ok (.file text) => if rest.isEmpty then .ok text else .error .notDirectory

end Location

/-- A tree of directories with the place where the command runs. -/
structure Files where
  /-- The entries of the root. -/
  root : List (String × Entry) := []
  /-- The place that paths start from unless they start with a slash. -/
  here : Location := { entries := root }

/-- The text that a path leads to. -/
def Files.read (files : Files) (path : String) : Except ReadError String :=
  if maxPathSize < path.utf8ByteSize then .error .tooLong
  else
    match path.toList with
    | [] => .error .missing
    | c :: cs =>
      let start := if c = '/' then { entries := files.root } else files.here
      start.read ((Text.splitAt '/' (c :: cs)).map String.ofList)

end Dump
end Linearizer
