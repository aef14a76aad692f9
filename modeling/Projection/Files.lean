import Projection.Text.Affix
import Projection.Text.Split

/-!
What commands need from a file system. Paths are texts, names in them are separated by slashes,
and failures are reported with the number and the words of the system.
-/

namespace Projection

inductive FileKind where
  | file | directory
  deriving DecidableEq, Repr

inductive FileError where
  | system (words : String) (number : Nat)
  /-- The contents are no text. -/
  | notText
  /-- The path holds a character that ends paths for the system. -/
  | nulInPath
  deriving DecidableEq, Repr

namespace FileError

def missing : FileError := .system "No such file or directory" 2

def alreadyExists : FileError := .system "File exists" 17

def notDirectory : FileError := .system "Not a directory" 20

def isDirectory : FileError := .system "Is a directory" 21

def nameTooLong : FileError := .system "File name too long" 36

def message : FileError → String
  | system words number => words ++ " (os error " ++ toString number ++ ")"
  | notText => "stream did not contain valid UTF-8"
  | nulInPath => "file name contained an unexpected NUL byte"

end FileError

/-- Bytes that a path and each of its names may have. -/
def maxPathSize : Nat := 4095

def maxNameSize : Nat := 255

/-- What is wrong with a path before the system looks at any of its names. -/
def FileError.ofPath? (path : String) : Option FileError :=
  if path.toList.contains '\x00' then some .nulInPath
  else if maxPathSize < path.utf8ByteSize then some .nameTooLong
  else if path.isEmpty then some .missing
  else none

class Files (m : Type → Type) where
  kind? : String → m (Option FileKind)
  read : String → m (Except FileError String)
  /-- Replaces the contents of a file or makes it. -/
  write : String → String → m (Except FileError Unit)
  /-- Makes a directory and those on the way to it. -/
  makeDirectories : String → m (Except FileError Unit)
  /-- The files inside a directory at any depth, as names from the directory on. -/
  filesBelow : String → m (List (List String))

namespace Files

variable {m : Type → Type} [Monad m] [Files m]

instance {σ : Type} : Files (StateT σ m) where
  kind? path := StateT.lift (kind? path)
  read path := StateT.lift (read path)
  write path content := StateT.lift (write path content)
  makeDirectories path := StateT.lift (makeDirectories path)
  filesBelow path := StateT.lift (filesBelow path)

instance {ε : Type} : Files (ExceptT ε m) where
  kind? path := ExceptT.lift (kind? path)
  read path := ExceptT.lift (read path)
  write path content := ExceptT.lift (write path content)
  makeDirectories path := ExceptT.lift (makeDirectories path)
  filesBelow path := ExceptT.lift (filesBelow path)

end Files

/-- The steps of a path that count: a single dot counts only at the front. -/
def pathSteps (path : String) : List String :=
  match Text.splitAt '/' path with
  | [] => []
  | first :: rest =>
      (if first.isEmpty then [] else [first]) ++ rest.filter fun n => n ≠ "" ∧ n ≠ "."

def pathIn (dir name : String) : String :=
  if Text.startsWith "/" name || dir.isEmpty then name
  else if Text.endsWith "/" dir then dir ++ name
  else dir ++ "/" ++ name

end Projection
