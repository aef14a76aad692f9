import Projection.Command.Run

/-!
The command line, on the files of the system.
-/

namespace Projection.Main

def fileError : IO.Error → FileError
  | .noFileOrDirectory _ number words | .alreadyExists _ number words
  | .inappropriateType _ number words | .permissionDenied _ number words
  | .resourceBusy number words | .invalidArgument _ number words
  | .resourceExhausted _ number words | .otherError number words =>
      .system words number.toNat
  | .userError _ => .notText
  | e => .system (toString e) 0

/-- Does something with a path, unless the path itself is wrong. -/
def attempt {α : Type} (path : String) (action : IO α) : IO (Except FileError α) := do
  if let some e := FileError.ofPath? path then return .error e
  try return .ok (← action)
  catch e => return .error (fileError e)

def kindOf (path : String) : IO (Option FileKind) := do
  if (FileError.ofPath? path).isSome then return none
  let path := System.mkFilePath [path]
  if ← path.isDir then return some .directory
  else if ← path.pathExists then return some .file
  else return none

/-- The files inside a directory, in front of which `names` stand. -/
partial def filesFrom (path : String) (names : List String) : IO (List (List String)) := do
  let entries ← (System.mkFilePath [path]).readDir
  let found ← entries.toList.mapM fun e => do
    let inside := pathIn path e.fileName
    let names := names ++ [e.fileName]
    match ← kindOf inside with
    | some .directory => filesFrom inside names
    | some .file => return [names]
    | none => return []
  return found.flatten

instance : Files IO where
  kind? := kindOf
  read path := attempt path (IO.FS.readFile path)
  write path content := attempt path (IO.FS.writeFile path content)
  makeDirectories path :=
    if path.isEmpty then return .ok () else attempt path (IO.FS.createDirAll path)
  filesBelow path := filesFrom path []

end Projection.Main

open Projection in
def main (args : List String) : IO UInt32 := do
  match Command.ofArguments? args with
  | none =>
      IO.eprintln "Usage: shapegen <COMMAND>\n\nFor more information, try '--help'."
      return 2
  | some command =>
      let t ← (Run.command command).transcript
      for line in t.out do
        IO.println line
      for line in t.err do
        IO.eprintln line
      return t.exitCode.toUInt32
