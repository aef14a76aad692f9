import Projection.Failure
import Projection.Pass
import Projection.Text.Trim

/-!
Artifacts as files of a directory. A file that already holds its artifact is left alone; blanks at
either end make no difference.
-/

namespace Projection.Output

variable {m : Type → Type} [Monad m] [Files m]

/-- Whether a file holds the text. A file that cannot be read does not. -/
def isCurrent (path content : String) : m Bool := do
  match ← Files.read path with
  | .ok existing => return Text.trim existing = Text.trim content
  | .error _ => return false

inductive Placed where
  | written | unchanged
  /-- Nothing was done. -/
  | planned
  deriving DecidableEq, Repr

def ensureDirectory (dir : String) : ExceptT Failure m Unit := do
  if (← Files.kind? dir) = some .directory then return
  match ← Files.makeDirectories dir with
  | .ok _ => return
  | .error e => throw (.directoryNotMade dir e)

def place (dir : String) (dryRun : Bool) (a : Artifact) : ExceptT Failure m Placed := do
  let path := pathIn dir a.hintName
  if dryRun then return .planned
  else if ← isCurrent path a.content then return .unchanged
  else
    ensureDirectory dir
    match ← Files.write path a.content with
    | .ok _ => return .written
    | .error e => throw (.fileNotWritten path e)

def chosen (writeDiagnostics : Bool) (artifacts : List Artifact) : List Artifact :=
  artifacts.filter fun a => writeDiagnostics || !a.isDiagnostic

def stale (dir : String) (artifacts : List Artifact) : m (List String) :=
  (artifacts.map fun a => (pathIn dir a.hintName, a.content)).filterMapM fun (path, content) => do
    return if ← isCurrent path content then none else some path

end Projection.Output
