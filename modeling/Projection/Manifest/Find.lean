import Projection.Data.Json
import Projection.Failure
import Projection.Glob
import Projection.Manifest

/-!
Finding and reading manifests. A path names one manifest, or a directory whose manifests are all
read.
-/

namespace Projection.Manifest

variable {m : Type → Type} [Monad m] [Files m]

def suffix : String := ".shapes.json"

def filter? : Option String → Except Failure (Option Glob)
  | none => .ok none
  | some pattern =>
      match Glob.parse? pattern with
      | some g => .ok (some g)
      | none => .error (.badFilter pattern)

/-- Whether a file in a directory is one of its manifests. -/
def isWanted (filter : Option Glob) (names : List String) : Bool :=
  Text.endsWith suffix (names.getLastD "") && filter.all (·.isMatch (Text.join "/" names))

/-- The manifests among the files of a directory, in the order of their names from the top on. -/
def wanted (filter : Option Glob) (files : List (List String)) : List (List String) :=
  (files.filter (isWanted filter)).mergeSort fun a b => !decide (b < a)

/-- A single dash stands for the standard input. -/
def isInput (path : String) : Bool := pathSteps path = ["-"] && !Text.startsWith "/" path

/-- The files that are looked at for manifests in a directory. The standard input has none, even if
there is a directory of that name. -/
def candidates (path : String) : m (List (List String)) :=
  if isInput path then pure [] else Files.filesBelow path

/-- The manifests that a path leads to. The filter only chooses among those of a directory. -/
def find (path : String) (filter : Option String) : ExceptT Failure m (List String) := do
  let filter ← filter? filter
  match ← Files.kind? path with
  | none => throw (.manifestPathMissing path)
  | some .file => return [path]
  | some .directory =>
      match wanted filter (← candidates path) with
      | [] => throw (.noManifests path)
      | found => return found.map fun names => pathIn path (Text.join "/" names)

def parse? (text : String) : Option Manifest := (Data.Json.parse text).bind ofData?

def load (path : String) : ExceptT Failure m Manifest := do
  match ← Files.read path with
  | .error e => throw (.manifestUnreadable path e)
  | .ok text =>
      match parse? text with
      | none => throw (.badManifest path)
      | some manifest => return manifest

def loadAll (paths : List String) : ExceptT Failure m Manifest :=
  paths.foldlM (fun all path => return all.append (← load path)) .empty

end Projection.Manifest
