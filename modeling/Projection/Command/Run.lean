import Projection.Command
import Projection.Data.Toml
import Projection.Manifest.Find
import Projection.Output

/-!
What commands do. A command says its lines in order, and when it fails it has said all that came
before.
-/

namespace Projection

/-- Something that may fail and says lines as it goes. -/
abbrev Run (m : Type → Type) (α : Type) := ExceptT Failure (StateT (List String) m) α

/-- What a call leaves behind besides files. -/
structure Transcript where
  exitCode : Nat
  out : List String
  err : List String
  deriving DecidableEq, Repr

namespace Run

variable {m : Type → Type} [Monad m]

def say (line : String) : Run m Unit := modify (· ++ [line])

def transcript (r : Run m Unit) : m Transcript := do
  match ← StateT.run (ExceptT.run r) [] with
  | (.ok _, lines) => return ⟨0, lines, []⟩
  | (.error e, lines) => return ⟨e.exitCode, lines, ["Error: " ++ e.message]⟩

end Run

namespace Configuration

def parse? (text : String) : Option Configuration := (Data.Toml.parse text).bind ofData?

def load {m : Type → Type} [Monad m] [Files m] (path : Option String) :
    ExceptT Failure m Configuration := do
  let file := path.getD fileName
  match ← Files.kind? file with
  | none =>
      if path.isSome then throw (.configurationMissing file)
      return {}
  | some _ =>
      match ← Files.read file with
      | .error e => throw (.configurationUnreadable file e)
      | .ok text =>
          match parse? text with
          | none => throw (.badConfiguration file)
          | some c => return c

end Configuration

namespace Run

variable {m : Type → Type} [Monad m] [Files m]

def reportLines (r : Report) : List String :=
  ["  Compiled " ++ toString r.compiled ++ " site(s), " ++ toString r.artifacts ++
      " artifact(s)"] ++
    (if r.skipped.isEmpty then []
      else ["  Skipped " ++ toString r.skipped.length ++ " unsupported site(s)"]) ++
    (if r.degenerate.isEmpty then []
      else
        ["  Skipped " ++ toString r.degenerate.length ++
          " site(s) with no resolvable members"]) ++
    (if r.diagnostics = 0 then []
      else ["Warning: " ++ toString r.diagnostics ++ " group(s) failed to generate"])

def refusalLines (refusals : List String) : List String :=
  if refusals.isEmpty then []
  else
    ("Warning: " ++ toString refusals.length ++ " call site(s) could not be parsed:") ::
      refusals.map ("  " ++ ·)

def outputOf (settings : Settings) (manifest : Manifest) : List Artifact × Report :=
  Pass.run manifest.model settings Emission.emitter manifest.callSites

def compile (path : String) (filter : Option String) (settings : Settings) :
    Run m (List Artifact) := do
  let found ← Manifest.find path filter
  say ("  Found " ++ toString found.length ++ " manifest(s)")
  let manifest ← Manifest.loadAll found
  say ("Compiling " ++ toString manifest.sites.length ++ " call site(s) over " ++
    toString manifest.types.length ++ " type(s)...")
  let (artifacts, report) := outputOf settings manifest
  for line in refusalLines manifest.refusals ++ reportLines report do
    say line
  return artifacts

def rule : String := .ofList (List.replicate 60 '─')

def placedLines (path : String) (a : Artifact) : Output.Placed → List String
  | .written =>
      [(if a.isDiagnostic then "!" else "✓") ++ " Written " ++ toString a.content.utf8ByteSize ++
        " bytes to " ++ path]
  | .unchanged => ["= Unchanged " ++ path]
  | .planned => ["[dry-run] Would write to " ++ path ++ ":", rule, a.content, rule]

def generate (manifest : String) (config filter : Option String) (o : Configuration.Overrides)
    (dryRun : Bool) : Run m Unit := do
  let config := (← Configuration.load config).override o
  let artifacts ← compile manifest filter config.settings
  for a in Output.chosen config.writeDiagnostics artifacts do
    let placed ← Output.place config.dir dryRun a
    for line in placedLines (pathIn config.dir a.hintName) a placed do
      say line
  if artifacts.isEmpty then
    say "No projections to generate."

def init (path : String) (force : Bool) : Run m Unit := do
  if (← Files.kind? path).isSome && !force then
    say ("Error: Configuration file already exists: " ++ path)
    say "  Use --force to overwrite"
    throw .configurationExists
  match ← Files.write path Configuration.initialText with
  | .ok _ => say ("✓ Created configuration file: " ++ path)
  | .error e => throw (.configurationNotWritten e)

def validate (manifest dir : String) (config : Option String) : Run m Unit := do
  say "Validating generated files..."
  if (← Files.kind? dir) ≠ some .directory then
    throw (.outputMissing dir)
  let config ← Configuration.load config
  let artifacts ← compile manifest none config.settings
  match ← Output.stale dir artifacts with
  | [] => say "✓ Generated files are up-to-date"
  | files =>
      for path in files do
        say ("✗ " ++ path)
      say "  Run 'shapegen generate' to update"
      throw (.outOfDate files.length)

def helpLines : List String :=
  ["Compile projection shapes into DTO types and closure-free projections",
    "",
    "Usage: shapegen <COMMAND>",
    "",
    "Commands:",
    "  generate  Run a compilation pass and write one file per output group",
    "  init      Initialize a new shapegen configuration file",
    "  validate  Validate that generated files are up-to-date"]

def command : Command → Run m Unit
  | .help => for line in helpLines do say line
  | .version => say "shapegen 0.1.0"
  | .generate manifest config filter o dryRun => generate manifest config filter o dryRun
  | .init path force => init path force
  | .validate manifest dir config => validate manifest dir config

end Run

end Projection
