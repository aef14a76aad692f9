import Projection.Files

/-!
Why a command fails.
-/

namespace Projection

inductive Failure where
  | manifestPathMissing (path : String)
  | noManifests (path : String)
  | badFilter (pattern : String)
  | manifestUnreadable (path : String) (e : FileError)
  | badManifest (path : String)
  | configurationMissing (path : String)
  | configurationUnreadable (path : String) (e : FileError)
  | badConfiguration (path : String)
  | directoryNotMade (path : String) (e : FileError)
  | fileNotWritten (path : String) (e : FileError)
  | configurationExists
  | configurationNotWritten (e : FileError)
  | outputMissing (path : String)
  | outOfDate (files : Nat)
  deriving DecidableEq, Repr

namespace Failure

def message : Failure → String
  | manifestPathMissing path => "Failed to scan for manifests: Manifest path not found: " ++ path
  | noManifests path => "Failed to scan for manifests: No manifest files found in: " ++ path
  | badFilter pattern => "Failed to scan for manifests: Invalid filter pattern '" ++ pattern ++ "'"
  | manifestUnreadable path e =>
      "Failed to load manifest: Failed to read " ++ path ++ ": " ++ e.message
  | badManifest path => "Failed to load manifest: Invalid manifest " ++ path
  | configurationMissing path =>
      "Failed to load configuration: Configuration file not found: " ++ path
  | configurationUnreadable path e =>
      "Failed to load configuration: Failed to read config " ++ path ++ ": " ++ e.message
  | badConfiguration path => "Failed to load configuration: Invalid TOML in " ++ path
  | directoryNotMade path e =>
      "Failed to write output: Failed to create directory " ++ path ++ ": " ++ e.message
  | fileNotWritten path e =>
      "Failed to write output: Failed to write file " ++ path ++ ": " ++ e.message
  | configurationExists => "Validation failed: Configuration file already exists"
  | configurationNotWritten e => "IO error: " ++ e.message
  | outputMissing path => "Validation failed: Generated directory not found: " ++ path
  | outOfDate files => "Validation failed: " ++ toString files ++ " file(s) out of date"

/-- What does not pass a check is told apart from what does not work. -/
def exitCode : Failure → Nat
  | configurationExists | outputMissing _ | outOfDate _ => 2
  | _ => 1

end Failure

end Projection
