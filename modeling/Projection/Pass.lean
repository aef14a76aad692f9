import Projection.Emission
import Projection.Text.Lines

/-!
One pass over all call sites. Sites are compiled independently, groups are assembled in the order
of their keys, and a group that fails leaves a diagnostic in place of its text.
-/

namespace Projection

/-- Something that turns groups into text. -/
structure Emitter where
  ext : String
  emit : Settings → Group → Except GenerateError String

def Emission.emitter : Emitter := ⟨"cs", emit⟩

structure Artifact where
  key : GroupKey
  hintName : String
  isDiagnostic : Bool
  content : String
  deriving DecidableEq, Repr

namespace Artifact

def source (key : GroupKey) (ext content : String) : Artifact :=
  ⟨key, key.hintName ext, false, content⟩

/-- Stands for a group that failed. The text does not compile, so that the failure is noticed. -/
def diagnostic (key : GroupKey) (ext message : String) (trace : List String) : Artifact :=
  let lines := Text.lines message
  let traceLines := if trace.isEmpty then [] else "// trace:" :: trace.map ("//   " ++ ·)
  let all :=
    ["// <auto-generated/>", "// shapegen: generation failed for " ++ key.display] ++
      lines.map ("// " ++ ·) ++ traceLines ++
      ["#error shapegen failed to generate " ++ key.hintName ext ++ ": " ++
        lines.head?.getD "unknown error"]
  ⟨key, key.hintName ext, true, String.join (all.map (· ++ "\n"))⟩

end Artifact

/-- Counts of what became of the sites. No site is lost without an outcome, as compiling always
gives one. -/
structure Report where
  compiled : Nat
  skipped : List (Location × Rejection)
  degenerate : List Location
  artifacts : Nat
  diagnostics : Nat

namespace Pass

def outcomes (m : Model) (settings : Settings) (sites : List CallSite) :
    List (Location × Outcome) :=
  sites.map fun site => (site.location, site.compile m settings)

def compiled (outcomes : List (Location × Outcome)) : List CompiledSite :=
  outcomes.filterMap fun
    | (_, .compiled site) => some site
    | _ => none

/-- The sites of each key, by location; keys in increasing order. -/
def groups (sites : List CompiledSite) : List (GroupKey × List CompiledSite) :=
  (Ordered.ofList (sites.map (·.key))).map fun key =>
    (key, (sites.filter (·.key = key)).mergeSort fun a b => a.location.le b.location)

def traceLine (s : CompiledSite) : String :=
  s.location.factoryName ++ " at " ++ s.location.display

def artifactOf (settings : Settings) (emitter : Emitter) (key : GroupKey)
    (sites : List CompiledSite)
    (assembled : Except GenerateError Group) : Artifact :=
  match assembled.bind (emitter.emit settings) with
  | .ok content => .source key emitter.ext content
  | .error e => .diagnostic key emitter.ext e.message (sites.map traceLine)

/-- The artifacts of groups that are assembled one after the other. -/
def artifacts (settings : Settings) (emitter : Emitter) (r : Registry) :
    List (GroupKey × List CompiledSite) → List Artifact
  | [] => []
  | (key, sites) :: rest =>
      let assembled := r.assemble settings key sites
      artifactOf settings emitter key sites assembled.1 ::
        artifacts settings emitter assembled.2 rest

def report (outcomes : List (Location × Outcome)) (sent : List Artifact) : Report :=
  { compiled := (compiled outcomes).length
    skipped := outcomes.filterMap fun
      | (location, .skipped reason) => some (location, reason)
      | _ => none
    degenerate := outcomes.filterMap fun
      | (location, .degenerate) => some location
      | _ => none
    artifacts := sent.countP (!·.isDiagnostic)
    diagnostics := sent.countP (·.isDiagnostic) }

def run (m : Model) (settings : Settings) (emitter : Emitter) (sites : List CallSite) :
    List Artifact × Report :=
  let outcomes := outcomes m settings sites
  let sent := artifacts settings emitter .empty (groups (compiled outcomes))
  (sent, report outcomes sent)

end Pass

end Projection
