import Mathlib.Data.List.Perm.Basic
import Projection.Proofs.Group.Conflict
import Projection.Proofs.Pass.Separate

/-!
A pass loses no site and shows none twice: every site is counted under what became of it, and every
site that compiles is a factory or a line of a trace in the artifact of its own group.
-/

namespace Projection.Pass

variable {settings : Settings} {emitter : Emitter}

def membersOf (sites : List CompiledSite) (key : GroupKey) : List CompiledSite :=
  (sites.filter (·.key = key)).mergeSort fun a b => a.location.le b.location

/-- How an artifact shows sites, where groups find the registry `r`: each is one factory of the
group whose text the artifact holds, or, where the group cannot be assembled or written, one line of
the trace. -/
inductive Shows (settings : Settings) (emitter : Emitter) (r : Registry)
    (sites : List CompiledSite) : Artifact → Prop where
  | factories {key : GroupKey} {g : Group} {content : String} :
      (r.assemble settings key sites).1 = .ok g → g.projections = sites.map Factory.ofSite →
      emitter.emit settings g = .ok content →
      Shows settings emitter r sites (.source key emitter.ext content)
  | trace {key : GroupKey} {e : GenerateError} :
      (r.assemble settings key sites).1.bind (emitter.emit settings) = .error e →
      Shows settings emitter r sites
        (.diagnostic key emitter.ext e.message (sites.map traceLine))

/-- An artifact shows the sites that its group was assembled from. -/
theorem shows_artifactOf (r : Registry) (key : GroupKey) (sites : List CompiledSite) :
    Shows settings emitter r sites
      (artifactOf settings emitter key sites (r.assemble settings key sites).1) := by
  unfold artifactOf
  split
  · rename_i content hcontent
    cases hassemble : (r.assemble settings key sites).1 with
    | error e =>
        rw [hassemble] at hcontent
        cases hcontent
    | ok g =>
        rw [hassemble] at hcontent
        obtain ⟨st, -, hg⟩ := Registry.staged_of_assemble hassemble
        exact .factories hassemble (by rw [hg]) hcontent
  · rename_i e he
    exact .trace he

theorem keys_artifacts (r : Registry) (groups : List (GroupKey × List CompiledSite)) :
    (artifacts settings emitter r groups).map (·.key) = groups.map (·.1) := by
  induction groups generalizing r with
  | nil => rfl
  | cons group groups ih =>
      obtain ⟨key, sites⟩ := group
      rw [artifacts, List.map_cons, key_artifactOf, ih, List.map_cons]

/-- An artifact shows the sites of a group to the registry that the groups before it leave. -/
theorem exists_group_of_mem_artifacts {r : Registry} {groups : List (GroupKey × List CompiledSite)}
    {a : Artifact} (ha : a ∈ artifacts settings emitter r groups) :
    ∃ before sites later, groups = before ++ (a.key, sites) :: later ∧
      Shows settings emitter (r.after settings before) sites a := by
  induction groups generalizing r with
  | nil => cases ha
  | cons group groups ih =>
      obtain ⟨key, sites⟩ := group
      rw [artifacts] at ha
      rcases List.mem_cons.1 ha with rfl | ha
      · refine ⟨[], sites, groups, ?_, shows_artifactOf ..⟩
        rw [key_artifactOf]
        rfl
      · obtain ⟨before, members, later, rfl, hshows⟩ := ih ha
        exact ⟨(key, sites) :: before, members, later, rfl, hshows⟩

/-- The keys of the artifacts that a pass sends are those of the sites that compile. -/
theorem keys_run (m : Model) (settings : Settings) (emitter : Emitter) (sites : List CallSite) :
    (run m settings emitter sites).1.map (·.key) =
      Ordered.ofList ((compiled (outcomes m settings sites)).map (·.key)) := by
  refine (keys_artifacts .empty _).trans ?_
  simp [groups, Function.comp_def]

theorem run_shows {m : Model} {sites : List CallSite} {a : Artifact}
    (ha : a ∈ (run m settings emitter sites).1) :
    let found := compiled (outcomes m settings sites)
    ∃ before later, groups found = before ++ (a.key, membersOf found a.key) :: later ∧
      Shows settings emitter (Registry.empty.after settings before) (membersOf found a.key) a := by
  intro found
  obtain ⟨before, members, later, hgroups, hshows⟩ := exists_group_of_mem_artifacts ha
  have hmem : (a.key, members) ∈ groups found := by
    rw [hgroups]
    exact List.mem_append_right _ List.mem_cons_self
  obtain ⟨key, -, hgroup⟩ := List.mem_map.1 hmem
  obtain ⟨rfl, rfl⟩ := Prod.mk.inj hgroup
  exact ⟨before, later, hgroups, hshows⟩

end Projection.Pass
