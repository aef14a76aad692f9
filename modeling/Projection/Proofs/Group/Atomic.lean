import Projection.Group

/-!
What assembling a group does to the registry. All of a group is staged before anything of it is
registered, so a group that fails leaves every namespace as it was, and one that succeeds changes
no namespace but its own.
-/

namespace Projection.Registry

variable {settings : Settings} {space : String} {r r' : Registry} {key : GroupKey}
  {sites : List CompiledSite} {g : Group}

theorem arena_put (r : Registry) (space : String) (a : Arena) :
    (r.put space a).arena space = a := by
  simp [put, arena]

theorem arena_put_of_ne (r : Registry) {space other : String} (a : Arena) (h : other ≠ space) :
    (r.put space a).arena other = r.arena other := by
  have hfilter : (r.arenas.filter (·.1 != space)).lookup other = r.arenas.lookup other := by
    induction r.arenas with
    | nil => rfl
    | cons entry entries ih =>
        obtain ⟨key, b⟩ := entry
        by_cases hkey : key = space
        · rw [List.filter_cons_of_neg (by simp [hkey]), ih, List.lookup_cons,
            beq_eq_false_iff_ne.2 (hkey ▸ h)]
        · rw [List.filter_cons_of_pos (by simp [hkey]), List.lookup_cons, List.lookup_cons, ih]
  rw [arena, put, List.lookup_cons, beq_eq_false_iff_ne.2 h]
  exact congrArg (Option.getD · Arena.empty) hfilter

/-- An arena that was just made is as empty as one that is missing. -/
@[simp]
theorem arena_enter (r : Registry) (space other : String) :
    (r.enter space).arena other = r.arena other := by
  unfold enter
  split
  · rfl
  · rename_i hnone
    by_cases h : other = space
    · subst h
      rw [arena_put, arena, hnone]
      rfl
    · exact arena_put_of_ne r _ h

/-- What a group stages for its namespace. -/
def staged (settings : Settings) (r : Registry) (key : GroupKey) (sites : List CompiledSite) :
    Except GenerateError Staging :=
  (sites.flatMap (·.structures)).foldlM
    (Staging.addStructure settings (r.arena key.namespace) key) .empty

/-- A group that fails leaves the arenas of all namespaces as they were. -/
theorem assemble_of_staged_error {e : GenerateError} (h : r.staged settings key sites = .error e) :
    (r.assemble settings key sites).1 = .error e ∧
      ∀ space, (r.assemble settings key sites).2.arena space = r.arena space := by
  unfold staged at h
  unfold assemble
  dsimp only
  rw [arena_enter, h]
  exact ⟨rfl, fun _ => arena_enter ..⟩

theorem assemble_of_staged {st : Staging} (h : r.staged settings key sites = .ok st) :
    (r.assemble settings key sites).1 =
        .ok ⟨key, st.explicit ++ st.generated, sites.map Factory.ofSite,
          Ordered.ofList (sites.flatMap (·.namespaces)), st.allNames⟩ ∧
      (r.assemble settings key sites).2.arena key.namespace =
        st.commit (r.arena key.namespace) ∧
      ∀ space, space ≠ key.namespace →
        (r.assemble settings key sites).2.arena space = r.arena space := by
  unfold staged at h
  unfold assemble
  dsimp only
  rw [arena_enter, h]
  refine ⟨rfl, arena_put .., fun space hspace => ?_⟩
  rw [arena_put_of_ne _ _ hspace, arena_enter]

/-- A group that succeeds has staged all that it has. -/
theorem staged_of_assemble (h : (r.assemble settings key sites).1 = .ok g) :
    ∃ st, r.staged settings key sites = .ok st ∧
      g = ⟨key, st.explicit ++ st.generated, sites.map Factory.ofSite,
        Ordered.ofList (sites.flatMap (·.namespaces)), st.allNames⟩ := by
  cases hstaged : r.staged settings key sites with
  | error e =>
      rw [(assemble_of_staged_error hstaged).1] at h
      cases h
  | ok st =>
      rw [(assemble_of_staged hstaged).1] at h
      cases h
      exact ⟨st, rfl, rfl⟩

theorem arena_assemble_of_error {e : GenerateError}
    (h : (r.assemble settings key sites).1 = .error e) (space : String) :
    (r.assemble settings key sites).2.arena space = r.arena space := by
  cases hstaged : r.staged settings key sites with
  | error e' => exact (assemble_of_staged_error hstaged).2 space
  | ok st =>
      rw [(assemble_of_staged hstaged).1] at h
      cases h

/-- Groups of other namespaces do not matter. -/
theorem assemble_elsewhere (settings : Settings) (r : Registry) (sites : List CompiledSite)
    (hspace : space ≠ key.namespace) :
    (r.assemble settings key sites).2.arena space = r.arena space := by
  cases hstaged : r.staged settings key sites with
  | error e => exact (assemble_of_staged_error hstaged).2 space
  | ok st => exact (assemble_of_staged hstaged).2.2 space hspace

/-- What comes of a group, and its namespace afterwards, depend on the registry only through that
namespace. -/
theorem assemble_congr (h : r.arena key.namespace = r'.arena key.namespace) (settings : Settings)
    (sites : List CompiledSite) :
    (r.assemble settings key sites).1 = (r'.assemble settings key sites).1 ∧
      (r.assemble settings key sites).2.arena key.namespace =
        (r'.assemble settings key sites).2.arena key.namespace := by
  have hsame : r.staged settings key sites = r'.staged settings key sites := by
    unfold staged
    rw [h]
  cases hstaged : r.staged settings key sites with
  | error e =>
      obtain ⟨hr, harena⟩ := assemble_of_staged_error hstaged
      obtain ⟨hr', harena'⟩ := assemble_of_staged_error (hsame ▸ hstaged)
      exact ⟨hr.trans hr'.symm, by rw [harena, harena', h]⟩
  | ok st =>
      obtain ⟨hr, harena, -⟩ := assemble_of_staged hstaged
      obtain ⟨hr', harena', -⟩ := assemble_of_staged (hsame ▸ hstaged)
      exact ⟨hr.trans hr'.symm, by rw [harena, harena', h]⟩

end Projection.Registry
