import Projection.Pass
import Projection.Proofs.Group.Declared

/-!
Namespaces do not see each other in a pass, and it does not matter in which order sites are given:
the artifacts of a namespace come from the sites that compile into it and from nothing else.
-/

namespace Projection

namespace Location

theorem le_iff {a b : Location} : a.le b = true ↔ a.file < b.file ∨
    a.file = b.file ∧ (a.line < b.line ∨ a.line = b.line ∧ a.column ≤ b.column) := by
  simp [le]

theorem le_trans {a b c : Location} (hab : a.le b = true) (hbc : b.le c = true) :
    a.le c = true := by
  rw [le_iff] at *
  rcases hab with hab | ⟨hab, hab'⟩
  · rcases hbc with hbc | ⟨hbc, -⟩
    · exact .inl (String.lt_trans hab hbc)
    · exact .inl (hbc ▸ hab)
  · rcases hbc with hbc | ⟨hbc, hbc'⟩
    · exact .inl (hab ▸ hbc)
    · exact .inr ⟨hab.trans hbc, by omega⟩

theorem le_total (a b : Location) : (a.le b || b.le a) = true := by
  rw [Bool.or_eq_true, le_iff, le_iff]
  by_cases heq : a.file = b.file
  · simp only [heq, true_and]
    omega
  · by_cases hlt : a.file < b.file
    · exact .inl (.inl hlt)
    · exact .inr (.inl (LinearlyOrdered.gt_of_not_lt hlt heq))

theorem le_antisymm {a b : Location} (hab : a.le b = true) (hba : b.le a = true) : a = b := by
  rw [le_iff] at *
  have hirrefl (file : String) : ¬ file < file := String.lt_irrefl file
  obtain ⟨file, line, column⟩ := a
  obtain ⟨file', line', column'⟩ := b
  dsimp only at hab hba
  rcases hab with hab | ⟨rfl, hab⟩
  · rcases hba with hba | ⟨rfl, -⟩
    · exact absurd (String.lt_trans hab hba) (hirrefl _)
    · exact absurd hab (hirrefl _)
  · have hba := hba.resolve_left (hirrefl _)
    rw [mk.injEq]
    exact ⟨rfl, by omega, by omega⟩

end Location

namespace Pass

variable {settings : Settings} {emitter : Emitter} {space : String}

@[simp]
theorem key_artifactOf (key : GroupKey) (sites : List CompiledSite)
    (assembled : Except GenerateError Group) :
    (artifactOf settings emitter key sites assembled).key = key := by
  unfold artifactOf
  split <;> rfl

/-- Groups of other namespaces can be left out, and what is registered there does not matter. -/
theorem artifacts_filter {r r' : Registry} (h : r.arena space = r'.arena space)
    (groups : List (GroupKey × List CompiledSite)) :
    (artifacts settings emitter r groups).filter (·.key.namespace = space) =
      artifacts settings emitter r' (groups.filter (·.1.namespace = space)) := by
  induction groups generalizing r r' with
  | nil => rfl
  | cons group groups ih =>
      obtain ⟨key, sites⟩ := group
      rw [artifacts]
      by_cases hspace : key.namespace = space
      · subst hspace
        obtain ⟨hresult, harena⟩ := Registry.assemble_congr h settings sites
        rw [List.filter_cons_of_pos (by simp), List.filter_cons_of_pos (by simp), artifacts,
          ih harena, hresult]
      · have harena := Registry.assemble_elsewhere settings r sites (Ne.symm hspace)
        rw [List.filter_cons_of_neg (by simp [hspace]), List.filter_cons_of_neg (by simp [hspace]),
          ih (harena.trans h)]

/-- The groups of a namespace are those of the sites in it. -/
theorem groups_filter (sites : List CompiledSite) :
    (groups sites).filter (·.1.namespace = space) =
      groups (sites.filter (·.key.namespace = space)) := by
  have hkeys : (Ordered.ofList (sites.map (·.key))).filter (·.namespace = space) =
      Ordered.ofList ((sites.filter (·.key.namespace = space)).map (·.key)) := by
    refine Ordered.eq_of_mem_iff ((Ordered.increasing_ofList _).filter _)
      (Ordered.increasing_ofList _) fun key => ?_
    simp only [List.mem_filter, Ordered.mem_ofList, List.mem_map, decide_eq_true_eq]
    constructor
    · rintro ⟨⟨site, hsite, rfl⟩, hspace⟩
      exact ⟨site, ⟨hsite, hspace⟩, rfl⟩
    · rintro ⟨site, ⟨hsite, hspace⟩, rfl⟩
      exact ⟨⟨site, hsite, rfl⟩, hspace⟩
  unfold groups
  rw [List.filter_map, ← hkeys]
  refine List.map_congr_left fun key hkey => ?_
  have hspace : key.namespace = space := by simpa using (List.mem_filter.1 hkey).2
  have hsites : (sites.filter (·.key.namespace = space)).filter (·.key = key) =
      sites.filter (·.key = key) := by
    rw [List.filter_filter]
    refine List.filter_congr fun site _ => ?_
    by_cases hsite : site.key = key
    · simp [hsite, hspace]
    · simp [hsite]
  rw [hsites]

def Apart (sites : List CompiledSite) : Prop :=
  sites.Pairwise fun a b => a.key = b.key → a.location ≠ b.location

/-- Sorting forgets the order in which the sites of a group are given. -/
theorem mergeSort_eq_of_perm {key : GroupKey} {sites sites' : List CompiledSite} (h : Apart sites)
    (hperm : sites'.Perm sites) :
    (sites'.filter (·.key = key)).mergeSort (fun a b => a.location.le b.location) =
      (sites.filter (·.key = key)).mergeSort fun a b => a.location.le b.location := by
  have hsorted := @List.pairwise_mergeSort CompiledSite (fun a b => a.location.le b.location)
    (fun _ _ _ => Location.le_trans) (fun a b => Location.le_total a.location b.location)
  have hnodup : ((sites.filter (·.key = key)).map (·.location)).Nodup := by
    refine List.pairwise_map.2 (List.Pairwise.imp_of_mem (fun ha hb hne => hne ?_) (h.filter _))
    rw [of_decide_eq_true (List.mem_filter.1 ha).2, of_decide_eq_true (List.mem_filter.1 hb).2]
  have hmem {a : CompiledSite} := (List.mergeSort_perm (sites.filter (·.key = key))
    fun a b => a.location.le b.location).mem_iff (a := a)
  have hsame := ((List.mergeSort_perm (sites'.filter (·.key = key))
    fun a b => a.location.le b.location).trans (hperm.filter _)).trans
      (List.mergeSort_perm (sites.filter (·.key = key)) fun a b => a.location.le b.location).symm
  refine List.Perm.eq_of_pairwise (fun a b ha hb hab hba => ?_) (hsorted _) (hsorted _) hsame
  exact List.inj_on_of_nodup_map hnodup (hmem.1 (hsame.mem_iff.1 ha)) (hmem.1 hb)
    (Location.le_antisymm hab hba)

/-- The order in which sites are given makes no difference to the groups. -/
theorem groups_perm {sites sites' : List CompiledSite} (h : Apart sites)
    (hperm : sites'.Perm sites) : groups sites' = groups sites := by
  have hkeys : Ordered.ofList (sites'.map (·.key)) = Ordered.ofList (sites.map (·.key)) := by
    refine Ordered.eq_of_mem_iff (Ordered.increasing_ofList _) (Ordered.increasing_ofList _)
      fun key => ?_
    rw [Ordered.mem_ofList, Ordered.mem_ofList]
    exact (hperm.map _).mem_iff
  unfold groups
  rw [hkeys]
  exact List.map_congr_left fun key _ => congrArg (key, ·) (mergeSort_eq_of_perm h hperm)

end Pass

def CallSite.compilesInto (m : Model) (settings : Settings) (space : String) (site : CallSite) :
    Bool :=
  match site.compile m settings with
  | .compiled compiled => compiled.key.namespace = space
  | .skipped _ | .degenerate => false

namespace Pass

theorem compiled_filter (m : Model) (settings : Settings) (space : String)
    (sites : List CallSite) :
    compiled (outcomes m settings (sites.filter (·.compilesInto m settings space))) =
      (compiled (outcomes m settings sites)).filter (·.key.namespace = space) := by
  induction sites with
  | nil => rfl
  | cons site sites ih =>
      unfold compiled outcomes at ih ⊢
      cases hsite : site.compile m settings with
      | skipped reason | degenerate =>
          rw [List.filter_cons_of_neg (by simp [CallSite.compilesInto, hsite]), ih]
          simp [hsite]
      | compiled c =>
          by_cases hspace : c.key.namespace = space
          · rw [List.filter_cons_of_pos (by simp [CallSite.compilesInto, hsite, hspace])]
            simp [hsite, hspace, ih]
          · rw [List.filter_cons_of_neg (by simp [CallSite.compilesInto, hsite, hspace]), ih]
            simp [hsite, hspace]

/-- In a pass over sites of which those of one group stand in different places, the artifacts of
a namespace are all the artifacts of a pass over the sites that compile into it, in whatever order
these are given. -/
theorem artifacts_of_namespace {m : Model} {settings : Settings} {emitter : Emitter}
    {space : String} {sites sites' : List CallSite}
    (hapart : Apart (compiled (outcomes m settings sites)))
    (hperm : sites'.Perm (sites.filter (·.compilesInto m settings space))) :
    (run m settings emitter sites).1.filter (·.key.namespace = space) =
      (run m settings emitter sites').1 := by
  have hcompiled : (compiled (outcomes m settings sites')).Perm
      ((compiled (outcomes m settings sites)).filter (·.key.namespace = space)) := by
    rw [← compiled_filter]
    exact (hperm.map _).filterMap _
  calc (run m settings emitter sites).1.filter (·.key.namespace = space)
      = artifacts settings emitter .empty
          ((groups (compiled (outcomes m settings sites))).filter (·.1.namespace = space)) :=
        artifacts_filter rfl _
    _ = artifacts settings emitter .empty
          (groups ((compiled (outcomes m settings sites)).filter (·.key.namespace = space))) := by
        rw [groups_filter]
    _ = (run m settings emitter sites').1 := by
        rw [← groups_perm (hapart.filter _) hcompiled]
        rfl

def orderSite (file space : String) (body : Expr) : CallSite :=
  ⟨⟨file, 1, 1⟩, some space, "Order", .lambda ["x"] body, [], none, none, .empty⟩

theorem artifacts_of_namespace_shared_type :
    let m := Model.ofTypes
      [⟨"Order", none, .class, [⟨"Id", .property, "int", false, false, .public⟩]⟩]
    let object := Expr.anonymous [.named "Id" (.dot (.ident "x") "Id")]
    let a := orderSite "B.cs" "Shop" object
    let b := orderSite "A.cs" "Shop" object
    let sites := [a, orderSite "B.cs" "Shop" (.ident "x"), orderSite "A.cs" "Other" object, b]
    Apart (compiled (outcomes m {} sites)) ∧
      [b, a].Perm (sites.filter (·.compilesInto m {} "Shop")) ∧
      (run m {} Emission.emitter sites).1.filter (·.key.namespace = "Shop") =
        (run m {} Emission.emitter [b, a]).1 := by
  intro m object a b sites
  have hapart : Apart (compiled (outcomes m {} sites)) := by
    unfold Apart
    decide +kernel
  have hfilter : sites.filter (·.compilesInto m {} "Shop") = [a, b] := by
    have ha : a.compilesInto m {} "Shop" = true := by decide +kernel
    have hb : b.compilesInto m {} "Shop" = true := by decide +kernel
    have hpassed : (orderSite "B.cs" "Shop" (.ident "x")).compilesInto m {} "Shop" = false := by
      decide +kernel
    have hother : (orderSite "A.cs" "Other" object).compilesInto m {} "Shop" = false := by
      decide +kernel
    simp [sites, ha, hb, hpassed, hother]
  have hperm : [b, a].Perm (sites.filter (·.compilesInto m {} "Shop")) := by
    rw [hfilter]
    exact .swap a b []
  exact ⟨hapart, hperm, artifacts_of_namespace hapart hperm⟩

end Pass

end Projection
