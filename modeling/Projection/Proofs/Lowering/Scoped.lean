import Projection.Proofs.Typing.Selected

/-!
Two cases in which the structures that lowering creates have their values from under the lambdas
that they are created under. Either no selection of objects has a fallback, so that what is nested
in it was written in its own function; or lambdas bind nothing that matters, so that it does not
matter which of them a value was written under.
-/

namespace Projection

open Typing Projection.Expr

/-- Whether the expression is a selection of objects with something else to fall back to. -/
def Expr.forks (e : Expr) : Bool :=
  match Lowering.SelectionForm.ofExpr e with
  | .selection sel =>
      match sel.bodyForm with
      | .literal => sel.fallback.isSome
      | _ => false
  | _ => false

theorem Expr.fallback_eq_none {e : Expr} {sel : Lowering.Selection} (h : e.forks = false)
    (hs : Lowering.SelectionForm.ofExpr e = .selection sel) (hb : sel.bodyForm = .literal) :
    sel.fallback = none := by
  rw [forks, hs] at h
  dsimp only at h
  rw [hb] at h
  simpa using h

/-- Properties of a literal come from its members. -/
theorem Structure.mem_properties_literal {settings : Settings} {Γ : Context}
    {members : List Initializer} {p : Property}
    (h : p ∈ (ofType settings (anonymousType Γ members)).properties) :
    ∃ i ∈ members, ∃ t, infer? Γ i.value = some t ∧ p.source = Source.classify i.value ∧
      p.nested = (materialize settings t).2 := by
  obtain ⟨m, hm, t, ht, rfl⟩ := mem_propertiesOf h
  obtain ⟨i, hi, hmember⟩ := List.mem_filterMap.1 hm
  obtain ⟨name, -, rfl⟩ := Option.map_eq_some_iff.1 hmember
  exact ⟨i, hi, t, ht, rfl, rfl⟩

namespace Lowering.Scoping

variable {A : Allowed} {settings : Settings} {bound : List String}

def unforked (A : Allowed) : Scoping where
  source bound e := A.Tree bound e ∧ e.Every (·.forks = false)
  context _ := True

theorem unforked_part {c e : Expr} (h : (unforked A).source bound e) (hc : c ∈ e.children)
    (hp : e.ownParameters = []) : (unforked A).source bound c :=
  ⟨h.1.part hc hp, h.2.child hc⟩

/-- The function of a selection is smaller than the whole. -/
theorem size_selection_lt {e : Expr} {sel : Selection}
    (h : SelectionForm.ofExpr e = .selection sel) : sel.body.size < e.size := by
  have hle := (selection_inherits (Q := (·.size ≤ e.size))
    (fun hle hc _ => Nat.le_trans (Nat.le_of_lt (size_lt_of_mem_children hc)) hle)
    (Nat.le_refl _) h).2.1
  have := size_lt_of_mem_children
    (show sel.body ∈ (Expr.lambda [sel.parameter] sel.body).children by simp [children])
  omega

theorem selection_of_entered? {base e : Expr} {parameter : String} {element : List SourceMember}
    {params : List String} (h : entered? (.collection base parameter element e) = some params) :
    ∃ sel, SelectionForm.ofExpr e = .selection sel ∧ sel.bodyForm = .literal ∧
      params = [sel.parameter] := by
  rw [entered?] at h
  split at h
  · rename_i sel hs
    split at h
    · rename_i hb
      cases h
      exact ⟨sel, hs, hb, rfl⟩
    · cases h
  · cases h

/-- What an object literal builds has its values from under the lambdas around the literal, and what
is nested in it from under those around the nested literal. -/
theorem drawn_unforked (Γ : Context) (members : List Initializer) (bound : List String)
    (h : ∀ i ∈ members, (unforked A).source bound i.value) :
    Drawn (unforked A).source bound (Structure.ofType settings (anonymousType Γ members)) := by
  refine .values (fun p hp => ?_) (fun p hp params n hparams hn => ?_)
  · obtain ⟨i, hi, t, -, hsource, -⟩ := Structure.mem_properties_literal hp
    rw [hsource, Source.expr_classify]
    exact h i hi
  · obtain ⟨i, hi, t, ht, hsource, hnested⟩ := Structure.mem_properties_literal hp
    have hsize := size_lt_of_mem_children
      (show i.value ∈ (Expr.anonymous members).children from List.mem_map.2 ⟨i, hi, rfl⟩)
    have hexpr := Source.expr_classify i.value
    rw [hsource] at hparams
    rw [hnested] at hn
    cases hc : Source.classify i.value with
    | object ms e =>
        rw [hc] at hparams
        cases hparams
        obtain ⟨inner, hu⟩ := Source.unparen_of_object hc
        cases ht.symm.trans (infer?_literal Γ hu)
        rw [TypeRef.anonymous, Structure.materialize] at hn
        cases hn
        have hsource := unparen_inherits unforked_part (h i hi)
        rw [hu] at hsource
        have hsmaller : (Expr.anonymous inner).size < (Expr.anonymous members).size :=
          Nat.lt_of_le_of_lt (hu ▸ size_unparen_le i.value) hsize
        rw [List.append_nil]
        exact drawn_unforked Γ inner bound fun j hj =>
          unforked_part hsource (List.mem_map.2 ⟨j, hj, rfl⟩) rfl
    | collection base parameter element e =>
        rw [hc] at hparams hexpr
        cases hexpr
        obtain ⟨sel, hs, hb, rfl⟩ := selection_of_entered? hparams
        obtain ⟨inner, hu, hselected⟩ :=
          selected_of_selection hs hb (fallback_eq_none (h i hi).2.self hs hb)
        obtain ⟨Γ', rfl⟩ := (hselected Γ t ht).nested hn
        have hfunction := (selection_inherits unforked_part (h i hi) hs).2.1
        have hsource : (unforked A).source (bound ++ [sel.parameter]) sel.body :=
          ⟨hfunction.1.child (by simp [children]), hfunction.2.child (by simp [children])⟩
        have hinner := unparen_inherits unforked_part hsource
        rw [hu] at hinner
        have hsmaller : (Expr.anonymous inner).size < (Expr.anonymous members).size :=
          Nat.lt_of_le_of_lt (hu ▸ size_unparen_le sel.body)
            (Nat.lt_trans (size_selection_lt hs) hsize)
        exact drawn_unforked Γ' inner (bound ++ [sel.parameter]) fun j hj =>
          unforked_part hinner (List.mem_map.2 ⟨j, hj, rfl⟩) rfl
    | memberRef _ _ _ | literal _ | computed _ _ _ =>
        rw [hc] at hparams
        cases hparams
termination_by (Expr.anonymous members).size

theorem unforked_kept (hs : A.free "System") : (unforked A).Kept A settings where
  node h := h.1.self
  child h hc := ⟨h.1.child hc, h.2.child hc⟩
  bind _ _ _ := trivial
  enter _ _ _ := trivial
  object := by
    intro Γ bound members _ h
    exact drawn_unforked Γ members bound fun i hi =>
      unforked_part h (List.mem_map.2 ⟨i, hi, rfl⟩) rfl
  literal := by
    intro bound t as ms ms' h hms
    have hvalues {c : Expr} (hc : c ∈ (Expr.anonymous ms').children) :
        (unforked A).source bound c := by
      obtain ⟨i, hi, rfl⟩ := List.mem_map.1 hc
      exact unforked_part h (List.mem_append_right _ (List.mem_map.2 ⟨i, hms hi, rfl⟩)) rfl
    exact ⟨Allowed.tree_of_isInert rfl rfl fun c hc => (hvalues hc).1,
      every_iff.2 ⟨rfl, fun c hc => (hvalues hc).2⟩⟩
  system := hs

end Lowering.Scoping

namespace Allowed

variable {A : Allowed} {bound params : List String} {e : Expr}

theorem Node.mono (h : A.Node params e) (hp : params ⊆ bound) : A.Node bound e where
  free n he := (h.free n he).imp_left (hp ·)
  called t ts as n he hu := (h.called t ts as n he hu).imp_left (hp ·)
  own t n o he ht := (h.own t n o he ht).imp_left (hp ·)

def All (A : Allowed) (n : String) : Prop := A.free n ∧ A.called n ∧ A.own n

/-- Where lambdas bind only names that are allowed anyway, they do not matter. -/
theorem every_of_tree (h : A.Tree bound e) (hb : ∀ n ∈ bound, n ∈ params ∨ A.All n)
    (ha : ∀ n ∈ e.parameters, A.All n) : e.Every (A.Node params) := by
  induction h with
  | @node bound e he _ ih =>
      refine every_iff.2 ⟨⟨fun n hn => ?_, fun t ts as n hn hu => ?_, fun t n o hn ht => ?_⟩,
        fun c hc => ih c hc ?_ ?_⟩
      · exact (he.free n hn).elim (fun hm => (hb n hm).imp_right (·.1)) .inr
      · exact (he.called t ts as n hn hu).elim (fun hm => (hb n hm).imp_right (·.2.1)) .inr
      · exact (he.own t n o hn ht).elim (fun hm => (hb n hm).imp_right (·.2.2)) .inr
      · intro n hn
        rcases List.mem_append.1 hn with hn | hn
        · exact hb n hn
        · exact .inr (ha n (List.mem_flatMap.2 ⟨e, self_mem_nodes e, hn⟩))
      · intro n hn
        obtain ⟨d, hd, hn⟩ := List.mem_flatMap.1 hn
        exact ha n (List.mem_flatMap.2 ⟨d, mem_nodes_of_mem_children hc hd, hn⟩)

theorem eq_ident_of_ownVariable {e : Expr} {n : String} (h : e.ownVariable = [n]) :
    e = .ident n := by
  cases e with
  | ident _ =>
      cases h
      rfl
  | _ => cases h

theorem isThis_withoutOptional (e : Expr) :
    Capture.isThis e.withoutOptional = Capture.isThis e := by
  rw [Capture.isThis, Capture.isThis, unparen_withoutOptional]
  cases e.unparen with
  | creation t as i => cases i <;> rw [withoutOptional_eq] <;> rfl
  | _ => rw [withoutOptional_eq]; rfl

theorem Node.withoutOptional (h : A.Node params e) : A.Node params e.withoutOptional := by
  rw [withoutOptional_eq]
  cases e with
  | ident n => exact h
  | member t n o =>
      refine ⟨nofun, nofun, fun _ _ _ he ht => ?_⟩
      cases he
      exact h.own _ _ _ rfl (by rwa [isThis_withoutOptional] at ht)
  | invoke t ts as =>
      refine ⟨nofun, fun _ _ _ n he hu => ?_, nofun⟩
      cases he
      have hv : t.unparen.ownVariable = [n] := by
        rw [← ownVariable_unparen_withoutOptional, hu]
        rfl
      exact h.called _ _ _ _ rfl (eq_ident_of_ownVariable hv)
  | creation t as i => cases i <;> exact node_of_isInert rfl
  | _ => exact node_of_isInert rfl

theorem every_withoutOptional (h : e.Every (A.Node params)) :
    e.withoutOptional.Every (A.Node params) := by
  induction e using childInduction with
  | h e ih =>
      refine every_iff.2 ⟨h.self.withoutOptional, ?_⟩
      rw [children_withoutOptional]
      exact List.forall_mem_map.2 fun c hc => ih c hc (h.child hc)

def vocabulary (A : Allowed) (params : List String) : Vocabulary where
  name _ := True
  source e := e.Spelled ∧ e.Every (A.Node params)
  label _ := True
  plain _ := trivial
  parsed := Vocabulary.full.parsed
  types h := Vocabulary.full.types h.1
  child h hc := ⟨h.1.child hc, h.2.child hc⟩
  withoutOptional h := ⟨h.1.withoutOptional, every_withoutOptional h.2⟩
  labels _ _ _ := trivial

end Allowed

namespace Lowering.Scoping

variable {A : Allowed} {settings : Settings} {bound params : List String}

/-- Lambdas bind nothing that matters. -/
def level (A : Allowed) (params : List String) : Scoping where
  source bound e := params ⊆ bound ∧ (A.vocabulary params).source e
  context Γ := Γ.Inferred (A.vocabulary params)

/-- Types that are inferred from such text hold such text, wherever they are built. -/
theorem drawn_level (settings : Settings) {type : TypeRef}
    (h : type.Inferred (A.vocabulary params)) :
    ∀ n, (Structure.materialize settings type).2 = some n →
      ∀ bound, params ⊆ bound → Drawn (level A params).source bound n := by
  induction h with
  | written h =>
      rw [Structure.materialize_of_written settings h]
      exact nofun
  | sequence _ _ ih =>
      rw [Structure.materialize, Structure.materializeAll_singleton]
      exact ih
  | array _ ih => exact ih
  | @anonymous type n hs _ ih =>
      rw [Structure.materialize]
      rintro _ ⟨⟩ bound hb
      obtain ⟨sourceType, members⟩ := type
      refine .values (fun p hp => ?_) (fun p hp params n _ hn => ?_)
      · obtain ⟨m, hm, t, ht, rfl⟩ := Structure.mem_propertiesOf hp
        refine ⟨hb, ?_⟩
        change (A.vocabulary params).source (Source.classify m.expr).expr
        rw [Source.expr_classify]
        exact (hs m hm).2
      · obtain ⟨m, hm, t, ht, rfl⟩ := Structure.mem_propertiesOf hp
        exact ih m hm t ht n hn _ (List.subset_append_of_subset_left _ hb)

theorem level_kept (params : List String) (hs : A.free "System") :
    (level A params).Kept A settings where
  node h := h.2.2.self.mono h.1
  child h hc := ⟨List.subset_append_of_subset_left _ h.1, (A.vocabulary params).child h.2 hc⟩
  bind hΓ h ht := hΓ.bind (infers_elementType? hΓ h.2 _ ht)
  enter := by
    intro Γ bound e t names hΓ h ht
    refine hΓ.bindAll (List.forall_mem_cons.2 ⟨infers_elementType? hΓ h.2 t ht, ?_⟩)
    exact List.forall_mem_singleton.2 (.written (TypeRef.written_primitive _))
  object := by
    intro Γ bound members hΓ h
    refine drawn_level settings (inferred_anonymousType hΓ h.2) _ ?_ bound h.1
    rw [TypeRef.anonymous, Structure.materialize]
  literal := by
    intro bound t as ms ms' h hms
    have hvalues {c : Expr} (hc : c ∈ (Expr.anonymous ms').children) :
        (A.vocabulary params).source c := by
      obtain ⟨i, hi, rfl⟩ := List.mem_map.1 hc
      exact (A.vocabulary params).child h.2
        (List.mem_append_right _ (List.mem_map.2 ⟨i, hms hi, rfl⟩))
    exact ⟨h.1, every_iff.2 ⟨by simp [types], fun c hc => (hvalues hc).1⟩,
      every_iff.2 ⟨Allowed.node_of_isInert rfl, fun c hc => (hvalues hc).2⟩⟩
  system := hs

end Lowering.Scoping

def Source.isCollection : Source → Bool
  | .collection _ _ _ _ => true
  | _ => false

def Source.isPath : Source → Bool
  | .memberRef _ _ _ => true
  | _ => false

namespace Lowering

variable {settings : Settings} {depth : Nat} {Γ : Context} {n : String} {p : Property}

theorem free_creation {s : Structure} (hp : p ∈ s.properties)
    (hn : n ∈ (property settings depth Γ p).value.free) :
    n ∈ (creation settings depth Γ s).value.free := by
  rw [creation, Lowered.value_map, Lowered.value_all, free_of_plain rfl rfl]
  refine List.mem_flatMap.2 ⟨(property settings depth Γ p).value, ?_, hn⟩
  simp only [children, List.nil_append, List.map_map, List.mem_map]
  exact ⟨⟨p, hp⟩, List.mem_attach _ _, rfl⟩

theorem free_guardSelection {declared : TypeRef} {guards : List Expr} {result : Expr}
    {fallback : Option Expr} (hn : n ∈ result.free) :
    n ∈ (guardSelection declared guards result fallback).free := by
  have hchild {e : Expr} (hv : e.ownVariable = []) (hp : e.ownParameters = [])
      (hc : result ∈ e.children) : n ∈ e.free := by
    rw [free_of_plain hv hp]
    exact List.mem_flatMap.2 ⟨result, hc, hn⟩
  refine guardSelection_cases (P := (n ∈ ·.free)) hn ?_ ?_
  · exact fun _ _ _ _ => hchild rfl rfl (by simp [children])
  · exact fun _ _ => hchild rfl rfl (by simp [children])

theorem free_rebuild {sel : Selection} {receiver body : Expr} (hn : n ∈ body.free)
    (hp : n ≠ sel.parameter) : n ∈ (sel.rebuild receiver body).free := by
  have hcall : n ∈ (Expr.invoke (receiver.dot sel.transform) sel.typeArgs
      [.lambda [sel.parameter] body]).free := by
    simp [hn, hp]
  exact rebuild_cases (P := (n ∈ ·.free)) rfl hcall fun _ _ => by simpa [Expr.call, dot] using hcall

theorem property_of_isCollection (h : p.source.isCollection = true) :
    property settings depth Γ p =
      collection settings depth Γ p.source.expr p.declaredType p.nested := by
  obtain ⟨_, _, _, _, source⟩ := p
  cases source with
  | collection base parameter members e => rw [property]; rfl
  | _ => cases h

/-- What is nested in a selection of objects comes to stand under its parameter, whatever it was
read from. -/
theorem free_property_of_nested (sel : Selection) {element : TypeRef} {nested : Structure}
    (hp : p.source.isCollection = true) (hs : SelectionForm.ofExpr p.source.expr = .selection sel)
    (hb : sel.bodyForm = .literal) (ht : elementType? Γ sel.base = some element)
    (hnested : p.nested = some nested)
    (hn : n ∈ (creation settings depth (Γ.bind sel.parameter element) nested).value.free)
    (hne : n ≠ sel.parameter) : n ∈ (property settings depth Γ p).value.free := by
  rw [property_of_isCollection hp, hnested, collection_objects p.declaredType hs ht hb]
  exact free_guardSelection (free_rebuild hn hne)

theorem property_of_isPath (h : p.source.isPath = true) :
    property settings depth Γ p = expr settings depth Γ p.source.expr (some p.declaredType) := by
  obtain ⟨_, _, _, _, source⟩ := p
  cases source with
  | memberRef root path e => rw [property] <;> simp
  | _ => cases h

end Lowering

end Projection
