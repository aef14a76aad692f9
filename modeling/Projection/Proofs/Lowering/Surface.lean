import Projection.Proofs.Lowering.Invariant

/-!
Optional access and object literals exist on the surface only. Lowering leaves none of them in
sight: what is left of them stands behind a note.
-/

namespace Projection

namespace Expr

def Plain (e : Expr) : Prop := ∀ n ∈ e.visible, n.isSurface = false

theorem plain_marked (note : String) (e : Expr) : (marked note e).Plain := by
  intro n hn
  rw [visible_marked] at hn
  cases List.mem_singleton.1 hn
  rfl

theorem plain_of_children {e : Expr} (he : e.isSurface = false) (hc : ∀ c ∈ e.children, c.Plain) :
    e.Plain := by
  cases hm : e.isMarked with
  | true =>
      cases e <;> cases hm
      exact plain_marked _ _
  | false =>
      intro n hn
      rw [visible_of_not_marked hm] at hn
      rcases List.mem_cons.1 hn with rfl | hn
      · exact he
      · obtain ⟨c, hcm, hn⟩ := List.mem_flatMap.1 hn
        exact hc c hcm n hn

theorem plain_withChildren {e : Expr} {cs : List Expr} (he : e.isSurface = false)
    (hl : cs.length = e.children.length) (hc : ∀ c ∈ cs, c.Plain) : (e.withChildren cs).Plain := by
  apply plain_of_children
  · simpa using he
  · rwa [children_withChildren e cs hl]

theorem plain_creation {t : TypeExpr} {as : List Expr} {ms : Option (List Initializer)}
    (ha : ∀ a ∈ as, a.Plain) (hm : ∀ is ∈ ms, ∀ i ∈ is, i.value.Plain) :
    (creation t as ms).Plain := by
  apply plain_of_children rfl
  cases ms with
  | none => exact ha
  | some is =>
      intro c hc
      rcases List.mem_append.1 hc with hc | hc
      · exact ha c hc
      · obtain ⟨i, hi, rfl⟩ := List.mem_map.1 hc
        exact hm is rfl i hi

end Expr

namespace Lowering

open Projection.Expr

def plainInvariant : Invariant where
  tree := Plain
  source _ := True
  context _ := True
  known _ := True
  made _ := True

theorem plainInvariant_names (id : StructuralId) : plainInvariant.Names id :=
  ⟨⟨"", [], id⟩, trivial, rfl⟩

theorem plainInvariant_writable (t : TypeRef) : plainInvariant.Writable t :=
  fun id _ => plainInvariant_names id

theorem plainInvariant_known (s : Structure) : plainInvariant.Known s :=
  fun _ _ => ⟨trivial, fun p _ => plainInvariant_writable p.declaredType⟩

theorem plainInvariant_sourced (s : Structure) : plainInvariant.Sourced s :=
  fun _ _ _ _ => trivial

theorem plainInvariant_kept (settings : Settings) : plainInvariant.Kept settings where
  ident := plain_of_children rfl (by simp [children])
  literal := plain_of_children rfl (by simp [children])
  defaultValue := plain_of_children rfl (by simp [children])
  dot h := plain_of_children rfl (List.forall_mem_singleton.2 h)
  index h ha := plain_of_children rfl (List.forall_mem_cons.2 ⟨h, ha⟩)
  invoke h _ ha := plain_of_children rfl (List.forall_mem_cons.2 ⟨h, ha⟩)
  lambda h := plain_of_children rfl (List.forall_mem_singleton.2 h)
  conditional hc ht hf :=
    plain_of_children rfl (List.forall_mem_cons.2 ⟨hc, List.forall_mem_cons.2
      ⟨ht, List.forall_mem_singleton.2 hf⟩⟩)
  binary hl hr :=
    plain_of_children rfl (List.forall_mem_cons.2 ⟨hl, List.forall_mem_singleton.2 hr⟩)
  cast _ h := plain_of_children rfl (List.forall_mem_singleton.2 h)
  paren h := plain_of_children rfl (List.forall_mem_singleton.2 h)
  marked _ := plain_marked _ _
  empty _ _ := plain_creation (by simp) (by simp)
  create _ h := by
    apply plain_creation (by simp)
    rintro _ ⟨⟩
    exact List.forall_mem_map.2 h
  copy _ he hl hc := plain_withChildren he hl hc
  child _ _ := trivial
  typeArgs _ _ _ := fun id _ => plainInvariant_names id
  inferred _ _ _ := plainInvariant_writable _
  bind _ _ _ := trivial
  enter _ _ _ := trivial
  object _ _ := trivial
  sourced _ := plainInvariant_sourced _

theorem plain_body (settings : Settings) (depth : Nat) (Γ : Context) (shape : Shape)
    (s : Structure) : (body settings depth Γ shape s).value.Plain := by
  refine (plainInvariant_kept settings).tree_body trivial ?_ ?_ fun q _ => plainInvariant_known q
  · exact ⟨trivial, fun _ _ => trivial, plainInvariant_sourced s⟩
  · exact ⟨fun _ _ _ _ ha hm => plain_creation ha hm, fun _ => plainInvariant_known s,
      fun p _ => ⟨plainInvariant_writable _, fun n _ => plainInvariant_known n⟩⟩

/-- Whatever is lowered and however deep, be it an expression for a place of any type, a property or
a whole projection, optional access and object literals are left only behind notes. -/
theorem surface_forms_only_behind_notes (settings : Settings) (depth : Nat) (Γ : Context) :
    (∀ e declared, ∀ n ∈ (expr settings depth Γ e declared).value.visible,
      n.isOptionalAccess = false ∧ n.isObject = false) ∧
    (∀ p, ∀ n ∈ (property settings depth Γ p).value.visible,
      n.isOptionalAccess = false ∧ n.isObject = false) ∧
    ∀ shape elementType s, ∀ n ∈ (projection settings depth Γ shape elementType s).value.visible,
      n.isOptionalAccess = false ∧ n.isObject = false := by
  have split {e : Expr} (h : e.Plain) :
      ∀ n ∈ e.visible, n.isOptionalAccess = false ∧ n.isObject = false :=
    fun n hn => Bool.or_eq_false_iff.1 (h n hn)
  have rules := plainInvariant_kept settings
  have trees := rules.treeRelation_kept
  refine ⟨fun e declared => ?_, fun p => ?_, fun shape elementType s => ?_⟩
  · refine split (trees.expr _ Γ e declared trivial trivial ?_ ?_)
    · exact fun t _ => plainInvariant_writable t
    · exact fun s _ => plainInvariant_known s
  · refine split (trees.property _ Γ p trivial trivial (plainInvariant_writable _) ?_ ?_)
    · exact fun n _ => ⟨plainInvariant_sourced n, plainInvariant_known n⟩
    · exact fun s _ => plainInvariant_known s
  · exact split (rules.lambda (plain_body settings _ _ shape s))

end Lowering

end Projection
