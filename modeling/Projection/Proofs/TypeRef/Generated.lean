import Projection.Expr.Generated
import Projection.TypeRef

/-!
Generated types that a static type mentions where it is written. Anonymous types cannot be written,
so nothing in them counts.
-/

namespace Projection.TypeRef

mutual

def generatedIds : TypeRef → List StructuralId
  | ⟨kind, _⟩ => kindIds kind

def kindIds : TypeKind → List StructuralId
  | .primitive _ | .anonymous _ => []
  | .named _ args _ => generatedIdsAll args
  | .array element => generatedIds element
  | .generated id => [id]

def generatedIdsAll : List TypeRef → List StructuralId
  | [] => []
  | t :: ts => generatedIds t ++ generatedIdsAll ts

end

@[simp] theorem generatedIdsAll_eq (ts : List TypeRef) :
    generatedIdsAll ts = ts.flatMap generatedIds := by
  induction ts <;> simp_all [generatedIdsAll]

@[simp] theorem generatedIds_withNullable (t : TypeRef) (n : Bool) :
    (t.withNullable n).generatedIds = t.generatedIds := by
  cases t
  rfl

theorem generatedIds_asNullable (t : TypeExpr) : t.asNullable.generatedIds = t.generatedIds := by
  cases t <;> rfl

mutual

theorem generatedIds_of_expr? {t : TypeRef} {e : TypeExpr} (h : t.expr? = some e) :
    e.generatedIds = t.generatedIds := by
  match t with
  | ⟨kind, true⟩ =>
      obtain ⟨f, hf, rfl⟩ := Option.map_eq_some_iff.1 h
      rw [generatedIds_asNullable]
      exact generatedIds_of_kindExpr? hf
  | ⟨kind, false⟩ => exact generatedIds_of_kindExpr? h

theorem generatedIds_of_kindExpr? {kind : TypeKind} {e : TypeExpr} (h : kindExpr? kind = some e) :
    e.generatedIds = kindIds kind := by
  match kind with
  | .primitive p =>
      cases h
      rfl
  | .named name args v =>
      obtain ⟨es, hes, rfl⟩ := Option.map_eq_some_iff.1 h
      exact generatedIds_of_exprs? hes
  | .array element =>
      obtain ⟨f, hf, rfl⟩ := Option.map_eq_some_iff.1 h
      change f.generatedIds = _
      exact generatedIds_of_expr? hf
  | .anonymous _ => cases h
  | .generated id =>
      cases h
      rfl

theorem generatedIds_of_exprs? {ts : List TypeRef} {es : List TypeExpr} (h : exprs? ts = some es) :
    TypeExpr.generatedIdsAll es = generatedIdsAll ts := by
  match ts with
  | [] =>
      cases h
      rfl
  | t :: ts =>
      rw [exprs?] at h
      split at h
      · rename_i he hes
        cases h
        rw [TypeExpr.generatedIdsAll, generatedIdsAll, generatedIds_of_expr? he,
          generatedIds_of_exprs? hes]
      · cases h

end

/-- An element mentions nothing that the sequence does not. -/
theorem generatedIds_element?_subset {t u : TypeRef} (h : t.element? = some u) :
    u.generatedIds ⊆ t.generatedIds := by
  obtain ⟨kind, n⟩ := t
  unfold element? at h
  split at h
  · rename_i hk
    cases h
    cases hk
    exact List.Subset.refl _
  · rename_i hk
    split at h
    · cases h
      cases hk
      simp [generatedIds, kindIds]
    · cases h
  · cases h

end Projection.TypeRef
