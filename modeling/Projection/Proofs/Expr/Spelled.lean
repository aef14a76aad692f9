import Projection.Expr.Generated
import Projection.Proofs.Expr.Nodes

/-!
The types written at the nodes of an expression. An expression is spelled out when none of them is
or holds a generated type.
-/

namespace Projection.Expr

def types : Expr → List TypeExpr
  | invoke _ ts _ => ts
  | creation t _ _ | cast t _ | defaultValue (some t) => [t]
  | _ => []

@[simp] theorem types_withChildren (e : Expr) (cs : List Expr) :
    (e.withChildren cs).types = e.types := by
  fun_cases withChildren e cs <;> rfl

@[simp] theorem types_clearOptional (e : Expr) : e.clearOptional.types = e.types := by
  fun_cases clearOptional e <;> rfl

@[simp] theorem generatedIdsAll_eq (es : List Expr) :
    generatedIdsAll es = es.flatMap generatedIds := by
  induction es <;> simp_all [generatedIdsAll]

theorem generatedIdsIn_eq (ms : List Initializer) :
    generatedIdsIn ms = (ms.map (·.value)).flatMap generatedIds := by
  induction ms with
  | nil => rfl
  | cons m ms ih =>
      obtain ⟨name, e⟩ := m
      simp [generatedIdsIn, ih]

theorem generatedIdsOf_eq (ps : List Part) :
    generatedIdsOf ps = (ps.filterMap Part.expr?).flatMap generatedIds := by
  induction ps with
  | nil => rfl
  | cons p ps ih => cases p <;> simp [generatedIdsOf, List.filterMap_cons, Part.expr?, ih]

/-- What a node mentions stands at the node or is mentioned by a child. -/
theorem mem_generatedIds {id : StructuralId} {e : Expr} :
    id ∈ e.generatedIds ↔
      (∃ t ∈ e.types, id ∈ t.generatedIds) ∨ ∃ c ∈ e.children, id ∈ c.generatedIds := by
  cases e with
  | defaultValue t => cases t <;> simp [generatedIds, types, children]
  | creation t as initializers =>
      cases initializers with
      | none => simp [generatedIds, types, children]
      | some ms =>
          simp [generatedIds, generatedIdsIn_eq, types, children, or_and_right, exists_or]
  | invoke t ts as =>
      simp only [generatedIds, types, children, generatedIdsAll_eq, List.mem_append,
        List.mem_flatMap, List.mem_cons, exists_eq_or_imp]
      rw [or_comm (a := id ∈ t.generatedIds), or_assoc]
  | anonymous ms => simp [generatedIds, generatedIdsIn_eq, types, children]
  | interpolated ps => simp [generatedIds, generatedIdsOf_eq, types, children]
  | _ => simp [generatedIds, types, children]

theorem exists_node_of_mem_generatedIds {id : StructuralId} {e : Expr} (h : id ∈ e.generatedIds) :
    ∃ n ∈ e.nodes, ∃ t ∈ n.types, id ∈ t.generatedIds := by
  induction e using childInduction with
  | h e ih =>
      rcases mem_generatedIds.1 h with h | ⟨c, hc, h⟩
      · exact ⟨e, self_mem_nodes e, h⟩
      · obtain ⟨n, hn, ht⟩ := ih c hc h
        exact ⟨n, mem_nodes_of_mem_children hc hn, ht⟩

theorem unparen_of_children {P : Expr → Prop} (hP : ∀ {c e}, P e → c ∈ e.children → P c)
    {e : Expr} (h : P e) : P e.unparen := by
  fun_induction unparen e with
  | case1 e ih => exact ih (hP h (by simp [children]))
  | case2 => exact h

def Spelled (e : Expr) : Prop := e.Every fun n => ∀ t ∈ n.types, t.generatedIds = []

theorem Spelled.withoutOptional {e : Expr} (h : e.Spelled) : e.withoutOptional.Spelled := by
  induction e using childInduction with
  | h e ih =>
      refine every_iff.2 ⟨?_, ?_⟩
      · rw [withoutOptional_eq, types_clearOptional, types_withChildren]
        exact Every.self h
      · rw [children_withoutOptional]
        exact List.forall_mem_map.2 fun c hc => ih c hc (Every.child h hc)

end Projection.Expr
