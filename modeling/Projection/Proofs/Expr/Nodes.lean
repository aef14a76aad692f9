import Projection.Expr.Traversal

/-!
The nodes of an expression, all of them and those that no note stands in front of. A property of
every node is a property of the root and of the children, and rebuilding a node around good children
keeps it.
-/

namespace Projection.Expr

def nodes (e : Expr) : List Expr := e :: e.children.attach.flatMap fun c => nodes c.1
termination_by sizeOf e
decreasing_by exact sizeOf_lt_of_mem_children c.2

theorem nodes_eq (e : Expr) : e.nodes = e :: e.children.flatMap nodes := by
  rw [nodes]
  congr 1
  conv => rhs; rw [← List.attach_map_subtype_val e.children, List.flatMap_map]

theorem self_mem_nodes (e : Expr) : e ∈ e.nodes := by
  rw [nodes_eq]
  exact List.mem_cons_self ..

theorem mem_nodes_of_mem_children {n c e : Expr} (hc : c ∈ e.children) (hn : n ∈ c.nodes) :
    n ∈ e.nodes := by
  rw [nodes_eq]
  exact List.mem_cons_of_mem _ (List.mem_flatMap.2 ⟨c, hc, hn⟩)

theorem nodes_subset {d e : Expr} (h : d ∈ e.nodes) : d.nodes ⊆ e.nodes := by
  induction e using childInduction with
  | h e ih =>
      rw [nodes_eq e] at h
      rcases List.mem_cons.1 h with rfl | h
      · exact List.Subset.refl _
      · obtain ⟨c, hc, h⟩ := List.mem_flatMap.1 h
        exact fun n hn => mem_nodes_of_mem_children hc (ih c hc h hn)

theorem unparen_mem_nodes (e : Expr) : e.unparen ∈ e.nodes := by
  fun_induction unparen e with
  | case1 e ih => exact mem_nodes_of_mem_children (by simp [children]) ih
  | case2 e => exact self_mem_nodes e

def Every (P : Expr → Prop) (e : Expr) : Prop := ∀ n ∈ e.nodes, P n

theorem every_iff {P : Expr → Prop} {e : Expr} :
    e.Every P ↔ P e ∧ ∀ c ∈ e.children, c.Every P := by
  unfold Every
  rw [nodes_eq]
  simp only [List.mem_cons, forall_eq_or_imp, List.mem_flatMap, forall_exists_index, and_imp]
  exact and_congr_right fun _ => ⟨fun h c hc n hn => h n c hc hn, fun h n c hc hn => h c hc n hn⟩

theorem Every.self {P : Expr → Prop} {e : Expr} (h : e.Every P) : P e := (every_iff.1 h).1

theorem Every.child {P : Expr → Prop} {c e : Expr} (h : e.Every P) (hc : c ∈ e.children) :
    c.Every P :=
  (every_iff.1 h).2 c hc

theorem Every.mono {P Q : Expr → Prop} {e : Expr} (h : e.Every P) (hpq : ∀ n, P n → Q n) :
    e.Every Q :=
  fun n hn => hpq n (h n hn)

theorem Every.unparen {P : Expr → Prop} {e : Expr} (h : e.Every P) : e.unparen.Every P := by
  fun_induction Expr.unparen e with
  | case1 e ih => exact ih (h.child (by simp [children]))
  | case2 => exact h

/-- What children inherit holds of all nodes. -/
theorem every_of_inherited {P : Expr → Prop} (hchild : ∀ {c e}, P e → c ∈ e.children → P c)
    {e : Expr} (h : P e) : e.Every P := by
  induction e using childInduction with
  | h e ih => exact every_iff.2 ⟨h, fun c hc => ih c hc (hchild h hc)⟩

theorem every_withChildren {P : Expr → Prop} {e : Expr} {cs : List Expr}
    (he : P (e.withChildren cs)) (hl : cs.length = e.children.length) (hc : ∀ c ∈ cs, c.Every P) :
    (e.withChildren cs).Every P := by
  refine every_iff.2 ⟨he, ?_⟩
  rwa [children_withChildren e cs hl]

theorem names_renew (ms : List Initializer) (vs : List Expr) (h : vs.length = ms.length) :
    (renew ms vs).map (·.name) = ms.map (·.name) := by
  induction ms generalizing vs with
  | nil => simp [renew]
  | cons m ms ih =>
      cases vs with
      | nil => simp at h
      | cons v vs => simpa [renew] using ih vs (by simpa using h)

def isMarked : Expr → Bool
  | marked _ _ => true
  | _ => false

/-- The nodes outside of notes. What stands behind a note is hidden, the note is not. -/
def visible (e : Expr) : List Expr :=
  e :: if e.isMarked then [] else e.children.attach.flatMap fun c => visible c.1
termination_by sizeOf e
decreasing_by exact sizeOf_lt_of_mem_children c.2

theorem visible_marked (note : String) (e : Expr) : (marked note e).visible = [marked note e] := by
  rw [visible]
  rfl

theorem visible_of_not_marked {e : Expr} (h : e.isMarked = false) :
    e.visible = e :: e.children.flatMap visible := by
  rw [visible, h]
  congr 1
  conv => rhs; rw [← List.attach_map_subtype_val e.children, List.flatMap_map]
  rfl

@[simp] theorem isMarked_withChildren (e : Expr) (cs : List Expr) :
    (e.withChildren cs).isMarked = e.isMarked := by
  fun_cases withChildren e cs <;> rfl

@[simp] theorem isOptionalAccess_member (t : Expr) (n : String) (o : Bool) :
    (member t n o).isOptionalAccess = o := by
  cases o <;> rfl

@[simp] theorem isOptionalAccess_index (t : Expr) (as : List Expr) (o : Bool) :
    (index t as o).isOptionalAccess = o := by
  cases o <;> rfl

@[simp] theorem isOptionalAccess_withChildren (e : Expr) (cs : List Expr) :
    (e.withChildren cs).isOptionalAccess = e.isOptionalAccess := by
  fun_cases withChildren e cs <;> first | rfl | simp

def isObject : Expr → Bool
  | anonymous _ => true
  | _ => false

/-- The forms that lowering takes out. -/
def isSurface (e : Expr) : Bool := e.isOptionalAccess || e.isObject

@[simp] theorem isSurface_withChildren (e : Expr) (cs : List Expr) :
    (e.withChildren cs).isSurface = e.isSurface := by
  have h : (e.withChildren cs).isObject = e.isObject := by
    fun_cases withChildren e cs <;> rfl
  simp [isSurface, h]

theorem isSurface_of_not_chainOptional {e : Expr} (h : e.chainOptional = false)
    (ho : ∀ ms, e ≠ anonymous ms) : e.isSurface = false := by
  cases e with
  | member t n o | index t as o =>
      simp only [chainOptional, Bool.or_eq_false_iff] at h
      simp [isSurface, isObject, h.1]
  | anonymous ms => exact absurd rfl (ho ms)
  | _ => rfl

theorem chainOptional_eq_false {e : Expr} (h : e.Every (·.isSurface = false)) :
    e.chainOptional = false := by
  induction e using childInduction with
  | h e ih =>
      have hself := h.self
      cases e with
      | member t name optional =>
          have ht := ih t (by simp [children]) (h.child (by simp [children]))
          cases optional <;> simp_all [chainOptional, isSurface]
      | index t as optional =>
          have ht := ih t (by simp [children]) (h.child (by simp [children]))
          cases optional <;> simp_all [chainOptional, isSurface]
      | invoke t ts as => exact ih t (by simp [children]) (h.child (by simp [children]))
      | _ => rfl

end Projection.Expr
