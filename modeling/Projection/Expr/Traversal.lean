import Projection.Expr.Basic

/-!
Direct children of an expression and rebuilding it around new ones. Recursive passes that treat most
nodes alike go through these two functions, and `childInduction` is the matching proof principle.
-/

namespace Projection.Expr

/-- Direct children in source order. -/
def children : Expr → List Expr
  | ident _ | this | literal _ | defaultValue _ => []
  | member t _ _ => [t]
  | index t as _ => t :: as
  | invoke t _ as => t :: as
  | lambda _ b => [b]
  | anonymous ms => ms.map (·.value)
  | creation _ as none => as
  | creation _ as (some ms) => as ++ ms.map (·.value)
  | conditional c t f => [c, t, f]
  | binary _ l r => [l, r]
  | unary _ e | cast _ e | paren e | marked _ e => [e]
  | interpolated ps => ps.filterMap Part.expr?

/-- Initializers with the same names and other values. -/
def renew (ms : List Initializer) (values : List Expr) : List Initializer :=
  ms.zipWith (fun m v => ⟨m.name, v⟩) values

/-- Parts with the same texts and formats and other expressions in the holes. -/
def refill : List Part → List Expr → List Part
  | [], _ => []
  | .text s :: ps, es => .text s :: refill ps es
  | .hole _ f :: ps, e :: es => .hole e f :: refill ps es
  | .hole e f :: ps, [] => .hole e f :: refill ps []

/-- The same node around other children. -/
def withChildren : Expr → List Expr → Expr
  | member _ n o, t :: _ => member t n o
  | index _ _ o, t :: as => index t as o
  | invoke _ ts _, t :: as => invoke t ts as
  | lambda ps _, b :: _ => lambda ps b
  | anonymous ms, vs => anonymous (renew ms vs)
  | creation t _ none, as => creation t as none
  | creation t as (some ms), cs =>
      creation t (cs.take as.length) (some (renew ms (cs.drop as.length)))
  | conditional _ _ _, c :: t :: f :: _ => conditional c t f
  | binary op _ _, l :: r :: _ => binary op l r
  | unary op _, e :: _ => unary op e
  | cast t _, e :: _ => cast t e
  | paren _, e :: _ => paren e
  | marked n _, e :: _ => marked n e
  | interpolated ps, es => interpolated (refill ps es)
  | e, _ => e

theorem renew_values (ms : List Initializer) : renew ms (ms.map (·.value)) = ms := by
  induction ms with
  | nil => rfl
  | cons m ms ih =>
      obtain ⟨n, v⟩ := m
      simpa [renew] using ih

theorem values_renew (ms : List Initializer) (vs : List Expr) (h : vs.length = ms.length) :
    (renew ms vs).map (·.value) = vs := by
  induction ms generalizing vs with
  | nil => simp_all [renew]
  | cons m ms ih =>
      cases vs with
      | nil => simp at h
      | cons v vs => simpa [renew] using ih vs (by simpa using h)

theorem refill_holes (ps : List Part) : refill ps (ps.filterMap Part.expr?) = ps := by
  induction ps with
  | nil => rfl
  | cons p ps ih => cases p <;> simp [refill, List.filterMap_cons, Part.expr?, ih]

theorem holes_refill (ps : List Part) (es : List Expr)
    (h : es.length = (ps.filterMap Part.expr?).length) :
    (refill ps es).filterMap Part.expr? = es := by
  induction ps generalizing es with
  | nil => simp_all [refill]
  | cons p ps ih =>
      cases p with
      | text s =>
          simp only [List.filterMap_cons, Part.expr?] at h
          simpa [refill, List.filterMap_cons, Part.expr?] using ih es h
      | hole e f =>
          cases es with
          | nil => simp [Part.expr?] at h
          | cons d es =>
              simp only [List.filterMap_cons, Part.expr?, List.length_cons,
                Nat.add_right_cancel_iff] at h
              simpa [refill, List.filterMap_cons, Part.expr?] using ih es h

@[simp] theorem withChildren_children (e : Expr) : e.withChildren e.children = e := by
  cases e with
  | creation t as i => cases i <;> simp [children, withChildren, renew_values]
  | _ => simp [children, withChildren, renew_values, refill_holes]

theorem children_withChildren (e : Expr) (cs : List Expr) (h : cs.length = e.children.length) :
    (e.withChildren cs).children = cs := by
  cases e with
  | creation t as i =>
      cases i with
      | none => simp [children, withChildren]
      | some ms =>
          simp only [children, List.length_append, List.length_map] at h
          rw [withChildren, children, values_renew ms _ (by simp; omega)]
          simp
  | anonymous ms =>
      simpa [children, withChildren] using values_renew ms cs (by simpa [children] using h)
  | interpolated ps =>
      simpa [children, withChildren] using holes_refill ps cs (by simpa [children] using h)
  | ident _ | this | literal _ | defaultValue _ => simp_all [children, withChildren]
  | member _ _ _ | lambda _ _ | unary _ _ | cast _ _ | paren _ | marked _ _ =>
      match cs, h with
      | [_], _ => rfl
  | index _ _ _ | invoke _ _ _ =>
      match cs, h with
      | _ :: _, _ => rfl
  | conditional _ _ _ =>
      match cs, h with
      | [_, _, _], _ => rfl
  | binary _ _ _ =>
      match cs, h with
      | [_, _], _ => rfl

theorem sizeOf_lt_of_mem_children {c e : Expr} (h : c ∈ e.children) : sizeOf c < sizeOf e := by
  have hinit : ∀ {ms : List Initializer}, c ∈ ms.map (·.value) → sizeOf c < sizeOf ms := by
    intro ms hm
    obtain ⟨⟨n, v⟩, hmem, rfl⟩ := List.mem_map.1 hm
    have := List.sizeOf_lt_of_mem hmem
    simp only [Initializer.mk.sizeOf_spec] at this ⊢
    omega
  have hpart : ∀ {ps : List Part}, c ∈ ps.filterMap Part.expr? → sizeOf c < sizeOf ps := by
    intro ps hm
    obtain ⟨p, hmem, hp⟩ := List.mem_filterMap.1 hm
    have := List.sizeOf_lt_of_mem hmem
    cases p with
    | text _ => cases hp
    | hole e f =>
        cases hp
        simp only [Part.hole.sizeOf_spec] at this
        omega
  cases e with
  | ident _ | this | literal _ | defaultValue _ => simp [children] at h
  | member _ _ _ | lambda _ _ | unary _ _ | cast _ _ | paren _ | marked _ _ =>
      cases List.mem_singleton.1 h
      simp
      try omega
  | index t as o =>
      rcases List.mem_cons.1 h with rfl | h
      · simp; omega
      · have := List.sizeOf_lt_of_mem h
        simp; omega
  | invoke t ts as =>
      rcases List.mem_cons.1 h with rfl | h
      · simp; omega
      · have := List.sizeOf_lt_of_mem h
        simp; omega
  | anonymous ms =>
      have := hinit h
      simp; omega
  | creation t as i =>
      cases i with
      | none =>
          have := List.sizeOf_lt_of_mem (show c ∈ as from h)
          simp; omega
      | some ms =>
          rcases List.mem_append.1 h with h | h
          · have := List.sizeOf_lt_of_mem h
            simp; omega
          · have := hinit h
            simp; omega
  | conditional _ _ _ | binary _ _ _ =>
      simp only [children, List.mem_cons, List.not_mem_nil, or_false] at h
      rcases h with h
      simp
      grind
  | interpolated ps =>
      have := hpart h
      simp; omega

/-- To prove a fact of all expressions, prove it of a node from its children. -/
theorem childInduction {P : Expr → Prop} (h : ∀ e, (∀ c ∈ e.children, P c) → P e) (e : Expr) :
    P e :=
  h e fun c _ => childInduction h c
termination_by sizeOf e
decreasing_by exact sizeOf_lt_of_mem_children ‹_›

def size (e : Expr) : Nat := 1 + (e.children.attach.map fun c => size c.1).foldr (· + ·) 0
termination_by sizeOf e
decreasing_by exact sizeOf_lt_of_mem_children c.2

theorem size_eq (e : Expr) : e.size = 1 + (e.children.map size).foldr (· + ·) 0 := by
  rw [size, List.attach_map_val]

theorem size_pos (e : Expr) : 0 < e.size := by
  rw [size_eq]
  omega

theorem size_le_sum {c : Expr} {cs : List Expr} (h : c ∈ cs) :
    c.size ≤ (cs.map size).foldr (· + ·) 0 := by
  induction cs with
  | nil => simp at h
  | cons d cs ih =>
      rw [List.map_cons, List.foldr_cons]
      rcases List.mem_cons.1 h with rfl | h
      · omega
      · have := ih h
        omega

theorem size_lt_of_mem_children {c e : Expr} (h : c ∈ e.children) : c.size < e.size := by
  have := size_le_sum h
  rw [size_eq e]
  omega

def any (p : Expr → Bool) (e : Expr) : Bool := p e || e.children.attach.any fun c => any p c.1
termination_by sizeOf e
decreasing_by exact sizeOf_lt_of_mem_children c.2

theorem any_eq (p : Expr → Bool) (e : Expr) : e.any p = (p e || e.children.any (any p)) := by
  rw [any]
  simp

def isConditional : Expr → Bool
  | conditional _ _ _ => true
  | _ => false

def isOptionalAccess : Expr → Bool
  | member _ _ true | index _ _ true => true
  | _ => false

/-- Whether `?:` occurs anywhere, also inside nested lambdas. -/
def hasConditional (e : Expr) : Bool := e.any isConditional

def hasOptionalAccess (e : Expr) : Bool := e.any isOptionalAccess

def clearOptional : Expr → Expr
  | member t n _ => member t n false
  | index t as _ => index t as false
  | e => e

/-- A copy in which every optional access is plain. -/
def withoutOptional (e : Expr) : Expr :=
  (e.withChildren (e.children.attach.map fun c => withoutOptional c.1)).clearOptional
termination_by sizeOf e
decreasing_by exact sizeOf_lt_of_mem_children c.2

theorem withoutOptional_eq (e : Expr) :
    e.withoutOptional = (e.withChildren (e.children.map withoutOptional)).clearOptional := by
  rw [withoutOptional]
  simp

theorem size_unparen_le (e : Expr) : e.unparen.size ≤ e.size := by
  fun_induction unparen e with
  | case1 e ih =>
      have := size_lt_of_mem_children (show e ∈ (paren e).children by simp [children])
      omega
  | case2 => exact Nat.le_refl _

@[simp] theorem children_clearOptional (e : Expr) : e.clearOptional.children = e.children := by
  fun_cases clearOptional e <;> rfl

theorem children_withoutOptional (e : Expr) :
    e.withoutOptional.children = e.children.map withoutOptional := by
  rw [withoutOptional_eq, children_clearOptional, children_withChildren _ _ (by simp)]

@[simp] theorem size_withoutOptional (e : Expr) : e.withoutOptional.size = e.size := by
  induction e using childInduction with
  | h e ih =>
      rw [size_eq, size_eq e, children_withoutOptional, List.map_map]
      congr 2
      exact List.map_congr_left ih

end Projection.Expr
