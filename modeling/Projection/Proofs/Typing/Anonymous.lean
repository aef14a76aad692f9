import Projection.Proofs.Typing.Closed

/-!
The anonymous types in a type. Those in an inferred type are the types of object literals, or come
with the types of parameters; a type without any can be written out.
-/

namespace Projection

namespace TypeRef

mutual

def anonymousTypes : TypeRef → List AnonymousType
  | ⟨kind, _⟩ => kindAnonymousTypes kind

def kindAnonymousTypes : TypeKind → List AnonymousType
  | .primitive _ | .generated _ => []
  | .named _ args _ => anonymousTypesAll args
  | .array element => anonymousTypes element
  | .anonymous ⟨sourceType, members⟩ => ⟨sourceType, members⟩ :: memberAnonymousTypes members

def anonymousTypesAll : List TypeRef → List AnonymousType
  | [] => []
  | t :: ts => anonymousTypes t ++ anonymousTypesAll ts

def memberAnonymousTypes : List AnonymousMember → List AnonymousType
  | [] => []
  | ⟨_, _, none, _⟩ :: ms => memberAnonymousTypes ms
  | ⟨_, _, some t, _⟩ :: ms => anonymousTypes t ++ memberAnonymousTypes ms

end

theorem anonymousTypesAll_eq (ts : List TypeRef) :
    anonymousTypesAll ts = ts.flatMap anonymousTypes := by
  induction ts with
  | nil => rfl
  | cons t ts ih => rw [anonymousTypesAll, ih, List.flatMap_cons]

theorem mem_memberAnonymousTypes {a : AnonymousType} {ms : List AnonymousMember} :
    a ∈ memberAnonymousTypes ms ↔ ∃ m ∈ ms, ∃ t, m.type = some t ∧ a ∈ t.anonymousTypes := by
  induction ms with
  | nil => simp [memberAnonymousTypes]
  | cons m ms ih =>
      obtain ⟨name, e, type, chainOnly⟩ := m
      cases type <;> simp [memberAnonymousTypes, ih]

@[simp] theorem anonymousTypes_withNullable (t : TypeRef) (n : Bool) :
    (t.withNullable n).anonymousTypes = t.anonymousTypes := by
  obtain ⟨kind, m⟩ := t
  rfl

theorem mem_anonymousTypes_named {a : AnonymousType} {name : String} {args : List TypeRef}
    {v n : Bool} :
    a ∈ anonymousTypes ⟨.named name args v, n⟩ ↔ ∃ t ∈ args, a ∈ t.anonymousTypes := by
  rw [anonymousTypes, kindAnonymousTypes, anonymousTypesAll_eq, List.mem_flatMap]

theorem mem_anonymousTypes_anonymous {a type : AnonymousType} {n : Bool} :
    a ∈ anonymousTypes ⟨.anonymous type, n⟩ ↔
      a = type ∨ ∃ m ∈ type.members, ∃ t, m.type = some t ∧ a ∈ t.anonymousTypes := by
  obtain ⟨sourceType, members⟩ := type
  rw [anonymousTypes, kindAnonymousTypes, List.mem_cons, mem_memberAnonymousTypes]

mutual

/-- What is in an anonymous type is in every type that has it. -/
theorem anonymousTypes_trans {a b : AnonymousType} (ha : a ∈ (anonymous b).anonymousTypes)
    (t : TypeRef) (hb : b ∈ t.anonymousTypes) : a ∈ t.anonymousTypes := by
  match t with
  | ⟨.primitive _, _⟩ | ⟨.generated _, _⟩ => cases hb
  | ⟨.named _ args _, _⟩ => exact anonymousTypesAll_trans ha args hb
  | ⟨.array element, _⟩ => exact anonymousTypes_trans ha element hb
  | ⟨.anonymous ⟨sourceType, members⟩, _⟩ =>
      rcases List.mem_cons.1 hb with rfl | hb
      · exact ha
      · exact List.mem_cons_of_mem _ (memberAnonymousTypes_trans ha members hb)

theorem anonymousTypesAll_trans {a b : AnonymousType} (ha : a ∈ (anonymous b).anonymousTypes)
    (ts : List TypeRef) (hb : b ∈ anonymousTypesAll ts) : a ∈ anonymousTypesAll ts := by
  match ts with
  | [] => cases hb
  | t :: ts =>
      rcases List.mem_append.1 hb with hb | hb
      · exact List.mem_append_left _ (anonymousTypes_trans ha t hb)
      · exact List.mem_append_right _ (anonymousTypesAll_trans ha ts hb)

theorem memberAnonymousTypes_trans {a b : AnonymousType}
    (ha : a ∈ (anonymous b).anonymousTypes) (ms : List AnonymousMember)
    (hb : b ∈ memberAnonymousTypes ms) : a ∈ memberAnonymousTypes ms := by
  match ms with
  | [] => cases hb
  | ⟨_, _, none, _⟩ :: ms => exact memberAnonymousTypes_trans ha ms hb
  | ⟨_, _, some t, _⟩ :: ms =>
      rcases List.mem_append.1 hb with hb | hb
      · exact List.mem_append_left _ (anonymousTypes_trans ha t hb)
      · exact List.mem_append_right _ (memberAnonymousTypes_trans ha ms hb)

end

mutual

/-- A type without anonymous ones can be written out. -/
theorem exists_expr? (t : TypeRef) (h : t.anonymousTypes = []) : ∃ e, t.expr? = some e := by
  obtain ⟨kind, nullable⟩ := t
  obtain ⟨e, he⟩ : ∃ e, kindExpr? kind = some e := by
    match kind with
    | .primitive _ | .generated _ => exact ⟨_, rfl⟩
    | .named name args _ =>
        obtain ⟨es, hes⟩ := exists_exprs?_of_anonymousTypesAll args h
        exact ⟨.named name es, by rw [kindExpr?, hes]; rfl⟩
    | .array element =>
        obtain ⟨e, he⟩ := exists_expr? element h
        exact ⟨.array e, by rw [kindExpr?, he]; rfl⟩
    | .anonymous ⟨_, _⟩ => cases h
  cases nullable with
  | false => exact ⟨e, he⟩
  | true => exact ⟨e.asNullable, by rw [expr?, he]; rfl⟩

theorem exists_exprs?_of_anonymousTypesAll (ts : List TypeRef) (h : anonymousTypesAll ts = []) :
    ∃ es, exprs? ts = some es := by
  match ts with
  | [] => exact ⟨[], rfl⟩
  | t :: ts =>
      obtain ⟨ht, hts⟩ := List.append_eq_nil_iff.1 h
      obtain ⟨e, he⟩ := exists_expr? t ht
      obtain ⟨es, hes⟩ := exists_exprs?_of_anonymousTypesAll ts hts
      exact ⟨e :: es, by rw [exprs?, he, hes]⟩

end

mutual

/-- Source text writes no anonymous types. -/
theorem anonymousTypes_ofExpr (m : Model) (t : TypeExpr) : (ofExpr m t).anonymousTypes = [] := by
  match t with
  | .nullable t =>
      rw [ofExpr, asNullable, anonymousTypes_withNullable]
      exact anonymousTypes_ofExpr m t
  | .array t => exact anonymousTypes_ofExpr m t
  | .generated id => rfl
  | .named name [] =>
      rw [ofExpr]
      split <;> rfl
  | .named name (a :: as) =>
      rw [ofExpr]
      split
      · rw [asNullable, anonymousTypes_withNullable]
        exact anonymousTypes_ofExpr m a
      · exact List.append_eq_nil_iff.2 ⟨anonymousTypes_ofExpr m a, anonymousTypesAll_ofExprs m as⟩

theorem anonymousTypesAll_ofExprs (m : Model) (ts : List TypeExpr) :
    anonymousTypesAll (ofExprs m ts) = [] := by
  match ts with
  | [] => rfl
  | t :: ts =>
      exact List.append_eq_nil_iff.2 ⟨anonymousTypes_ofExpr m t, anonymousTypesAll_ofExprs m ts⟩

end

theorem anonymousTypes_of_parse? {m : Model} {text : String} {t : TypeRef}
    (h : parse? m text = some t) : t.anonymousTypes = [] := by
  obtain ⟨e, _, rfl⟩ := parse?_eq_some_iff.1 h
  exact anonymousTypes_ofExpr m e

/-- The base library adds no anonymous types. -/
theorem closed_anonymousTypes (Q : AnonymousType → Prop) :
    Closed fun t => ∀ a ∈ t.anonymousTypes, Q a where
  primitive _ h := by cases h
  library _ _ _ h := by cases h
  sequence _ h a ha := by
    obtain ⟨t, ht, ha⟩ := mem_anonymousTypes_named.1 ha
    cases List.mem_singleton.1 ht
    exact h a ha
  array h := h
  withNullable h n := by
    rw [anonymousTypes_withNullable]
    exact h
  args := by
    rintro ⟨_, n⟩ name args v h rfl t ht a ha
    exact h a (mem_anonymousTypes_named.2 ⟨t, ht, ha⟩)
  element := by
    rintro ⟨_, n⟩ u h rfl
    exact h
  member := by
    rintro ⟨_, n⟩ type h rfl m hm u hu a ha
    exact h a (mem_anonymousTypes_anonymous.2 (.inr ⟨m, hm, u, hu, ha⟩))

end TypeRef

/-- Inference gives the type to an object literal. -/
def AnonymousType.OfLiteral (type : AnonymousType) : Prop :=
  ∃ Γ members, type = Typing.anonymousType Γ members

namespace Typing

theorem closed_anonymousTypes {m : Model} {source : Expr → Prop} {Q : AnonymousType → Prop}
    (hchild : ∀ {c e}, source e → c ∈ e.children → source c)
    (hQ : ∀ Γ members, source (.anonymous members) → Q (anonymousType Γ members)) :
    Closed m source fun t => ∀ a ∈ t.anonymousTypes, Q a where
  toClosed := TypeRef.closed_anonymousTypes Q
  declared _ _ _ h := by cases h
  parsed h := by
    rw [TypeRef.anonymousTypes_of_parse? h]
    exact List.forall_mem_nil _
  types _ t _ := by
    rw [TypeRef.anonymousTypes_ofExpr]
    exact List.forall_mem_nil _
  child := hchild
  literal := by
    intro Γ members hs hc a ha
    rcases TypeRef.mem_anonymousTypes_anonymous.1 ha with rfl | ⟨m, hm, t, ht, ha⟩
    · exact hQ Γ members hs
    · obtain ⟨i, hi, hm⟩ := List.mem_filterMap.1 hm
      obtain ⟨name, _, rfl⟩ := Option.map_eq_some_iff.1 hm
      exact hc i.value (List.mem_map.2 ⟨i, hi, rfl⟩) t ht a ha

/-- What parameters do not bring is there because of an object literal. -/
theorem ofLiteral_or_bound {Γ : Context} {e : Expr} {t : TypeRef} (h : infer? Γ e = some t)
    {a : AnonymousType} (ha : a ∈ t.anonymousTypes) :
    a.OfLiteral ∨ ∃ b ∈ Γ.bindings, a ∈ b.2.anonymousTypes := by
  have C : Closed Γ.model (fun _ => True) fun t => ∀ a ∈ t.anonymousTypes,
      a.OfLiteral ∨ ∃ b ∈ Γ.bindings, a ∈ b.2.anonymousTypes :=
    closed_anonymousTypes (fun _ _ => trivial) fun Γ members _ => .inl ⟨Γ, members, rfl⟩
  exact C.infer? (fun b hb a ha => .inr ⟨b, hb, ha⟩) trivial t h a ha

end Typing

end Projection
