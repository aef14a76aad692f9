import Projection.Emission
import Projection.Proofs.Structure.Sound
import Projection.Proofs.Typing.Anonymous

/-!
What becomes of the anonymous types in an object literal. Every one turns into a generated type, so
the declared type of a property can be written out at every level; and an object literal among the
members has its structure, if the parameters record the types of object literals as inference gives
them.
-/

namespace Projection

open TypeRef

namespace Structure

variable (settings : Settings)

mutual

theorem anonymousTypes_materialize (t : TypeRef) :
    (materialize settings t).1.anonymousTypes = [] := by
  match t with
  | ⟨.primitive _, _⟩ | ⟨.generated _, _⟩ | ⟨.anonymous _, _⟩ => rfl
  | ⟨.array element, _⟩ => exact anonymousTypes_materialize element
  | ⟨.named _ args _, _⟩ => exact anonymousTypesAll_materializeAll args

theorem anonymousTypesAll_materializeAll (ts : List TypeRef) :
    anonymousTypesAll (materializeAll settings ts).1 = [] := by
  match ts with
  | [] => rfl
  | t :: ts =>
      exact List.append_eq_nil_iff.2
        ⟨anonymousTypes_materialize t, anonymousTypesAll_materializeAll ts⟩

end

mutual

/-- The structure is built for the first of the anonymous types. -/
theorem materialize_snd (t : TypeRef) :
    (materialize settings t).2 = t.anonymousTypes.head?.map (ofType settings) := by
  match t with
  | ⟨.primitive _, _⟩ | ⟨.generated _, _⟩ | ⟨.anonymous ⟨_, _⟩, _⟩ => rfl
  | ⟨.array element, _⟩ => exact materialize_snd element
  | ⟨.named _ args _, _⟩ => exact materializeAll_snd args

theorem materializeAll_snd (ts : List TypeRef) :
    (materializeAll settings ts).2 = (anonymousTypesAll ts).head?.map (ofType settings) := by
  match ts with
  | [] => rfl
  | t :: ts =>
      rw [materializeAll, anonymousTypesAll, List.head?_append, Option.map_or,
        materialize_snd t, materializeAll_snd ts]

end

variable {settings}

theorem mem_properties_ofType {type : AnonymousType} {p : Property}
    (h : p ∈ (ofType settings type).properties) : ∃ m ∈ type.members, ∃ t, m.type = some t ∧
      propertyOf settings m.name m.expr m.chainOnly (materialize settings t) = p := by
  obtain ⟨sourceType, members⟩ := type
  exact mem_propertiesOf h

/-- Below the structure of a type are the structures of the anonymous types in it. -/
theorem exists_of_mem_all {type : AnonymousType} {s : Structure}
    (h : s ∈ (ofType settings type).all) :
    ∃ a ∈ (anonymous type).anonymousTypes, s = ofType settings a := by
  rcases List.mem_cons.1 h with rfl | h
  · exact ⟨type, mem_anonymousTypes_anonymous.2 (.inl rfl), rfl⟩
  · obtain ⟨p, hp, n, hn, hs⟩ := mem_inner.1 h
    have hlt := sizeOf_nested_lt hp hn
    obtain ⟨m, hm, t, ht, rfl⟩ := mem_properties_ofType hp
    obtain ⟨a, ha, rfl⟩ := Option.map_eq_some_iff.1 ((materialize_snd settings t).symm.trans hn)
    obtain ⟨b, hb, rfl⟩ := exists_of_mem_all hs
    refine ⟨b, mem_anonymousTypes_anonymous.2 (.inr ⟨m, hm, t, ht, ?_⟩), rfl⟩
    exact anonymousTypes_trans hb t (List.mem_of_mem_head? ha)
termination_by sizeOf (ofType settings type)

end Structure

/-- What the property makes of a member with a type: a line that states the type, and a structure
exactly if there is an anonymous type in it. -/
structure Property.Settles (p : Property) (m : AnonymousMember) (t : TypeRef) : Prop where
  name : p.name = m.name
  source : p.source = .classify m.expr
  nullable : p.nullable = p.declaredType.nullable
  anonymousTypes : p.declaredType.anonymousTypes = []
  line : ∃ w, p.declaredType.expr? = some w ∧ ∀ settings names,
    Emission.propertyLine settings names p =
      "public " ++ (if settings.requiredMembers then "required " else "") ++ w.print names ++ " " ++
        p.name ++ " " ++ settings.accessorStyle.spelling ++
        (if !settings.requiredMembers && !p.nullable && !p.declaredType.isValueType then
          " = default!;" else "")
  nested : p.nested.isSome ↔ t.anonymousTypes ≠ []

def Property.Creates (p : Property) : Prop :=
  ∀ members e, p.source = .object members e → ∃ n, p.nested = some n ∧
    ∀ settings depth Γ, Lowering.property settings depth Γ p = Lowering.creation settings depth Γ n

theorem Lowering.property_object {settings : Settings} {depth : Nat} {Γ : Context} {p : Property}
    {members : List SourceMember} {e : Expr} {n : Structure} (hs : p.source = .object members e)
    (hn : p.nested = some n) : property settings depth Γ p = creation settings depth Γ n := by
  obtain ⟨name, type, nullable, nested, source⟩ := p
  cases hs
  cases hn
  rw [property]

theorem Lowering.property_unresolved {settings : Settings} {depth : Nat} {Γ : Context}
    {p : Property} {members : List SourceMember} {e : Expr} (hs : p.source = .object members e)
    (hn : p.nested = none) : property settings depth Γ p =
      .pure (.marked "nested object shape could not be resolved" e) := by
  obtain ⟨name, type, nullable, nested, source⟩ := p
  cases hs
  cases hn
  rw [property]

namespace Structure

variable {settings : Settings}

theorem settles_propertyOf {m : AnonymousMember} {t : TypeRef} :
    (propertyOf settings m.name m.expr m.chainOnly (materialize settings t)).Settles m t := by
  have hfree : (declaredType settings m.expr (materialize settings t).1
      m.chainOnly).anonymousTypes = [] := by
    unfold declaredType
    split
    · rw [nonNullable, anonymousTypes_withNullable, anonymousTypes_materialize]
    · exact anonymousTypes_materialize settings t
  obtain ⟨w, hw⟩ := exists_expr? _ hfree
  refine ⟨rfl, rfl, rfl, hfree, ⟨w, hw, fun settings names => ?_⟩, ?_⟩
  · unfold Emission.propertyLine propertyOf
    rw [hw]
    rfl
  · change (materialize settings t).2.isSome ↔ _
    rw [materialize_snd, Option.isSome_map, List.isSome_head?]

theorem creates_propertyOf {m : AnonymousMember} {t : TypeRef} {Γ : Context}
    (h : Typing.infer? Γ m.expr = some t) :
    (propertyOf settings m.name m.expr m.chainOnly (materialize settings t)).Creates := by
  intro members e hsource
  obtain ⟨ms, hu⟩ := Source.unparen_of_object hsource
  cases h.symm.trans (Typing.infer?_literal Γ hu)
  exact ⟨_, rfl, fun _ _ _ => Lowering.property_object hsource rfl⟩

end Structure

/-- Each member is recorded with the type that its value has in some context. -/
def AnonymousType.Faithful (type : AnonymousType) : Prop :=
  ∀ m ∈ type.members, ∃ Γ, Typing.infer? Γ m.expr = m.type

theorem AnonymousType.OfLiteral.faithful {type : AnonymousType} (h : type.OfLiteral) :
    type.Faithful := by
  intro m hm
  obtain ⟨Γ, members, rfl⟩ := h
  obtain ⟨i, _, hm⟩ := List.mem_filterMap.1 hm
  obtain ⟨name, _, rfl⟩ := Option.map_eq_some_iff.1 hm
  exact ⟨Γ, rfl⟩

/-- The anonymous types of the parameters record the types of their members' values. -/
def Context.Faithful (Γ : Context) : Prop :=
  ∀ b ∈ Γ.bindings, ∀ a ∈ b.2.anonymousTypes, a.Faithful

theorem Context.Faithful.of_infer? {Γ : Context} (hΓ : Γ.Faithful) {e : Expr} {t : TypeRef}
    (h : Typing.infer? Γ e = some t) : ∀ a ∈ t.anonymousTypes, a.Faithful := by
  intro a ha
  rcases Typing.ofLiteral_or_bound h ha with ha | ⟨b, hb, ha⟩
  · exact ha.faithful
  · exact hΓ b hb a ha

namespace Structure

open Typing

/-- The structure for an object literal is settled at every level, whatever the parameters are. An
inner object literal has its structure; below the top this takes parameters whose anonymous types
record for each member the type of its value. -/
theorem exists_settles_of_mem_all {settings : Settings} {Γ : Context} {members : List Initializer}
    {s : Structure} (hs : s ∈ (ofType settings (anonymousType Γ members)).all) {p : Property}
    (hp : p ∈ s.properties) :
    ∃ type, s = ofType settings type ∧ ∃ m ∈ type.members, ∃ t, m.type = some t ∧
      p.Settles m t ∧ (Γ.Faithful ∨ s = ofType settings (anonymousType Γ members) →
        (∃ Δ, infer? Δ m.expr = some t) ∧ p.Creates) := by
  obtain ⟨type, rfl, hfaithful⟩ : ∃ type, s = ofType settings type ∧
      (Γ.Faithful ∨ s = ofType settings (anonymousType Γ members) → type.Faithful) := by
    by_cases htop : s = ofType settings (anonymousType Γ members)
    · exact ⟨_, htop, fun _ => AnonymousType.OfLiteral.faithful ⟨Γ, members, rfl⟩⟩
    · obtain ⟨type, htype, rfl⟩ := exists_of_mem_all hs
      refine ⟨type, rfl, fun h => ?_⟩
      exact (h.resolve_right htop).of_infer? (infer?_anonymous Γ members) type htype
  obtain ⟨m, hm, t, ht, rfl⟩ := mem_properties_ofType hp
  refine ⟨type, rfl, m, hm, t, ht, settles_propertyOf, fun h => ?_⟩
  obtain ⟨Δ, hΔ⟩ := hfaithful h m hm
  rw [ht] at hΔ
  exact ⟨⟨Δ, hΔ⟩, creates_propertyOf hΔ⟩

theorem exists_settles_of_mem_all_selection :
    let order : TypeDecl := ⟨"Order", none, .class,
      [⟨"Id", .property, "int", false, false, .public⟩,
        ⟨"Lines", .property, "List<Order>", false, false, .public⟩]⟩
    let Γ : Context := ⟨.ofTypes [order], .empty, [("x", .named "Order" false)]⟩
    let key (name : String) : Initializer := ⟨none, .member (.ident name) "Id" false⟩
    let Δ := Γ.bind "y"
      (.anonymous (anonymousType Γ [⟨some "Key", .paren (.anonymous [key "x"])⟩]))
    let lines : Expr := .invoke (.member (.member (.ident "x") "Lines" true) "Select" false) []
      [.lambda ["l"] (.anonymous [key "l", ⟨some "Deep", .anonymous [key "l"]⟩])]
    let s := ofType {} (anonymousType Δ [⟨some "Whole", .ident "y"⟩, ⟨some "Lines", lines⟩])
    s.all.map (fun q => q.properties.map fun p => (p.name, p.nested.isSome)) =
        [[("Whole", true), ("Lines", true)], [("Key", true)], [("Id", false)],
          [("Id", false), ("Deep", true)], [("Id", false)]] ∧
      ∀ q ∈ s.all, ∀ p ∈ q.properties, p.Creates ∧ ∃ m t, p.Settles m t := by
  intro order Γ key Δ lines s
  refine ⟨by decide +kernel, fun q hq p hp => ?_⟩
  have hΓ : Γ.Faithful := by
    intro b hb a ha
    cases List.mem_singleton.1 hb
    cases ha
  have hΔ : Δ.Faithful :=
    List.forall_mem_cons.2 ⟨hΓ.of_infer? (infer?_anonymous Γ _), hΓ⟩
  obtain ⟨type, _, m, _, t, _, hsettles, h⟩ := exists_settles_of_mem_all hq hp
  exact ⟨(h (.inl hΔ)).2, m, t, hsettles⟩

/-- A parameter whose rows record `int` for an object literal: the literal has no structure. -/
theorem exists_unresolved_of_recorded_type :
    let literal : Expr := .anonymous [⟨some "B", .literal (.int "1")⟩]
    let row : AnonymousType := ⟨"", [⟨"P", literal, some (.primitive .int), false⟩]⟩
    let Γ : Context := ⟨.empty, .empty, [("p", .sequence "IEnumerable" (.anonymous row))]⟩
    let s := ofType {} (anonymousType Γ [⟨some "Rows", .ident "p"⟩])
    ∃ q ∈ s.all, ∃ p ∈ q.properties, (∃ members, p.source = .object members literal) ∧
      p.nested = none ∧ ∀ settings depth Δ, Lowering.property settings depth Δ p =
        .pure (.marked "nested object shape could not be resolved" literal) := by
  intro literal row Γ s
  let p : Property := ⟨"P", .primitive .int, false, none, .classify literal⟩
  have hrows : s.properties.map (·.nested) = [some (ofType {} row)] := by with_unfolding_all rfl
  obtain ⟨w, hw, hn⟩ := List.mem_map.1 (hrows ▸ List.mem_singleton_self _)
  obtain ⟨ms, hobject⟩ : ∃ members, p.source = .object members literal :=
    ⟨_, by rw [show p.source = .classify literal from rfl, Source.classify]; rfl⟩
  exact ⟨ofType {} row, mem_all_of_mem_inner (mem_inner_of_nested hw hn List.mem_cons_self), p,
    List.mem_singleton.2 rfl, ⟨ms, hobject⟩, rfl,
    fun _ _ _ => Lowering.property_unresolved hobject rfl⟩

end Structure

end Projection
