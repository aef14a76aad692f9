import Projection.Lowering.Depth
import Projection.Proofs.Structure.Nested
import Projection.Proofs.Typing.Anonymous

/-!
The values that anonymous types were read from. Inference takes them from the object literals in an
expression and from the types of parameters, and none has more nodes than the type weighs.
-/

namespace Projection

open Typing Projection.Expr

/-- Every value that an anonymous type in the type was read from. -/
def TypeRef.Sources (P : Expr → Prop) (t : TypeRef) : Prop :=
  ∀ a ∈ t.anonymousTypes, ∀ m ∈ a.members, P m.expr

/-- Every value that the types of parameters were read from. -/
def Context.Sources (P : Expr → Prop) (Γ : Context) : Prop := ∀ b ∈ Γ.bindings, b.2.Sources P

/-- The values behind an inferred type are members of object literals in the expression, or come
with the types of parameters. -/
theorem Typing.sources_infer? {S P : Expr → Prop}
    (hchild : ∀ {c e}, S e → c ∈ e.children → S c)
    (hP : ∀ {members i}, S (.anonymous members) → i ∈ members → P i.value) {Γ : Context}
    (hΓ : Γ.Sources P) {e : Expr} {t : TypeRef} (he : S e) (h : infer? Γ e = some t) :
    t.Sources P := by
  have C : Closed Γ.model S fun t => t.Sources P := by
    refine closed_anonymousTypes hchild fun Γ members hs m hm => ?_
    obtain ⟨i, hi, hm⟩ := List.mem_filterMap.1 hm
    obtain ⟨name, -, rfl⟩ := Option.map_eq_some_iff.1 hm
    exact hP hs hi
  exact C.infer? hΓ he t h

theorem Expr.plain_child {c e : Expr} (h : e.hasOptionalAccess = false) (hc : c ∈ e.children) :
    c.hasOptionalAccess = false := by
  rw [hasOptionalAccess, any_eq, Bool.or_eq_false_iff, List.any_eq_false] at h
  exact Bool.eq_false_iff.2 (h.2 c hc)

theorem Expr.isOptionalAccess_clearOptional (e : Expr) :
    e.clearOptional.isOptionalAccess = false := by
  cases e <;> rfl

theorem Expr.plain_withoutOptional (e : Expr) : e.withoutOptional.hasOptionalAccess = false := by
  induction e using childInduction with
  | h e ih =>
      rw [hasOptionalAccess, any_eq, children_withoutOptional, Bool.or_eq_false_iff,
        List.any_eq_false]
      refine ⟨?_, List.forall_mem_map.2 fun c hc => Bool.eq_false_iff.1 (ih c hc)⟩
      rw [withoutOptional_eq]
      exact isOptionalAccess_clearOptional _

namespace TypeRef

theorem size_le_memberWeights {m : AnonymousMember} {ms : List AnonymousMember} (h : m ∈ ms) :
    m.expr.size ≤ memberWeights ms := by
  induction ms with
  | nil => cases h
  | cons n ms ih =>
      obtain ⟨name, e, type, chainOnly⟩ := n
      rcases List.mem_cons.1 h with rfl | h
      · cases type <;> simp only [memberWeights] <;> omega
      · have := ih h
        cases type <;> simp only [memberWeights] <;> omega

mutual

theorem sources_size_le_weight (t : TypeRef) : t.Sources (·.size ≤ t.weight) := by
  match t with
  | ⟨.primitive _, _⟩ | ⟨.generated _, _⟩ => exact fun a ha => by cases ha
  | ⟨.named _ args _, _⟩ => exact size_le_weights args
  | ⟨.array element, _⟩ => exact sources_size_le_weight element
  | ⟨.anonymous ⟨sourceType, members⟩, _⟩ =>
      intro a ha m hm
      rcases List.mem_cons.1 ha with rfl | ha
      · exact size_le_memberWeights hm
      · exact size_le_memberWeights_nested members a ha m hm

theorem size_le_weights (ts : List TypeRef) :
    ∀ a ∈ anonymousTypesAll ts, ∀ m ∈ a.members, m.expr.size ≤ weights ts := by
  match ts with
  | [] => exact fun a ha => by cases ha
  | t :: ts =>
      intro a ha m hm
      rw [weights]
      rcases List.mem_append.1 ha with ha | ha
      · have := sources_size_le_weight t a ha m hm
        omega
      · have := size_le_weights ts a ha m hm
        omega

theorem size_le_memberWeights_nested (ms : List AnonymousMember) :
    ∀ a ∈ memberAnonymousTypes ms, ∀ m ∈ a.members, m.expr.size ≤ memberWeights ms := by
  match ms with
  | [] => exact fun a ha => by cases ha
  | ⟨_, e, none, _⟩ :: ms =>
      intro a ha m hm
      have := size_le_memberWeights_nested ms a ha m hm
      rw [memberWeights]
      omega
  | ⟨_, e, some t, _⟩ :: ms =>
      intro a ha m hm
      rw [memberWeights]
      rcases List.mem_append.1 ha with ha | ha
      · have := sources_size_le_weight t a ha m hm
        omega
      · have := size_le_memberWeights_nested ms a ha m hm
        omega

end

end TypeRef

namespace Structure

theorem propertyWeights_singleton (p : Property) :
    propertyWeights [p] = p.source.expr.size + (p.nested.map weight).getD 0 := by
  obtain ⟨_, _, _, nested, source⟩ := p
  cases nested <;> rfl

theorem propertyWeights_le {p : Property} {s : Structure} (h : p ∈ s.properties) :
    propertyWeights [p] ≤ s.weight := by
  obtain ⟨_, properties, _⟩ := s
  rw [weight]
  induction properties with
  | nil => cases h
  | cons q ps ih =>
      obtain ⟨_, _, _, nested, source⟩ := q
      rcases List.mem_cons.1 h with rfl | h
      · cases nested <;> simp [propertyWeights]
      · have := ih h
        cases nested <;> simp only [propertyWeights] <;> omega

/-- No value in the structure, or below it, has more nodes than the structure weighs. -/
theorem size_le_weight (s : Structure) :
    ∀ q ∈ s.all, ∀ p ∈ q.properties, p.source.expr.size ≤ s.weight := by
  have hlevel {p : Property} (hp : p ∈ s.properties) :
      p.source.expr.size + (p.nested.map weight).getD 0 ≤ s.weight :=
    propertyWeights_singleton p ▸ propertyWeights_le hp
  refine forall_mem_all (fun p hp => ?_) fun p hp n hn q hq p' hp' => ?_
  · have := hlevel hp
    omega
  · have hlt := sizeOf_nested_lt hp hn
    have hbelow := size_le_weight n q hq p' hp'
    have := hlevel hp
    rw [hn, Option.map_some, Option.getD_some] at this
    omega
termination_by sizeOf s

end Structure

end Projection
