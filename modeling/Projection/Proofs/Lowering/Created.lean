import Projection.Proofs.Lowering.Invariant
import Projection.Proofs.Structure.Sound

/-!
Generated types in lowered trees. Lowering mentions only the structures that it is given and those
that it makes, and an object of one of them initializes the properties of the structure in order.
-/

namespace Projection

namespace Expr

theorem eq_creation_of_withChildren {e : Expr} {cs : List Expr} {t : TypeExpr} {as : List Expr}
    {is : Option (List Initializer)} (h : e.withChildren cs = creation t as is) :
    ∃ bs js, e = creation t bs js := by
  revert h
  fun_cases withChildren e cs with
  | case6 | case7 =>
      rintro ⟨⟩
      exact ⟨_, _, rfl⟩
  | case15 => exact fun h => ⟨as, is, h⟩
  | _ => rintro ⟨⟩

/-- The expression creates an object of the structure, each property in its place. -/
def Creates (s : Structure) (e : Expr) : Prop :=
  ∃ ms, e = .creation (.generated s.id) [] (some ms) ∧
    ms.map (·.name) = s.properties.map fun p => some p.name

/-- A node that mentions only types of these structures, and creates objects as they have them. -/
structure Bound (S : List Structure) (e : Expr) : Prop where
  mentions : ∀ t ∈ e.types, ∀ id ∈ t.generatedIds, ∃ s ∈ S, s.id = id
  creates : ∀ id as is, e = .creation (.generated id) as is → ∃ s ∈ S, s.id = id ∧ e.Creates s

variable {S : List Structure} {e : Expr} {cs : List Expr}

theorem Bound.of_spelled (h : ∀ t ∈ e.types, t.generatedIds = []) : e.Bound S := by
  refine ⟨fun t ht id hid => ?_, ?_⟩
  · rw [h t ht] at hid
    cases hid
  · rintro id as is rfl
    cases h (.generated id) (by simp [types])

theorem Spelled.bound (h : e.Spelled) : e.Every (Bound S) :=
  h.mono fun _ => Bound.of_spelled

/-- The structures count, not the values that fill them. -/
theorem Bound.withChildren (h : e.Bound S) (hl : cs.length = e.children.length) :
    (e.withChildren cs).Bound S := by
  refine ⟨fun t ht => h.mentions t (by rwa [types_withChildren] at ht), fun id as is he => ?_⟩
  obtain ⟨bs, js, rfl⟩ := eq_creation_of_withChildren he
  obtain ⟨s, hs, hid, ms, heq, hnames⟩ := h.creates id bs js rfl
  cases heq
  refine ⟨s, hs, rfl, renew ms cs, by simp [Expr.withChildren], ?_⟩
  rw [names_renew ms cs (by simpa [children] using hl)]
  exact hnames

end Expr

namespace Lowering

open Projection.Expr Typing

def createdInvariant (S : List Structure) : Invariant where
  tree := Every (Bound S)
  source := Spelled
  context := Context.Inferred .full
  known s := s ∈ S
  made := Structure.Sound

variable {S : List Structure} {settings : Settings}

theorem bound_of_writes {e : Expr} (ht : ∀ t ∈ e.types, (createdInvariant S).Writes t)
    (hc : ∀ id as is, e ≠ .creation (.generated id) as is) : e.Bound S :=
  ⟨ht, fun id as is he => absurd he (hc id as is)⟩

theorem bound_create {s : Structure} {f : Property → Expr} (hs : s ∈ S) :
    (Expr.creation (.generated s.id) []
      (some (s.properties.map fun p => .named p.name (f p)))).Bound S := by
  refine ⟨?_, ?_⟩
  · intro t ht id hid
    cases List.mem_singleton.1 ht
    cases List.mem_singleton.1 hid
    exact ⟨s, hs, rfl⟩
  · rintro id as is ⟨⟩
    exact ⟨s, hs, rfl, _, rfl, by simp [Initializer.named]⟩

theorem writes_of_spelled {t : TypeExpr} (h : t.generatedIds = []) :
    (createdInvariant S).Writes t := by
  intro id hid
  rw [h] at hid
  cases hid

theorem writable_of_inferred {V : Vocabulary} {t : TypeRef} (h : t.Inferred V) :
    (createdInvariant S).Writable t := by
  intro id hid
  rw [h.generatedIds] at hid
  cases hid

theorem createdInvariant_kept (S : List Structure) (settings : Settings) :
    (createdInvariant S).Kept settings where
  ident := every_iff.2 ⟨Bound.of_spelled (by simp [types]), by simp [children]⟩
  literal := every_iff.2 ⟨Bound.of_spelled (by simp [types]), by simp [children]⟩
  defaultValue := every_iff.2 ⟨Bound.of_spelled (by simp [types]), by simp [children]⟩
  dot h := every_iff.2 ⟨Bound.of_spelled (by simp [types, dot]), List.forall_mem_singleton.2 h⟩
  index h ha :=
    every_iff.2 ⟨Bound.of_spelled (by simp [types]), List.forall_mem_cons.2 ⟨h, ha⟩⟩
  invoke h ht ha :=
    every_iff.2 ⟨bound_of_writes ht (by simp), List.forall_mem_cons.2 ⟨h, ha⟩⟩
  lambda h := every_iff.2 ⟨Bound.of_spelled (by simp [types]), List.forall_mem_singleton.2 h⟩
  conditional hc ht hf :=
    every_iff.2 ⟨Bound.of_spelled (by simp [types]), List.forall_mem_cons.2
      ⟨hc, List.forall_mem_cons.2 ⟨ht, List.forall_mem_singleton.2 hf⟩⟩⟩
  binary hl hr :=
    every_iff.2 ⟨Bound.of_spelled (by simp [types]),
      List.forall_mem_cons.2 ⟨hl, List.forall_mem_singleton.2 hr⟩⟩
  cast ht h :=
    every_iff.2 ⟨bound_of_writes (List.forall_mem_singleton.2 ht) (by simp),
      List.forall_mem_singleton.2 h⟩
  paren h := every_iff.2 ⟨Bound.of_spelled (by simp [types]), List.forall_mem_singleton.2 h⟩
  marked h :=
    every_iff.2 ⟨Bound.of_spelled (by simp [types]), List.forall_mem_singleton.2 (Spelled.bound h)⟩
  empty ht hg :=
    every_iff.2 ⟨bound_of_writes (List.forall_mem_singleton.2 ht) (by simp [hg]),
      by simp [children]⟩
  create hs h :=
    every_iff.2 ⟨bound_create hs, List.forall_mem_map.2 (List.forall_mem_map.2 h)⟩
  copy he _ hl hc :=
    every_withChildren ((Bound.of_spelled (Every.self he)).withChildren hl) hl hc
  child he hc := Every.child he hc
  typeArgs he u hu := writes_of_spelled (Every.self he u hu)
  inferred hΓ he ht := writable_of_inferred (infers_infer? hΓ he _ ht)
  bind hΓ he ht := Context.Inferred.bind hΓ (infers_elementType? hΓ he _ ht)
  enter hΓ he ht :=
    Context.Inferred.bindAll hΓ (List.forall_mem_cons.2
      ⟨infers_elementType? hΓ he _ ht, List.forall_mem_singleton.2 (.written .primitive)⟩)
  object hΓ he := Structure.sound_ofType (inferred_anonymousType hΓ he)
  sourced h q hq p hp := (h q hq p hp).1

/-- A sound structure is known once it is listed with all below it. -/
theorem known_of_sound {s : Structure} (h : s.Sound) (hs : ∀ q ∈ s.all, q ∈ S) :
    (createdInvariant S).Known s := by
  refine fun q hq => ⟨hs q hq, fun p hp id hid => ?_⟩
  obtain ⟨n, hn, rfl⟩ := (h q hq p hp).2 id hid
  refine ⟨n, hs n ?_, rfl⟩
  exact Structure.mem_all_of_mem_inner (Structure.inner_trans
    (Structure.mem_inner_of_nested hp hn (Structure.self_mem_all n)) hq)

end Lowering

end Projection
