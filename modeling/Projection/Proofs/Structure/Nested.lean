import Projection.Structure

/-!
The structures below a structure.
-/

namespace Projection.Structure

def inner (s : Structure) : List Structure := s.nested.map (·.2)

def all (s : Structure) : List Structure := s :: s.inner

theorem self_mem_all (s : Structure) : s ∈ s.all := List.mem_cons_self

theorem mem_all_of_mem_inner {q s : Structure} (h : q ∈ s.inner) : q ∈ s.all :=
  List.mem_cons_of_mem _ h

theorem mem_nestedOf {q : Structure} {ps : List Property} :
    q ∈ (nestedOf ps).map (·.2) ↔ ∃ p ∈ ps, ∃ n, p.nested = some n ∧ q ∈ n.all := by
  induction ps with
  | nil => simp [nestedOf]
  | cons p ps ih =>
      obtain ⟨name, type, nullable, nested, source⟩ := p
      cases nested with
      | none => simp [nestedOf, ih]
      | some n => simp [nestedOf, all, inner, ih, or_assoc]

/-- What is below a structure is what its properties hold. -/
theorem mem_inner {q s : Structure} :
    q ∈ s.inner ↔ ∃ p ∈ s.properties, ∃ n, p.nested = some n ∧ q ∈ n.all := by
  cases s
  exact mem_nestedOf

/-- What holds of the structure, and of all that its properties hold, holds throughout. -/
theorem forall_mem_all {P : Structure → Prop} {s : Structure} (h : P s)
    (hn : ∀ p ∈ s.properties, ∀ n, p.nested = some n → ∀ q ∈ n.all, P q) : ∀ q ∈ s.all, P q := by
  refine List.forall_mem_cons.2 ⟨h, fun q hq => ?_⟩
  obtain ⟨p, hp, n, hnested, hq⟩ := mem_inner.1 hq
  exact hn p hp n hnested q hq

theorem mem_inner_of_nested {s n : Structure} {p : Property} (hp : p ∈ s.properties)
    (hn : p.nested = some n) {q : Structure} (hq : q ∈ n.all) : q ∈ s.inner :=
  mem_inner.2 ⟨p, hp, n, hn, hq⟩

theorem sizeOf_nested_lt {s n : Structure} {p : Property} (hp : p ∈ s.properties)
    (hn : p.nested = some n) : sizeOf n < sizeOf s := by
  obtain ⟨sourceType, properties, id⟩ := s
  obtain ⟨name, type, nullable, nested, source⟩ := p
  cases hn
  have := List.sizeOf_lt_of_mem hp
  simp only [Structure.mk.sizeOf_spec, Property.mk.sizeOf_spec, Option.some.sizeOf_spec] at *
  omega

/-- Below what is below there is nothing new. -/
theorem inner_trans {s q r : Structure} (hr : r ∈ q.inner) (hq : q ∈ s.all) : r ∈ s.inner := by
  rcases List.mem_cons.1 hq with rfl | hq
  · exact hr
  · obtain ⟨p, hp, n, hn, hqn⟩ := mem_inner.1 hq
    have := sizeOf_nested_lt hp hn
    exact mem_inner_of_nested hp hn (mem_all_of_mem_inner (inner_trans hr hqn))
termination_by sizeOf s

end Projection.Structure
