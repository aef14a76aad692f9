import Projection.Host

/-!
Finding types by name. Simple and full names share one index, and the type that was inserted first
keeps a name, so whether a full name leads to its type is a matter of the simple names before it.
-/

namespace Projection.Model

/-- Looking `name` up gives `found`: behind the mark of the outermost namespace, and bare unless
the name itself begins with that mark. -/
structure Finds (m : Model) (name : String) (found : Option TypeDecl) : Prop where
  marked : m.type? ("global::" ++ name) = found
  bare : Text.startsWith "global::" name = false → m.type? name = found

theorem finds_iff {m : Model} {name : String} {found : Option TypeDecl} :
    m.Finds name found ↔ m.types.find? (·.answersTo name) = found := by
  constructor
  · intro h
    rw [← h.marked, type?_eq_find?, Text.dropFront_append]
  · intro h
    refine ⟨?_, fun hbare => ?_⟩
    · rw [type?_eq_find?, Text.dropFront_append, h]
    · rw [type?_eq_find?, Text.dropFront, hbare, if_neg Bool.false_ne_true, h]

theorem answersTo_iff {t : TypeDecl} {name : String} :
    t.answersTo name = true ↔ t.name = name ∨ t.fullName = name := by
  simp [TypeDecl.answersTo]

/-- A full name that no other type has leads to its type exactly if no type before it has that name
for a simple one. -/
theorem find?_fullName_iff {before after : List TypeDecl} {t : TypeDecl}
    (hfull : ∀ u ∈ before ++ after, u.fullName ≠ t.fullName) :
    (before ++ t :: after).find? (·.answersTo t.fullName) = some t ↔
      ∀ u ∈ before, u.name ≠ t.fullName := by
  constructor
  · intro hfind u hu hname
    have hanswers : u.answersTo t.fullName = true := answersTo_iff.2 (.inl hname)
    obtain ⟨v, hv⟩ : ∃ v, before.find? (·.answersTo t.fullName) = some v :=
      Option.isSome_iff_exists.1 (List.find?_isSome.2 ⟨u, hu, hanswers⟩)
    rw [List.find?_append, hv] at hfind
    cases hfind
    exact hfull t (List.mem_append_left _ (List.mem_of_find?_eq_some hv)) rfl
  · intro hsimple
    have hnone : before.find? (·.answersTo t.fullName) = none := by
      refine List.find?_eq_none.2 fun u hu hanswers => ?_
      rcases answersTo_iff.1 hanswers with hname | hname
      · exact hsimple u hu hname
      · exact hfull u (List.mem_append_left _ hu) hname
    have hself : t.answersTo t.fullName = true := answersTo_iff.2 (.inr rfl)
    rw [List.find?_append, hnone, Option.none_or, List.find?_cons, hself]

theorem find?_simpleName {types : List TypeDecl} {name : String}
    (hfull : ∀ u ∈ types, u.fullName ≠ name) :
    types.find? (·.answersTo name) = types.find? (·.name == name) := by
  induction types with
  | nil => rfl
  | cons u types ih =>
      have hu : u.answersTo name = (u.name == name) := by
        rw [TypeDecl.answersTo, beq_eq_false_iff_ne.2 (hfull u List.mem_cons_self), Bool.or_false]
      rw [List.find?_cons, List.find?_cons, hu, ih fun v hv => hfull v (List.mem_cons_of_mem _ hv)]

/-- Types inserted in order are found by their names. A full name that one type alone has leads to
that type exactly if none that was inserted before has it for a simple name; a simple name that is
nobody's full name leads to the first type that has it. -/
theorem finds_inserted (types : List TypeDecl) :
    (∀ before t after, types = before ++ t :: after →
      (∀ u ∈ before ++ after, u.fullName ≠ t.fullName) →
        ((types.foldl insert empty).Finds t.fullName (some t) ↔
          ∀ u ∈ before, u.name ≠ t.fullName)) ∧
    ∀ name, (∀ u ∈ types, u.fullName ≠ name) →
      (types.foldl insert empty).Finds name (types.find? (·.name == name)) := by
  have htypes : (types.foldl insert empty).types = types := types_ofTypes types
  constructor
  · intro before t after heq hfull
    rw [finds_iff, htypes, heq]
    exact find?_fullName_iff hfull
  · intro name hfull
    rw [finds_iff, htypes]
    exact find?_simpleName hfull

theorem finds_inserted_shared_name :
    let first : TypeDecl := ⟨"Item", some "A", .class, []⟩
    let second : TypeDecl := ⟨"Item", some "B", .struct, []⟩
    let third : TypeDecl := ⟨"A", none, .enum, []⟩
    let m := [first, second, third].foldl insert empty
    (∀ u ∈ [first] ++ [third], u.fullName ≠ second.fullName) ∧
      m.Finds "B.Item" (some second) ∧
      (∀ u ∈ [first, second, third], u.fullName ≠ "Item") ∧ m.Finds "Item" (some first) := by
  intro first second third m
  have hsecond : ∀ u ∈ [first] ++ [third], u.fullName ≠ second.fullName := by decide
  have hitem : ∀ u ∈ [first, second, third], u.fullName ≠ "Item" := by decide
  obtain ⟨hfull, hsimple⟩ := finds_inserted [first, second, third]
  exact ⟨hsecond, (hfull [first] second [third] rfl hsecond).2 (by decide), hitem,
    hsimple "Item" hitem⟩

theorem type?_ne_of_earlier_simple_name :
    let inner : TypeDecl := ⟨"Item", some "B", .class, []⟩
    let outer : TypeDecl := ⟨"Item", none, .class, []⟩
    let marked : TypeDecl := ⟨"global::Item", none, .class, []⟩
    inner ≠ outer ∧ (∀ u ∈ [inner], u.fullName ≠ outer.fullName) ∧
      ([inner, outer].foldl insert empty).type? outer.fullName = some inner ∧
      ([inner, outer].foldl insert empty).type? ("global::" ++ outer.fullName) = some inner ∧
      ([marked].foldl insert empty).type? marked.fullName = none := by
  decide

end Projection.Model
