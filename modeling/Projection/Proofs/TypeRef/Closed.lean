import Projection.Framework
import Projection.Proofs.Text.Name

/-!
Families of types that the base library does not lead out of. What it says of a type is one of its
own types, a part of that type or a sequence of parts; so a family that is closed under these holds
whatever the library gives for its members.
-/

namespace Projection

open Text

/-- The family has the types of the base library and, with a type, its parts, the sequences of it
and the same type with and without the mark. -/
structure TypeRef.Closed (P : TypeRef → Prop) : Prop where
  primitive : ∀ {p n}, P ⟨.primitive p, n⟩
  library : ∀ {name}, IsName name → ∀ v, P (.named name v)
  sequence : ∀ {name t}, IsName name → P t → P (.sequence name t)
  array : ∀ {t n}, P t → P ⟨.array t, n⟩
  withNullable : ∀ {t}, P t → ∀ n, P (t.withNullable n)
  args : ∀ {t name args v}, P t → t.kind = .named name args v → ∀ a ∈ args, P a
  element : ∀ {t u}, P t → t.kind = .array u → P u
  member : ∀ {t type}, P t → t.kind = .anonymous type →
    ∀ m ∈ type.members, ∀ u, m.type = some u → P u

namespace Framework

variable {P : TypeRef → Prop}

theorem isName_lastPiece {name : String} (h : isKnown name = true)
    (hp : Primitive.ofName? name = none) : IsName (lastPiece '.' name) := by
  have hall : ∀ names : List String, names.all (fun n => decide (IsName n)) = true →
      names.contains (lastPiece '.' name) = true → IsName (lastPiece '.' name) :=
    fun names hnames hmem => of_decide_eq_true
      (List.all_eq_true.1 hnames _ (List.contains_iff_mem.1 hmem))
  simp only [isKnown, hp, Option.isSome_none, Bool.or_false, Bool.or_eq_true] at h
  rcases h with (h | h) | h
  · have hkeyword : TypeExpr.keywords.all fun n => decide (IsName (lastPiece '.' n)) := by decide
    exact of_decide_eq_true (List.all_eq_true.1 hkeyword _ (List.contains_iff_mem.1 h))
  · exact hall valueTypes (by decide) h
  · exact hall staticTypes (by decide) h

def Row.Within {α : Type} (P : TypeRef → Prop) (Q : α → Prop) (row : Row α) : Prop :=
  ∀ a, Q a → ∀ t, row.result a = some t → P t

theorem Row.within_fixed {α : Type} {Q : α → Prop} {owners members : List String} {t : TypeRef}
    (h : P t) : (Row.fixed owners members t).Within P Q := by
  rintro a _ _ ⟨⟩
  exact h

theorem Row.lookup_within {α : Type} {Q : α → Prop} {rows : List (Row α)}
    {owner member : String} {a : α} {t : TypeRef} (hr : ∀ row ∈ rows, row.Within P Q) (ha : Q a)
    (h : Row.lookup rows owner member a = some t) : P t := by
  obtain ⟨row, hrow, h⟩ := Option.bind_eq_some_iff.1 h
  exact hr row (List.mem_of_find?_eq_some hrow) a ha t h

theorem pick?_within {entries : List (List String × TypeRef)} {name : String} {t : TypeRef}
    (he : ∀ entry ∈ entries, P entry.2) (h : pick? entries name = some t) : P t := by
  obtain ⟨entry, hentry, rfl⟩ := Option.map_eq_some_iff.1 h
  exact he entry (List.mem_of_find?_eq_some hentry)

structure Call.Within (P : TypeRef → Prop) (c : Call) : Prop where
  typeArgs : ∀ t ∈ c.typeArgs, P t
  argTypes : ∀ t, some t ∈ c.argTypes → P t

theorem Call.Within.firstArg {c : Call} {t : TypeRef} (hc : c.Within P)
    (h : c.firstArg? = some t) : P t :=
  hc.argTypes t (List.mem_of_mem_head? (Option.join_eq_some_iff.1 h))

theorem Call.Within.typeArg {c : Call} {t : TypeRef} (hc : c.Within P)
    (h : c.typeArgs.head? = some t) : P t :=
  hc.typeArgs t (List.mem_of_mem_head? h)

end Framework

namespace TypeRef.Closed

open Framework

variable {P : TypeRef → Prop} (C : Closed P) {t u : TypeRef}
include C

theorem element? (h : P t) (hu : t.element? = some u) : P u := by
  unfold TypeRef.element? at hu
  split at hu
  · rename_i hk
    cases hu
    exact C.element h hk
  · rename_i hk
    split at hu
    · cases hu
      exact C.args h hk _ List.mem_cons_self
    · cases hu
  · cases hu

theorem type? {name : String} (h : Framework.type? name = some t) : P t := by
  unfold Framework.type? at h
  split at h
  · cases h
    exact C.primitive
  · rename_i hp
    split at h
    · rename_i hknown
      cases h
      exact C.library (isName_lastPiece hknown hp) _
    · cases h

theorem primitiveMember? {p : Primitive} {member : String}
    (h : Framework.primitiveMember? p member = some t) : P t := by
  unfold Framework.primitiveMember? at h
  split at h
  · cases h
    exact C.primitive
  · split at h
    · cases h
      exact C.primitive
    · split at h
      · cases h
        exact C.primitive
      · cases h

theorem staticMember? {member : String} (h : Framework.staticMember? t member = some u) : P u := by
  unfold Framework.staticMember? at h
  split at h
  · exact C.primitiveMember? h
  · refine Row.lookup_within (Q := fun _ => True) ?_ trivial h
    simp only [staticMembers, List.forall_mem_cons]
    exact ⟨Row.within_fixed (C.library (by decide) _), Row.within_fixed (C.library (by decide) _),
      Row.within_fixed (C.library (by decide) _), Row.within_fixed (C.library (by decide) _),
      Row.within_fixed C.primitive, Row.within_fixed C.primitive, List.forall_mem_nil _⟩
  · cases h

theorem rounded {c : Call} (hc : c.Within P)
    (h : (c.firstArg?.filter (·.isPrimitive .decimal)).or (some double) = some t) : P t := by
  rcases Option.or_eq_some_iff.1 h with h | ⟨_, ⟨⟩⟩
  · exact hc.firstArg (Option.filter_eq_some_iff.1 h).1
  · exact C.primitive

theorem staticCalls_within : ∀ row ∈ staticCalls, row.Within P (Call.Within P) := by
  simp only [staticCalls, List.forall_mem_cons]
  refine ⟨fun c hc t h => hc.firstArg h, fun c hc t h => C.rounded hc h,
    Row.within_fixed C.primitive, Row.within_fixed C.primitive, Row.within_fixed C.primitive,
    Row.within_fixed C.primitive, Row.within_fixed C.primitive, Row.within_fixed C.primitive,
    Row.within_fixed C.primitive, Row.within_fixed C.primitive, ?empty,
    Row.within_fixed (C.sequence (by decide) C.primitive), ?array,
    Row.within_fixed (C.library (by decide) _), Row.within_fixed (C.library (by decide) _),
    Row.within_fixed (C.library (by decide) _), List.forall_mem_nil _⟩
  case empty =>
    intro c hc t h
    obtain ⟨element, he, rfl⟩ := Option.map_eq_some_iff.1 h
    exact C.sequence (by decide) (hc.typeArg he)
  case array =>
    intro c hc t h
    obtain ⟨element, he, rfl⟩ := Option.map_eq_some_iff.1 h
    exact C.array (hc.typeArg he)

theorem staticCall? {method : String} {c : Call} (hc : c.Within P)
    (h : Framework.staticCall? t method c = some u) : P u := by
  unfold Framework.staticCall? at h
  split at h
  · refine pick?_within ?_ h
    simp only [stringStatics, List.forall_mem_cons]
    exact ⟨C.primitive, C.primitive, C.primitive, List.forall_mem_nil _⟩
  · refine pick?_within ?_ h
    simp only [primitiveStatics, List.forall_mem_cons]
    exact ⟨C.primitive, C.primitive, List.forall_mem_nil _⟩
  · exact Row.lookup_within C.staticCalls_within hc h
  · cases h

theorem nullableMember? {member : String} (ht : P t)
    (h : Framework.nullableMember? t member = some u) : P u := by
  unfold Framework.nullableMember? at h
  split at h
  · cases h
    exact C.primitive
  · split at h
    · cases h
      exact C.withNullable ht false
    · cases h

theorem instanceMembers_within :
    ∀ row ∈ instanceMembers, row.Within P fun (args : List TypeRef) => ∀ a ∈ args, P a := by
  have hargs {owners members} {i : Nat} {f : TypeRef → TypeRef} (hf : ∀ t, P t → P (f t)) :
      Row.Within P (fun (args : List TypeRef) => ∀ a ∈ args, P a)
        ⟨owners, members, fun args => args[i]?.map f⟩ := by
    intro args hargs t h
    obtain ⟨a, ha, rfl⟩ := Option.map_eq_some_iff.1 h
    exact hf a (hargs a (List.mem_of_getElem? ha))
  have harg {owners members} {i : Nat} :
      Row.Within P (fun (args : List TypeRef) => ∀ a ∈ args, P a)
        ⟨owners, members, fun args => args[i]?⟩ :=
    fun args hargs t h => hargs t (List.mem_of_getElem? h)
  simp only [instanceMembers, List.forall_mem_cons]
  exact ⟨Row.within_fixed C.primitive, hargs fun _ => C.sequence (by decide),
    hargs fun _ => C.sequence (by decide), harg, harg, Row.within_fixed C.primitive,
    Row.within_fixed C.primitive, Row.within_fixed (C.library (by decide) _),
    Row.within_fixed (C.library (by decide) _), Row.within_fixed (C.library (by decide) _),
    Row.within_fixed (C.library (by decide) _), Row.within_fixed C.primitive,
    Row.within_fixed C.primitive, Row.within_fixed C.primitive, List.forall_mem_nil _⟩

theorem instanceMember? {member : String} (ht : P t)
    (h : Framework.instanceMember? t member = some u) : P u := by
  unfold Framework.instanceMember? at h
  split at h
  · exact C.nullableMember? ht h
  · split at h
    · split at h
      · cases h
        exact C.primitive
      · cases h
    · split at h
      · cases h
        exact C.primitive
      · split at h
        · cases h
          exact C.primitive
        · cases h
    · rename_i hk
      exact Row.lookup_within C.instanceMembers_within (C.args ht hk) h
    · cases h

theorem instanceCalls_within :
    ∀ row ∈ instanceCalls, row.Within P fun (args : List TypeRef) => ∀ a ∈ args, P a := by
  simp only [instanceCalls, List.forall_mem_cons]
  refine ⟨Row.within_fixed (C.library (by decide) _), Row.within_fixed (C.library (by decide) _),
    Row.within_fixed C.primitive, ?_, List.forall_mem_nil _⟩
  intro args hargs t h
  obtain ⟨a, ha, rfl⟩ := Option.map_eq_some_iff.1 h
  exact C.withNullable (hargs a (List.mem_of_getElem? ha)) true

theorem instanceCall? {method : String} (ht : P t)
    (h : Framework.instanceCall? t method = some u) : P u := by
  unfold Framework.instanceCall? at h
  split at h
  · rename_i hp
    cases h
    refine pick?_within ?_ hp
    simp only [commonCalls, List.forall_mem_cons]
    exact ⟨C.primitive, C.primitive, C.primitive, List.forall_mem_nil _⟩
  · split at h
    · cases h
      exact C.withNullable ht false
    · split at h
      · refine pick?_within ?_ h
        simp only [stringCalls, List.forall_mem_cons]
        exact ⟨C.primitive, C.primitive, C.primitive, C.array C.primitive, C.array C.primitive,
          List.forall_mem_nil _⟩
      · rename_i hk
        dsimp only at h
        split at h
        · cases h
          exact ht
        · exact Row.lookup_within C.instanceCalls_within (C.args ht hk) h
      · cases h

theorem indexed? (ht : P t) (h : Framework.indexed? t = some u) : P u := by
  unfold Framework.indexed? at h
  split at h
  · cases h
    exact C.primitive
  · split at h
    · rename_i he
      cases h
      exact C.element? ht he
    · split at h
      · rename_i hk
        split at h
        · exact C.args ht hk u (List.mem_of_getElem? h)
        · cases h
      · cases h

end TypeRef.Closed

end Projection
