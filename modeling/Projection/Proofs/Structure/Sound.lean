import Projection.Proofs.Structure.Nested
import Projection.Proofs.Typing.Inferred
import Projection.Structure.Build

/-!
Structures made for inferred types mention only what is nested in them: a property that mentions a
generated type holds the structure of that type.
-/

namespace Projection

open TypeRef

theorem Source.unparen_of_object {v e : Expr} {members : List SourceMember}
    (h : classify v = .object members e) : ∃ ms, v.unparen = .anonymous ms := by
  rw [classify] at h
  split at h
  · cases h
  · split at h
    · cases h
    · split at h
      · exact ⟨_, ‹_›⟩
      · split at h <;> cases h

theorem Source.expr_classify (e : Expr) : (classify e).expr = e := by
  rw [classify]
  split
  · rfl
  · split
    · rfl
    · split
      · rfl
      · split <;> rfl

def Property.Sound (p : Property) : Prop :=
  ∀ id ∈ p.declaredType.generatedIds, ∃ n, p.nested = some n ∧ n.id = id

namespace Structure

variable {V : Vocabulary}

def Sound (s : Structure) : Prop :=
  ∀ q ∈ s.all, ∀ p ∈ q.properties, p.source.expr.Spelled ∧ p.Sound

theorem Sound.nested {s n : Structure} {p : Property} (h : s.Sound) (hp : p ∈ s.properties)
    (hn : p.nested = some n) : n.Sound :=
  fun q hq => h q (mem_all_of_mem_inner (mem_inner_of_nested hp hn hq))

theorem propertiesOf_eq (settings : Settings) (ms : List AnonymousMember) :
    propertiesOf settings ms = ms.filterMap fun m => m.type.map fun t =>
      propertyOf settings m.name m.expr m.chainOnly (materialize settings t) := by
  induction ms with
  | nil => rfl
  | cons m ms ih =>
      obtain ⟨name, e, type, chainOnly⟩ := m
      cases type <;> simp [propertiesOf, ih]

theorem materializeAll_singleton (settings : Settings) (t : TypeRef) :
    materializeAll settings [t] =
      ([(materialize settings t).1], (materialize settings t).2) := by
  simp [materializeAll]

/-- The type mentions nothing but the structure that is built for it, which is sound. -/
def Yields (t : TypeRef × Option Structure) : Prop :=
  (∀ id ∈ t.1.generatedIds, ∃ n, t.2 = some n ∧ n.id = id) ∧ ∀ n, t.2 = some n → n.Sound

theorem sound_propertyOf {settings : Settings} {name : String} {e : Expr} {chainOnly : Bool}
    {t : TypeRef × Option Structure} (h : Yields t) :
    (propertyOf settings name e chainOnly t).Sound := by
  intro id hid
  apply h.1
  change id ∈ (declaredType settings e t.1 chainOnly).generatedIds at hid
  unfold declaredType at hid
  split at hid
  · rwa [nonNullable, generatedIds_withNullable] at hid
  · exact hid

theorem mem_propertiesOf {settings : Settings} {ms : List AnonymousMember} {p : Property}
    (h : p ∈ propertiesOf settings ms) : ∃ m ∈ ms, ∃ t, m.type = some t ∧
      propertyOf settings m.name m.expr m.chainOnly (materialize settings t) = p := by
  rw [propertiesOf_eq] at h
  obtain ⟨m, hm, hp⟩ := List.mem_filterMap.1 h
  exact ⟨m, hm, Option.map_eq_some_iff.1 hp⟩

theorem sound_ofType_of_yields {settings : Settings} {type : AnonymousType}
    (he : ∀ m ∈ type.members, m.expr.Spelled)
    (ht : ∀ m ∈ type.members, ∀ t, m.type = some t → Yields (materialize settings t)) :
    (ofType settings type).Sound := by
  obtain ⟨sourceType, members⟩ := type
  refine forall_mem_all ?_ ?_
  · intro p hp
    obtain ⟨m, hm, t, hmt, rfl⟩ := mem_propertiesOf hp
    refine ⟨?_, sound_propertyOf (ht m hm t hmt)⟩
    change (Source.classify m.expr).expr.Spelled
    rw [Source.expr_classify]
    exact he m hm
  · intro p hp n hn
    obtain ⟨m, hm, t, hmt, rfl⟩ := mem_propertiesOf hp
    exact (ht m hm t hmt).2 n hn

theorem materializeAll_eq_self {settings : Settings} {ts : List TypeRef}
    (h : ∀ t ∈ ts, materialize settings t = (t, none)) :
    materializeAll settings ts = (ts, none) := by
  induction ts with
  | nil => rfl
  | cons t ts ih =>
      obtain ⟨ht, hts⟩ := List.forall_mem_cons.1 h
      rw [materializeAll, ht, ih hts]
      rfl

/-- What is written out stays as it is. -/
theorem materialize_of_written (settings : Settings) {t : TypeRef} (h : t.Written V) :
    materialize settings t = (t, none) := by
  induction h with
  | primitive => rfl
  | named _ _ ih => rw [materialize, materializeAll_eq_self ih]
  | array _ ih => rw [materialize, ih]

theorem yields_materialize (settings : Settings) {t : TypeRef} (h : t.Inferred V) :
    Yields (materialize settings t) := by
  induction h with
  | written h =>
      rw [materialize_of_written settings h]
      simp [Yields, h.generatedIds]
  | sequence _ _ ih =>
      rw [materialize, materializeAll_singleton]
      refine ⟨fun id hid => ih.1 id ?_, ih.2⟩
      simpa [generatedIds, kindIds] using hid
  | array _ ih => exact ih
  | @anonymous type n hs _ ih =>
      rw [materialize]
      refine ⟨fun id hid => ⟨_, rfl, (List.mem_singleton.1 hid).symm⟩, ?_⟩
      rintro _ ⟨⟩
      exact sound_ofType_of_yields (fun m hm => V.spelled (hs m hm).2) ih

theorem sound_ofType {settings : Settings} {type : AnonymousType}
    (h : (TypeRef.anonymous type).Inferred V) : (ofType settings type).Sound :=
  (yields_materialize settings h).2 _ (by rw [TypeRef.anonymous, materialize])

end Structure

end Projection
