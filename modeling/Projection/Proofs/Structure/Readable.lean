import Projection.Proofs.Structure.Identity
import Projection.Proofs.Structure.Sound
import Projection.Proofs.TypeRef.Declared

/-!
Structures of inferred types can be read back: their placeholders and the names of their properties
are names, and what their properties hold comes from source text.
-/

namespace Projection

open Text TypeRef

theorem StructuralId.isNamePart_hexDigit : ∀ n < 16, isNamePart (hexDigit n) = true := by decide

theorem StructuralId.isName_placeholder_ofBytes (bytes : List UInt8) :
    IsName (ofBytes bytes).placeholder := by
  refine ⟨'G', "enerated_".toList ++ (ofBytes bytes).text.toList, ?_, by decide, ?_⟩
  · rw [placeholder, String.toList_append]
    rfl
  · exact List.forall_mem_append.2 ⟨List.all_eq_true.1 (by decide),
      Structure.forall_mem_ofBytes isNamePart_hexDigit bytes⟩

structure Property.Readable (S : Strings) (p : Property) : Prop where
  name : IsName p.name
  source : p.source.expr.Steady S
  type : p.declaredType.Declared

namespace Structure

def Readable (S : Strings) (s : Structure) : Prop :=
  ∀ q ∈ s.all, IsName q.id.placeholder ∧ ∀ p ∈ q.properties, p.Readable S

variable {S : Strings}

theorem Readable.nested {s n : Structure} {p : Property} (h : s.Readable S)
    (hp : p ∈ s.properties) (hn : p.nested = some n) : n.Readable S :=
  fun q hq => h q (mem_all_of_mem_inner (mem_inner_of_nested hp hn hq))

/-- The type can be read back where it is written, and so can the structure built for it. -/
def Shows (S : Strings) (t : TypeRef × Option Structure) : Prop :=
  t.1.Declared ∧ ∀ n, t.2 = some n → n.Readable S

theorem readable_propertyOf {settings : Settings} {name : String} {e : Expr} {chainOnly : Bool}
    {t : TypeRef × Option Structure} (hn : IsName name) (he : e.Steady S) (ht : t.1.Declared) :
    (propertyOf settings name e chainOnly t).Readable S where
  name := hn
  source := (Source.expr_classify e).symm ▸ he
  type := by
    change (declaredType settings e t.1 chainOnly).Declared
    unfold declaredType
    split
    · exact ht.nonNullable
    · exact ht

theorem readable_ofType_of_shows {settings : Settings} {type : AnonymousType}
    (he : ∀ m ∈ type.members, IsName m.name ∧ m.expr.Steady S)
    (ht : ∀ m ∈ type.members, ∀ t, m.type = some t → Shows S (materialize settings t)) :
    (ofType settings type).Readable S := by
  obtain ⟨sourceType, members⟩ := type
  refine forall_mem_all ⟨StructuralId.isName_placeholder_ofBytes _, ?_⟩ ?_
  · intro p hp
    obtain ⟨m, hm, t, hmt, rfl⟩ := mem_propertiesOf hp
    exact readable_propertyOf (he m hm).1 (he m hm).2 (ht m hm t hmt).1
  · intro p hp n hn
    obtain ⟨m, hm, t, hmt, rfl⟩ := mem_propertiesOf hp
    exact (ht m hm t hmt).2 n hn

theorem shows_materialize (settings : Settings) {t : TypeRef} (h : t.Inferred (.readableWith S)) :
    Shows S (materialize settings t) := by
  induction h with
  | written h =>
      rw [materialize_of_written settings h]
      exact ⟨h.declared_of_names fun hn => hn, nofun⟩
  | sequence hn _ ih =>
      rw [materialize, materializeAll_singleton]
      exact ⟨.named hn (List.forall_mem_singleton.2 ih.1), ih.2⟩
  | array _ ih => exact ⟨.array ih.1, ih.2⟩
  | @anonymous type n hs _ ih =>
      rw [materialize]
      have hreadable := readable_ofType_of_shows hs ih
      refine ⟨.generated (hreadable _ (self_mem_all _)).1, ?_⟩
      rintro _ ⟨⟩
      exact hreadable

theorem readable_ofType {settings : Settings} {type : AnonymousType}
    (h : (TypeRef.anonymous type).Inferred (.readableWith S)) : (ofType settings type).Readable S :=
  (shows_materialize settings h).2 _ (by rw [TypeRef.anonymous, materialize])

end Structure

end Projection
