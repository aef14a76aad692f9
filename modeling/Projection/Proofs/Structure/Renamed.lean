import Projection.Proofs.Typing.Rename
import Projection.Structure.Build

/-!
New names for variables do not show in the identity of a structure.
-/

namespace Projection.Structure

variable (settings : Settings) (ρ : String → String)

@[simp] theorem declaredType_rename (e : Expr) (type : TypeRef) (chainOnly : Bool) :
    declaredType settings (e.rename ρ) type chainOnly = declaredType settings e type chainOnly := by
  simp [declaredType, dropsNullability]

/-- The identity of a nested structure is all of it that shows. -/
theorem encodeProperty_congr {name : String} {type : TypeRef} {nullable : Bool}
    {nested nested' : Option Structure} {source source' : Source}
    (h : nested'.map (·.id) = nested.map (·.id)) :
    encodeProperty ⟨name, type, nullable, nested', source'⟩ =
      encodeProperty ⟨name, type, nullable, nested, source⟩ := by
  cases nested with
  | none => cases Option.map_eq_none_iff.1 h; rfl
  | some s =>
      obtain ⟨s', rfl, hid⟩ := Option.map_eq_some_iff.1 h
      simp only [encodeProperty, hid]

mutual

theorem id_ofType_rename (type : AnonymousType) :
    (ofType settings (type.rename ρ)).id = (ofType settings type).id := by
  match type with
  | ⟨sourceType, members⟩ =>
      have h := map_encodeProperty_rename members
      rw [AnonymousType.rename, ← TypeRef.renameMembers_eq, ofType, ofType, ofProperties,
        ofProperties, encode, encode, List.flatMap_def, List.flatMap_def, h]

theorem map_encodeProperty_rename (members : List AnonymousMember) :
    (propertiesOf settings (TypeRef.renameMembers ρ members)).map encodeProperty =
      (propertiesOf settings members).map encodeProperty := by
  match members with
  | [] => rfl
  | ⟨_, _, none, _⟩ :: ms =>
      rw [TypeRef.renameMembers, propertiesOf, propertiesOf]
      exact map_encodeProperty_rename ms
  | ⟨name, e, some type, chainOnly⟩ :: ms =>
      obtain ⟨htype, hnested⟩ := materialize_rename type
      rw [TypeRef.renameMembers, propertiesOf, propertiesOf, List.map_cons, List.map_cons,
        map_encodeProperty_rename ms, propertyOf, propertyOf, declaredType_rename, htype,
        encodeProperty_congr hnested]

theorem materialize_rename (type : TypeRef) :
    (materialize settings (type.rename ρ)).1 = (materialize settings type).1 ∧
      (materialize settings (type.rename ρ)).2.map (·.id) =
        (materialize settings type).2.map (·.id) := by
  match type with
  | ⟨.anonymous type, nullable⟩ =>
      have h := id_ofType_rename type
      rw [TypeRef.rename, TypeRef.renameKind_anonymous]
      simp only [materialize, h, Option.map_some, and_self]
  | ⟨.array element, nullable⟩ =>
      obtain ⟨htype, hnested⟩ := materialize_rename element
      simp only [TypeRef.rename, TypeRef.renameKind, materialize, htype, hnested, and_self]
  | ⟨.named name args valueType, nullable⟩ =>
      obtain ⟨htypes, hnested⟩ := materializeAll_rename args
      simp only [TypeRef.rename, TypeRef.renameKind, materialize, htypes, hnested, and_self]
  | ⟨.primitive p, nullable⟩ => exact ⟨rfl, rfl⟩
  | ⟨.generated id, nullable⟩ => exact ⟨rfl, rfl⟩

theorem materializeAll_rename (types : List TypeRef) :
    (materializeAll settings (TypeRef.renameAll ρ types)).1 = (materializeAll settings types).1 ∧
      (materializeAll settings (TypeRef.renameAll ρ types)).2.map (·.id) =
        (materializeAll settings types).2.map (·.id) := by
  match types with
  | [] => exact ⟨rfl, rfl⟩
  | t :: ts =>
      obtain ⟨htype, hnested⟩ := materialize_rename t
      obtain ⟨htypes, hrest⟩ := materializeAll_rename ts
      rw [TypeRef.renameAll]
      simp only [materializeAll, htype, htypes, Option.map_or, hnested, hrest, and_self]

end

end Projection.Structure
