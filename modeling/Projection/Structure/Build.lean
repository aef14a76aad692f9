import Projection.Expr.Transform
import Projection.Settings
import Projection.Structure

/-!
Structures for anonymous types. Inner structures are built first, so the identity of a structure
covers all that is below it.
-/

namespace Projection.Structure

/-- Whether a property drops the `?` of its type: a sequence that is transformed, that nothing but
optional access makes nullable, is empty rather than absent. -/
def dropsNullability (settings : Settings) (e : Expr) (type : TypeRef) (chainOnly : Bool) : Bool :=
  settings.removeSequenceNullability && type.nullable && type.isSequence && chainOnly &&
    !e.hasConditional && e.hasOptionalAccess && e.transformsSequence

def declaredType (settings : Settings) (e : Expr) (type : TypeRef) (chainOnly : Bool) : TypeRef :=
  if dropsNullability settings e type chainOnly then type.nonNullable else type

/-- A property for a member whose type is already free of anonymous types. -/
def propertyOf (settings : Settings) (name : String) (e : Expr) (chainOnly : Bool)
    (type : TypeRef × Option Structure) : Property :=
  ⟨name, declaredType settings e type.1 chainOnly,
    (declaredType settings e type.1 chainOnly).nullable,
    type.2, Source.classify e⟩

mutual

def ofType (settings : Settings) : AnonymousType → Structure
  | ⟨sourceType, members⟩ => ofProperties sourceType (propertiesOf settings members)

/-- Members without a type are left out. -/
def propertiesOf (settings : Settings) : List AnonymousMember → List Property
  | [] => []
  | ⟨_, _, none, _⟩ :: ms => propertiesOf settings ms
  | ⟨name, e, some type, chainOnly⟩ :: ms =>
      propertyOf settings name e chainOnly (materialize settings type) :: propertiesOf settings ms

/-- The type with generated types for the anonymous ones in it, and the first structure so built. -/
def materialize (settings : Settings) : TypeRef → TypeRef × Option Structure
  | ⟨.anonymous type, nullable⟩ =>
      let s := ofType settings type
      (⟨.generated s.id, nullable⟩, some s)
  | ⟨.array element, nullable⟩ =>
      let m := materialize settings element
      (⟨.array m.1, nullable⟩, m.2)
  | ⟨.named name args valueType, nullable⟩ =>
      let m := materializeAll settings args
      (⟨.named name m.1 valueType, nullable⟩, m.2)
  | ⟨.primitive p, nullable⟩ => (⟨.primitive p, nullable⟩, none)
  | ⟨.generated id, nullable⟩ => (⟨.generated id, nullable⟩, none)

def materializeAll (settings : Settings) : List TypeRef → List TypeRef × Option Structure
  | [] => ([], none)
  | t :: ts =>
      let first := materialize settings t
      let rest := materializeAll settings ts
      (first.1 :: rest.1, first.2.or rest.2)

end

end Projection.Structure
