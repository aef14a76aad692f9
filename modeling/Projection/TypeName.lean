import Projection.Settings
import Projection.StructuralId

/-!
Names of generated types.
-/

namespace Projection

structure TypeName where
  /-- Name in the declaration. -/
  simple : String
  /-- Namespace of the declaration where it is not that of the group. -/
  «namespace» : Option String
  /-- How code in the namespace of the group refers to the type. -/
  reference : String
  deriving DecidableEq, Repr

namespace TypeName

/-- The part of a name that says what the type is for. -/
def hinted (hint : String) : String :=
  match hint.toList.filter fun c => c.isAlphanum || c = '_' with
  | [] => "ShapeDto"
  | c :: rest => String.ofList (if c.isDigit then '_' :: c :: rest else c :: rest) ++ "Dto"

/-- A name for the structure `id` in the namespace `space`. -/
def generated (settings : Settings) (hint : String) (id : StructuralId) (space : String) :
    TypeName :=
  match settings.nestedNaming with
  | .suffixedClassName =>
      let name := hinted hint ++ "_" ++ id.suffix
      ⟨name, none, name⟩
  | .suffixNamespace =>
      let own := space ++ ".Generated_" ++ id.suffix
      ⟨hinted hint, some own, "global::" ++ own ++ "." ++ hinted hint⟩

end TypeName

end Projection
