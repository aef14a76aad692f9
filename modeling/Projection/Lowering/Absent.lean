import Projection.TypeRef

/-!
What an optional chain gives when it is cut short.
-/

namespace Projection.Lowering

/-- A call of the method `Empty` that every sequence owner has. -/
def emptyOf (owner : String) (element : TypeExpr) : Expr :=
  .invoke ((Expr.qualified owner).dot "Empty") [element] []

def emptySequence? (type : TypeRef) : Option Expr :=
  match type.element?.bind TypeRef.expr? with
  | none => none
  | some element =>
      match type.kind with
      | .array _ => some (emptyOf "System.Array" element)
      | _ =>
          if type.isNamed "List" ∨ type.isNamed "HashSet" then
            type.nonNullable.expr?.map fun t => .creation t [] none
          else if type.isQueryable then
            some (((Expr.qualified "System.Linq.Queryable").dot "AsQueryable").call
              [emptyOf "System.Linq.Enumerable" element])
          else some (emptyOf "System.Linq.Enumerable" element)

/-- Nullable types and references are absent as `null`, sequences are empty, and values have the
default of their type. -/
def absentValue : Option TypeRef → Expr
  | none => .defaultValue none
  | some type =>
      if type.nullable then .null
      else
        match emptySequence? type with
        | some empty => empty
        | none =>
            match type.primitive? with
            | some .string => .literal (.string "")
            | some .bool => .literal (.bool false)
            | some .char => .literal (.char "\\0")
            | _ => if type.isValueType then .defaultValue none else .null

end Projection.Lowering
