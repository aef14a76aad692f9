import Projection.StructuralId
import Projection.Text.Join

/-!
Types as they are written. A generated type has no spelling of its own until the structures of a
group are named.
-/

namespace Projection

inductive TypeExpr where
  /-- A possibly dotted name with its generic arguments. -/
  | named (name : String) (args : List TypeExpr)
  | generated (id : StructuralId)
  | array (element : TypeExpr)
  | nullable (inner : TypeExpr)
  deriving Repr

namespace TypeExpr

mutual

def beq : TypeExpr → TypeExpr → Bool
  | named n as, named m bs => n == m && beqList as bs
  | generated i, generated j => i == j
  | array a, array b => beq a b
  | nullable a, nullable b => beq a b
  | _, _ => false

def beqList : List TypeExpr → List TypeExpr → Bool
  | [], [] => true
  | a :: as, b :: bs => beq a b && beqList as bs
  | _, _ => false

end

mutual

theorem beq_iff (a b : TypeExpr) : beq a b = true ↔ a = b := by
  cases a <;> cases b <;>
    simp [beq, beqList_iff, beq_iff]

theorem beqList_iff (as bs : List TypeExpr) : beqList as bs = true ↔ as = bs := by
  cases as <;> cases bs <;>
    simp [beqList, beqList_iff, beq_iff]

end

instance : DecidableEq TypeExpr := fun a b => decidable_of_iff _ (beq_iff a b)

def simple (name : String) : TypeExpr := named name []

/-- Adds the mark `?` once. -/
def asNullable : TypeExpr → TypeExpr
  | nullable t => nullable t
  | t => nullable t

/-- The name of a type that is neither generic nor an array nor nullable. -/
def simpleName? : TypeExpr → Option String
  | named name [] => some name
  | _ => none

mutual

def print (names : StructuralId → String) : TypeExpr → String
  | named name [] => name
  | named name (a :: as) =>
      name ++ "<" ++ Text.join ", " (print names a :: printAll names as) ++ ">"
  | generated id => names id
  | array t => print names t ++ "[]"
  | nullable t => print names t ++ "?"

def printAll (names : StructuralId → String) : List TypeExpr → List String
  | [] => []
  | t :: ts => print names t :: printAll names ts

end

@[simp] theorem printAll_eq_map (names : StructuralId → String) (ts : List TypeExpr) :
    printAll names ts = ts.map (print names) := by
  induction ts <;> simp_all [printAll]

/-- Keywords that name types. -/
def keywords : List String :=
  ["bool", "byte", "sbyte", "char", "decimal", "double", "float", "int", "uint", "long", "ulong",
    "short", "ushort", "object", "string", "nint", "nuint"]

def isKeyword (name : String) : Bool := keywords.contains name

end TypeExpr

end Projection
