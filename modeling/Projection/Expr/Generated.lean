import Projection.Expr.Basic

/-!
Generated types that expressions and types mention, in the order in which they are printed.
-/

namespace Projection

namespace TypeExpr

mutual

def generatedIds : TypeExpr → List StructuralId
  | named _ args => generatedIdsAll args
  | generated id => [id]
  | array t | nullable t => generatedIds t

def generatedIdsAll : List TypeExpr → List StructuralId
  | [] => []
  | t :: ts => generatedIds t ++ generatedIdsAll ts

end

@[simp] theorem generatedIdsAll_eq (ts : List TypeExpr) :
    generatedIdsAll ts = ts.flatMap generatedIds := by
  induction ts <;> simp_all [generatedIdsAll]

end TypeExpr

namespace Expr

mutual

def generatedIds : Expr → List StructuralId
  | ident _ | this | literal _ | defaultValue none => []
  | defaultValue (some t) => t.generatedIds
  | member t _ _ | lambda _ t | unary _ t | paren t | marked _ t => generatedIds t
  | index t as _ => generatedIds t ++ generatedIdsAll as
  | invoke t ts as => generatedIds t ++ ts.flatMap TypeExpr.generatedIds ++ generatedIdsAll as
  | anonymous ms => generatedIdsIn ms
  | creation t as none => t.generatedIds ++ generatedIdsAll as
  | creation t as (some ms) => t.generatedIds ++ generatedIdsAll as ++ generatedIdsIn ms
  | conditional c t f => generatedIds c ++ generatedIds t ++ generatedIds f
  | binary _ l r => generatedIds l ++ generatedIds r
  | cast t e => t.generatedIds ++ generatedIds e
  | interpolated ps => generatedIdsOf ps

def generatedIdsAll : List Expr → List StructuralId
  | [] => []
  | e :: es => generatedIds e ++ generatedIdsAll es

def generatedIdsIn : List Initializer → List StructuralId
  | [] => []
  | ⟨_, e⟩ :: ms => generatedIds e ++ generatedIdsIn ms

def generatedIdsOf : List Part → List StructuralId
  | [] => []
  | .text _ :: ps => generatedIdsOf ps
  | .hole e _ :: ps => generatedIds e ++ generatedIdsOf ps

end

end Expr

end Projection
