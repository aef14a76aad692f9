import Projection.Expr.Traversal

/-!
Calls that build a new sequence from the one they are called on.
-/

namespace Projection.Expr

def sequenceTransforms : List String :=
  ["Select", "SelectMany", "Where", "OrderBy", "OrderByDescending", "ThenBy", "ThenByDescending",
    "Skip", "Take", "Distinct", "Reverse", "ToList", "ToArray", "ToHashSet", "AsEnumerable"]

def isTransformCall : Expr → Bool
  | invoke target _ _ =>
      match target.unparen with
      | member _ name _ => sequenceTransforms.contains name
      | _ => false
  | _ => false

/-- Whether a sequence is transformed anywhere in the expression. -/
def transformsSequence (e : Expr) : Bool := e.any isTransformCall

end Projection.Expr
