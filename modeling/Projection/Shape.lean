import Projection.Source
import Projection.Text.Quoted

/-!
Projection lambdas by what their body builds and by the type arguments written at the call.
-/

namespace Projection

inductive ShapeKind where
  /-- An object literal without a type. -/
  | anonymous
  /-- An object of a type that exists already. -/
  | named (type : TypeExpr)
  /-- An object literal whose generated type is named by the second type argument. -/
  | explicit (target : String)
  deriving DecidableEq, Repr

structure Shape where
  kind : ShapeKind
  parameters : List String
  body : Expr
  members : List SourceMember
  constructorArgs : List Expr

/-- Why a call is passed over. -/
inductive Rejection where
  | notALambda
  | noParameter
  | unsupportedBody (form : String)
  | explicitTarget (type : TypeExpr)
  deriving DecidableEq, Repr

namespace TypeExpr

mutual

/-- The tree of a type, spelled out. -/
def outline : TypeExpr → String
  | named name args =>
      "Named \x7b name: " ++ Text.quoted name ++ ", args: [" ++ Text.join ", " (outlines args) ++
        "] \x7d"
  | generated id => "Generated(StructuralId(" ++ Text.quoted id.text ++ "))"
  | array t => "Array(" ++ outline t ++ ")"
  | nullable t => "Nullable(" ++ outline t ++ ")"

def outlines : List TypeExpr → List String
  | [] => []
  | t :: ts => outline t :: outlines ts

end

end TypeExpr

namespace Rejection

def message : Rejection → String
  | notALambda => "projection is not a lambda"
  | noParameter => "projection lambda has no parameter"
  | unsupportedBody form => "unsupported projection body: " ++ form
  | explicitTarget type => "explicit target type '" ++ type.outline ++ "' is not a simple name"

end Rejection

/-- The word for a body that builds no object. -/
def Expr.formName : Expr → String
  | ident _ | member _ _ _ => "member access"
  | invoke _ _ _ => "invocation"
  | literal _ => "literal"
  | conditional _ _ _ => "conditional"
  | lambda _ _ => "lambda"
  | _ => "expression"

namespace Shape

/-- How an object literal is named at a call with these type arguments. -/
def literalKind : List TypeExpr → Except Rejection ShapeKind
  | [_, target] =>
      match target.simpleName? with
      | some name => .ok (.explicit name)
      | none => .error (.explicitTarget target)
  | _ => .ok .anonymous

def ofLambda (lambda : Expr) (typeArgs : List TypeExpr) : Except Rejection Shape :=
  match lambda.unparen with
  | .lambda [] _ => .error .noParameter
  | .lambda (p :: ps) body =>
      match body.unparen with
      | .anonymous members =>
          (literalKind typeArgs).map fun kind =>
            ⟨kind, p :: ps, .anonymous members, Source.members members, []⟩
      | .creation type args initializers =>
          .ok ⟨.named type, p :: ps, .creation type args initializers,
            Source.members (initializers.getD []), args⟩
      | other => .error (.unsupportedBody other.formName)
  | _ => .error .notALambda

end Shape

end Projection
