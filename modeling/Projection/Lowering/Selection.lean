import Projection.Source

/-!
The parts of a selection that makes up a whole property: a base, the operator, the function, a
call that collects the result, and what stands in for it.
-/

namespace Projection.Lowering

/-- Calls that may collect the result of a selection. -/
def terminals : List String := ["ToList", "ToArray", "ToHashSet", "AsEnumerable"]

def splitTerminal (e : Expr) : Expr × Option String :=
  match e with
  | .invoke target [] [] =>
      match target.unparen with
      | .member inner name _ =>
          if terminals.contains name then (inner.unparen, some name) else (e, none)
      | _ => (e, none)
  | _ => (e, none)

def splitFallback (e : Expr) : Expr × Option Expr :=
  match e.unparen with
  | .binary .coalesce l r => (l.unparen, some r)
  | other => (other, none)

structure Selection where
  base : Expr
  optional : Bool
  transform : String
  typeArgs : List TypeExpr
  parameter : String
  body : Expr
  terminal : Option String
  fallback : Option Expr

inductive SelectionForm where
  /-- Not a selection at its core. -/
  | other
  /-- A selection that cannot be lowered. -/
  | refused (reason : String)
  | selection (s : Selection)

def selector (transform : String) : List Expr → Except String (String × Expr)
  | [arg] =>
      match arg.unparen with
      | .lambda [parameter] body => .ok (parameter, body)
      | .lambda _ _ => .error (transform ++ " lambda must take one parameter")
      | _ => .error (transform ++ " argument is not a lambda")
  | _ => .error (transform ++ " takes a single selector")

def SelectionForm.ofExpr (e : Expr) : SelectionForm :=
  match (splitTerminal (splitFallback e).1).1 with
  | .invoke target typeArgs args =>
      match target.unparen with
      | .member base transform optional =>
          if Expr.selectionCalls.contains transform then
            match selector transform args with
            | .error reason => .refused reason
            | .ok (parameter, body) =>
                .selection ⟨base, optional, transform, typeArgs, parameter, body,
                  (splitTerminal (splitFallback e).1).2, (splitFallback e).2⟩
          else .other
      | _ => .other
  | _ => .other

namespace Selection

/-- The call with its receiver and body lowered, and collected as before. -/
def rebuild (s : Selection) (receiver body : Expr) : Expr :=
  let call : Expr := .invoke (receiver.dot s.transform) s.typeArgs [.lambda [s.parameter] body]
  match s.terminal with
  | some terminal => (call.dot terminal).call []
  | none => call

/-- What the function of a selection may be. -/
inductive BodyForm where
  /-- An object literal that the nested structure stands for. -/
  | literal
  | expression
  | refused (reason : String)

def bodyForm (s : Selection) : BodyForm :=
  if s.transform = "Select" then
    match s.body.unparen with
    | .anonymous _ => .literal
    | .creation _ _ _ => .expression
    | _ => .refused (s.transform ++ " body is not an object creation")
  else .expression

end Selection

end Projection.Lowering
