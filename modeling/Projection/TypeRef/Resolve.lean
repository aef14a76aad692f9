import Projection.Framework
import Projection.Host
import Projection.TypeExpr.Parser

/-!
Written types in the light of a model. Only the model and the base library know whether a name
stands for a value type.
-/

namespace Projection.TypeRef

def namedValueType (m : Model) (name : String) : Bool :=
  Framework.isValueType name || (m.type? name).any (·.kind.isValueType)

mutual

/-- The type that an expression stands for. A name that resolves to nothing is a reference type. -/
def ofExpr (m : Model) : TypeExpr → TypeRef
  | .nullable inner => (ofExpr m inner).asNullable
  | .array element => array (ofExpr m element)
  | .generated id => generated id
  | .named name [] =>
      match Primitive.ofName? name with
      | some p => primitive p
      | none => named name (namedValueType m name)
  | .named name (a :: as) =>
      if Text.lastPiece '.' name = "Nullable" ∧ as = [] then (ofExpr m a).asNullable
      else ⟨.named name (ofExpr m a :: ofExprs m as) (namedValueType m name), false⟩

def ofExprs (m : Model) : List TypeExpr → List TypeRef
  | [] => []
  | t :: ts => ofExpr m t :: ofExprs m ts

end

@[simp] theorem ofExprs_eq_map (m : Model) (ts : List TypeExpr) :
    ofExprs m ts = ts.map (ofExpr m) := by
  induction ts <;> simp_all [ofExprs]

def parse (m : Model) (text : String) : Except SyntaxError TypeRef :=
  match TypeExpr.parse text with
  | .ok t => .ok (ofExpr m t)
  | .error e => .error e

def parse? (m : Model) (text : String) : Option TypeRef := (parse m text).toOption

theorem parse?_eq_some_iff {m : Model} {text : String} {t : TypeRef} :
    parse? m text = some t ↔ ∃ e, TypeExpr.parse text = .ok e ∧ ofExpr m e = t := by
  unfold parse? parse
  cases TypeExpr.parse text with
  | ok e => simp [Except.toOption]
  | error f => simp [Except.toOption]

end Projection.TypeRef
