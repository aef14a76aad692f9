import Projection.Lowering

/-!
Several expressions lowered one after the other under the same bindings, with the structures that
come about on the way.
-/

namespace Projection.Lowering

structure Session where
  settings : Settings
  context : Context
  structures : List Structure

namespace Session

def start (settings : Settings) (context : Context) : Session := ⟨settings, context, []⟩

def record (s : Session) (x : Lowered Expr) : Expr × Session :=
  (x.value, ⟨s.settings, s.context, s.structures ++ x.structures⟩)

def expr (s : Session) (depth : Nat) (e : Expr) (declared : Option TypeRef) : Expr × Session :=
  s.record (Lowering.expr s.settings depth s.context e declared)

def property (s : Session) (depth : Nat) (p : Property) : Expr × Session :=
  s.record (Lowering.property s.settings depth s.context p)

def projection (s : Session) (depth : Nat) (shape : Shape) (elementType : TypeRef)
    (s' : Structure) : Expr × Session :=
  s.record (Lowering.projection s.settings depth s.context shape elementType s')

def lower (s : Session) (e : Expr) (declared : Option TypeRef) : Expr × Session :=
  s.record (Lowering.lower s.settings s.context e declared)

def lowerProperty (s : Session) (p : Property) : Expr × Session :=
  s.record (Lowering.lowerProperty s.settings s.context p)

def lowerProjection (s : Session) (shape : Shape) (elementType : TypeRef) (s' : Structure) :
    Expr × Session :=
  s.record (Lowering.lowerProjection s.settings s.context shape elementType s')

end Session

end Projection.Lowering
