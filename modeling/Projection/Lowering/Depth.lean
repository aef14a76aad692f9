import Projection.Structure
import Projection.Typing

/-!
Sizes of the expressions that types and structures hold. They bound how many object literals
lowering can open inside one another.
-/

namespace Projection

namespace TypeRef

mutual

def weight : TypeRef → Nat
  | ⟨kind, _⟩ => kindWeight kind

def kindWeight : TypeKind → Nat
  | .primitive _ | .generated _ => 0
  | .named _ args _ => weights args
  | .array element => weight element
  | .anonymous ⟨_, members⟩ => memberWeights members

def weights : List TypeRef → Nat
  | [] => 0
  | t :: ts => weight t + weights ts

def memberWeights : List AnonymousMember → Nat
  | [] => 0
  | ⟨_, e, some t, _⟩ :: ms => e.size + weight t + memberWeights ms
  | ⟨_, e, none, _⟩ :: ms => e.size + memberWeights ms

end

end TypeRef

namespace Structure

mutual

def weight : Structure → Nat
  | ⟨_, properties, _⟩ => propertyWeights properties

def propertyWeights : List Property → Nat
  | [] => 0
  | ⟨_, _, _, some s, source⟩ :: ps => source.expr.size + weight s + propertyWeights ps
  | ⟨_, _, _, none, source⟩ :: ps => source.expr.size + propertyWeights ps

end

end Structure

def Context.weight (Γ : Context) : Nat := TypeRef.weights (Γ.bindings.map (·.2))

end Projection
