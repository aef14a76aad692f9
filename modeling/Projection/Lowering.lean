import Projection.Lowering.Chain
import Projection.Lowering.Depth
import Projection.Lowering.Lowered
import Projection.Lowering.Selection
import Projection.Shape
import Projection.Structure.Build

/-!
Projections without optional access and without anonymous objects: chains become conditionals, and
object literals create the structures that are generated for them. What cannot be lowered stays
behind a visible note.
-/

namespace Projection

namespace Lowering

open Typing Projection.Expr

/-- Closes the tests around a selection. Without tests the fallback stays behind `??`. -/
def guardSelection (declared : TypeRef) (guards : List Expr) (result : Expr)
    (fallback : Option Expr) : Expr :=
  match Expr.all guards, fallback with
  | some guard, some f => .conditional guard result f
  | some guard, none => .conditional guard result (absentValue (some declared))
  | none, some f => .binary .coalesce result f
  | none, none => result

/-- The functions of lowering go down in the tree at one depth. -/
theorem lex_child {depth i : Nat} (j : Nat) {c e : Expr} (h : c ∈ e.children) (hi : i < 4) :
    Prod.Lex (· < ·) (Prod.Lex (· < ·) (· < ·)) (depth, 0, 4 * c.size + i)
      (depth, 0, 4 * e.size + j) := by
  have := size_lt_of_mem_children h
  exact .right _ (.right _ (by omega))

mutual

/-- Lowers an expression. `depth` bounds how many object literals are opened inside one another;
types of parameters can bring in values for which no bound is enough. -/
def expr (settings : Settings) (depth : Nat) (Γ : Context) (e : Expr) (declared : Option TypeRef) :
    Lowered Expr :=
  if e.chainOptional then (spine settings depth Γ e).map (closeChain Γ e declared)
  else node settings depth Γ e declared
termination_by (depth, 0, 4 * e.size + 2)
decreasing_by
  · exact .right _ (.right _ (by omega))
  · exact .right _ (.right _ (by omega))

/-- Follows the receivers of a chain down to where it starts. -/
def spine (settings : Settings) (depth : Nat) (Γ : Context) (e : Expr) : Lowered Spine :=
  match e with
  | .member target name optional =>
      (spine settings depth Γ target).map fun s =>
        (present Γ target optional s).mapExpr (·.dot name)
  | .index target args optional =>
      ((spine settings depth Γ target).both
        (.all (args.attach.map fun a => expr settings depth Γ a.1 none))).map fun (s, as) =>
          (present Γ target optional s).mapExpr (.index · as false)
  | .invoke target typeArgs args =>
      ((spine settings depth Γ target).both
        (.all (args.attach.map fun a =>
          argument settings depth Γ a.1 (argumentElement? Γ target)))).map fun (s, as) =>
            s.mapExpr (.invoke · typeArgs as)
  | e => (node settings depth Γ e none).map .plain
termination_by (depth, 0, 4 * e.size + 1)
decreasing_by
  · exact lex_child 1 (by simp [children]) (by omega)
  · exact lex_child 1 (by simp [children]) (by omega)
  · exact lex_child 1 (by simp [children, a.2]) (by omega)
  · exact lex_child 1 (by simp [children]) (by omega)
  · exact lex_child 1 (by simp [children, a.2]) (by omega)
  · exact .right _ (.right _ (by omega))

/-- An argument of a call. A function among the arguments ranges over the elements of the
receiver. -/
def argument (settings : Settings) (depth : Nat) (Γ : Context) (arg : Expr)
    (element : Option TypeRef) : Lowered Expr :=
  match _h : arg.unparen with
  | .lambda params body =>
      (expr settings depth (enter Γ params element) body none).map (.lambda params)
  | _ => expr settings depth Γ arg none
termination_by (depth, 0, 4 * arg.size + 3)
decreasing_by
  · have := size_lt_of_mem_children (show body ∈ arg.unparen.children by simp [_h, children])
    have := size_unparen_le arg
    exact .right _ (.right _ (by omega))
  · exact .right _ (.right _ (by omega))

/-- Lowers a node that ends no optional chain. -/
def node (settings : Settings) (depth : Nat) (Γ : Context) (e : Expr) (declared : Option TypeRef) :
    Lowered Expr :=
  match e with
  | .invoke target typeArgs args =>
      ((expr settings depth Γ target none).both
        (.all (args.attach.map fun a =>
          argument settings depth Γ a.1 (argumentElement? Γ target)))).map fun (t, as) =>
            .invoke t typeArgs as
  | .anonymous members =>
      let s := Structure.ofType settings (anonymousType Γ members)
      if s.isDegenerate then
        .pure (.marked "anonymous object has no resolvable members" (.anonymous members))
      else
        match depth with
        | 0 => .pure (.marked "anonymous objects are nested too deeply" (.anonymous members))
        | depth + 1 => (creation settings depth Γ s).followed s
  | .conditional c t f =>
      ((expr settings depth Γ c none).both
        ((expr settings depth Γ t declared).both (expr settings depth Γ f declared))).map
          fun (c, t, f) => .conditional c t f
  | .paren inner => (expr settings depth Γ inner declared).map .paren
  | e =>
      (Lowered.all (e.children.attach.map fun c => expr settings depth Γ c.1 none)).map
        e.withChildren
termination_by (depth, 0, 4 * e.size)
decreasing_by
  · exact lex_child 0 (by simp [children]) (by omega)
  · exact lex_child 0 (by simp [children, a.2]) (by omega)
  · exact .left _ _ (by omega)
  · exact lex_child 0 (by simp [children]) (by omega)
  · exact lex_child 0 (by simp [children]) (by omega)
  · exact lex_child 0 (by simp [children]) (by omega)
  · exact lex_child 0 (by simp [children]) (by omega)
  · exact lex_child 0 c.2 (by omega)

def creation (settings : Settings) (depth : Nat) (Γ : Context) (s : Structure) : Lowered Expr :=
  (Lowered.all (s.properties.attach.map fun p =>
    (property settings depth Γ p.1).map (Initializer.named p.1.name))).map fun initializers =>
      .creation (.generated s.id) [] (some initializers)
termination_by (depth, 1, sizeOf s)
decreasing_by
  have h := List.sizeOf_lt_of_mem p.2
  cases s
  simp only [Structure.mk.sizeOf_spec] at *
  exact .right _ (.right _ (by omega))

def property (settings : Settings) (depth : Nat) (Γ : Context) (p : Property) : Lowered Expr :=
  match p with
  | ⟨_, type, _, nested, source⟩ =>
      match source with
      | .collection _ _ _ e => collection settings depth Γ e type nested
      | .object _ e =>
          match nested with
          | some s => creation settings depth Γ s
          | none => .pure (.marked "nested object shape could not be resolved" e)
      | source => expr settings depth Γ source.expr (some type)
termination_by (depth, 1, sizeOf p)
decreasing_by
  · exact .right _ (.right _ (by simp; omega))
  · exact .right _ (.right _ (by simp; omega))
  · exact .right _ (.left _ _ (by omega))

/-- A property that is a selection. Object literals in its function create `nested`. -/
def collection (settings : Settings) (depth : Nat) (Γ : Context) (e : Expr) (declared : TypeRef)
    (nested : Option Structure) : Lowered Expr :=
  match SelectionForm.ofExpr e with
  | .other => expr settings depth Γ e (some declared)
  | .refused reason => .pure (.marked reason e)
  | .selection sel =>
      match elementType? Γ sel.base with
      | none => .pure (.marked ("element type of " ++ sel.transform ++ " source is unknown") e)
      | some element =>
          let receiver := (spine settings depth Γ sel.base).map (present Γ sel.base sel.optional)
          let finish (body : Lowered Expr) : Lowered Expr :=
            (receiver.both (body.both
              (match sel.fallback with
                | some f => (expr settings depth Γ f (some declared)).map some
                | none => .pure none))).map fun (s, body, fallback) =>
                  guardSelection declared s.guards (sel.rebuild s.expr body) fallback
          let inner := Γ.bind sel.parameter element
          match sel.bodyForm with
          | .literal =>
              match nested with
              | some s => finish (creation settings depth inner s)
              | none =>
                  receiver.map fun _ => .marked "nested element shape could not be resolved" e
          | .expression => finish (expr settings depth inner sel.body none)
          | .refused reason => receiver.map fun _ => .marked reason e
termination_by (depth, 1, sizeOf nested)
decreasing_by
  · exact .right _ (.left _ _ (by omega))
  · exact .right _ (.left _ _ (by omega))
  · exact .right _ (.left _ _ (by omega))
  · exact .right _ (.right _ (by simp))
  · exact .right _ (.left _ _ (by omega))

end

/-- Lowers an expression for a place of the declared type, if one is known. The depth is enough
wherever the types of parameters bring in no values with optional access. -/
def lower (settings : Settings) (Γ : Context) (e : Expr) (declared : Option TypeRef) :
    Lowered Expr :=
  expr settings (2 * (e.size + Γ.weight)) Γ e declared

def lowerProperty (settings : Settings) (Γ : Context) (p : Property) : Lowered Expr :=
  property settings (2 * (Structure.propertyWeights [p] + Γ.weight)) Γ p

/-- An initializer of an object whose type exists. One that has a typed property is lowered as
that. -/
def initializer (settings : Settings) (depth : Nat) (Γ : Context) (s : Structure)
    (i : Initializer) :
    Lowered Initializer :=
  (match i.name.bind s.property? with
    | some p => property settings depth Γ p
    | none => expr settings depth Γ i.value none).map (⟨i.name, ·⟩)

def body (settings : Settings) (depth : Nat) (Γ : Context) (shape : Shape) (s : Structure) :
    Lowered Expr :=
  match shape.kind with
  | .anonymous | .explicit _ => creation settings depth Γ s
  | .named type =>
      ((Lowered.all (shape.constructorArgs.map fun a => expr settings depth Γ a none)).both
        (match shape.body with
          | .creation _ _ (some is) =>
              (Lowered.all (is.map (initializer settings depth Γ s))).map some
          | _ => .pure none)).map fun (args, initializers) => .creation type args initializers

def projectionContext (Γ : Context) (shape : Shape) (elementType : TypeRef) : Context :=
  match shape.parameters with
  | [] => Γ
  | p :: _ => Γ.bind p elementType

/-- Lowers a projection over elements of `elementType`. For a named shape `s` is what a literal
with the same initializers would have. -/
def projection (settings : Settings) (depth : Nat) (Γ : Context) (shape : Shape)
    (elementType : TypeRef) (s : Structure) : Lowered Expr :=
  (body settings depth (projectionContext Γ shape elementType) shape s).map
    (.lambda shape.parameters)

def lowerProjection (settings : Settings) (Γ : Context) (shape : Shape) (elementType : TypeRef)
    (s : Structure) : Lowered Expr :=
  let size := shape.body.size + s.weight + (projectionContext Γ shape elementType).weight
  projection settings (2 * size) Γ shape elementType s

end Lowering

end Projection
