import Projection.Lowering.Absent
import Projection.Typing

/-!
Optional chains as conditionals: the accesses without their marks, guarded by one test for each
mark.
-/

namespace Projection.Lowering

open Typing

/-- A chain without marks and the tests under which it may run, outermost receiver first. -/
structure Spine where
  expr : Expr
  guards : List Expr

namespace Spine

def plain (e : Expr) : Spine := ⟨e, []⟩

def mapExpr (f : Expr → Expr) (s : Spine) : Spine := ⟨f s.expr, s.guards⟩

end Spine

/-- The receiver `target`, lowered to `s`, as it is used behind a mark or without one. Behind a
mark it is tested, and the value is taken out of a nullable one. -/
def present (Γ : Context) (target : Expr) (optional : Bool) (s : Spine) : Spine :=
  if optional then
    ⟨if (infer? Γ target.withoutOptional).any TypeRef.isNullableValue then s.expr.dot "Value"
      else s.expr,
      s.guards ++ [s.expr.notNull]⟩
  else s

/-- The branch that runs has the declared type also where that is a nullable value. -/
def castTo (type : Option TypeRef) (e : Expr) : Expr :=
  match (type.filter TypeRef.isNullableValue).bind TypeRef.expr? with
  | some t => .cast t e
  | none => e

def closeChain (Γ : Context) (e : Expr) (declared : Option TypeRef) (s : Spine) : Expr :=
  match Expr.all s.guards with
  | none => s.expr
  | some guard =>
      let type := declared.or (infer? Γ e)
      .conditional guard (castTo type s.expr) (absentValue type)

/-- Type of the elements that functions among the arguments of a call on `target` range over. -/
def argumentElement? (Γ : Context) (target : Expr) : Option TypeRef :=
  match target.unparen with
  | .member receiver _ _ => elementType? Γ receiver
  | _ => none

/-- Enters a lambda that ranges over elements, with an index if it has a second parameter. -/
def enter (Γ : Context) (params : List String) : Option TypeRef → Context
  | some element => Γ.bindAll params [element, .int]
  | none => Γ

end Projection.Lowering
