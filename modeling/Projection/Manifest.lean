import Projection.Host.Decode
import Projection.Site

/-!
Manifests: the types that projections touch, and the call sites with their lambdas as text.
-/

namespace Projection

open Data

/-- A call site as it is written in a manifest. -/
structure SiteSpec where
  location : Location
  «namespace» : Option String
  sourceType : String
  lambda : String
  typeArguments : List String
  captures : Option (List String)
  explicit : Option Target
  scope : Scope
  deriving DecidableEq, Repr

def Target.ofData? (d : Data) : Option Target :=
  match record? ["name", "accessibility", "enclosing"] d with
  | some [name, accessibility, enclosing] => do
      some
        { name := ← required? text? name
          accessibility := ← given? (word? Visibility.words) .public accessibility
          enclosing := ← given? (listOf? text?) [] enclosing }
  | _ => none

namespace SiteSpec

def ofData? (d : Data) : Option SiteSpec :=
  match record? ["file", "line", "column", "namespace", "source_type", "lambda", "type_arguments",
      "captures", "explicit", "scope"] d with
  | some [file, line, column, space, sourceType, lambda, typeArguments, captures, explicit,
      scope] => do
      some
        { location :=
            ⟨← required? text? file, ← required? (count? (Nat.pow 2 32)) line,
              ← required? (count? (Nat.pow 2 32)) column⟩
          «namespace» := ← given? (nullable? text?) none space
          sourceType := ← required? text? sourceType
          lambda := ← required? text? lambda
          typeArguments := ← given? (listOf? text?) [] typeArguments
          captures := ← given? (nullable? (listOf? text?)) none captures
          explicit := ← given? (nullable? Target.ofData?) none explicit
          scope := ← given? Scope.ofData? .empty scope }
  | _ => none

/-- Reads the lambda and then the type arguments. -/
def toCallSite (spec : SiteSpec) : Except SyntaxError CallSite := do
  let lambda ← Expr.parse spec.lambda
  let typeArguments ← spec.typeArguments.mapM TypeExpr.parse
  return ⟨spec.location, spec.namespace, spec.sourceType, lambda, typeArguments, spec.captures,
    spec.explicit, spec.scope⟩

def refusal (spec : SiteSpec) (e : SyntaxError) : String :=
  spec.location.display ++ ": " ++ e.message

end SiteSpec

structure Manifest where
  types : List TypeDecl
  sites : List SiteSpec
  deriving DecidableEq, Repr

namespace Manifest

def empty : Manifest := ⟨[], []⟩

def append (a b : Manifest) : Manifest := ⟨a.types ++ b.types, a.sites ++ b.sites⟩

def ofData? (d : Data) : Option Manifest :=
  match record? ["types", "call_sites"] d with
  | some [types, sites] => do
      some ⟨← given? (listOf? TypeDecl.ofData?) [] types,
        ← given? (listOf? SiteSpec.ofData?) [] sites⟩
  | _ => none

def model (m : Manifest) : Model := .ofTypes m.types

def callSites (m : Manifest) : List CallSite :=
  m.sites.filterMap fun spec => spec.toCallSite.toOption

def refusals (m : Manifest) : List String :=
  m.sites.filterMap fun spec =>
    match spec.toCallSite with
    | .ok _ => none
    | .error e => some (spec.refusal e)

end Manifest

end Projection
