import Projection.Expr.Generated
import Projection.Group

/-!
Source text of a group: the declarations of its types and one factory for each projection.
-/

namespace Projection

/-- A line of source text, indented by so many units. -/
inductive Line where
  | blank
  | text (depth : Nat) (s : String)
  deriving DecidableEq, Repr

namespace Line

def render (settings : Settings) : Line → String
  | blank => settings.lineEnding.text
  | text depth s =>
      String.join (List.replicate depth settings.indent.unit) ++ s ++ settings.lineEnding.text

def block (depth : Nat) (header : String) (body : Nat → List Line) : List Line :=
  [text depth header, text depth "\x7b"] ++ body (depth + 1) ++ [text depth "\x7d"]

def blocks (depth : Nat) : List String → (Nat → List Line) → List Line
  | [], body => body depth
  | header :: headers, body => block depth header fun inner => blocks inner headers body

/-- Sections with a blank line between any two. -/
def separated : List (List Line) → List Line
  | [] => []
  | [only] => only
  | first :: rest => first ++ blank :: separated rest

end Line

namespace Emission

def baseUsings : List String := ["System", "System.Collections.Generic", "System.Linq"]

def propertyLine (settings : Settings) (names : StructuralId → String) (p : Property) : String :=
  let type := (p.declaredType.expr?.map (TypeExpr.print names)).getD "object"
  let requiredMark := if settings.requiredMembers then "required " else ""
  let initializer :=
    if !settings.requiredMembers && !p.nullable && !p.declaredType.isValueType then " = default!;"
    else ""
  "public " ++ requiredMark ++ type ++ " " ++ p.name ++ " " ++ settings.accessorStyle.spelling ++
    initializer

def accessibility : Origin → String
  | .generated => "public"
  | .explicit target => target.accessibility.spelling

def enclosing : Origin → List String
  | .generated => []
  | .explicit target => target.enclosing

def declaration (settings : Settings) (names : StructuralId → String) (depth : Nat)
    (d : Declaration) : List Line :=
  Line.blocks depth
    ((enclosing d.origin).map ("partial class " ++ ·) ++
      [accessibility d.origin ++ " partial " ++ settings.declarationKind.spelling ++ " " ++
        d.name.simple])
    fun inner => d.built.properties.map fun p => .text inner (propertyLine settings names p)

def factory (names : StructuralId → String) (depth : Nat) (f : Factory) : List Line :=
  let parameters :=
    Text.join ", " (f.captures.parameters.map fun (type, name) => type ++ " " ++ name)
  [.text depth ("// " ++ f.location.display),
    .text depth ("public static System.Linq.Expressions.Expression<System.Func<" ++
      f.sourceType.print names ++ ", " ++ f.resultType.print names ++ ">> " ++ f.method ++ "(" ++
      parameters ++ ") =>"),
    .text (depth + 1) (f.lambda.print names ++ ";")]

def factories (names : StructuralId → String) (depth : Nat) (g : Group) : List Line :=
  Line.block depth ("public static partial class ShapegenProjections_" ++ g.key.fileIdent)
    fun inner => Line.separated (g.projections.map (factory names inner))

def usings (g : Group) : List String :=
  baseUsings ++ g.namespaces.filter fun ns => ns != g.key.namespace && !baseUsings.contains ns

def ownDeclarations (g : Group) : List Declaration :=
  g.declarations.filter (·.name.namespace.isNone)

def subNamespaces (g : Group) : List String :=
  Ordered.ofList (g.declarations.filterMap (·.name.namespace))

def declarationsIn (g : Group) (space : String) : List Declaration :=
  g.declarations.filter (·.name.namespace == some space)

def lines (settings : Settings) (g : Group) : List Line :=
  let names := g.nameOf
  [.text 0 "// <auto-generated/>", .text 0 "#nullable enable", .blank] ++
    (usings g).map (fun ns => .text 0 ("using " ++ ns ++ ";")) ++
    .blank :: Line.block 0 ("namespace " ++ g.key.namespace) (fun inner =>
      (ownDeclarations g).flatMap (fun d => declaration settings names inner d ++ [.blank]) ++
        factories names inner g) ++
    (subNamespaces g).flatMap fun space =>
      .blank :: Line.block 0 ("namespace " ++ space) fun inner =>
        Line.separated ((declarationsIn g space).map (declaration settings names inner))

def declarationIds (d : Declaration) : List StructuralId :=
  d.built.properties.flatMap fun p => (p.declaredType.expr?.map TypeExpr.generatedIds).getD []

def factoryIds (f : Factory) : List StructuralId :=
  f.sourceType.generatedIds ++ f.resultType.generatedIds ++ f.lambda.generatedIds

/-- Structures that the text of a group mentions, in the order of the text. -/
def mentioned (g : Group) : List StructuralId :=
  (ownDeclarations g).flatMap declarationIds ++ g.projections.flatMap factoryIds ++
    (subNamespaces g).flatMap fun space => (declarationsIn g space).flatMap declarationIds

/-- The text of a group. Every structure in it has to have a name. -/
def emit (settings : Settings) (g : Group) : Except GenerateError String :=
  match (mentioned g).find? fun id => (g.reference? id).isNone with
  | some id => .error (.unknownStructure id)
  | none => .ok (String.join ((lines settings g).map (·.render settings)))

end Emission

end Projection
