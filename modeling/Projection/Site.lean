import Projection.Capture
import Projection.Location
import Projection.Lowering

/-!
Call sites: one projection each, compiled on its own. What comes out holds all that the group of
the site needs from it.
-/

namespace Projection

/-- A type name that the author gives to the result. -/
structure Target where
  name : String
  accessibility : Visibility
  /-- Types around the declaration, outermost first. -/
  enclosing : List String
  deriving DecidableEq, Repr

namespace Target

def ofName (name : String) : Target := ⟨name, .public, []⟩

def reference (t : Target) : String := Text.join "." (t.enclosing ++ [t.name])

end Target

structure CallSite where
  location : Location
  «namespace» : Option String
  /-- Type text of the elements that the projection ranges over. -/
  sourceType : String
  lambda : Expr
  typeArguments : List TypeExpr
  /-- Names that the author already hands in. -/
  captureNames : Option (List String)
  explicit : Option Target
  scope : Scope

/-- How the root of a site's structure is named. -/
inductive RootNaming where
  /-- After the type it is read from. -/
  | hinted
  | explicit (target : Target)
  /-- The root exists already; only what is nested in it is generated. -/
  | nestedOnly
  deriving DecidableEq, Repr

structure SiteStructure where
  built : Structure
  naming : RootNaming

structure CompiledSite where
  location : Location
  key : GroupKey
  kind : ShapeKind
  sourceType : TypeExpr
  resultType : TypeExpr
  structures : List SiteStructure
  projection : Expr
  captures : Captures
  /-- Namespaces of the declared types that the generated code mentions, in increasing order. -/
  namespaces : List String

/-- What compiling a site comes to. There is no outcome for a site that breaks off: the model is a
table that compiling looks names up in, not code of the host, and all else that it does is defined
on every site. -/
inductive Outcome where
  | skipped (reason : Rejection)
  /-- No member of the result could be typed. -/
  | degenerate
  | compiled (site : CompiledSite)

namespace TypeRef

mutual

def namespaces (m : Model) : TypeRef → List String
  | ⟨.named name args _, _⟩ => ((m.type? name).bind (·.namespace)).toList ++ namespacesAll m args
  | ⟨.array element, _⟩ => namespaces m element
  | ⟨.primitive _, _⟩ | ⟨.anonymous _, _⟩ | ⟨.generated _, _⟩ => []

def namespacesAll (m : Model) : List TypeRef → List String
  | [] => []
  | t :: ts => namespaces m t ++ namespacesAll m ts

end

end TypeRef

/-- Namespaces that the properties of a structure and of all below it mention. -/
def Structure.namespaces (m : Model) (s : Structure) : List String :=
  (s :: s.nested.map (·.2)).flatMap fun t =>
    t.properties.flatMap fun p => p.declaredType.namespaces m

namespace CallSite

/-- Type of the elements; text that cannot be read is taken as a name. -/
def elementType (site : CallSite) (m : Model) : TypeRef :=
  (TypeRef.parse? m site.sourceType).getD (.named site.sourceType false)

/-- The members of the result with the first parameter bound. In an object whose type exists only
named initializers count. -/
def resultType (m : Model) (s : Scope) (shape : Shape) (elementType : TypeRef) : AnonymousType :=
  let Γ : Context :=
    match shape.parameters with
    | [] => ⟨m, s, []⟩
    | p :: _ => ⟨m, s, [(p, elementType)]⟩
  match shape.body with
  | .anonymous members => Typing.anonymousType Γ members
  | .creation _ _ (some initializers) =>
      Typing.anonymousType Γ (initializers.filter (·.name.isSome))
  | _ => ⟨elementType.simpleName, []⟩

/-- The type argument decides the name; the rest is as the author says. -/
def explicitTarget (name : String) : Option Target → Target
  | some declared => ⟨name, declared.accessibility, declared.enclosing⟩
  | none => .ofName name

def nameRoot (type : TypeExpr) : Expr → Expr
  | .lambda params (.creation _ args initializers) =>
      .lambda params (.creation type args initializers)
  | e => e

def groupNamespace (site : CallSite) (settings : Settings) : String :=
  match site.namespace with
  | none | some "" => settings.defaultNamespace
  | some ns => ns

/-- The naming of the root, the type of the result, and the projection that creates it. -/
def root (site : CallSite) (shape : Shape) (s : Structure) (projection : Expr) :
    RootNaming × TypeExpr × Expr :=
  match shape.kind with
  | .anonymous => (.hinted, .generated s.id, projection)
  | .explicit name =>
      let target := explicitTarget name site.explicit
      (.explicit target, .simple target.reference, nameRoot (.simple target.reference) projection)
  | .named type => (.nestedOnly, type, projection)

/-- Whether a type is generated for the root of the result. -/
def generatesRoot (shape : Shape) : Bool :=
  match shape.kind with
  | .named _ => false
  | .anonymous | .explicit _ => true

def compileShape (site : CallSite) (m : Model) (settings : Settings) (shape : Shape)
    (s : Structure) : CompiledSite :=
  let elementType := site.elementType m
  let lowered := Lowering.lowerProjection settings ⟨m, site.scope, []⟩ shape elementType s
  let (naming, resultType, projection) := site.root shape s lowered.value
  let structures := ⟨s, naming⟩ :: lowered.structures.map (⟨·, .hinted⟩)
  { location := site.location
    key := ⟨site.groupNamespace settings, site.location.file⟩
    kind := shape.kind
    sourceType := elementType.expr?.getD (.simple site.sourceType)
    resultType := resultType
    structures := structures
    projection := Capture.rehost m site.scope [] projection
    captures := Captures.ofShape m site.scope shape site.captureNames
    namespaces := Ordered.ofList (elementType.namespaces m ++
      structures.flatMap fun t => t.built.namespaces m) }

def compile (site : CallSite) (m : Model) (settings : Settings) : Outcome :=
  match Shape.ofLambda site.lambda site.typeArguments with
  | .error reason => .skipped reason
  | .ok shape =>
      let s := Structure.ofType settings (resultType m site.scope shape (site.elementType m))
      if generatesRoot shape && s.isDegenerate then .degenerate
      else .compiled (site.compileShape m settings shape s)

end CallSite

end Projection
