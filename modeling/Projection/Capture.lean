import Projection.Expr.Parser
import Projection.Host
import Projection.Shape

/-!
Names that a projection takes from its surroundings. A generated factory stands elsewhere, so
variables and instance members that the projection reads become parameters, and everything else is
named in full.
-/

namespace Projection

namespace Capture

open Projection.Expr (children size_lt_of_mem_children size_unparen_le)

/-- What a name outside the projection means for it. -/
inductive Reference where
  /-- Has to be handed in, as a value of this type. -/
  | capture (type : String)
  | constant (value : Option String)
  /-- Reachable from anywhere through its owner. -/
  | static (owner : TypeDecl)
  | method (owner : TypeDecl) (member : MemberDecl)
  | type (type : TypeDecl)
  | unresolved
  deriving DecidableEq, Repr

def memberReference (owner : TypeDecl) (member : MemberDecl) : Reference :=
  match member.kind with
  | .method => .method owner member
  | .enumMember => .static owner
  | .property | .field =>
      if (owner.kind = .enum ∧ member.isConst) ∨
          ((member.isStatic ∨ member.isConst) ∧ member.visibility.inAssembly) then .static owner
      else .capture member.type

def reference (m : Model) (s : Scope) (name : String) : Reference :=
  match m.symbol? s name with
  | some (.variable l) => if l.isConst then .constant l.value else .capture l.type
  | some (.member owner member) => memberReference owner member
  | some (.type t) => .type t
  | none => .unresolved

def ownReference? (m : Model) (s : Scope) (name : String) : Option Reference :=
  (m.enclosing? s).bind fun owner => (owner.member? name).map (memberReference owner)

def isThis (e : Expr) : Bool :=
  match e.unparen with
  | .this => true
  | _ => false

def captured (name : String) : Option Reference → List (String × String)
  | some (.capture type) => [(name, type)]
  | _ => []

/-- Names that have to be handed in, with their types, in the order in which they are used. The
names in `bound` are parameters around `e`. A called method is not a use. -/
def uses (m : Model) (s : Scope) (bound : List String) (e : Expr) : List (String × String) :=
  match e with
  | .ident name => if bound.contains name then [] else captured name (some (reference m s name))
  | .member target name _ =>
      if isThis target then captured name (ownReference? m s name) else uses m s bound target
  | .invoke target _ args =>
      (match _h : target.unparen with
        | .ident _ => []
        | .member receiver _ _ => if isThis receiver then [] else uses m s bound receiver
        | callee => uses m s bound callee) ++
        args.attach.flatMap fun a => uses m s bound a.1
  | .lambda params body => uses m s (bound ++ params) body
  | e => e.children.attach.flatMap fun c => uses m s bound c.1
termination_by e.size
decreasing_by
  · exact size_lt_of_mem_children (by simp [children])
  · have := size_lt_of_mem_children (show receiver ∈ target.unparen.children by simp [_h, children])
    have := size_unparen_le target
    have := size_lt_of_mem_children
      (show target ∈ (Expr.invoke target ‹_› args).children by simp [children])
    omega
  · have := size_unparen_le target
    have := size_lt_of_mem_children
      (show target ∈ (Expr.invoke target ‹_› args).children by simp [children])
    rw [_h] at *
    omega
  · exact size_lt_of_mem_children (by simp [children, a.2])
  · exact size_lt_of_mem_children (by simp [children])
  · exact size_lt_of_mem_children c.2

/-- A static member in full. -/
def qualifiedMember (owner : TypeDecl) (name : String) : Expr :=
  (Expr.qualified ("global::" ++ owner.fullName)).dot name

/-- How a method of the enclosing type is called from generated code, or why it cannot be. -/
def methodTarget (owner : TypeDecl) (method : MemberDecl) : Except String Expr :=
  if method.isStatic then
    if method.visibility.inAssembly then .ok (qualifiedMember owner method.name)
    else
      .error (method.visibility.spelling ++ " method '" ++ method.name ++ "' of " ++ owner.name ++
        " is not accessible from generated code")
  else
    .error ("instance method '" ++ method.name ++ "' of " ++ owner.name ++
      " cannot be called from a static projection factory")

def methodGroup (owner : TypeDecl) (method : MemberDecl) (e : Expr) : Expr :=
  match methodTarget owner method with
  | .ok target => target
  | .error reason => .marked reason e

def rehostName (m : Model) (s : Scope) (name : String) : Expr :=
  match reference m s name with
  | .constant (some value) =>
      match Expr.parse value with
      | .ok inlined => inlined
      | .error _ => .ident name
  | .static owner => qualifiedMember owner name
  | .type t => Expr.qualified ("global::" ++ t.fullName)
  | .method owner method => methodGroup owner method (.ident name)
  | .capture _ | .constant none | .unresolved => .ident name

/-- `e`, which names the member `name` behind `this`, where generated code stands. -/
def rehostOwn (m : Model) (s : Scope) (name : String) (e : Expr) : Expr :=
  match ownReference? m s name with
  | some (.capture _) => .ident name
  | some (.static owner) => qualifiedMember owner name
  | some (.method owner method) => methodGroup owner method e
  | _ => e

/-- The method of the enclosing type that a callee names, alone or behind `this`. -/
def ownMethod? (m : Model) (s : Scope) (bound : List String) (callee : Expr) :
    Option (TypeDecl × MemberDecl) :=
  let found :=
    match callee with
    | .ident name => if bound.contains name then none else some (reference m s name)
    | .member target name _ => if isThis target then ownReference? m s name else none
    | _ => none
  match found with
  | some (.method owner method) => some (owner, method)
  | _ => none

/-- Makes an expression independent of where it was written. -/
def rehost (m : Model) (s : Scope) (bound : List String) (e : Expr) : Expr :=
  match e with
  | .ident name => if bound.contains name then .ident name else rehostName m s name
  | .member target name optional =>
      if isThis target then rehostOwn m s name (.member target name optional)
      else .member (rehost m s bound target) name optional
  | .invoke target typeArgs args =>
      let args' := args.attach.map fun a => rehost m s bound a.1
      match ownMethod? m s bound target.unparen with
      | some (owner, method) =>
          match methodTarget owner method with
          | .ok callee => .invoke callee typeArgs args'
          | .error reason => .marked reason (.invoke target typeArgs args')
      | none =>
          match _h : target.unparen with
          | .ident _ => .invoke target typeArgs args'
          | callee => .invoke (rehost m s bound callee) typeArgs args'
  | .lambda params body => .lambda params (rehost m s (bound ++ params) body)
  | e => e.withChildren (e.children.attach.map fun c => rehost m s bound c.1)
termination_by e.size
decreasing_by
  · exact size_lt_of_mem_children (by simp [children])
  · exact size_lt_of_mem_children (by simp [children, a.2])
  · have := size_unparen_le target
    have := size_lt_of_mem_children
      (show target ∈ (Expr.invoke target typeArgs args).children by simp [children])
    rw [_h] at *
    omega
  · exact size_lt_of_mem_children (by simp [children])
  · exact size_lt_of_mem_children c.2

end Capture

/-- The names that a projection takes from its surroundings, in increasing order with their types,
and how they differ from a list of names that was declared for it. -/
structure Captures where
  entries : List (String × String)
  /-- Taken but not declared. -/
  missing : List String
  /-- Declared but not taken. -/
  unused : List String
  deriving DecidableEq, Repr

namespace Captures

def names (c : Captures) : List String := c.entries.map (·.1)

/-- Type and name of each parameter of the generated factory. -/
def parameters (c : Captures) : List (String × String) :=
  c.entries.map fun (name, type) => (type, name)

/-- The object literal that would hand the names in. -/
def literal (c : Captures) : Expr := .anonymous (c.names.map fun name => .bare (.ident name))

def isConsistent (c : Captures) : Bool := c.missing.isEmpty && c.unused.isEmpty

def typeOf (uses : List (String × String)) (name : String) : String :=
  (uses.reverse.lookup name).getD "object"

def ofUses (uses : List (String × String)) (declared : Option (List String)) : Captures :=
  let names := Ordered.ofList (uses.map (·.1))
  let entries := names.map fun name => (name, typeOf uses name)
  match declared with
  | none => ⟨entries, [], []⟩
  | some declared =>
      ⟨entries, names.filter (!declared.contains ·),
        (Ordered.ofList declared).filter (!names.contains ·)⟩

def ofShape (m : Model) (s : Scope) (shape : Shape) (declared : Option (List String)) : Captures :=
  ofUses (Capture.uses m s shape.parameters shape.body) declared

end Captures

end Projection
