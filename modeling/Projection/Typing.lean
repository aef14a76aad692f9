import Projection.Expr.Traversal
import Projection.TypeRef.Resolve

/-!
Inference of static types. What cannot be derived from declarations, literals and the known
results of calls has no type; nothing is guessed.
-/

namespace Projection

/-- Where an expression stands: the model, the symbols in scope, and the parameters of the lambdas
around it, innermost first. -/
structure Context where
  model : Model
  scope : Scope
  bindings : List (String × TypeRef)

namespace Context

def bind (Γ : Context) (name : String) (type : TypeRef) : Context :=
  ⟨Γ.model, Γ.scope, (name, type) :: Γ.bindings⟩

def unbind (Γ : Context) (count : Nat) : Context := ⟨Γ.model, Γ.scope, Γ.bindings.drop count⟩

/-- Enters a lambda. Parameters without a type stay unbound. -/
def bindAll (Γ : Context) (names : List String) (types : List TypeRef) : Context :=
  ⟨Γ.model, Γ.scope, (names.zip types).reverse ++ Γ.bindings⟩

/-- Simple name of the type that the innermost lambda ranges over. -/
def sourceType (Γ : Context) : String :=
  match Γ.bindings with
  | [] => ""
  | (_, type) :: _ => type.simpleName

end Context

namespace Typing

/-- A receiver is a value, or a type that stands before a static member. -/
inductive Operand where
  | value (type : TypeRef)
  | type (type : TypeRef)

def Operand.value? : Operand → Option TypeRef
  | value t => some t
  | type _ => none

/-- Nullable if an optional access before it can be cut short. -/
def lift (lifted : Bool) (t : TypeRef) : TypeRef := if lifted then t.asNullable else t

def integerType (text : String) : Primitive :=
  let lower := String.ofList (text.toList.map Char.toLower)
  if Text.endsWith "ul" lower || Text.endsWith "lu" lower then .ulong
  else if Text.endsWith "l" lower then .long
  else if Text.endsWith "u" lower && !Text.startsWith "0x" lower then .uint
  else .int

def fractionType (text : String) : Primitive :=
  match text.toList.getLast?.map Char.toLower with
  | some 'm' => .decimal
  | some 'f' => .float
  | _ => .double

def literalType? : Literal → Option TypeRef
  | .null => none
  | .bool _ => some .bool
  | .string _ => some .string
  | .char _ => some (.primitive .char)
  | .int text => some (.primitive (integerType text))
  | .float text => some (.primitive (fractionType text))

/-- The wider of two numeric types. Small integers widen to `int`. -/
def widen (l r : TypeRef) : TypeRef :=
  let wider := if r.rank?.getD 0 > l.rank?.getD 0 then r else l
  (if wider.rank?.getD 0 < 3 then TypeRef.int else wider).withNullable (l.nullable || r.nullable)

/-- Common type of two branches; the first decides where nothing is common. -/
def unify (t f : TypeRef) : TypeRef :=
  if t.nonNullable = f.nonNullable then t.withNullable (t.nullable || f.nullable)
  else if t.rank?.isSome && f.rank?.isSome then widen t f
  else t

/-- Type of `?:` from its branches and whether they are the literal `null`. -/
def conditionalType? (t f : Option TypeRef) (tNull fNull : Bool) : Option TypeRef :=
  if tNull then f.map TypeRef.asNullable
  else if fNull then t.map TypeRef.asNullable
  else
    match t, f with
    | some t, some f => some (unify t f)
    | some t, none => some t
    | none, f => f

def coalesceType? (l r : Option TypeRef) (rNull : Bool) : Option TypeRef :=
  if rNull then l
  else
    match l, r with
    | some l, some r => some (l.withNullable r.nullable)
    | some l, none => some l.nonNullable
    | none, r => r

def isDate (t : TypeRef) : Bool := t.isNamed "DateTime" || t.isNamed "DateTimeOffset"

def isBitwise : BinaryOp → Bool
  | .bitAnd | .bitOr | .bitXor => true
  | _ => false

/-- Arithmetic and bitwise operators on operands of known type. -/
def arithmeticType? (op : BinaryOp) (l r : TypeRef) : Option TypeRef :=
  if op = .add ∧ (l.isPrimitive .string ∨ r.isPrimitive .string) then some .string
  else if isDate l then
    if op = .sub ∧ isDate r then some Framework.timeSpan
    else if op = .add ∨ op = .sub then some l
    else none
  else if isBitwise op ∧ l.isPrimitive .bool then
    some (TypeRef.bool.withNullable (l.nullable || r.nullable))
  else
    match l.primitive?, r.primitive? with
    | some _, some _ => some (widen l r)
    | _, _ => some l

/-- Concatenation with one operand of unknown type. -/
def halfKnown? (op : BinaryOp) (t : TypeRef) : Option TypeRef :=
  if op = .add ∧ t.isPrimitive .string then some t else none

def binaryType? (op : BinaryOp) (l r : Option TypeRef) (rNull : Bool) : Option TypeRef :=
  if op = .and ∨ op = .or ∨ op.isComparison then some .bool
  else if op = .coalesce then coalesceType? l r rNull
  else
    match l, r with
    | some l, some r => arithmeticType? op l r
    | some t, none | none, some t => halfKnown? op t
    | none, none => none

/-- Operators on sequences that keep the type of the elements. -/
def elementPreserving : List String :=
  ["Where", "OrderBy", "OrderByDescending", "ThenBy", "ThenByDescending", "Skip", "Take",
    "SkipWhile", "TakeWhile", "SkipLast", "TakeLast", "Distinct", "DistinctBy", "Reverse", "Concat",
    "Union", "UnionBy", "Intersect", "IntersectBy", "Except", "ExceptBy", "Append", "Prepend",
    "DefaultIfEmpty"]

/-- Operators whose result is made from the type of the elements alone. -/
def elementResults : List (String × (TypeRef → TypeRef)) :=
  [("AsEnumerable", .sequence "IEnumerable"), ("AsQueryable", .sequence "IQueryable"),
    ("ToList", .sequence "List"), ("ToArray", .array), ("ToHashSet", .sequence "HashSet"),
    ("First", id), ("Last", id), ("Single", id), ("ElementAt", id),
    ("FirstOrDefault", orDefault), ("LastOrDefault", orDefault), ("SingleOrDefault", orDefault),
    ("ElementAtOrDefault", orDefault),
    ("Count", fun _ => .int), ("LongCount", fun _ => Framework.long), ("Any", fun _ => .bool),
    ("All", fun _ => .bool), ("Contains", fun _ => .bool), ("SequenceEqual", fun _ => .bool)]
where
  orDefault (element : TypeRef) : TypeRef :=
    if element.isValueType then element else element.asNullable

def averageType (input : TypeRef) : TypeRef :=
  (match input.primitive? with
    | some .decimal => TypeRef.primitive .decimal
    | some .float => TypeRef.primitive .float
    | _ => TypeRef.primitive .double).withNullable input.nullable

/-- Result of a sequence operator. `select` types the function that is its first argument, given the
type of the elements. -/
def sequenceCall? (receiver : TypeRef) (method : String) (hasArgs : Bool)
    (select : TypeRef → Option TypeRef) : Option TypeRef :=
  match receiver.element? with
  | none => none
  | some element =>
      let kind := if receiver.isQueryable then "IQueryable" else "IEnumerable"
      if method = "Select" then (select element).map (.sequence kind)
      else if method = "SelectMany" then
        ((select element).bind TypeRef.element?).map (.sequence kind)
      else if elementPreserving.contains method then some (.sequence kind element)
      else if method = "Average" then
        (if hasArgs then select element else some element).map averageType
      else if method = "Sum" ∨ method = "Min" ∨ method = "Max" then
        if hasArgs then select element else some element
      else if method = "MinBy" ∨ method = "MaxBy" then
        some (if hasArgs then element.asNullable else element)
      else (elementResults.lookup method).map (· element)

/-- Declared type of a member; enum members have the type of their enum. -/
def memberType? (m : Model) (owner : TypeDecl) (member : MemberDecl) : Option TypeRef :=
  match member.kind with
  | .enumMember => some (.named owner.name true)
  | .method => none
  | .field | .property => TypeRef.parse? m member.type

/-- The declaration of a named type. -/
def declaration? (m : Model) (t : TypeRef) : Option TypeDecl :=
  match t.kind with
  | .named name _ _ => m.type? name
  | _ => none

def declaredMember? (m : Model) (t : TypeRef) (name : String) : Option (TypeDecl × MemberDecl) :=
  (declaration? m t).bind fun owner => (owner.member? name).map (owner, ·)

def declaredMethod? (m : Model) (t : TypeRef) (name : String) : Option MemberDecl :=
  (declaration? m t).bind (·.method? name)

/-- A member that is read; declared members hide those of the base library. -/
def readMember? (m : Model) (t : TypeRef) (name : String) (library : Option TypeRef) :
    Option TypeRef :=
  match declaredMember? m t name with
  | some (owner, member) => if member.isValue then memberType? m owner member else none
  | none => library

def staticMember? (m : Model) (t : TypeRef) (name : String) : Option TypeRef :=
  readMember? m t name (Framework.staticMember? t name)

def instanceMember? (m : Model) (t : TypeRef) (name : String) : Option TypeRef :=
  match t.kind with
  | .anonymous shape => (shape.member? name).bind (·.type)
  | _ => readMember? m t name (Framework.instanceMember? t name)

/-- A member of a value. A plain access to a nullable value reads the members of the nullable
first. -/
def valueMember? (m : Model) (receiver : TypeRef) (name : String) (optional : Bool) :
    Option TypeRef :=
  if receiver.isNullableValue && !optional then
    (Framework.instanceMember? receiver name).or (instanceMember? m receiver.nonNullable name)
  else instanceMember? m receiver.nonNullable name

def memberAccess? (m : Model) (receiver : Operand) (name : String) (optional lifted : Bool) :
    Option TypeRef :=
  match receiver with
  | .type t => staticMember? m t name
  | .value t => (valueMember? m t name optional).map (lift lifted)

def identifier? (Γ : Context) (name : String) : Option Operand :=
  match Γ.bindings.lookup name with
  | some t => some (.value t)
  | none =>
      match Γ.model.symbol? Γ.scope name with
      | some (.variable l) => (TypeRef.parse? Γ.model l.type).map .value
      | some (.member owner member) => (memberType? Γ.model owner member).map .value
      | some (.type t) => some (.type (.named t.name t.kind.isValueType))
      | none => (Framework.type? name).map .type

def thisType? (Γ : Context) : Option TypeRef :=
  (Γ.model.enclosing? Γ.scope).map fun t => .named t.name t.kind.isValueType

def ownCall? (Γ : Context) (name : String) : Option TypeRef :=
  if name = "nameof" then some .string
  else
    ((Γ.model.enclosing? Γ.scope).bind (·.method? name)).bind (TypeRef.parse? Γ.model ·.type)

def staticCall? (m : Model) (t : TypeRef) (name : String) (call : Framework.Call) :
    Option TypeRef :=
  match declaredMethod? m t name with
  | some method => TypeRef.parse? m method.type
  | none => Framework.staticCall? t name call

def instanceCall? (m : Model) (t : TypeRef) (name : String) : Option TypeRef :=
  match declaredMethod? m t name with
  | some method => TypeRef.parse? m method.type
  | none => Framework.instanceCall? t name

def unaryType (op : UnaryOp) (t : TypeRef) : TypeRef :=
  match op with
  | .not => TypeRef.bool.withNullable t.nullable
  | .neg | .plus | .bitNot => t

open Projection.Expr in
/-- What an expression denotes as a receiver. -/
def operand? (Γ : Context) (e : Expr) : Option Operand :=
  match e with
  | .ident name => identifier? Γ name
  | .this => (thisType? Γ).map .value
  | .literal l => (literalType? l).map .value
  | .paren inner => operand? Γ inner
  | .marked _ inner => operand? Γ inner
  | .member target name optional =>
      (operand? Γ target).bind fun receiver =>
        (memberAccess? Γ.model receiver name optional
          (chainOptional (.member target name optional))).map .value
  | .index target args optional =>
      ((operand? Γ target).bind Operand.value?).bind fun receiver =>
        (Framework.indexed? receiver.nonNullable).map fun element =>
          .value (lift (chainOptional (.index target args optional)) element)
  | .invoke target typeArgs args =>
      match _hu : target.unparen with
      | .member receiver name _ =>
          match operand? Γ receiver with
          | none => none
          | some (.type t) =>
              (staticCall? Γ.model t name
                ⟨typeArgs.map (TypeRef.ofExpr Γ.model),
                  args.attach.map fun a => (operand? Γ a.1).bind Operand.value?⟩).map .value
          | some (.value t) =>
              let select (element : TypeRef) : Option TypeRef :=
                match _ha : args with
                | [] => none
                | arg :: _more =>
                    match _hl : arg.unparen with
                    | .lambda params body =>
                        (operand? (Γ.bindAll params [element, .int]) body).bind Operand.value?
                    | _ => none
              ((sequenceCall? t.nonNullable name (!args.isEmpty) select).or
                (instanceCall? Γ.model t.nonNullable name)).map fun result =>
                  .value (lift (chainOptional (.invoke target typeArgs args)) result)
      | .ident name => (ownCall? Γ name).map .value
      | _ => none
  | .lambda _ _ => none
  | .anonymous members =>
      some (.value (.anonymous ⟨Γ.sourceType, members.attach.filterMap fun m =>
        m.1.effectiveName?.map fun name =>
          let type := (operand? Γ m.1.value).bind Operand.value?
          ⟨name, m.1.value, type,
            type.any (·.nullable) && m.1.value.hasOptionalAccess &&
              ((operand? Γ m.1.value.withoutOptional).bind Operand.value?).any (!·.nullable)⟩⟩))
  | .creation type _ _ => some (.value (.ofExpr Γ.model type))
  | .conditional _ t f =>
      (conditionalType? ((operand? Γ t).bind Operand.value?) ((operand? Γ f).bind Operand.value?)
        t.isNull f.isNull).map .value
  | .binary op l r =>
      (binaryType? op ((operand? Γ l).bind Operand.value?) ((operand? Γ r).bind Operand.value?)
        r.isNull).map .value
  | .unary op inner => ((operand? Γ inner).bind Operand.value?).map fun t => .value (unaryType op t)
  | .cast type _ => some (.value (.ofExpr Γ.model type))
  | .defaultValue (some type) => some (.value (.ofExpr Γ.model type))
  | .defaultValue none => none
  | .interpolated _ => some (.value .string)
termination_by e.size
decreasing_by
  all_goals try (apply size_lt_of_mem_children; simp [children]; done)
  · have h₁ := size_lt_of_mem_children
      (show receiver ∈ target.unparen.children by simp [_hu, children])
    have h₂ := size_unparen_le target
    have h₃ := size_lt_of_mem_children
      (show target ∈ (Expr.invoke target typeArgs args).children by simp [children])
    omega
  · have := a.2
    apply size_lt_of_mem_children
    simp [children, this]
  · have h₁ := size_lt_of_mem_children (show body ∈ arg.unparen.children by simp [_hl, children])
    have h₂ := size_unparen_le arg
    have h₃ := size_lt_of_mem_children
      (show arg ∈ (Expr.invoke target typeArgs (arg :: _more)).children by simp [children])
    omega
  · have := m.2
    apply size_lt_of_mem_children
    simp only [children]
    exact List.mem_map.2 ⟨m.1, this, rfl⟩
  · have := m.2
    rw [size_withoutOptional]
    apply size_lt_of_mem_children
    simp only [children]
    exact List.mem_map.2 ⟨m.1, this, rfl⟩

/-- The static type of an expression, if it can be told. -/
def infer? (Γ : Context) (e : Expr) : Option TypeRef := (operand? Γ e).bind Operand.value?

/-- Element type of the sequence that an expression gives; optional access makes no difference. -/
def elementType? (Γ : Context) (e : Expr) : Option TypeRef :=
  (infer? Γ e.withoutOptional).bind TypeRef.element?

/-- Type of a lambda's body with its parameters bound. -/
def lambdaResult? (Γ : Context) (lambda : Expr) (types : List TypeRef) : Option TypeRef :=
  match lambda.unparen with
  | .lambda params body => infer? (Γ.bindAll params types) body
  | _ => none

/-- Whether `e` has a nullable type that comes from optional access alone. -/
def chainOnly (Γ : Context) (e : Expr) : Bool :=
  (infer? Γ e).any (·.nullable) && e.hasOptionalAccess &&
    (infer? Γ e.withoutOptional).any (!·.nullable)

def anonymousMember? (Γ : Context) (m : Initializer) : Option AnonymousMember :=
  m.effectiveName?.map fun name => ⟨name, m.value, infer? Γ m.value, chainOnly Γ m.value⟩

def anonymousType (Γ : Context) (members : List Initializer) : AnonymousType :=
  ⟨Γ.sourceType, members.filterMap (anonymousMember? Γ)⟩

theorem operand?_unparen (Γ : Context) (e : Expr) : operand? Γ e.unparen = operand? Γ e := by
  fun_induction Expr.unparen e with
  | case1 e ih => rw [ih, operand?]
  | case2 => rfl

private theorem filterMap_attach {α β : Type} (xs : List α) (f : α → Option β) :
    xs.attach.filterMap (fun x => f x.1) = xs.filterMap f := by
  conv => rhs; rw [← List.attach_map_subtype_val xs, List.filterMap_map]
  rfl

theorem infer?_anonymous (Γ : Context) (members : List Initializer) :
    infer? Γ (.anonymous members) = some (.anonymous (anonymousType Γ members)) := by
  simp only [infer?, operand?, Option.bind_some, Operand.value?, anonymousType]
  congr 3
  exact filterMap_attach members (anonymousMember? Γ)

theorem infer?_unparen (Γ : Context) (e : Expr) : infer? Γ e.unparen = infer? Γ e := by
  rw [infer?, operand?_unparen, infer?]

theorem infer?_literal (Γ : Context) {e : Expr} {members : List Initializer}
    (h : e.unparen = .anonymous members) :
    infer? Γ e = some (.anonymous (anonymousType Γ members)) := by
  rw [← infer?_unparen, h, infer?_anonymous]

end Typing

end Projection
