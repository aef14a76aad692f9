import Projection.Expr.Basic
import Projection.Primitive

/-!
Static types of expressions. An anonymous object type remembers the expressions of its members,
because they become the sources of a generated structure.
-/

namespace Projection

mutual

inductive TypeKind where
  | primitive (p : Primitive)
  | named (name : String) (args : List TypeRef) (valueType : Bool)
  | array (element : TypeRef)
  | anonymous (type : AnonymousType)
  | generated (id : StructuralId)

/-- A type with its nullability annotation. -/
structure TypeRef where
  kind : TypeKind
  nullable : Bool

/-- The type of an object literal that names no type. -/
structure AnonymousType where
  /-- Simple name of the type that the innermost lambda around the literal ranges over. -/
  sourceType : String
  members : List AnonymousMember

structure AnonymousMember where
  name : String
  expr : Expr
  type : Option TypeRef
  /-- Whether the type is nullable only because of optional access. -/
  chainOnly : Bool

end

deriving instance Repr for TypeKind, TypeRef, AnonymousType, AnonymousMember

namespace TypeRef

mutual

def beq : TypeRef → TypeRef → Bool
  | ⟨k, n⟩, ⟨l, m⟩ => beqKind k l && n == m

def beqKind : TypeKind → TypeKind → Bool
  | .primitive p, .primitive q => p == q
  | .named n as v, .named m bs w => n == m && beqList as bs && v == w
  | .array a, .array b => beq a b
  | .anonymous ⟨s, ms⟩, .anonymous ⟨t, ns⟩ => s == t && beqMembers ms ns
  | .generated i, .generated j => i == j
  | _, _ => false

def beqList : List TypeRef → List TypeRef → Bool
  | [], [] => true
  | a :: as, b :: bs => beq a b && beqList as bs
  | _, _ => false

def beqMembers : List AnonymousMember → List AnonymousMember → Bool
  | [], [] => true
  | ⟨n, e, none, c⟩ :: ms, ⟨m, f, none, d⟩ :: ns => n == m && e == f && c == d && beqMembers ms ns
  | ⟨n, e, some s, c⟩ :: ms, ⟨m, f, some t, d⟩ :: ns =>
      n == m && e == f && beq s t && c == d && beqMembers ms ns
  | _, _ => false

end

mutual

theorem beq_iff (a b : TypeRef) : beq a b = true ↔ a = b := by
  obtain ⟨k, n⟩ := a
  obtain ⟨l, m⟩ := b
  simp only [beq, Bool.and_eq_true, beq_iff_eq, mk.injEq]
  rw [beqKind_iff k l]

theorem beqKind_iff (k l : TypeKind) : beqKind k l = true ↔ k = l := by
  cases k <;> cases l <;>
    try simp only [beqKind, Bool.false_eq_true, reduceCtorEq, Bool.and_eq_true, beq_iff_eq,
      TypeKind.primitive.injEq, TypeKind.named.injEq, TypeKind.array.injEq,
      TypeKind.generated.injEq, and_assoc]
  case named.named _ as _ _ bs _ => rw [beqList_iff as bs]
  case array.array a b => rw [beq_iff a b]
  case anonymous.anonymous a b =>
    obtain ⟨s, ms⟩ := a
    obtain ⟨t, ns⟩ := b
    simp only [beqKind, Bool.and_eq_true, beq_iff_eq, TypeKind.anonymous.injEq,
      AnonymousType.mk.injEq]
    rw [beqMembers_iff ms ns]

theorem beqList_iff (as bs : List TypeRef) : beqList as bs = true ↔ as = bs := by
  cases as <;> cases bs <;>
    try simp only [beqList, Bool.false_eq_true, reduceCtorEq, Bool.and_eq_true, List.cons.injEq]
  case cons.cons a as b bs => rw [beq_iff a b, beqList_iff as bs]

theorem beqMembers_iff (ms ns : List AnonymousMember) : beqMembers ms ns = true ↔ ms = ns := by
  cases ms <;> cases ns <;> try simp only [beqMembers, Bool.false_eq_true, reduceCtorEq]
  case cons.cons m ms n ns =>
    obtain ⟨_, _, s, _⟩ := m
    obtain ⟨_, _, t, _⟩ := n
    cases s <;> cases t <;> simp only [beqMembers, Bool.false_eq_true, Bool.and_eq_true, beq_iff_eq,
      List.cons.injEq, AnonymousMember.mk.injEq, Option.some.injEq, reduceCtorEq, and_false,
      false_and, and_assoc, true_and]
    · rw [beqMembers_iff ms ns]
    · rename_i s t
      rw [beq_iff s t, beqMembers_iff ms ns]

end

instance : DecidableEq TypeRef := fun a b => decidable_of_iff _ (beq_iff a b)

def primitive (p : Primitive) : TypeRef := ⟨.primitive p, false⟩

def bool : TypeRef := primitive .bool

def int : TypeRef := primitive .int

def string : TypeRef := primitive .string

def named (name : String) (valueType : Bool) : TypeRef := ⟨.named name [] valueType, false⟩

/-- A generic reference type with one argument. -/
def sequence (name : String) (element : TypeRef) : TypeRef := ⟨.named name [element] false, false⟩

def array (element : TypeRef) : TypeRef := ⟨.array element, false⟩

def generated (id : StructuralId) : TypeRef := ⟨.generated id, false⟩

def anonymous (type : AnonymousType) : TypeRef := ⟨.anonymous type, false⟩

def withNullable (t : TypeRef) (nullable : Bool) : TypeRef := ⟨t.kind, nullable⟩

def asNullable (t : TypeRef) : TypeRef := t.withNullable true

def nonNullable (t : TypeRef) : TypeRef := t.withNullable false

@[simp] theorem kind_withNullable (t : TypeRef) (n : Bool) : (t.withNullable n).kind = t.kind := rfl

@[simp] theorem nullable_withNullable (t : TypeRef) (n : Bool) :
    (t.withNullable n).nullable = n := rfl

@[simp] theorem withNullable_withNullable (t : TypeRef) (m n : Bool) :
    (t.withNullable m).withNullable n = t.withNullable n := rfl

@[simp] theorem withNullable_nullable (t : TypeRef) : t.withNullable t.nullable = t := by
  cases t
  rfl

def primitive? (t : TypeRef) : Option Primitive :=
  match t.kind with
  | .primitive p => some p
  | _ => none

def isPrimitive (t : TypeRef) (p : Primitive) : Bool := t.primitive? == some p

def rank? (t : TypeRef) : Option Nat := t.primitive?.bind Primitive.rank?

def isValueType (t : TypeRef) : Bool :=
  match t.kind with
  | .primitive p => p.isValueType
  | .named _ _ valueType => valueType
  | _ => false

def isNullableValue (t : TypeRef) : Bool := t.nullable && t.isValueType

/-- Whether the type is named `name`, in whatever namespace. -/
def isNamed (t : TypeRef) (name : String) : Bool :=
  match t.kind with
  | .named n _ _ => Text.lastPiece '.' n == name
  | _ => false

/-- Generic types whose only argument is the type of their elements. -/
def sequenceTypes : List String :=
  ["IEnumerable", "IQueryable", "IOrderedEnumerable", "IOrderedQueryable", "ICollection", "IList",
    "IReadOnlyCollection", "IReadOnlyList", "List", "HashSet", "ISet", "IReadOnlySet", "SortedSet",
    "Collection", "ReadOnlyCollection", "ImmutableArray", "ImmutableList", "Queue", "Stack",
    "LinkedList"]

def element? (t : TypeRef) : Option TypeRef :=
  match t.kind with
  | .array element => some element
  | .named name [element] _ =>
      if sequenceTypes.contains (Text.lastPiece '.' name) then some element else none
  | _ => none

def isSequence (t : TypeRef) : Bool := t.element?.isSome

def isQueryable (t : TypeRef) : Bool := t.isNamed "IQueryable" || t.isNamed "IOrderedQueryable"

/-- Short name, used to name what is generated from the type. -/
def simpleName : TypeRef → String
  | ⟨.primitive p, _⟩ => p.keyword
  | ⟨.named name _ _, _⟩ => Text.lastPiece '.' name
  | ⟨.array element, _⟩ => simpleName element
  | ⟨.anonymous _, _⟩ => "Anonymous"
  | ⟨.generated _, _⟩ => "Generated"

mutual

/-- Text that tells types apart. Structures are identified by it. -/
def display : TypeRef → String
  | ⟨kind, true⟩ => displayKind kind ++ "?"
  | ⟨kind, false⟩ => displayKind kind

def displayKind : TypeKind → String
  | .primitive p => p.keyword
  | .named name [] _ => name
  | .named name (a :: as) _ => name ++ "<" ++ Text.join ", " (display a :: displayAll as) ++ ">"
  | .array element => display element ++ "[]"
  | .anonymous ⟨_, members⟩ => "new \x7b" ++ Text.join "," (displayMembers members) ++ " \x7d"
  | .generated id => "#" ++ id.text

def displayAll : List TypeRef → List String
  | [] => []
  | t :: ts => display t :: displayAll ts

def displayMembers : List AnonymousMember → List String
  | [] => []
  | ⟨name, _, some t, _⟩ :: ms => (" " ++ name ++ ": " ++ display t) :: displayMembers ms
  | ⟨name, _, none, _⟩ :: ms => (" " ++ name ++ ": ?") :: displayMembers ms

end

mutual

/-- How the type is written. Anonymous types cannot be written. -/
def expr? : TypeRef → Option TypeExpr
  | ⟨kind, true⟩ => (kindExpr? kind).map TypeExpr.asNullable
  | ⟨kind, false⟩ => kindExpr? kind

def kindExpr? : TypeKind → Option TypeExpr
  | .primitive p => some (.simple p.keyword)
  | .named name args _ => (exprs? args).map (.named name)
  | .array element => (expr? element).map .array
  | .anonymous _ => none
  | .generated id => some (.generated id)

def exprs? : List TypeRef → Option (List TypeExpr)
  | [] => some []
  | t :: ts =>
      match expr? t, exprs? ts with
      | some e, some es => some (e :: es)
      | _, _ => none

end

end TypeRef

namespace AnonymousType

def member? (t : AnonymousType) (name : String) : Option AnonymousMember :=
  t.members.find? (·.name == name)

end AnonymousType

end Projection
