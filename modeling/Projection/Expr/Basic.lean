import Projection.TypeExpr
import Projection.Text.Split

/-!
Expression trees of projection lambdas. Literals keep their source spelling, and parentheses are
nodes, so a tree says how it was written.
-/

namespace Projection

inductive Literal where
  | null
  | bool (value : Bool)
  | int (text : String)
  | float (text : String)
  | string (text : String)
  | char (text : String)
  deriving DecidableEq, Repr

inductive BinaryOp where
  | coalesce | or | and | bitOr | bitXor | bitAnd
  | eq | ne | lt | gt | le | ge | add | sub | mul | div | rem
  deriving DecidableEq, Repr

namespace BinaryOp

def spelling : BinaryOp → String
  | coalesce => "??"
  | or => "||"
  | and => "&&"
  | bitOr => "|"
  | bitXor => "^"
  | bitAnd => "&"
  | eq => "=="
  | ne => "!="
  | lt => "<"
  | gt => ">"
  | le => "<="
  | ge => ">="
  | add => "+"
  | sub => "-"
  | mul => "*"
  | div => "/"
  | rem => "%"

/-- A higher number binds tighter. -/
def precedence : BinaryOp → Nat
  | coalesce => 1
  | or => 2
  | and => 3
  | bitOr => 4
  | bitXor => 5
  | bitAnd => 6
  | eq | ne => 7
  | lt | gt | le | ge => 8
  | add | sub => 9
  | mul | div | rem => 10

/-- `??` groups to the right, all others to the left. -/
def groupsRight : BinaryOp → Bool
  | coalesce => true
  | _ => false

def isComparison : BinaryOp → Bool
  | eq | ne | lt | gt | le | ge => true
  | _ => false

end BinaryOp

inductive UnaryOp where
  | not | neg | plus | bitNot
  deriving DecidableEq, Repr

def UnaryOp.spelling : UnaryOp → String
  | not => "!"
  | neg => "-"
  | plus => "+"
  | bitNot => "~"

mutual

inductive Expr where
  | ident (name : String)
  | this
  | literal (value : Literal)
  | member (target : Expr) (name : String) (optional : Bool)
  | index (target : Expr) (args : List Expr) (optional : Bool)
  | invoke (target : Expr) (typeArgs : List TypeExpr) (args : List Expr)
  | lambda (params : List String) (body : Expr)
  /-- An object literal without a type. -/
  | anonymous (members : List Initializer)
  | creation (type : TypeExpr) (args : List Expr) (initializers : Option (List Initializer))
  | conditional (condition whenTrue whenFalse : Expr)
  | binary (op : BinaryOp) (left right : Expr)
  | unary (op : UnaryOp) (operand : Expr)
  | cast (type : TypeExpr) (operand : Expr)
  /-- The default value, of the type that the context asks for if none is given. -/
  | defaultValue (type : Option TypeExpr)
  | interpolated (parts : List Part)
  | paren (inner : Expr)
  /-- An expression that could not be lowered; it is printed behind a visible note. -/
  | marked (note : String) (inner : Expr)

/-- One entry between the braces of an object literal. Without a name it either takes the name of
the member it reads or is an element of a collection. -/
structure Initializer where
  name : Option String
  value : Expr

inductive Part where
  | text (text : String)
  /-- A hole may carry an alignment and a format, kept with the mark that starts them. -/
  | hole (expr : Expr) (format : Option String)

end

deriving instance Repr for Expr, Initializer, Part

namespace Part

def expr? : Part → Option Expr
  | text _ => none
  | hole e _ => some e

end Part

namespace Expr

mutual

def beq : Expr → Expr → Bool
  | ident a, ident b => a == b
  | this, this => true
  | literal a, literal b => a == b
  | member a n o, member b m p => beq a b && n == m && o == p
  | index a as o, index b bs p => beq a b && beqList as bs && o == p
  | invoke a ts as, invoke b us bs => beq a b && ts == us && beqList as bs
  | lambda ps a, lambda qs b => ps == qs && beq a b
  | anonymous ms, anonymous ns => beqInitializers ms ns
  | creation t as none, creation u bs none => t == u && beqList as bs
  | creation t as (some ms), creation u bs (some ns) =>
      t == u && beqList as bs && beqInitializers ms ns
  | conditional a b c, conditional x y z => beq a x && beq b y && beq c z
  | binary o a b, binary p x y => o == p && beq a x && beq b y
  | unary o a, unary p b => o == p && beq a b
  | cast t a, cast u b => t == u && beq a b
  | defaultValue t, defaultValue u => t == u
  | interpolated ps, interpolated qs => beqParts ps qs
  | paren a, paren b => beq a b
  | marked n a, marked m b => n == m && beq a b
  | _, _ => false

def beqList : List Expr → List Expr → Bool
  | [], [] => true
  | a :: as, b :: bs => beq a b && beqList as bs
  | _, _ => false

def beqInitializers : List Initializer → List Initializer → Bool
  | [], [] => true
  | ⟨n, a⟩ :: ms, ⟨m, b⟩ :: ns => n == m && beq a b && beqInitializers ms ns
  | _, _ => false

def beqParts : List Part → List Part → Bool
  | [], [] => true
  | .text s :: ps, .text t :: qs => s == t && beqParts ps qs
  | .hole a f :: ps, .hole b g :: qs => beq a b && f == g && beqParts ps qs
  | _, _ => false

end

mutual

theorem beq_iff (a b : Expr) : beq a b = true ↔ a = b := by
  cases a <;> cases b <;>
    try simp only [beq, Bool.false_eq_true, reduceCtorEq, Bool.and_eq_true, beq_iff_eq,
      ident.injEq, literal.injEq, member.injEq, index.injEq, invoke.injEq, lambda.injEq,
      anonymous.injEq, conditional.injEq, binary.injEq, unary.injEq, cast.injEq,
      defaultValue.injEq, interpolated.injEq, paren.injEq, marked.injEq, and_assoc]
  case member.member a _ _ b _ _ => rw [beq_iff a b]
  case index.index a as _ b bs _ => rw [beq_iff a b, beqList_iff as bs]
  case invoke.invoke a _ as b _ bs => rw [beq_iff a b, beqList_iff as bs]
  case lambda.lambda _ a _ b => rw [beq_iff a b]
  case anonymous.anonymous ms ns => rw [beqInitializers_iff ms ns]
  case creation.creation _ as i _ bs j =>
    cases i <;> cases j <;> simp only [beq, Bool.false_eq_true, reduceCtorEq, Bool.and_eq_true,
      beq_iff_eq, creation.injEq, Option.some.injEq, and_assoc, and_false, and_true]
    · rw [beqList_iff as bs]
    · rename_i ms ns
      rw [beqList_iff as bs, beqInitializers_iff ms ns]
  case conditional.conditional a b c x y z => rw [beq_iff a x, beq_iff b y, beq_iff c z]
  case binary.binary _ a b _ x y => rw [beq_iff a x, beq_iff b y]
  case unary.unary _ a _ b => rw [beq_iff a b]
  case cast.cast _ a _ b => rw [beq_iff a b]
  case interpolated.interpolated ps qs => rw [beqParts_iff ps qs]
  case paren.paren a b => rw [beq_iff a b]
  case marked.marked _ a _ b => rw [beq_iff a b]

theorem beqList_iff (as bs : List Expr) : beqList as bs = true ↔ as = bs := by
  cases as <;> cases bs <;>
    try simp only [beqList, Bool.false_eq_true, reduceCtorEq, Bool.and_eq_true, List.cons.injEq]
  case cons.cons a as b bs => rw [beq_iff a b, beqList_iff as bs]

theorem beqInitializers_iff (ms ns : List Initializer) :
    beqInitializers ms ns = true ↔ ms = ns := by
  cases ms <;> cases ns <;>
    try simp only [beqInitializers, Bool.false_eq_true, reduceCtorEq]
  case cons.cons m ms n ns =>
    obtain ⟨_, a⟩ := m
    obtain ⟨_, b⟩ := n
    simp only [beqInitializers, Bool.and_eq_true, beq_iff_eq, List.cons.injEq,
      Initializer.mk.injEq]
    rw [beq_iff a b, beqInitializers_iff ms ns]

theorem beqParts_iff (ps qs : List Part) : beqParts ps qs = true ↔ ps = qs := by
  cases ps <;> cases qs <;>
    try simp only [beqParts, Bool.false_eq_true, reduceCtorEq]
  case cons.cons p ps q qs =>
    cases p <;> cases q <;> simp only [beqParts, Bool.false_eq_true, Bool.and_eq_true, beq_iff_eq,
      List.cons.injEq, Part.text.injEq, Part.hole.injEq, reduceCtorEq, false_and]
    · rw [beqParts_iff ps qs]
    · rename_i a _ b _
      rw [beq_iff a b, beqParts_iff ps qs]

end

instance : DecidableEq Expr := fun a b => decidable_of_iff _ (beq_iff a b)

def null : Expr := literal .null

def dot (target : Expr) (name : String) : Expr := member target name false

def call (target : Expr) (args : List Expr) : Expr := invoke target [] args

def notNull (e : Expr) : Expr := binary .ne e null

/-- Joins conditions with `&&` from left to right. -/
def all : List Expr → Option Expr
  | [] => none
  | c :: rest => some (rest.foldl (binary .and) c)

/-- A dotted name as nested member access. -/
def qualified (path : String) : Expr :=
  match Text.splitAt '.' path with
  | [] => ident path
  | first :: rest => rest.foldl dot (ident first)

/-- Without the parentheses around the whole. -/
def unparen : Expr → Expr
  | paren e => unparen e
  | e => e

def isNull (e : Expr) : Bool :=
  match e.unparen with
  | literal .null => true
  | _ => false

/-- The name an initializer takes from its value. -/
def impliedName? (e : Expr) : Option String :=
  match e.unparen with
  | ident name => some name
  | member _ name _ => some name
  | _ => none

/-- Whether the receiver spine that ends here has an optional segment. Arguments do not count. -/
def chainOptional : Expr → Bool
  | member target _ optional => optional || chainOptional target
  | index target _ optional => optional || chainOptional target
  | invoke target _ _ => chainOptional target
  | _ => false

end Expr

namespace Initializer

def named (name : String) (value : Expr) : Initializer := ⟨some name, value⟩

def bare (value : Expr) : Initializer := ⟨none, value⟩

/-- The written name, or the one the value implies. -/
def effectiveName? (i : Initializer) : Option String := i.name <|> i.value.impliedName?

end Initializer

end Projection
