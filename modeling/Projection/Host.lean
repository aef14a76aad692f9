import Projection.Text.Affix

/-!
What is known about the program around a projection: the types it can name, and the symbols in scope
at the place where the projection is written.
-/

namespace Projection

inductive Visibility where
  | «public» | internal | «protected» | «private»
  deriving DecidableEq, Repr

def Visibility.spelling : Visibility → String
  | «public» => "public"
  | internal => "internal"
  | «protected» => "protected"
  | «private» => "private"

/-- Generated code lives in the same assembly, so it reaches public and internal members. -/
def Visibility.inAssembly : Visibility → Bool
  | «public» | internal => true
  | «protected» | «private» => false

inductive MemberKind where
  | property | field | method | enumMember
  deriving DecidableEq, Repr

structure MemberDecl where
  name : String
  kind : MemberKind
  /-- Declared type as source text, of a method the return type; empty for enum members. -/
  type : String
  isStatic : Bool
  isConst : Bool
  visibility : Visibility
  deriving DecidableEq, Repr

def MemberDecl.isValue (m : MemberDecl) : Bool :=
  match m.kind with
  | .property | .field | .enumMember => true
  | .method => false

inductive TypeDeclKind where
  | «class» | struct | record | recordStruct | enum | interface
  deriving DecidableEq, Repr

def TypeDeclKind.isValueType : TypeDeclKind → Bool
  | struct | recordStruct | enum => true
  | «class» | record | interface => false

structure TypeDecl where
  name : String
  «namespace» : Option String
  kind : TypeDeclKind
  members : List MemberDecl
  deriving DecidableEq, Repr

namespace TypeDecl

def fullName (t : TypeDecl) : String :=
  match t.namespace with
  | none | some "" => t.name
  | some ns => ns ++ "." ++ t.name

def member? (t : TypeDecl) (name : String) : Option MemberDecl :=
  t.members.find? (·.name == name)

def method? (t : TypeDecl) (name : String) : Option MemberDecl :=
  (t.member? name).filter (·.kind == .method)

/-- A type is known by its simple and by its full name. -/
def answersTo (t : TypeDecl) (name : String) : Bool := t.name == name || t.fullName == name

end TypeDecl

/-- All known types, with the place of the one that a name stands for. -/
structure Model where
  types : List TypeDecl
  index : List (String × Nat)
  /-- Where several types answer to a name, the first of them has it. -/
  first : ∀ name, index.lookup name = types.findIdx? (·.answersTo name)
  deriving DecidableEq, Repr

namespace Model

def empty : Model := ⟨[], [], fun _ => rfl⟩

/-- Gives a name to the type at a place, unless another type has it. -/
def assign (index : List (String × Nat)) (name : String) (place : Nat) : List (String × Nat) :=
  match index.lookup name with
  | some _ => index
  | none => (name, place) :: index

theorem lookup_assign (index : List (String × Nat)) (name other : String) (place : Nat) :
    (assign index name place).lookup other =
      (index.lookup other).or (if name = other then some place else none) := by
  unfold assign
  by_cases h : name = other
  · subst h
    split
    · rename_i taken htaken
      rw [htaken]
      rfl
    · rename_i hfree
      simp [hfree]
  · have hne : (other == name) = false := beq_eq_false_iff_ne.2 (Ne.symm h)
    split <;> simp [List.lookup_cons, h, hne]

def insert (m : Model) (t : TypeDecl) : Model where
  types := m.types ++ [t]
  index := assign (assign m.index t.name m.types.length) t.fullName m.types.length
  first name := by
    rw [lookup_assign, lookup_assign, m.first, List.findIdx?_append, Option.or_assoc]
    congr 1
    by_cases hname : t.name = name
    · simp [TypeDecl.answersTo, hname]
    · by_cases hfull : t.fullName = name <;> simp [TypeDecl.answersTo, hname, hfull]

def ofTypes (types : List TypeDecl) : Model := types.foldl insert empty

/-- Finds a type by simple or full name, with or without the mark of the outermost namespace. -/
def type? (m : Model) (name : String) : Option TypeDecl :=
  (m.index.lookup (Text.dropFront "global::" name)).bind (m.types[·]?)

/-- A lookup finds the first type that answers to the name. -/
theorem type?_eq_find? (m : Model) (name : String) :
    m.type? name = m.types.find? (·.answersTo (Text.dropFront "global::" name)) := by
  rw [type?, m.first, List.find?_eq_bind_findIdx?_getElem?]

theorem types_foldl_insert (m : Model) (types : List TypeDecl) :
    (types.foldl insert m).types = m.types ++ types := by
  induction types generalizing m with
  | nil => rw [List.append_nil, List.foldl_nil]
  | cons t types ih =>
      rw [List.foldl_cons, ih, List.append_cons]
      rfl

@[simp]
theorem types_ofTypes (types : List TypeDecl) : (ofTypes types).types = types :=
  types_foldl_insert empty types

end Model

inductive LocalKind where
  | «variable» | parameter
  deriving DecidableEq, Repr

/-- A variable of the code around the projection. -/
structure Local where
  name : String
  kind : LocalKind
  type : String
  isConst : Bool
  /-- Source text of the value of a constant. -/
  value : Option String
  deriving DecidableEq, Repr

structure Scope where
  locals : List Local
  /-- The type whose members can be named without a receiver. -/
  enclosing : Option String
  deriving DecidableEq, Repr

namespace Scope

def empty : Scope := ⟨[], none⟩

/-- The innermost, that is last, variable of this name. -/
def local? (s : Scope) (name : String) : Option Local := s.locals.reverse.find? (·.name == name)

end Scope

inductive Symbol where
  | «variable» (symbol : Local)
  | member (owner : TypeDecl) (member : MemberDecl)
  | type (type : TypeDecl)
  deriving DecidableEq, Repr

namespace Model

def enclosing? (m : Model) (s : Scope) : Option TypeDecl := s.enclosing.bind m.type?

/-- What a bare name stands for: variables hide members of the enclosing type, which hide types. -/
def symbol? (m : Model) (s : Scope) (name : String) : Option Symbol :=
  match s.local? name with
  | some l => some (.variable l)
  | none =>
      match (m.enclosing? s).bind fun owner => (owner.member? name).map (Symbol.member owner) with
      | some found => some found
      | none => (m.type? name).map .type

end Model

end Projection
