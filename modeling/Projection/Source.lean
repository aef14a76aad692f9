import Projection.Expr.Printer
import Projection.Expr.Traversal
import Projection.Ordered

/-!
How a member's value comes about. The form decides how the value is lowered; every form keeps the
expression it was read from.
-/

namespace Projection

structure PathSegment where
  name : String
  optional : Bool
  deriving DecidableEq, Repr

mutual

inductive Source where
  /-- A chain of members from a name. -/
  | memberRef (root : String) (path : List PathSegment) (expr : Expr)
  | literal (expr : Expr)
  /-- A selection whose function builds an object for each element. -/
  | collection (base : Expr) (parameter : String) (element : List SourceMember) (expr : Expr)
  /-- An object literal without a type. -/
  | object (members : List SourceMember) (expr : Expr)
  | computed (text : String) (referenced : List String) (expr : Expr)

structure SourceMember where
  name : String
  source : Source

end

deriving instance Repr for Source, SourceMember

def Source.expr : Source → Expr
  | memberRef _ _ e | literal e | collection _ _ _ e | object _ e | computed _ _ e => e

namespace Expr

/-- Root and segments of a chain of members. -/
def memberPath? : Expr → Option (String × List PathSegment)
  | ident name => some (name, [])
  | this => some ("this", [])
  | paren e => memberPath? e
  | member target name optional =>
      (memberPath? target).map fun (root, path) => (root, path ++ [⟨name, optional⟩])
  | _ => none

/-- A literal, also with a sign or negation before it. -/
def isLiteral (e : Expr) : Bool :=
  match e.unparen with
  | literal _ => true
  | unary _ operand =>
      match operand.unparen with
      | literal _ => true
      | _ => false
  | _ => false

def identifiers (e : Expr) : List String :=
  match e with
  | ident name => [name]
  | e => e.children.attach.flatMap fun c => identifiers c.1
termination_by e.size
decreasing_by exact size_lt_of_mem_children c.2

/-- A selection that builds an object for each element. -/
structure Selection where
  base : Expr
  parameter : String
  initializers : List Initializer

/-- Operators whose function may build objects. -/
def selectionCalls : List String := ["Select", "SelectMany"]

/-- The initializers of an expression that builds an object. -/
def builtMembers? (e : Expr) : Option (List Initializer) :=
  match e.unparen with
  | anonymous members => some members
  | creation _ _ (some members) => some members
  | _ => none

/-- The node itself as a selection. -/
def selection? : Expr → Option Selection
  | invoke target _ [arg] =>
      match target.unparen, arg.unparen with
      | member base name _, lambda [parameter] body =>
          if selectionCalls.contains name then (builtMembers? body).map (⟨base, parameter, ·⟩)
          else none
      | _, _ => none
  | _ => none

def findSelection? (e : Expr) : Option Selection :=
  match selection? e with
  | some s => some s
  | none => e.children.attach.findSome? fun c => findSelection? c.1
termination_by e.size
decreasing_by exact size_lt_of_mem_children c.2

theorem size_builtMembers?_lt {e : Expr} {members : List Initializer}
    (h : builtMembers? e = some members) {m : Initializer} (hm : m ∈ members) :
    m.value.size < e.size := by
  unfold builtMembers? at h
  split at h
  · rename_i ms heq
    cases h
    have := size_lt_of_mem_children
      (show m.value ∈ e.unparen.children by
        rw [heq]
        exact List.mem_map.2 ⟨m, hm, rfl⟩)
    exact Nat.lt_of_lt_of_le this (size_unparen_le e)
  · rename_i t as ms heq
    cases h
    have := size_lt_of_mem_children
      (show m.value ∈ e.unparen.children by
        rw [heq]
        exact List.mem_append_right _ (List.mem_map.2 ⟨m, hm, rfl⟩))
    exact Nat.lt_of_lt_of_le this (size_unparen_le e)
  · cases h

theorem size_selection?_lt {e : Expr} {s : Selection} (h : selection? e = some s)
    {m : Initializer} (hm : m ∈ s.initializers) : m.value.size < e.size := by
  unfold selection? at h
  split at h
  · rename_i target ts arg
    split at h
    · rename_i base name o parameter body htarget harg
      split at h
      · obtain ⟨members, hb, rfl⟩ := Option.map_eq_some_iff.1 h
        have h₁ := size_builtMembers?_lt hb hm
        have h₂ := size_lt_of_mem_children
          (show body ∈ arg.unparen.children by rw [harg]; simp [children])
        have h₃ := size_unparen_le arg
        have h₄ := size_lt_of_mem_children
          (show arg ∈ (invoke target ts [arg]).children by simp [children])
        omega
      · cases h
    · cases h
  · cases h

theorem size_findSelection?_lt {e : Expr} {s : Selection} (h : findSelection? e = some s)
    {m : Initializer} (hm : m ∈ s.initializers) : m.value.size < e.size := by
  induction e using childInduction with
  | h e ih =>
      rw [findSelection?] at h
      split at h
      · rename_i hs
        cases h
        exact size_selection?_lt hs hm
      · obtain ⟨c, hc, hcs⟩ := List.exists_of_findSome?_eq_some h
        exact Nat.lt_trans (ih c.1 c.2 hcs) (size_lt_of_mem_children c.2)

end Expr

namespace Source

open Projection.Expr

def classify (e : Expr) : Source :=
  if e.isLiteral then .literal e
  else
    match e.memberPath? with
    | some (root, path) => .memberRef root path e
    | none =>
        match _hu : e.unparen with
        | .anonymous members =>
            .object (members.attach.filterMap fun m =>
              m.1.effectiveName?.map fun name => ⟨name, classify m.1.value⟩) e
        | inner =>
            match _hs : findSelection? inner with
            | some s =>
                .collection s.base s.parameter (s.initializers.attach.filterMap fun m =>
                  m.1.effectiveName?.map fun name => ⟨name, classify m.1.value⟩) e
            | none => .computed e.source (Ordered.ofList e.identifiers) e
termination_by e.size
decreasing_by
  · have := size_builtMembers?_lt (e := e) (by simp [builtMembers?, _hu]) m.2
    exact this
  · have := size_findSelection?_lt _hs m.2
    have := size_unparen_le e
    simp_all only
    omega

/-- Initializers with the forms of their values; one without a name is dropped. -/
def members (ms : List Initializer) : List SourceMember :=
  ms.filterMap fun m => m.effectiveName?.map fun name => ⟨name, classify m.value⟩

end Source

end Projection
