import Projection.Ordered
import Projection.Text.Join
import Projection.Text.Split

/-!
Where projections are written, and the keys by which they are grouped into files.
-/

namespace Projection

/-- The name of a file up to its last point. A point in front belongs to the name. -/
def stem (name : String) : String :=
  match (Text.splitAt '.' name).reverse with
  | _ :: before =>
      let front := Text.join "." before.reverse
      if front = "" then name else front
  | [] => name

/-- Steps of a path that name something, as opposed to those that stay or go up. -/
def isNamedStep (step : String) : Bool := step != "" && step != "." && step != ".."

/-- The named steps of a path, with the extension taken off the last one. -/
def pathNames (path : String) : List String :=
  let steps := (Text.splitAt '/' path).filter fun step => step != "" && step != "."
  match steps.getLast? with
  | none | some ".." => steps.filter isNamedStep
  | some last => (steps.dropLast ++ [stem last]).filter isNamedStep

/-- Every character that an identifier may not hold becomes an underscore. -/
def identifierChar (c : Char) : Char :=
  if c.isAlphanum || c = '_' then c else '_'

def fileIdent (file : String) : String :=
  let slashed := String.ofList (file.toList.map fun c => if c = '\\' then '/' else c)
  let ident := String.ofList ((Text.join "_" (pathNames slashed)).toList.map identifierChar)
  if ident = "" then "Source" else ident

structure Location where
  file : String
  line : Nat
  column : Nat
  deriving DecidableEq, Repr

namespace Location

def display (l : Location) : String :=
  l.file ++ ":" ++ toString l.line ++ ":" ++ toString l.column

/-- Name of the method that is generated for the projection written here. -/
def factoryName (l : Location) : String :=
  "Project_" ++ toString l.line ++ "_" ++ toString l.column

/-- Files in order of their names, in a file from top to bottom. -/
def le (a b : Location) : Bool :=
  a.file < b.file ||
    (a.file == b.file && (a.line < b.line || (a.line == b.line && a.column ≤ b.column)))

end Location

/-- Projections of one namespace and file are generated together. -/
structure GroupKey where
  «namespace» : String
  file : String
  deriving DecidableEq, Repr

namespace GroupKey

instance : LT GroupKey where
  lt a b := a.namespace < b.namespace ∨ (a.namespace = b.namespace ∧ a.file < b.file)

instance (a b : GroupKey) : Decidable (a < b) :=
  inferInstanceAs (Decidable (a.namespace < b.namespace ∨
    (a.namespace = b.namespace ∧ a.file < b.file)))

instance : LinearlyOrdered GroupKey where
  trans := by
    rintro ⟨n₁, f₁⟩ ⟨n₂, f₂⟩ ⟨n₃, f₃⟩ (h | ⟨h, h'⟩) (k | ⟨k, k'⟩)
    · exact .inl (String.lt_trans h k)
    · cases k
      exact .inl h
    · cases h
      exact .inl k
    · cases h
      cases k
      exact .inr ⟨rfl, String.lt_trans h' k'⟩
  irrefl := by
    rintro ⟨n, f⟩ (h | ⟨_, h⟩)
    · exact String.lt_irrefl _ h
    · exact String.lt_irrefl _ h
  gt_of_not_lt := by
    rintro ⟨n₁, f₁⟩ ⟨n₂, f₂⟩ h hne
    by_cases hn : n₁ = n₂
    · subst hn
      refine .inr ⟨rfl, LinearlyOrdered.gt_of_not_lt (fun hf => h (.inr ⟨rfl, hf⟩)) ?_⟩
      rintro rfl
      exact hne rfl
    · exact .inl (LinearlyOrdered.gt_of_not_lt (fun hlt => h (.inl hlt)) hn)

def fileIdent (k : GroupKey) : String := Projection.fileIdent k.file

def hintName (k : GroupKey) (ext : String) : String :=
  k.namespace ++ "." ++ k.fileIdent ++ ".g." ++ ext

def display (k : GroupKey) : String := k.namespace ++ " (" ++ k.file ++ ")"

end GroupKey

end Projection
