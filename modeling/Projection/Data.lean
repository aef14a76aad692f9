/-!
Structured data as documents hold it, and strict reading of records out of it. Nothing is converted:
a flag is not a word and a fraction is not a count.
-/

namespace Projection

inductive Data where
  | null
  | bool (value : Bool)
  | int (value : Int)
  /-- A number with a fraction or an exponent, as written. -/
  | real (text : String)
  | string (text : String)
  | array (items : List Data)
  | object (fields : List (String × Data))
  /-- A value that can be passed over but not read: it is spelled correctly and stands for
  nothing. -/
  | unreadable
  deriving Repr

namespace Data

def text? : Data → Option String
  | string s => some s
  | _ => none

def flag? : Data → Option Bool
  | bool b => some b
  | _ => none

/-- A count below `bound`. -/
def count? (bound : Nat) : Data → Option Nat
  | int i => if 0 ≤ i ∧ i.toNat < bound then some i.toNat else none
  | _ => none

def listOf? {α : Type} (item? : Data → Option α) : Data → Option (List α)
  | array items => items.mapM item?
  | _ => none

/-- A value that may be left open with `null`. -/
def nullable? {α : Type} (value? : Data → Option α) : Data → Option (Option α)
  | null => some none
  | d => (value? d).map some

/-- One of a fixed set of words. The word may also be the only key of an object that maps it to
`null`. -/
def word? {α : Type} (words : List (String × α)) : Data → Option α
  | string s => words.lookup s
  | object [(s, null)] => words.lookup s
  | _ => none

/-- The value given for one field, if there is just one. -/
def field? (fields : List (String × Data)) (name : String) : Option (Option Data) :=
  match fields.filter (·.1 == name) with
  | [] => some none
  | [(_, d)] => some (some d)
  | _ => none

/-- The values of the fields `names` in this order, each if given. A record is written as an object,
in which other keys are ignored, or as the row of its first values. -/
def record? (names : List String) : Data → Option (List (Option Data))
  | object fields => names.mapM (field? fields)
  | array row =>
      if row.length ≤ names.length then
        some (row.map some ++ List.replicate (names.length - row.length) none)
      else none
  | _ => none

def required? {α : Type} (value? : Data → Option α) : Option Data → Option α
  | none => none
  | some d => value? d

/-- A field that stands for `default` when it is not given. -/
def given? {α : Type} (value? : Data → Option α) (default : α) : Option Data → Option α
  | none => some default
  | some d => value? d

end Data

end Projection
