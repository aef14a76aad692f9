/-!
What a reading rule hands back: a value and the characters that it did not use.
-/

namespace Projection.Text

/-- A value and the characters behind it, fewer than `limit`. -/
structure Taken (α : Type) (limit : Nat) where
  value : α
  rest : List Char
  bound : rest.length < limit

def Taken.widen {α : Type} {m n : Nat} (t : Taken α m) (h : m ≤ n) : Taken α n :=
  ⟨t.value, t.rest, Nat.lt_of_lt_of_le t.bound h⟩

/-! How far a rule gets that takes one character and then goes on. -/

theorem length_lt_cons (rest : List Char) : rest.length < rest.length + 1 :=
  Nat.lt_succ_self _

theorem length_cons_lt_cons (c : Char) (rest : List Char) :
    (c :: rest).length < rest.length + 1 + 1 :=
  Nat.lt_succ_self _

theorem length_lt_cons_of_lt {rest behind : List Char} (h : behind.length < rest.length) :
    behind.length < rest.length + 1 :=
  Nat.lt_succ_of_lt h

theorem length_lt_cons_of_lt_of_lt {rest more behind : List Char}
    (h : more.length < rest.length) (h' : behind.length < more.length) :
    behind.length < rest.length + 1 :=
  Nat.lt_succ_of_lt (Nat.lt_trans h' h)

end Projection.Text
