import Projection.Token
import Projection.SyntaxError

/-!
Results of grammar rules. A rule returns what it read and the tokens behind it, and its type says
that it never gives back more than it was given; this is what ends every loop of the grammar.
-/

namespace Projection.Grammar

/-- A value and the remaining tokens, which weigh less than `limit`. -/
structure Parsed (α : Type) (limit : Nat) where
  value : α
  rest : List Token
  bound : weight rest < limit

/-- Why a rule stops: the tokens do not fit, with so many of them left, or the text of a hole is
itself refused. -/
inductive Fault where
  | expected (what : String) (left : Nat)
  | hole (error : SyntaxError)
  deriving DecidableEq, Repr

/-- A fault in terms of the source that was scanned. -/
def Fault.resolve (s : Scan) : Fault → SyntaxError
  | .hole e => e
  | .expected what left =>
      match s.tokens.drop (s.tokens.length - left) with
      | [] => .unexpectedEnd what
      | found :: _ => .unexpected what found.token.describe found.position

abbrev Result (α : Type) (limit : Nat) := Except Fault (Parsed α limit)

/-- The rule failed at the front of `ts`. -/
def fail {α : Type} {limit : Nat} (what : String) (ts : List Token) : Result α limit :=
  .error (.expected what ts.length)

end Projection.Grammar
