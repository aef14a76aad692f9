import Projection.Text.Position

/-!
Why a source text is refused. Positions refer to the text that was given.
-/

namespace Projection

open Text (Position)

inductive SyntaxError where
  /-- No token starts with this character. -/
  | unexpectedChar (char : Char) (position : Position)
  /-- A quoted literal has no closing quote; the position is that of its opening. -/
  | unterminatedLiteral (position : Position)
  | unexpected (expected found : String) (position : Position)
  | unexpectedEnd (expected : String)
  deriving DecidableEq, Repr

namespace SyntaxError

private def place (p : Position) : String := toString p.line ++ ":" ++ toString p.column

def message : SyntaxError → String
  | unexpectedChar c p => "unexpected character '" ++ c.toString ++ "' at " ++ place p
  | unterminatedLiteral p => "unterminated literal starting at " ++ place p
  | unexpected expected found p =>
      "expected " ++ expected ++ ", found '" ++ found ++ "' at " ++ place p
  | unexpectedEnd expected => "unexpected end of input, expected " ++ expected

/-- An input that ends too early has no offending character to point at. -/
def position? : SyntaxError → Option Position
  | unexpectedChar _ p | unterminatedLiteral p | unexpected _ _ p => some p
  | unexpectedEnd _ => none

end SyntaxError

end Projection
