import Projection.Text.CharClass
import Projection.Text.Position

/-!
Tokens of the lambda surface language. Literals keep the spelling between their quotes, so a token
and its description determine each other up to the escape mark of a name.
-/

namespace Projection

open Text (Position)

inductive Punct where
  | openParen | closeParen | openBrace | closeBrace | openBracket | closeBracket
  | comma | dot | questionDot | questionBracket | question | coalesce | colon | arrow
  | assign | equal | notEqual | less | greater | lessEqual | greaterEqual
  | andAnd | orOr | amp | pipe | caret | plus | minus | star | slash | percent | bang | tilde
  deriving DecidableEq, Repr

def Punct.spelling : Punct → String
  | .openParen => "("
  | .closeParen => ")"
  | .openBrace => "\x7b"
  | .closeBrace => "\x7d"
  | .openBracket => "["
  | .closeBracket => "]"
  | .comma => ","
  | .dot => "."
  | .questionDot => "?."
  | .questionBracket => "?["
  | .question => "?"
  | .coalesce => "??"
  | .colon => ":"
  | .arrow => "=>"
  | .assign => "="
  | .equal => "=="
  | .notEqual => "!="
  | .less => "<"
  | .greater => ">"
  | .lessEqual => "<="
  | .greaterEqual => ">="
  | .andAnd => "&&"
  | .orOr => "||"
  | .amp => "&"
  | .pipe => "|"
  | .caret => "^"
  | .plus => "+"
  | .minus => "-"
  | .star => "*"
  | .slash => "/"
  | .percent => "%"
  | .bang => "!"
  | .tilde => "~"

inductive Token where
  /-- Names and keywords alike; the escape mark `@` of a name is dropped. -/
  | ident (name : String)
  | int (text : String)
  | float (text : String)
  /-- What stands between the quotes, escapes as written. -/
  | str (text : String)
  | char (text : String)
  /-- What stands between the quotes of `$"..."`, holes included. -/
  | interpolated (raw : String)
  | punct (p : Punct)
  deriving DecidableEq, Repr

namespace Token

/-- The spelling that stands for the token in messages. -/
def describe : Token → String
  | ident text | int text | float text => text
  | str text => "\"" ++ text ++ "\""
  | char text => "'" ++ text ++ "'"
  | interpolated raw => "$\"" ++ raw ++ "\""
  | punct p => p.spelling

/-- Characters a token needs at least. An interpolated string counts all it holds, so a hole always
weighs less than the string around it. -/
def weight : Token → Nat
  | interpolated raw => raw.length + 3
  | _ => 1

theorem weight_pos (t : Token) : 0 < t.weight := by
  cases t <;> simp [weight]

end Token

/-- Weight of a token sequence; every token counts, so dropping tokens makes it smaller. -/
def weight (ts : List Token) : Nat := (ts.map Token.weight).foldr (· + ·) 0

@[simp] theorem weight_nil : weight [] = 0 := rfl

@[simp] theorem weight_cons (t : Token) (ts : List Token) :
    weight (t :: ts) = t.weight + weight ts := by
  simp [weight]

@[simp] theorem weight_append (ts us : List Token) :
    weight (ts ++ us) = weight ts + weight us := by
  induction ts with
  | nil => simp
  | cons t ts ih =>
      rw [List.cons_append, weight_cons, weight_cons, ih]
      omega

/-- A token and the place of its first character. -/
structure Placed where
  token : Token
  position : Position
  deriving DecidableEq, Repr

/-- Everything read from a source: its tokens in order, and the place behind the last character. -/
structure Scan where
  tokens : List Placed
  finish : Position
  deriving DecidableEq, Repr

/-- The bare tokens, which is all the grammar looks at. -/
def Scan.words (s : Scan) : List Token := s.tokens.map Placed.token

end Projection
