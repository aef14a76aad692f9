import Projection.Proofs.Expr.Brackets
import Projection.Proofs.Expr.Spelled
import Projection.Proofs.TypeExpr.Tokens

/-!
The tokens of an expression, as it is printed: form by form, with the parentheses that binding
strength asks for. Notes have none.
-/

namespace Projection

open Text

def Literal.token : Literal → Token
  | null => .ident "null"
  | bool true => .ident "true"
  | bool false => .ident "false"
  | int text => .int text
  | float text => .float text
  | string text => .str text
  | char text => .char text

theorem Literal.token_ne (value : Literal) :
    (∀ p, value.token ≠ .punct p) ∧ ∀ raw, value.token ≠ .interpolated raw := by
  cases value with
  | bool b => cases b <;> simp [token]
  | _ => simp [token]

def BinaryOp.punct : BinaryOp → Punct
  | coalesce => .coalesce
  | or => .orOr
  | and => .andAnd
  | bitOr => .pipe
  | bitXor => .caret
  | bitAnd => .amp
  | eq => .equal
  | ne => .notEqual
  | lt => .less
  | gt => .greater
  | le => .lessEqual
  | ge => .greaterEqual
  | add => .plus
  | sub => .minus
  | mul => .star
  | div => .slash
  | rem => .percent

def UnaryOp.punct : UnaryOp → Punct
  | not => .bang
  | neg => .minus
  | plus => .plus
  | bitNot => .tilde

def commaTail : List (List Token) → List Token
  | [] => []
  | ts :: more => .punct .comma :: (ts ++ commaTail more)

def commaList : List (List Token) → List Token
  | [] => []
  | ts :: more => ts ++ commaTail more

def typeArgTokens : List TypeExpr → List Token
  | [] => []
  | t :: ts => .punct .less :: TypeExpr.listTokens (t :: ts)

def paramTokens : List String → List Token
  | [p] => [.ident p]
  | ps => .punct .openParen :: (commaList (ps.map fun p => [.ident p]) ++ [.punct .closeParen])

def valueTokens (name : Option String) (value : List Token) : List Token :=
  match name with
  | none => value
  | some n => .ident n :: .punct .assign :: value

def wrapTokens (needed : Bool) (ts : List Token) : List Token :=
  if needed then .punct .openParen :: (ts ++ [.punct .closeParen]) else ts

namespace Expr

def tokens : Expr → List Token
  | ident name => [.ident name]
  | this => [.ident "this"]
  | literal value => [value.token]
  | member t n o =>
      wrapTokens (t.power < primaryPower) t.tokens ++
        [.punct (if o then .questionDot else .dot), .ident n]
  | index t as o =>
      wrapTokens (t.power < primaryPower) t.tokens ++
        .punct (if o then .questionBracket else .openBracket) ::
          (commaList (as.map tokens) ++ [.punct .closeBracket])
  | invoke t ts as =>
      wrapTokens (t.power < primaryPower) t.tokens ++ (typeArgTokens ts ++
        .punct .openParen :: (commaList (as.map tokens) ++ [.punct .closeParen]))
  | lambda ps b => paramTokens ps ++ .punct .arrow :: b.tokens
  | anonymous ms =>
      .ident "new" :: .punct .openBrace ::
        (commaList (ms.map fun m => valueTokens m.name m.value.tokens) ++ [.punct .closeBrace])
  | creation t as none =>
      .ident "new" :: (t.tokens ++
        .punct .openParen :: (commaList (as.map tokens) ++ [.punct .closeParen]))
  | creation t [] (some ms) =>
      .ident "new" :: (t.tokens ++ .punct .openBrace ::
        (commaList (ms.map fun m => valueTokens m.name m.value.tokens) ++ [.punct .closeBrace]))
  | creation t (a :: as) (some ms) =>
      .ident "new" :: (t.tokens ++
        .punct .openParen :: (commaList (a.tokens :: as.map tokens) ++ .punct .closeParen ::
          .punct .openBrace :: (commaList (ms.map fun m => valueTokens m.name m.value.tokens) ++
            [.punct .closeBrace])))
  | conditional c t f =>
      wrapTokens (c.power < 1) c.tokens ++ .punct .question ::
        (wrapTokens t.isLambda t.tokens ++ .punct .colon :: wrapTokens f.isLambda f.tokens)
  | binary op l r =>
      wrapTokens (l.power < if op.groupsRight then op.precedence + 1 else op.precedence) l.tokens ++
        .punct op.punct ::
          wrapTokens (r.power < if op.groupsRight then op.precedence else op.precedence + 1)
            r.tokens
  | unary op e =>
      .punct op.punct :: wrapTokens (repeatsSign op e || e.power < unaryPower) e.tokens
  | cast t e =>
      .punct .openParen ::
        (t.tokens ++ .punct .closeParen :: wrapTokens (e.power < unaryPower) e.tokens)
  | defaultValue none => [.ident "default"]
  | defaultValue (some t) =>
      .ident "default" :: .punct .openParen :: (t.tokens ++ [.punct .closeParen])
  | interpolated ps => [.interpolated (printParts StructuralId.placeholder ps)]
  | paren e => .punct .openParen :: (e.tokens ++ [.punct .closeParen])
  | marked _ e => e.tokens
termination_by e => sizeOf e
decreasing_by all_goals exact sizeOf_lt_of_mem_children (by simp [children]; try grind)

def ownTokens : Expr → List Token
  | ident name | member _ name _ => [.ident name]
  | literal value => [value.token]
  | lambda ps _ => ps.map .ident
  | anonymous ms | creation _ _ (some ms) => ms.filterMap fun m => m.name.map .ident
  | _ => []

def isInterpolated : Expr → Bool
  | interpolated _ => true
  | _ => false

end Expr

/-- Interpolated strings, told apart by all but the expressions in their holes. -/
structure Strings where
  allows : List Part → Prop
  refill {ps : List Part} (es : List Expr) : allows ps → allows (Expr.refill ps es)

namespace Strings

def none : Strings := ⟨fun _ => False, fun _ h => h⟩

def Admits (S : Strings) : Expr → Prop
  | .interpolated ps => S.allows ps
  | _ => True

theorem admits_of_isInterpolated (S : Strings) {e : Expr} (h : e.isInterpolated = false) :
    S.Admits e := by
  cases e <;> trivial

def Solid (S : Strings) : Prop := ∀ ps, S.allows ps → ps.filterMap Part.expr? = []

theorem solid_none : none.Solid := fun _ h => h.elim

end Strings

namespace Expr

/-- The node can be spelled: its names, literals and types are those of a source, and it is no
note. -/
structure Spellable (S : Strings) (n : Expr) : Prop where
  own : ∀ t ∈ n.ownTokens, t.Valid
  types : ∀ t ∈ n.types, t.Readable
  plain : S.Admits n ∧ n.isMarked = false

end Expr

end Projection
