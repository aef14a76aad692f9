import Projection.TypeExpr
import Projection.Grammar
import Projection.Token.Scan

/-!
Reading types: a dotted name, its generic arguments and the marks `?` and `[]` behind it.
-/

namespace Projection.Grammar

/-- The rest of a dotted name. A point without a name behind it is left alone. -/
def dotted (name : String) : List Token → String × List Token
  | .punct .dot :: .ident next :: rest => dotted (name ++ "." ++ next) rest
  | ts => (name, ts)

theorem weight_dotted_le (name : String) (ts : List Token) :
    weight (dotted name ts).2 ≤ weight ts := by
  fun_induction dotted name ts with
  | case1 name next rest ih =>
      simp only [weight_cons]
      omega
  | case2 => exact Nat.le_refl _

/-- Array and nullable marks behind a type. -/
def typeMarks (t : TypeExpr) : List Token → TypeExpr × List Token
  | .punct .question :: rest => typeMarks t.asNullable rest
  | .punct .questionBracket :: .punct .closeBracket :: rest =>
      typeMarks (.array t.asNullable) rest
  | .punct .openBracket :: .punct .closeBracket :: rest => typeMarks (.array t) rest
  | ts => (t, ts)

theorem weight_typeMarks_le (t : TypeExpr) (ts : List Token) :
    weight (typeMarks t ts).2 ≤ weight ts := by
  fun_induction typeMarks t ts with
  | case1 | case2 | case3 =>
      simp only [weight_cons]
      omega
  | case4 => exact Nat.le_refl _

def markedType {limit : Nat} (t : TypeExpr) (ts : List Token) (h : weight ts < limit) :
    Parsed TypeExpr limit :=
  ⟨(typeMarks t ts).1, (typeMarks t ts).2, Nat.lt_of_le_of_lt (weight_typeMarks_le t ts) h⟩

mutual

def type (ts : List Token) : Result TypeExpr (weight ts) :=
  match ts with
  | .ident first :: rest =>
      have hd := weight_dotted_le first rest
      match _hr : (dotted first rest).2 with
      | .punct .less :: more =>
          match typeList more with
          | .error f => .error f
          | .ok ⟨args, behind, h⟩ =>
              .ok (markedType (.named (dotted first rest).1 args) behind (by
                simp only [_hr, weight_cons, Token.weight] at *
                omega))
      | _ =>
          .ok (markedType (.simple (dotted first rest).1) (dotted first rest).2 (by
            simp only [weight_cons, Token.weight]
            omega))
  | _ => fail "identifier" ts
termination_by weight ts * 2
decreasing_by
  simp only [_hr, weight_cons, Token.weight] at *
  omega

/-- Types separated by commas up to and with the closing bracket. -/
def typeList (ts : List Token) : Result (List TypeExpr) (weight ts) :=
  match type ts with
  | .error f => .error f
  | .ok ⟨t, rest, h⟩ =>
      match rest with
      | .punct .comma :: more =>
          match typeList more with
          | .error f => .error f
          | .ok ⟨others, behind, h'⟩ =>
              .ok ⟨t :: others, behind, by
                simp only [weight_cons, Token.weight] at *
                omega⟩
      | .punct .greater :: more =>
          .ok ⟨[t], more, by
            simp only [weight_cons, Token.weight] at h
            omega⟩
      | behind => fail "'>'" behind
termination_by weight ts * 2 + 1
decreasing_by
  · omega
  · simp only [weight_cons, Token.weight] at h
    omega

end

/-- A type that takes up all tokens. -/
def wholeType (ts : List Token) : Except Fault TypeExpr :=
  match type ts with
  | .error f => .error f
  | .ok t => if t.rest.isEmpty then .ok t.value else .error (.expected "end of input" t.rest.length)

end Projection.Grammar

namespace Projection.TypeExpr

def parse (source : String) : Except SyntaxError TypeExpr :=
  match Scan.ofString source with
  | .error e => .error e
  | .ok s =>
      match Grammar.wholeType s.words with
      | .error f => .error (f.resolve s)
      | .ok t => .ok t

end Projection.TypeExpr
