import Projection.Expr.Basic
import Projection.Expr.Interpolation
import Projection.TypeExpr.Parser

/-!
Reading expressions. Binary operators are read by climbing precedences; generic arguments and casts
are tried as types first and given up without trace when what follows does not fit. Every rule ends
because it hands on less weight than it was given, the text of a hole included.
-/

namespace Projection.Grammar

open Interpolation

/-- Parameters up to the arrow: one or more names each, of which the last is the parameter. -/
def lambdaParams (done : List String) (current : Option String) :
    List Token → Option (List String × List Token)
  | .ident name :: rest => lambdaParams done (some name) rest
  | .punct .comma :: rest =>
      match current with
      | some name => lambdaParams (done ++ [name]) none rest
      | none => none
  | .punct .closeParen :: .punct .arrow :: rest =>
      match current, done with
      | some name, done => some (done ++ [name], rest)
      | none, [] => some ([], rest)
      | none, _ :: _ => none
  | _ => none

/-- The parameters of a lambda, when one starts here. -/
def lambdaHeader : List Token → Option (List String × List Token)
  | .ident name :: .punct .arrow :: rest => some ([name], rest)
  | .punct .openParen :: rest => lambdaParams [] none rest
  | _ => none

theorem weight_lambdaParams_lt {done : List String} {current : Option String} {ts : List Token}
    {r : List String × List Token} (h : lambdaParams done current ts = some r) :
    weight r.2 < weight ts := by
  fun_induction lambdaParams done current ts generalizing r with
  | case1 done current name rest ih =>
      have := ih h
      simp only [weight_cons, Token.weight]
      omega
  | case2 done rest name ih =>
      have := ih h
      simp only [weight_cons, Token.weight]
      omega
  | case4 | case5 =>
      cases h
      simp only [weight_cons, Token.weight]
      omega
  | case3 | case6 | case7 => cases h

theorem weight_lambdaHeader_lt {ts : List Token} {r : List String × List Token}
    (h : lambdaHeader ts = some r) : weight r.2 < weight ts := by
  fun_cases lambdaHeader ts with
  | case1 name rest =>
      cases h
      simp only [weight_cons, Token.weight]
      omega
  | case2 rest =>
      have := weight_lambdaParams_lt h
      simp only [weight_cons, Token.weight]
      omega
  | case3 => simp_all [lambdaHeader]

def binaryOp? : Token → Option BinaryOp
  | .punct .coalesce => some .coalesce
  | .punct .orOr => some .or
  | .punct .andAnd => some .and
  | .punct .pipe => some .bitOr
  | .punct .caret => some .bitXor
  | .punct .amp => some .bitAnd
  | .punct .equal => some .eq
  | .punct .notEqual => some .ne
  | .punct .less => some .lt
  | .punct .greater => some .gt
  | .punct .lessEqual => some .le
  | .punct .greaterEqual => some .ge
  | .punct .plus => some .add
  | .punct .minus => some .sub
  | .punct .star => some .mul
  | .punct .slash => some .div
  | .punct .percent => some .rem
  | _ => none

def unaryOp? : Token → Option UnaryOp
  | .punct .bang => some .not
  | .punct .minus => some .neg
  | .punct .plus => some .plus
  | .punct .tilde => some .bitNot
  | _ => none

/-- Least precedence that the right operand of `op` has to have. -/
def rightLimit (op : BinaryOp) : Nat :=
  if op.groupsRight then op.precedence else op.precedence + 1

/-- Types that cannot be read as a parenthesised expression. -/
def isSurelyType : TypeExpr → Bool
  | .named name [] => TypeExpr.isKeyword name
  | _ => true

/-- Whether `(t)` before these tokens is a cast. -/
def castMayPrecede (t : TypeExpr) : List Token → Bool
  | .ident _ :: _ | .int _ :: _ | .float _ :: _ | .str _ :: _ | .char _ :: _
  | .interpolated _ :: _ => true
  | .punct .openParen :: _ | .punct .bang :: _ | .punct .tilde :: _ => true
  | .punct .minus :: _ | .punct .plus :: _ => isSurelyType t
  | _ => false

/-- The type of a cast, behind its opening parenthesis. -/
def castType? (ts : List Token) : Option (Parsed TypeExpr (weight ts)) :=
  match type ts with
  | .error _ => none
  | .ok ⟨t, rest, h⟩ =>
      match rest with
      | .punct .closeParen :: more =>
          if castMayPrecede t more then
            some ⟨t, more, by
              simp only [weight_cons, Token.weight] at h
              omega⟩
          else none
      | _ => none

def callTypeArgs? (ts : List Token) : Option (Parsed (List TypeExpr) (weight ts)) :=
  match ts with
  | .punct .less :: more =>
      match typeList more with
      | .error _ => none
      | .ok ⟨args, rest, h⟩ =>
          match rest with
          | .punct .openParen :: behind =>
              some ⟨args, behind, by
                simp only [weight_cons, Token.weight] at *
                omega⟩
          | _ => none
  | _ => none

def wordValue? (word : String) : Option Expr :=
  if word = "true" then some (.literal (.bool true))
  else if word = "false" then some (.literal (.bool false))
  else if word = "null" then some .null
  else if word = "this" then some .this
  else none

def startsBlock : List Token → Bool
  | .punct .openBrace :: _ => true
  | _ => false

def isIdent : Expr → Bool
  | .ident _ => true
  | _ => false

theorem weight_lt_of_member {name : String} {rest more behind : List Token}
    (h : weight more < weight rest + 1) (h' : weight behind < weight more + 1) :
    weight behind < weight (.ident name :: rest) + 1 := by
  simp only [weight_cons]
  omega

mutual

def expression (ts : List Token) : Result Expr (weight ts) :=
  match _hl : lambdaHeader ts with
  | some header =>
      if startsBlock header.2 then fail "expression-bodied lambda" header.2
      else
        match expression header.2 with
        | .error f => .error f
        | .ok ⟨body, behind, h⟩ =>
            .ok ⟨.lambda header.1 body, behind, by
              have := weight_lambdaHeader_lt _hl
              omega⟩
  | none =>
      match binary 1 ts with
      | .error f => .error f
      | .ok ⟨condition, rest, h⟩ =>
          match rest with
          | .punct .question :: more =>
              match expression more with
              | .error f => .error f
              | .ok ⟨whenTrue, rest', h'⟩ =>
                  match rest' with
                  | .punct .colon :: more' =>
                      match expression more' with
                      | .error f => .error f
                      | .ok ⟨whenFalse, behind, h''⟩ =>
                          .ok ⟨.conditional condition whenTrue whenFalse, behind, by
                            simp only [weight_cons, Token.weight] at *
                            omega⟩
                  | behind => fail "':'" behind
          | behind => .ok ⟨condition, behind, h⟩
termination_by weight ts * 16 + 6
decreasing_by
  · have := weight_lambdaHeader_lt _hl
    omega
  · omega
  all_goals
    simp only [weight_cons, Token.weight] at *
    omega

/-- Operands joined by operators of at least the given precedence. -/
def binary (least : Nat) (ts : List Token) : Result Expr (weight ts) :=
  match unary ts with
  | .error f => .error f
  | .ok ⟨left, rest, h⟩ =>
      match binaryRest least left rest with
      | .error f => .error f
      | .ok ⟨e, behind, h'⟩ => .ok ⟨e, behind, by omega⟩
termination_by weight ts * 16 + 5
decreasing_by all_goals omega

def binaryRest (least : Nat) (left : Expr) (ts : List Token) : Result Expr (weight ts + 1) :=
  match ts with
  | [] => .ok ⟨left, [], by omega⟩
  | t :: rest =>
      match binaryOp? t with
      | none => .ok ⟨left, t :: rest, by omega⟩
      | some op =>
          if op.precedence < least then .ok ⟨left, t :: rest, by omega⟩
          else
            match binary (rightLimit op) rest with
            | .error f => .error f
            | .ok ⟨right, more, h⟩ =>
                match binaryRest least (.binary op left right) more with
                | .error f => .error f
                | .ok ⟨e, behind, h'⟩ =>
                    .ok ⟨e, behind, by
                      simp only [weight_cons] at *
                      omega⟩
termination_by weight ts * 16
decreasing_by
  all_goals
    have := t.weight_pos
    simp only [weight_cons] at *
    omega

def unary (ts : List Token) : Result Expr (weight ts) :=
  match ts with
  | [] => fail "expression" []
  | t :: rest =>
      match unaryOp? t with
      | some op =>
          match unary rest with
          | .error f => .error f
          | .ok ⟨operand, behind, h⟩ =>
              .ok ⟨.unary op operand, behind, by
                simp only [weight_cons] at *
                omega⟩
      | none =>
          match if t = .punct .openParen then castType? rest else none with
          | some ⟨castTo, more, h⟩ =>
              match unary more with
              | .error f => .error f
              | .ok ⟨operand, behind, h'⟩ =>
                  .ok ⟨.cast castTo operand, behind, by
                    simp only [weight_cons] at *
                    omega⟩
          | none =>
              match primary (t :: rest) with
              | .error f => .error f
              | .ok ⟨e, more, h⟩ =>
                  match if isIdent e then genericCall e more else .ok ⟨e, more, by omega⟩ with
                  | .error f => .error f
                  | .ok ⟨called, more', h'⟩ =>
                      match trailers called more' with
                      | .error f => .error f
                      | .ok ⟨e', behind, h''⟩ => .ok ⟨e', behind, by omega⟩
termination_by weight ts * 16 + 4
decreasing_by
  all_goals
    have := t.weight_pos
    simp only [weight_cons] at *
    omega

def primary (ts : List Token) : Result Expr (weight ts) :=
  match ts with
  | .ident word :: rest =>
      match wordValue? word with
      | some e => .ok ⟨e, rest, by simp [Token.weight]⟩
      | none =>
          if word = "new" then
            match creation rest with
            | .error f => .error f
            | .ok ⟨e, behind, h⟩ =>
                .ok ⟨e, behind, by
                  simp only [weight_cons] at *
                  omega⟩
          else if word = "default" then
            match rest with
            | .punct .openParen :: more =>
                match type more with
                | .error f => .error f
                | .ok ⟨t, rest', h⟩ =>
                    match rest' with
                    | .punct .closeParen :: behind =>
                        .ok ⟨.defaultValue (some t), behind, by
                          simp only [weight_cons, Token.weight] at *
                          omega⟩
                    | behind => fail "')'" behind
            | behind => .ok ⟨.defaultValue none, behind, by simp [Token.weight]⟩
          else .ok ⟨.ident word, rest, by simp [Token.weight]⟩
  | .int text :: rest => .ok ⟨.literal (.int text), rest, by simp [Token.weight]⟩
  | .float text :: rest => .ok ⟨.literal (.float text), rest, by simp [Token.weight]⟩
  | .str text :: rest => .ok ⟨.literal (.string text), rest, by simp [Token.weight]⟩
  | .char text :: rest => .ok ⟨.literal (.char text), rest, by simp [Token.weight]⟩
  | .interpolated raw :: rest =>
      match holes (segments raw.toList) with
      | .error f => .error f
      | .ok parts => .ok ⟨.interpolated parts, rest, by simp [Token.weight]⟩
  | .punct .openParen :: rest =>
      match expression rest with
      | .error f => .error f
      | .ok ⟨e, rest', h⟩ =>
          match rest' with
          | .punct .closeParen :: behind =>
              .ok ⟨.paren e, behind, by
                simp only [weight_cons, Token.weight] at *
                omega⟩
          | behind => fail "')'" behind
  | ts => fail "expression" ts
termination_by weight ts * 16 + 3
decreasing_by
  · simp only [weight_cons, Token.weight] at *
    omega
  · have := cost_segments_le raw.toList
    simp only [weight_cons, Token.weight, String.length_toList] at *
    omega
  · simp only [weight_cons, Token.weight] at *
    omega

def trailers (e : Expr) (ts : List Token) : Result Expr (weight ts + 1) :=
  match ts with
  | .punct .dot :: rest =>
      match memberTrailer e false rest with
      | .error f => .error f
      | .ok ⟨e', behind, h⟩ =>
          .ok ⟨e', behind, by
            simp only [weight_cons] at *
            omega⟩
  | .punct .questionDot :: rest =>
      match memberTrailer e true rest with
      | .error f => .error f
      | .ok ⟨e', behind, h⟩ =>
          .ok ⟨e', behind, by
            simp only [weight_cons] at *
            omega⟩
  | .punct .openParen :: rest =>
      match items .closeParen rest with
      | .error f => .error f
      | .ok ⟨args, more, h⟩ =>
          match trailers (.call e args) more with
          | .error f => .error f
          | .ok ⟨e', behind, h'⟩ =>
              .ok ⟨e', behind, by
                simp only [weight_cons] at *
                omega⟩
  | .punct .openBracket :: rest =>
      match items .closeBracket rest with
      | .error f => .error f
      | .ok ⟨args, more, h⟩ =>
          match trailers (.index e args false) more with
          | .error f => .error f
          | .ok ⟨e', behind, h'⟩ =>
              .ok ⟨e', behind, by
                simp only [weight_cons] at *
                omega⟩
  | .punct .questionBracket :: rest =>
      match items .closeBracket rest with
      | .error f => .error f
      | .ok ⟨args, more, h⟩ =>
          match trailers (.index e args true) more with
          | .error f => .error f
          | .ok ⟨e', behind, h'⟩ =>
              .ok ⟨e', behind, by
                simp only [weight_cons] at *
                omega⟩
  | ts => .ok ⟨e, ts, by omega⟩
termination_by weight ts * 16 + 2
decreasing_by
  all_goals
    simp only [weight_cons, Token.weight] at *
    omega

/-- Behind the point: the member, its generic arguments if it is called with some, and the rest. -/
def memberTrailer (e : Expr) (optional : Bool) (ts : List Token) : Result Expr (weight ts + 1) :=
  match ts with
  | .ident name :: rest =>
      match genericCall (.member e name optional) rest with
      | .error f => .error f
      | .ok ⟨called, more, h⟩ =>
          match trailers called more with
          | .error f => .error f
          | .ok ⟨e', behind, h'⟩ =>
              .ok ⟨e', behind, weight_lt_of_member h h'⟩
  | ts => fail "identifier" ts
termination_by weight ts * 16 + 3
decreasing_by
  all_goals
    simp only [weight_cons, Token.weight] at *
    omega

/-- A call with generic arguments, if one stands here; else nothing is read. -/
def genericCall (e : Expr) (ts : List Token) : Result Expr (weight ts + 1) :=
  match callTypeArgs? ts with
  | none => .ok ⟨e, ts, by omega⟩
  | some ⟨typeArgs, rest, h⟩ =>
      match items .closeParen rest with
      | .error f => .error f
      | .ok ⟨args, behind, h'⟩ => .ok ⟨.invoke e typeArgs args, behind, by omega⟩
termination_by weight ts * 16
decreasing_by omega

/-- Expressions separated by commas up to and with `close`. -/
def items (close : Punct) (ts : List Token) : Result (List Expr) (weight ts) :=
  match ts with
  | .punct p :: rest =>
      if p = close then .ok ⟨[], rest, by simp [Token.weight]⟩
      else someItems close (.punct p :: rest)
  | ts => someItems close ts
termination_by weight ts * 16 + 8
decreasing_by all_goals omega

def someItems (close : Punct) (ts : List Token) : Result (List Expr) (weight ts) :=
  match expression ts with
  | .error f => .error f
  | .ok ⟨e, rest, h⟩ =>
      match rest with
      | .punct p :: more =>
          if p = close then
            .ok ⟨[e], more, by
              simp only [weight_cons] at *
              omega⟩
          else if p = .comma then
            match someItems close more with
            | .error f => .error f
            | .ok ⟨others, behind, h'⟩ =>
                .ok ⟨e :: others, behind, by
                  simp only [weight_cons] at *
                  omega⟩
          else fail "','" (.punct p :: more)
      | behind => fail "','" behind
termination_by weight ts * 16 + 7
decreasing_by
  · omega
  · simp only [weight_cons, Token.weight] at *
    omega

def creation (ts : List Token) : Result Expr (weight ts) :=
  match ts with
  | .punct .openBrace :: rest =>
      match initializers rest with
      | .error f => .error f
      | .ok ⟨members, behind, h⟩ =>
          .ok ⟨.anonymous members, behind, by
            simp only [weight_cons] at *
            omega⟩
  | ts =>
      match type ts with
      | .error f => .error f
      | .ok ⟨t, rest, h⟩ =>
          match rest with
          | .punct .openParen :: more =>
              match items .closeParen more with
              | .error f => .error f
              | .ok ⟨args, rest', h'⟩ =>
                  match rest' with
                  | .punct .openBrace :: more' =>
                      match initializers more' with
                      | .error f => .error f
                      | .ok ⟨members, behind, h''⟩ =>
                          .ok ⟨.creation t args (some members), behind, by
                            simp only [weight_cons] at *
                            omega⟩
                  | behind =>
                      .ok ⟨.creation t args none, behind, by
                        simp only [weight_cons] at *
                        omega⟩
          | .punct .openBrace :: more =>
              match initializers more with
              | .error f => .error f
              | .ok ⟨members, behind, h'⟩ =>
                  .ok ⟨.creation t [] (some members), behind, by
                    simp only [weight_cons] at *
                    omega⟩
          | behind => fail "'(' or '\x7b'" behind
termination_by weight ts * 16 + 2
decreasing_by
  all_goals
    simp only [weight_cons, Token.weight] at *
    omega

/-- Members up to and with the closing brace; a comma may stand before it. -/
def initializers (ts : List Token) : Result (List Initializer) (weight ts) :=
  match ts with
  | .punct .closeBrace :: rest => .ok ⟨[], rest, by simp [Token.weight]⟩
  | .ident name :: .punct .assign :: rest =>
      match expression rest with
      | .error f => .error f
      | .ok ⟨value, more, h⟩ =>
          match moreInitializers more with
          | .error f => .error f
          | .ok ⟨members, behind, h'⟩ =>
              .ok ⟨.named name value :: members, behind, by
                simp only [weight_cons] at *
                omega⟩
  | ts =>
      match expression ts with
      | .error f => .error f
      | .ok ⟨value, more, h⟩ =>
          match moreInitializers more with
          | .error f => .error f
          | .ok ⟨members, behind, h'⟩ => .ok ⟨.bare value :: members, behind, by omega⟩
termination_by weight ts * 16 + 7
decreasing_by
  · simp only [weight_cons, Token.weight] at *
    omega
  · simp only [weight_cons, Token.weight] at *
    omega
  · omega
  · omega

def moreInitializers (ts : List Token) : Result (List Initializer) (weight ts) :=
  match ts with
  | .punct .comma :: rest =>
      match initializers rest with
      | .error f => .error f
      | .ok ⟨members, behind, h⟩ =>
          .ok ⟨members, behind, by
            simp only [weight_cons] at *
            omega⟩
  | .punct .closeBrace :: rest => .ok ⟨[], rest, by simp [Token.weight]⟩
  | ts => fail "'\x7d'" ts
termination_by weight ts * 16
decreasing_by
  simp only [weight_cons, Token.weight] at *
  omega

/-- The parts of an interpolated string; each hole is read as a source of its own. -/
def holes (ss : List Segment) : Except Fault (List Part) :=
  match ss with
  | [] => .ok []
  | .text chars :: rest =>
      match holes rest with
      | .error f => .error f
      | .ok parts => .ok (.text (String.ofList chars) :: parts)
  | .hole source format :: rest =>
      match _hs : Scan.ofChars source with
      | .error e => .error (.hole e)
      | .ok s =>
          match expression s.words with
          | .error f => .error (.hole (f.resolve s))
          | .ok ⟨e, behind, _⟩ =>
              if behind.isEmpty then
                match holes rest with
                | .error f => .error f
                | .ok parts => .ok (.hole e (format.map String.ofList) :: parts)
              else .error (.hole ((Fault.expected "end of input" behind.length).resolve s))
termination_by cost ss * 16
decreasing_by
  · simp only [cost_cons, Segment.cost]
    omega
  · have := Scan.weight_ofChars_le _hs
    simp only [cost_cons, Segment.cost]
    omega
  · simp only [cost_cons, Segment.cost]
    omega

end

end Projection.Grammar

namespace Projection.Expr

def parseChars (source : List Char) : Except SyntaxError Expr :=
  match Scan.ofChars source with
  | .error e => .error e
  | .ok s =>
      match Grammar.expression s.words with
      | .error f => .error (f.resolve s)
      | .ok e =>
          if e.rest.isEmpty then .ok e.value
          else .error ((Grammar.Fault.expected "end of input" e.rest.length).resolve s)

def parse (source : String) : Except SyntaxError Expr := parseChars source.toList

end Projection.Expr
