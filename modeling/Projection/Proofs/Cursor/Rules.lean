import Projection.Expr.Parser

/-!
Reading with a cursor. The tokens of a source stand still, and a position moves over them: forward
when a token is taken, and back to where it was when a trial is given up. The rules and loops of the
grammar call each other with no measure that says why they end. `rules n` is the grammar in which
calls and turns of loops nest at most `n` deep; what goes deeper has no answer.
-/

namespace Projection

open Grammar Interpolation

/-- A source and the place that reading has come to. -/
structure Cursor where
  scan : Scan
  pos : Nat

namespace Cursor

/-- The token so many places ahead. Behind the last token there is nothing but the end, however far
one looks. -/
def peekAt (c : Cursor) (offset : Nat) : Option Token :=
  c.scan.words[min (c.pos + offset) c.scan.words.length]?

def left (c : Cursor) : Nat := c.scan.words.length - c.pos

def advance (c : Cursor) : Cursor :=
  if c.pos ≤ c.scan.words.length then { c with pos := c.pos + 1 } else c

def error (what : String) (c : Cursor) : SyntaxError :=
  match c.scan.tokens[c.pos]? with
  | none => .unexpectedEnd what
  | some found => .unexpected what found.token.describe found.position

end Cursor

/-- A computation on a cursor. It may have no answer; else it gives a value or an error, and in both
cases leaves the cursor somewhere. -/
abbrev Reading := ExceptT SyntaxError (StateT Cursor Option)

/-- One turn of a loop: it stops with a result, or goes on with what it has by now. -/
inductive Turn (σ α : Type) where
  | stop (result : α)
  | again (state : σ)

namespace Reading

variable {α σ : Type}

def noAnswer : Reading α := fun _ => none

def peekAt (offset : Nat) : Reading (Option Token) := do return (← get).peekAt offset

def peek : Reading (Option Token) := peekAt 0

def isAt (p : Punct) : Reading Bool := do return decide ((← peek) = some (.punct p))

def advance : Reading Unit := modify Cursor.advance

def skip (count : Nat) : Reading Unit := modify fun c => { c with pos := c.pos + count }

def refuse (what : String) : Reading α := do throw ((← get).error what)

def eat (p : Punct) : Reading Bool := do
  if ← isAt p then
    advance
    return true
  else return false

def expect (p : Punct) : Reading Unit := do
  if ← eat p then return () else refuse ("'" ++ p.spelling ++ "'")

def expectName : Reading String := do
  match ← peek with
  | some (.ident name) =>
      advance
      return name
  | _ => refuse "identifier"

def expectEnd : Reading Unit := do
  match ← peek with
  | none => return ()
  | some _ => refuse "end of input"

/-- The value, or nothing in place of an error. The cursor stays where the error left it. -/
def attempt (x : Reading α) : Reading (Option α) := fun c =>
  (x c).map fun answer => (.ok answer.1.toOption, answer.2)

def giveUp (start : Nat) : Reading (Option α) := do
  modify fun c => { c with pos := start }
  return none

def follow (next : σ → Reading α) : Turn σ α → Reading α
  | .stop result => return result
  | .again state => next state

end Reading

/-- The parameters of a lambda as far as they are seen: the next place to look at, those that are
complete, and the last name of one that is not. -/
structure Header where
  offset : Nat
  params : List String
  current : Option String

def Header.closed : Header → Option (Nat × List String)
  | ⟨offset, params, some name⟩ => some (offset, params ++ [name])
  | ⟨offset, [], none⟩ => some (offset, [])
  | ⟨_, _ :: _, none⟩ => none

/-- The grammar as its rules see it: what they call, each of the loops among it, and how the text of
a hole is read. -/
structure Rules where
  ask : List Char → Option (Except SyntaxError Expr)
  type : Reading TypeExpr
  nameFrom : String → Reading String
  typesFrom : List TypeExpr → Reading (List TypeExpr)
  marksFrom : TypeExpr → Reading TypeExpr
  headerFrom : Header → Reading (Option (Nat × List String))
  expression : Reading Expr
  binary : Nat → Reading Expr
  operandsFrom : Nat → Expr → Reading Expr
  unary : Reading Expr
  trailersFrom : Expr → Reading Expr
  itemsFrom : Punct → List Expr → Reading (List Expr)
  initializersFrom : List Initializer → Reading (List Initializer)

namespace Rules

open Reading

def nameTurn (name : String) : Reading (Turn String String) := do
  match ← peekAt 0, ← peekAt 1 with
  | some (.punct .dot), some (.ident next) =>
      skip 2
      return .again (name ++ "." ++ next)
  | _, _ => return .stop name

def markTurn (t : TypeExpr) : Reading (Turn TypeExpr TypeExpr) := do
  match ← peekAt 0, ← peekAt 1 with
  | some (.punct .question), _ =>
      advance
      return .again t.asNullable
  | some (.punct .questionBracket), some (.punct .closeBracket) =>
      skip 2
      return .again (.array t.asNullable)
  | some (.punct .openBracket), some (.punct .closeBracket) =>
      skip 2
      return .again (.array t)
  | _, _ => return .stop t

def headerTurn (s : Header) : Reading (Turn Header (Option (Nat × List String))) := do
  match ← peekAt s.offset with
  | some (.ident name) => return .again ⟨s.offset + 1, s.params, some name⟩
  | some (.punct .comma) =>
      match s.current with
      | some name => return .again ⟨s.offset + 1, s.params ++ [name], none⟩
      | none => return .stop none
  | some (.punct .closeParen) => return .stop s.closed
  | _ => return .stop none

def endHeader : Option (Nat × List String) → Reading (Option (List String))
  | none => return none
  | some (offset, params) => do
      if (← peekAt (offset + 1)) = some (.punct .arrow) then
        skip (offset + 2)
        return some params
      else return none

variable (r : Rules)

def typesTurn (ts : List TypeExpr) : Reading (Turn (List TypeExpr) (List TypeExpr)) := do
  if ← eat .comma then return .again (ts ++ [← r.type]) else return .stop ts

def closeTypes (ts : List TypeExpr) : Reading (List TypeExpr) := do
  let ts ← r.typesFrom ts
  expect .greater
  return ts

def typeArgs : Reading (List TypeExpr) := do
  expect .less
  r.closeTypes [← r.type]

def readType : Reading TypeExpr := do
  let name ← r.nameFrom (← expectName)
  if ← isAt .less then r.marksFrom (.named name (← r.typeArgs)) else r.marksFrom (.named name [])

def itemTurn (close : Punct) (items : List Expr) : Reading (Turn (List Expr) (List Expr)) := do
  let e ← r.expression
  if ← eat close then return .stop (items ++ [e])
  else
    expect .comma
    return .again (items ++ [e])

def listUntil (close : Punct) : Reading (List Expr) := do
  if ← eat close then return [] else r.itemsFrom close []

def arguments : Reading (List Expr) := do
  expect .openParen
  r.listUntil .closeParen

def initializer : Reading Initializer := do
  match ← peekAt 0, ← peekAt 1 with
  | some (.ident name), some (.punct .assign) =>
      skip 2
      return .named name (← r.expression)
  | _, _ => return .bare (← r.expression)

def initializerTurn (members : List Initializer) :
    Reading (Turn (List Initializer) (List Initializer)) := do
  if ← eat .closeBrace then return .stop members
  else
    let i ← r.initializer
    if ← eat .comma then return .again (members ++ [i])
    else
      expect .closeBrace
      return .stop (members ++ [i])

def initializers : Reading (List Initializer) := do
  expect .openBrace
  r.initializersFrom []

def tryCast : Reading (Option Expr) := do
  let start := (← get).pos
  advance
  match ← attempt r.type with
  | none => giveUp start
  | some type =>
      if ← isAt .closeParen then
        advance
        if castMayPrecede type (← peek).toList then return some (.cast type (← r.unary))
        else giveUp start
      else giveUp start

def tryTypeArgs : Reading (Option (List TypeExpr)) := do
  if ← isAt .less then
    let start := (← get).pos
    match ← attempt r.typeArgs with
    | none => giveUp start
    | some args => if ← isAt .openParen then return some args else giveUp start
  else return none

def genericCall (e : Expr) : Reading Expr := do
  match ← r.tryTypeArgs with
  | some typeArgs => return .invoke e typeArgs (← r.arguments)
  | none => return e

def memberTurn (e : Expr) (optional : Bool) : Reading (Turn Expr Expr) := do
  advance
  return .again (← r.genericCall (.member e (← expectName) optional))

def callTurn (e : Expr) : Reading (Turn Expr Expr) := do return .again (.call e (← r.arguments))

def indexTurn (e : Expr) (optional : Bool) : Reading (Turn Expr Expr) := do
  advance
  return .again (.index e (← r.listUntil .closeBracket) optional)

def trailerTurn (e : Expr) : Reading (Turn Expr Expr) := do
  match ← peek with
  | some (.punct .dot) => r.memberTurn e false
  | some (.punct .questionDot) => r.memberTurn e true
  | some (.punct .openParen) => r.callTurn e
  | some (.punct .openBracket) => r.indexTurn e false
  | some (.punct .questionBracket) => r.indexTurn e true
  | _ => return .stop e

def creation : Reading Expr := do
  if ← isAt .openBrace then return .anonymous (← r.initializers)
  else
    let type ← r.type
    if ← isAt .openParen then
      let args ← r.arguments
      if ← isAt .openBrace then return .creation type args (some (← r.initializers))
      else return .creation type args none
    else if ← isAt .openBrace then return .creation type [] (some (← r.initializers))
    else refuse "'(' or '\x7b'"

/-- Reads the text of a hole. The cursor belongs to the text around it and stays. -/
def hole (source : List Char) : Reading Expr :=
  fun c => (r.ask source).map fun answer => (answer, c)

def part : Segment → Reading Part
  | .text chars => return .text (String.ofList chars)
  | .hole source format => return .hole (← r.hole source) (format.map String.ofList)

def primary : Reading Expr := do
  match ← peek with
  | some (.ident word) =>
      advance
      match wordValue? word with
      | some e => return e
      | none =>
          if word = "new" then r.creation
          else if word = "default" then
            if ← eat .openParen then
              let type ← r.type
              expect .closeParen
              return .defaultValue (some type)
            else return .defaultValue none
          else return .ident word
  | some (.int text) =>
      advance
      return .literal (.int text)
  | some (.float text) =>
      advance
      return .literal (.float text)
  | some (.str text) =>
      advance
      return .literal (.string text)
  | some (.char text) =>
      advance
      return .literal (.char text)
  | some (.interpolated raw) =>
      advance
      return .interpolated (← (segments raw.toList).mapM r.part)
  | some (.punct .openParen) =>
      advance
      let e ← r.expression
      expect .closeParen
      return .paren e
  | _ => refuse "expression"

def readPostfix (e : Expr) : Reading Expr := do
  if isIdent e then r.trailersFrom (← r.genericCall e) else r.trailersFrom e

def readUnary : Reading Expr := do
  match (← peek).bind unaryOp? with
  | some op =>
      advance
      return .unary op (← r.unary)
  | none =>
      if ← isAt .openParen then
        match ← r.tryCast with
        | some cast => return cast
        | none => r.readPostfix (← r.primary)
      else r.readPostfix (← r.primary)

def operandTurn (least : Nat) (left : Expr) : Reading (Turn Expr Expr) := do
  match (← peek).bind binaryOp? with
  | none => return .stop left
  | some op =>
      if op.precedence < least then return .stop left
      else
        advance
        return .again (.binary op left (← r.binary (rightLimit op)))

def closeHeader (s : Header) : Reading (Option (List String)) := do endHeader (← r.headerFrom s)

def header : Reading (Option (List String)) := do
  match ← peekAt 0, ← peekAt 1 with
  | some (.ident name), some (.punct .arrow) =>
      skip 2
      return some [name]
  | some (.punct .openParen), _ => r.closeHeader ⟨1, [], none⟩
  | _, _ => return none

def readExpression : Reading Expr := do
  match ← r.header with
  | some params =>
      if ← isAt .openBrace then refuse "expression-bodied lambda"
      else return .lambda params (← r.expression)
  | none =>
      let condition ← r.binary 1
      if ← eat .question then
        let whenTrue ← r.expression
        expect .colon
        return .conditional condition whenTrue (← r.expression)
      else return condition

/-- Every rule written out once, and every loop up to its next turn. -/
def unfold : Rules where
  ask := r.ask
  type := r.readType
  nameFrom name := do follow r.nameFrom (← nameTurn name)
  typesFrom ts := do follow r.typesFrom (← r.typesTurn ts)
  marksFrom t := do follow r.marksFrom (← markTurn t)
  headerFrom s := do follow r.headerFrom (← headerTurn s)
  expression := r.readExpression
  binary least := do r.operandsFrom least (← r.unary)
  operandsFrom least left := do follow (r.operandsFrom least) (← r.operandTurn least left)
  unary := r.readUnary
  trailersFrom e := do follow r.trailersFrom (← r.trailerTurn e)
  itemsFrom close items := do follow (r.itemsFrom close) (← r.itemTurn close items)
  initializersFrom members := do follow r.initializersFrom (← r.initializerTurn members)

def silent (ask : List Char → Option (Except SyntaxError Expr)) : Rules where
  ask := ask
  type := noAnswer
  nameFrom _ := noAnswer
  typesFrom _ := noAnswer
  marksFrom _ := noAnswer
  headerFrom _ := noAnswer
  expression := noAnswer
  binary _ := noAnswer
  operandsFrom _ _ := noAnswer
  unary := noAnswer
  trailersFrom _ := noAnswer
  itemsFrom _ _ := noAnswer
  initializersFrom _ := noAnswer

end Rules

def rules (ask : List Char → Option (Except SyntaxError Expr)) : (depth : Nat) → Rules
  | 0 => .silent ask
  | depth + 1 => (rules ask depth).unfold

def Reading.whole {α : Type} (x : Reading α) (source : List Char) : Option (Except SyntaxError α) :=
  match Scan.ofChars source with
  | .error e => some (.error e)
  | .ok s => ((do let a ← x; expectEnd; return a : Reading α) ⟨s, 0⟩).map Prod.fst

/-- Reads a complete expression. There is no answer if calls nest deeper than `depth`, or if the
text of a hole is not shorter than the text that the hole is in. -/
def Expr.parseWithin (depth : Nat) (source : List Char) : Option (Except SyntaxError Expr) :=
  let ask text := if _h : text.length < source.length then parseWithin depth text else none
  (rules ask depth).expression.whole source
termination_by source.length

def TypeExpr.parseWithin (depth : Nat) (source : List Char) :
    Option (Except SyntaxError TypeExpr) :=
  (rules (Expr.parseWithin depth) depth).type.whole source

end Projection
