import Projection.Expr.Basic

/-!
Source text of expression trees. Parentheses come from binding strength alone, so trees that were
built rather than read print as valid source too.
-/

namespace Projection

def Literal.print : Literal → String
  | null => "null"
  | bool true => "true"
  | bool false => "false"
  | int text | float text => text
  | string text => "\"" ++ text ++ "\""
  | char text => "'" ++ text ++ "'"

namespace Expr

/-- Binding strength of unary operators and casts, above every binary operator. -/
def unaryPower : Nat := 11

/-- Binding strength of what needs no parentheses anywhere. -/
def primaryPower : Nat := 12

def power : Expr → Nat
  | lambda _ _ | conditional _ _ _ => 0
  | binary op _ _ => op.precedence
  | unary _ _ | cast _ _ => unaryPower
  | marked _ e => power e
  | _ => primaryPower

def isLambda : Expr → Bool
  | lambda _ _ => true
  | _ => false

/-- A sign before the same sign would read as another mark. -/
def repeatsSign : UnaryOp → Expr → Bool
  | .neg, unary .neg _ | .plus, unary .plus _ => true
  | _, _ => false

def wrapIf (wrap : Bool) (text : String) : String :=
  if wrap then "(" ++ text ++ ")" else text

/-- Breaks up comment ends, so that a note cannot close the comment it stands in. -/
def escapeNote : List Char → List Char
  | '*' :: '/' :: rest => '*' :: ' ' :: '/' :: escapeNote rest
  | c :: rest => c :: escapeNote rest
  | [] => []

def printParams : List String → String
  | [p] => p
  | ps => "(" ++ Text.join ", " ps ++ ")"

def printTypeArgs (names : StructuralId → String) : List TypeExpr → String
  | [] => ""
  | ts => "<" ++ Text.join ", " (ts.map (TypeExpr.print names)) ++ ">"

def bracketMembers : List String → String
  | [] => "\x7b \x7d"
  | ms => "\x7b " ++ Text.join ", " ms ++ " \x7d"

mutual

/-- Source text, with generated types named by `names`. -/
def print (names : StructuralId → String) : Expr → String
  | ident name => name
  | this => "this"
  | literal value => value.print
  | member t n o =>
      wrapIf (t.power < primaryPower) (print names t) ++ (if o then "?." else ".") ++ n
  | index t as o =>
      wrapIf (t.power < primaryPower) (print names t) ++ (if o then "?[" else "[") ++
        Text.join ", " (printAll names as) ++ "]"
  | invoke t ts as =>
      wrapIf (t.power < primaryPower) (print names t) ++ printTypeArgs names ts ++ "(" ++
        Text.join ", " (printAll names as) ++ ")"
  | lambda ps b => printParams ps ++ " => " ++ print names b
  | anonymous ms => "new " ++ bracketMembers (printInitializers names ms)
  | creation t as none =>
      "new " ++ t.print names ++ "(" ++ Text.join ", " (printAll names as) ++ ")"
  | creation t [] (some ms) =>
      "new " ++ t.print names ++ " " ++ bracketMembers (printInitializers names ms)
  | creation t (a :: as) (some ms) =>
      "new " ++ t.print names ++ "(" ++ Text.join ", " (print names a :: printAll names as) ++
        ") " ++
        bracketMembers (printInitializers names ms)
  | conditional c t f =>
      wrapIf (c.power < 1) (print names c) ++ " ? " ++ wrapIf t.isLambda (print names t) ++ " : " ++
        wrapIf f.isLambda (print names f)
  | binary op l r =>
      wrapIf (l.power < if op.groupsRight then op.precedence + 1 else op.precedence)
          (print names l) ++
        " " ++ op.spelling ++ " " ++
        wrapIf (r.power < if op.groupsRight then op.precedence else op.precedence + 1)
          (print names r)
  | unary op e =>
      op.spelling ++ wrapIf (repeatsSign op e || e.power < unaryPower) (print names e)
  | cast t e => "(" ++ t.print names ++ ")" ++ wrapIf (e.power < unaryPower) (print names e)
  | defaultValue none => "default"
  | defaultValue (some t) => "default(" ++ t.print names ++ ")"
  | interpolated ps => "$\"" ++ printParts names ps ++ "\""
  | paren e => "(" ++ print names e ++ ")"
  | marked note e =>
      "/* shapegen: conversion failed: " ++ String.ofList (escapeNote note.toList) ++ " */ " ++
        print names e

def printAll (names : StructuralId → String) : List Expr → List String
  | [] => []
  | e :: es => print names e :: printAll names es

def printInitializers (names : StructuralId → String) : List Initializer → List String
  | [] => []
  | ⟨none, e⟩ :: ms => print names e :: printInitializers names ms
  | ⟨some n, e⟩ :: ms => (n ++ " = " ++ print names e) :: printInitializers names ms

def printParts (names : StructuralId → String) : List Part → String
  | [] => ""
  | .text s :: ps => s ++ printParts names ps
  | .hole e f :: ps => "\x7b" ++ print names e ++ f.getD "" ++ "\x7d" ++ printParts names ps

end

@[simp] theorem printAll_eq_map (names : StructuralId → String) (es : List Expr) :
    printAll names es = es.map (print names) := by
  induction es <;> simp_all [printAll]

def source (e : Expr) : String := e.print StructuralId.placeholder

end Expr

def TypeExpr.source (t : TypeExpr) : String := t.print StructuralId.placeholder

end Projection
