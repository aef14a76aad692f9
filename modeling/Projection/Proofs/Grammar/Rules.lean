import Projection.Expr.Parser
import Projection.Proofs.Expr.Tokens

/-!
The grammar of expressions rule by rule. What the reader accepts satisfies the rules, and any
relation that satisfies them holds of all that the reader accepts; no proof about reading has to
open its definition.
-/

namespace Projection.Grammar

open Interpolation

def Found {α : Type} {limit : Nat} (r : Option (Parsed α limit)) (a : α) (rest : List Token) :
    Prop :=
  ∃ h, r = some ⟨a, rest, h⟩

theorem eq_none_of_not_found {α : Type} {limit : Nat} {r : Option (Parsed α limit)}
    (h : ∀ a rest, ¬Found r a rest) : r = none := by
  cases r with
  | none => rfl
  | some a => exact absurd ⟨a.bound, rfl⟩ (h a.value a.rest)

theorem not_found_none {α : Type} {limit : Nat} {r : Option (Parsed α limit)} (h : r = none)
    {a : α} {rest : List Token} : ¬Found r a rest := by
  rintro ⟨_, hr⟩
  rw [h] at hr
  cases hr

theorem found_castType?_iff {ts : List Token} {t : TypeExpr} {rest : List Token} :
    Found (castType? ts) t rest ↔
      (type ts).Is t (.punct .closeParen :: rest) ∧ castMayPrecede t rest = true := by
  constructor
  · rintro ⟨_, h⟩
    unfold castType? at h
    split at h
    · cases h
    · rename_i ht
      split at h
      · split at h
        · rename_i hc
          cases h
          exact ⟨⟨_, ht⟩, hc⟩
        · cases h
      · cases h
  · rintro ⟨⟨hb, ht⟩, hc⟩
    refine ⟨by rw [weight_cons] at hb; omega, ?_⟩
    unfold castType?
    simp [ht, hc]

theorem found_callTypeArgs?_iff {ts : List Token} {us : List TypeExpr} {rest : List Token} :
    Found (callTypeArgs? ts) us rest ↔
      ∃ more, ts = .punct .less :: more ∧ (typeList more).Is us (.punct .openParen :: rest) := by
  constructor
  · rintro ⟨_, h⟩
    unfold callTypeArgs? at h
    split at h
    · split at h
      · cases h
      · rename_i hu
        split at h
        · cases h
          exact ⟨_, rfl, _, hu⟩
        · cases h
    · cases h
  · rintro ⟨more, rfl, hb, hu⟩
    refine ⟨by rw [weight_cons] at hb ⊢; omega, ?_⟩
    unfold callTypeArgs?
    simp [hu]

theorem wordValue?_cases {word : String} {e : Expr} (h : wordValue? word = some e) :
    (∃ value : Literal, .ident word = value.token ∧ e = .literal value) ∨
      word = "this" ∧ e = .this := by
  unfold wordValue? at h
  split at h
  · cases h
    exact .inl ⟨.bool true, by subst_vars; rfl, rfl⟩
  · split at h
    · cases h
      exact .inl ⟨.bool false, by subst_vars; rfl, rfl⟩
    · split at h
      · cases h
        exact .inl ⟨.null, by subst_vars; rfl, rfl⟩
      · split at h
        · cases h
          exact .inr ⟨‹_›, rfl⟩
        · cases h

/-- What is read where, one relation for each function of the reader. -/
structure Relation where
  expression : List Token → Expr → List Token → Prop
  binary : Nat → List Token → Expr → List Token → Prop
  binaryRest : Nat → Expr → List Token → Expr → List Token → Prop
  unary : List Token → Expr → List Token → Prop
  trailers : Expr → List Token → Expr → List Token → Prop
  items : Punct → List Token → List Expr → List Token → Prop
  someItems : Punct → List Token → List Expr → List Token → Prop
  memberTrailer : Expr → Bool → List Token → Expr → List Token → Prop
  genericCall : Expr → List Token → Expr → List Token → Prop
  primary : List Token → Expr → List Token → Prop
  holes : List Segment → List Part → Prop
  creation : List Token → Expr → List Token → Prop
  initializers : List Token → List Initializer → List Token → Prop
  moreInitializers : List Token → List Initializer → List Token → Prop

/-- Every rule of the grammar but those for interpolated strings carries the relations from the
parts to the whole. -/
structure Relation.KeptOutside (R : Relation) : Prop where
  lambda : ∀ {ts header body rest}, lambdaHeader ts = some header → startsBlock header.2 = false →
    R.expression header.2 body rest → R.expression ts (.lambda header.1 body) rest
  conditional : ∀ {ts condition more whenTrue more' whenFalse rest}, lambdaHeader ts = none →
    R.binary 1 ts condition (.punct .question :: more) →
    R.expression more whenTrue (.punct .colon :: more') → R.expression more' whenFalse rest →
    R.expression ts (.conditional condition whenTrue whenFalse) rest
  noConditional : ∀ {ts e rest}, lambdaHeader ts = none → R.binary 1 ts e rest →
    (∀ more, rest ≠ .punct .question :: more) → R.expression ts e rest
  operands : ∀ {least ts left more e rest}, R.unary ts left more →
    R.binaryRest least left more e rest → R.binary least ts e rest
  noOperator : ∀ {least left ts},
    (∀ t more op, ts = t :: more → binaryOp? t = some op → op.precedence < least) →
    R.binaryRest least left ts left ts
  operator : ∀ {least left t ts op right more e rest}, binaryOp? t = some op →
    least ≤ op.precedence → R.binary (rightLimit op) ts right more →
    R.binaryRest least (.binary op left right) more e rest →
    R.binaryRest least left (t :: ts) e rest
  prefixed : ∀ {t ts op operand rest}, unaryOp? t = some op → R.unary ts operand rest →
    R.unary (t :: ts) (.unary op operand) rest
  cast : ∀ {ts type more operand rest}, Found (castType? ts) type more → R.unary more operand rest →
    R.unary (.punct .openParen :: ts) (.cast type operand) rest
  name : ∀ {t ts e more called more' e' rest}, unaryOp? t = none →
    (t = .punct .openParen → castType? ts = none) → R.primary (t :: ts) e more →
    isIdent e = true → R.genericCall e more called more' → R.trailers called more' e' rest →
    R.unary (t :: ts) e' rest
  value : ∀ {t ts e more e' rest}, unaryOp? t = none →
    (t = .punct .openParen → castType? ts = none) → R.primary (t :: ts) e more →
    isIdent e = false → R.trailers e more e' rest → R.unary (t :: ts) e' rest
  access : ∀ {e o ts e' rest}, R.memberTrailer e o ts e' rest →
    R.trailers e (.punct (if o then .questionDot else .dot) :: ts) e' rest
  call : ∀ {e ts args more e' rest}, R.items .closeParen ts args more →
    R.trailers (.call e args) more e' rest → R.trailers e (.punct .openParen :: ts) e' rest
  index : ∀ {e o ts args more e' rest}, R.items .closeBracket ts args more →
    R.trailers (.index e args o) more e' rest →
    R.trailers e (.punct (if o then .questionBracket else .openBracket) :: ts) e' rest
  noTrailer : ∀ {e ts}, (∀ p more, ts = .punct p :: more →
      p ≠ .dot ∧ p ≠ .questionDot ∧ p ≠ .openParen ∧ p ≠ .openBracket ∧ p ≠ .questionBracket) →
    R.trailers e ts e ts
  member : ∀ {e optional name ts called more e' rest},
    R.genericCall (.member e name optional) ts called more → R.trailers called more e' rest →
    R.memberTrailer e optional (.ident name :: ts) e' rest
  noTypeArgs : ∀ {e ts}, callTypeArgs? ts = none → R.genericCall e ts e ts
  typeArgs : ∀ {e ts typeArgs more args rest}, Found (callTypeArgs? ts) typeArgs more →
    R.items .closeParen more args rest → R.genericCall e ts (.invoke e typeArgs args) rest
  noItems : ∀ {close ts}, R.items close (.punct close :: ts) [] ts
  items : ∀ {close ts es rest}, (∀ more, ts ≠ .punct close :: more) →
    R.someItems close ts es rest → R.items close ts es rest
  lastItem : ∀ {close ts e rest}, R.expression ts e (.punct close :: rest) →
    R.someItems close ts [e] rest
  nextItem : ∀ {close ts e more es rest}, close ≠ .comma →
    R.expression ts e (.punct .comma :: more) → R.someItems close more es rest →
    R.someItems close ts (e :: es) rest
  literal : ∀ (value : Literal) {ts}, R.primary (value.token :: ts) (.literal value) ts
  receiver : ∀ {ts}, R.primary (.ident "this" :: ts) .this ts
  creation : ∀ {ts e rest}, R.creation ts e rest → R.primary (.ident "new" :: ts) e rest
  typedDefault : ∀ {ts t rest}, (type ts).Is t (.punct .closeParen :: rest) →
    R.primary (.ident "default" :: .punct .openParen :: ts) (.defaultValue (some t)) rest
  default : ∀ {ts}, (∀ more, ts ≠ .punct .openParen :: more) →
    R.primary (.ident "default" :: ts) (.defaultValue none) ts
  ident : ∀ {word ts}, wordValue? word = none → word ≠ "new" → word ≠ "default" →
    R.primary (.ident word :: ts) (.ident word) ts
  paren : ∀ {ts e rest}, R.expression ts e (.punct .closeParen :: rest) →
    R.primary (.punct .openParen :: ts) (.paren e) rest
  anonymous : ∀ {ts members rest}, R.initializers ts members rest →
    R.creation (.punct .openBrace :: ts) (.anonymous members) rest
  constructed : ∀ {ts t more args rest}, (type ts).Is t (.punct .openParen :: more) →
    R.items .closeParen more args rest → (∀ more, rest ≠ .punct .openBrace :: more) →
    R.creation ts (.creation t args none) rest
  constructedWith : ∀ {ts t more args more' members rest},
    (type ts).Is t (.punct .openParen :: more) →
    R.items .closeParen more args (.punct .openBrace :: more') →
    R.initializers more' members rest → R.creation ts (.creation t args (some members)) rest
  initialized : ∀ {ts t more members rest}, (type ts).Is t (.punct .openBrace :: more) →
    R.initializers more members rest → R.creation ts (.creation t [] (some members)) rest
  noInitializers : ∀ {ts}, R.initializers (.punct .closeBrace :: ts) [] ts
  named : ∀ {name ts value more members rest}, R.expression ts value more →
    R.moreInitializers more members rest →
    R.initializers (.ident name :: .punct .assign :: ts) (.named name value :: members) rest
  bare : ∀ {ts value more members rest}, (∀ more, ts ≠ .punct .closeBrace :: more) →
    (∀ name more, ts ≠ .ident name :: .punct .assign :: more) → R.expression ts value more →
    R.moreInitializers more members rest → R.initializers ts (.bare value :: members) rest
  comma : ∀ {ts members rest}, R.initializers ts members rest →
    R.moreInitializers (.punct .comma :: ts) members rest
  endInitializers : ∀ {ts}, R.moreInitializers (.punct .closeBrace :: ts) [] ts

/-- Every rule of the grammar carries the relations from the parts to the whole. -/
structure Relation.Kept (R : Relation) : Prop extends R.KeptOutside where
  interpolated : ∀ {raw parts ts}, R.holes (segments raw.toList) parts →
    R.primary (.interpolated raw :: ts) (.interpolated parts) ts
  noSegments : R.holes [] []
  text : ∀ {chars ss parts}, R.holes ss parts →
    R.holes (.text chars :: ss) (.text (String.ofList chars) :: parts)
  hole : ∀ {source format ss scan e parts}, Scan.ofChars source = .ok scan →
    R.expression scan.words e [] → R.holes ss parts →
    R.holes (.hole source format :: ss) (.hole e (format.map String.ofList) :: parts)

def reads : Relation where
  expression ts := (Grammar.expression ts).Is
  binary least ts := (Grammar.binary least ts).Is
  binaryRest least left ts := (Grammar.binaryRest least left ts).Is
  unary ts := (Grammar.unary ts).Is
  trailers e ts := (Grammar.trailers e ts).Is
  items close ts := (Grammar.items close ts).Is
  someItems close ts := (Grammar.someItems close ts).Is
  memberTrailer e optional ts := (Grammar.memberTrailer e optional ts).Is
  genericCall e ts := (Grammar.genericCall e ts).Is
  primary ts := (Grammar.primary ts).Is
  holes ss parts := Grammar.holes ss = .ok parts
  creation ts := (Grammar.creation ts).Is
  initializers ts := (Grammar.initializers ts).Is
  moreInitializers ts := (Grammar.moreInitializers ts).Is

theorem exists_ident_of_type {ts : List Token} {t : TypeExpr} {rest : List Token}
    (h : (type ts).Is t rest) : ∃ name more, ts = .ident name :: more := by
  obtain ⟨_, h⟩ := h
  unfold type at h
  split at h
  · exact ⟨_, _, rfl⟩
  · cases h

section Cases

variable {ts more rest : List Token} {e e' : Expr}

theorem is_lambda {header : List String × List Token} {body : Expr}
    (hl : lambdaHeader ts = some header) (hb : startsBlock header.2 = false)
    (h : (expression header.2).Is body rest) :
    (expression ts).Is (.lambda header.1 body) rest := by
  obtain ⟨h, hbody⟩ := h
  have := weight_lambdaHeader_lt hl
  refine ⟨by omega, ?_⟩
  unfold expression
  split
  · rename_i hl'
    rw [hl] at hl'
    cases hl'
    simp [hb, hbody]
  · simp_all

theorem is_conditional {condition whenTrue whenFalse : Expr} {more' : List Token}
    (hl : lambdaHeader ts = none) (hc : (binary 1 ts).Is condition (.punct .question :: more))
    (ht : (expression more).Is whenTrue (.punct .colon :: more'))
    (hf : (expression more').Is whenFalse rest) :
    (expression ts).Is (.conditional condition whenTrue whenFalse) rest := by
  obtain ⟨h, hc⟩ := hc
  obtain ⟨h', ht⟩ := ht
  obtain ⟨h'', hf⟩ := hf
  refine ⟨by simp only [weight_cons] at h h'; omega, ?_⟩
  unfold expression
  split
  · simp_all
  · simp only [hc, ht, hf]

theorem is_expression_of_binary (hl : lambdaHeader ts = none) (he : (binary 1 ts).Is e rest)
    (hrest : ∀ more, rest ≠ .punct .question :: more) : (expression ts).Is e rest := by
  obtain ⟨h, he⟩ := he
  refine ⟨h, ?_⟩
  unfold expression
  split
  · simp_all
  · simp only [he]
    split
    · exact absurd rfl (hrest _)
    · rfl

theorem is_left_of_precedence_lt {least : Nat}
    (hop : ∀ t more op, ts = t :: more → binaryOp? t = some op → op.precedence < least) :
    (binaryRest least e ts).Is e ts := by
  refine ⟨by omega, ?_⟩
  unfold binaryRest
  split
  · rfl
  · rename_i t rest
    split
    · rfl
    · rename_i op ho
      rw [if_pos (hop t rest op rfl ho)]

theorem is_access {o : Bool} (h : (memberTrailer e o ts).Is e' rest) :
    (trailers e (.punct (if o then .questionDot else .dot) :: ts)).Is e' rest := by
  obtain ⟨h, hm⟩ := h
  refine ⟨by simp only [weight_cons]; omega, ?_⟩
  unfold trailers
  cases o with
  | false | true => simp [hm]

theorem is_index {o : Bool} {args : List Expr} (ha : (items .closeBracket ts).Is args more)
    (ht : (trailers (.index e args o) more).Is e' rest) :
    (trailers e (.punct (if o then .questionBracket else .openBracket) :: ts)).Is e' rest := by
  obtain ⟨h, ha⟩ := ha
  obtain ⟨h', ht⟩ := ht
  refine ⟨by simp only [weight_cons]; omega, ?_⟩
  unfold trailers
  cases o with
  | false | true => simp [ha, ht]

theorem is_items {close : Punct} {es : List Expr} (hts : ∀ more, ts ≠ .punct close :: more)
    (h : (someItems close ts).Is es rest) : (items close ts).Is es rest := by
  obtain ⟨h, hs⟩ := h
  refine ⟨h, ?_⟩
  unfold items
  split
  · rw [if_neg (by rintro rfl; exact hts _ rfl)]
    exact hs
  · exact hs

theorem is_word {word : String} (h : wordValue? word = some e) :
    (primary (.ident word :: ts)).Is e ts := by
  refine ⟨by simp [Token.weight], ?_⟩
  unfold primary
  simp only [h]

theorem is_literal (value : Literal) : (primary (value.token :: ts)).Is (.literal value) ts := by
  cases value with
  | null => exact is_word rfl
  | bool b => cases b <;> exact is_word rfl
  | _ =>
      refine ⟨by simp [Literal.token, Token.weight], ?_⟩
      unfold primary
      rfl

theorem holes_hole {source : List Char} {format : Option (List Char)} {ss : List Segment}
    {scan : Scan} {parts : List Part} (hs : Scan.ofChars source = .ok scan)
    (he : (expression scan.words).Is e []) (hp : holes ss = .ok parts) :
    holes (.hole source format :: ss) = .ok (.hole e (format.map String.ofList) :: parts) := by
  obtain ⟨h, he⟩ := he
  unfold holes
  split
  · simp_all
  · rename_i hs'
    rw [hs] at hs'
    cases hs'
    simp only [he, List.isEmpty_nil, if_true, hp]

theorem is_constructed {t : TypeExpr} {args : List Expr}
    (ht : (type ts).Is t (.punct .openParen :: more)) (ha : (items .closeParen more).Is args rest)
    (hrest : ∀ more, rest ≠ .punct .openBrace :: more) :
    (creation ts).Is (.creation t args none) rest := by
  obtain ⟨first, behind, rfl⟩ := exists_ident_of_type ht
  obtain ⟨h, ht⟩ := ht
  obtain ⟨h', ha⟩ := ha
  refine ⟨by simp only [weight_cons] at h ⊢; omega, ?_⟩
  unfold creation
  simp only [ht, ha]
  split
  · exact absurd rfl (hrest _)
  · rfl

theorem is_bare {value : Expr} {members : List Initializer}
    (hc : ∀ more, ts ≠ .punct .closeBrace :: more)
    (hn : ∀ name more, ts ≠ .ident name :: .punct .assign :: more)
    (hv : (expression ts).Is value more) (hm : (moreInitializers more).Is members rest) :
    (initializers ts).Is (.bare value :: members) rest := by
  obtain ⟨h, hv⟩ := hv
  obtain ⟨h', hm⟩ := hm
  refine ⟨by omega, ?_⟩
  unfold initializers
  split
  · exact absurd rfl (hc _)
  · exact absurd rfl (hn _ _)
  · simp only [hv, hm]

end Cases

theorem reads_kept : reads.Kept where
  lambda := is_lambda
  conditional := is_conditional
  noConditional := is_expression_of_binary
  noOperator := is_left_of_precedence_lt
  access := is_access
  index := is_index
  items := is_items
  literal value := is_literal value
  receiver := is_word rfl
  hole := holes_hole
  constructed := is_constructed
  bare := is_bare
  operands := by
    rintro least ts left more e rest ⟨h, hl⟩ ⟨h', hr⟩
    refine ⟨by omega, ?_⟩
    unfold Grammar.binary
    simp only [hl, hr]
  operator := by
    rintro least left t ts op right more e rest ho hp ⟨h, hr⟩ ⟨h', he⟩
    refine ⟨by simp only [weight_cons]; omega, ?_⟩
    unfold Grammar.binaryRest
    simp only [ho, if_neg (Nat.not_lt.2 hp), hr, he]
  prefixed := by
    rintro t ts op operand rest ho ⟨h, hr⟩
    refine ⟨by simp only [weight_cons]; omega, ?_⟩
    unfold Grammar.unary
    simp only [ho, hr]
  cast := by
    rintro ts type more operand rest ⟨h, hc⟩ ⟨h', hr⟩
    refine ⟨by simp only [weight_cons]; omega, ?_⟩
    unfold Grammar.unary
    simp [hc, hr, unaryOp?]
  name := by
    rintro t ts e more called more' e' rest ho hp ⟨h, he⟩ hi ⟨h', hg⟩ ⟨h'', ht⟩
    have hcast : (if t = .punct .openParen then castType? ts else none) = none :=
      ite_eq_right_iff.2 hp
    refine ⟨by omega, ?_⟩
    unfold Grammar.unary
    simp only [ho, hcast, he, if_pos hi, hg, ht]
  value := by
    rintro t ts e more e' rest ho hp ⟨h, he⟩ hi ⟨h', ht⟩
    have hcast : (if t = .punct .openParen then castType? ts else none) = none :=
      ite_eq_right_iff.2 hp
    refine ⟨by omega, ?_⟩
    unfold Grammar.unary
    simp only [ho, hcast, he, hi, Bool.false_eq_true, if_false, ht]
  call := by
    rintro e ts args more e' rest ⟨h, ha⟩ ⟨h', ht⟩
    refine ⟨by simp only [weight_cons]; omega, ?_⟩
    unfold Grammar.trailers
    simp only [ha, ht]
  noTrailer := by
    intro e ts hts
    refine ⟨by omega, ?_⟩
    unfold Grammar.trailers
    split <;> simp_all
  member := by
    rintro e optional name ts called more e' rest ⟨h, hg⟩ ⟨h', ht⟩
    refine ⟨by simp only [weight_cons]; omega, ?_⟩
    unfold Grammar.memberTrailer
    simp only [hg, ht]
  noTypeArgs := by
    intro e ts h
    refine ⟨by omega, ?_⟩
    unfold Grammar.genericCall
    simp only [h]
  typeArgs := by
    rintro e ts typeArgs more args rest ⟨h, hg⟩ ⟨h', ha⟩
    refine ⟨by omega, ?_⟩
    unfold Grammar.genericCall
    simp only [hg, ha]
  noItems := by
    intro close ts
    refine ⟨by simp [Token.weight], ?_⟩
    unfold Grammar.items
    simp
  lastItem := by
    rintro close ts e rest ⟨h, he⟩
    refine ⟨by simp only [weight_cons] at h; omega, ?_⟩
    unfold Grammar.someItems
    simp [he]
  nextItem := by
    rintro close ts e more es rest hc ⟨h, he⟩ ⟨h', hs⟩
    refine ⟨by simp only [weight_cons] at h; omega, ?_⟩
    unfold Grammar.someItems
    simp only [he, if_neg hc.symm, if_true, hs]
  creation := by
    rintro ts e rest ⟨h, hc⟩
    refine ⟨by simp only [weight_cons]; omega, ?_⟩
    unfold Grammar.primary
    simp [hc, wordValue?]
  typedDefault := by
    rintro ts t rest ⟨h, ht⟩
    refine ⟨by simp only [weight_cons] at h ⊢; omega, ?_⟩
    unfold Grammar.primary
    simp [ht, wordValue?]
  default := by
    intro ts hts
    refine ⟨by simp [Token.weight], ?_⟩
    unfold Grammar.primary
    simp only [wordValue?]
    split <;> simp_all
  ident := by
    intro word ts hw hn hd
    refine ⟨by simp [Token.weight], ?_⟩
    unfold Grammar.primary
    simp only [hw, if_neg hn, if_neg hd]
  interpolated := by
    intro raw parts ts h
    refine ⟨by simp [Token.weight], ?_⟩
    unfold Grammar.primary
    simp only [show Grammar.holes _ = _ from h]
  paren := by
    rintro ts e rest ⟨h, he⟩
    refine ⟨by simp only [weight_cons] at h ⊢; omega, ?_⟩
    unfold Grammar.primary
    simp only [he]
  noSegments := by
    change Grammar.holes [] = _
    unfold Grammar.holes
    rfl
  text := by
    intro chars ss parts h
    change Grammar.holes _ = _
    unfold Grammar.holes
    simp only [show Grammar.holes ss = _ from h]
  anonymous := by
    rintro ts members rest ⟨h, hm⟩
    refine ⟨by simp only [weight_cons]; omega, ?_⟩
    unfold Grammar.creation
    simp only [hm]
  constructedWith := by
    rintro ts t more args more' members rest ⟨h, ht⟩ ⟨h', ha⟩ ⟨h'', hm⟩
    refine ⟨by simp only [weight_cons] at h h'; omega, ?_⟩
    obtain ⟨first, behind, rfl⟩ := exists_ident_of_type ⟨h, ht⟩
    unfold Grammar.creation
    simp only [ht, ha, hm]
  initialized := by
    rintro ts t more members rest ⟨h, ht⟩ ⟨h', hm⟩
    refine ⟨by simp only [weight_cons] at h; omega, ?_⟩
    obtain ⟨first, behind, rfl⟩ := exists_ident_of_type ⟨h, ht⟩
    unfold Grammar.creation
    simp only [ht, hm]
  noInitializers := by
    intro ts
    refine ⟨by simp [Token.weight], ?_⟩
    unfold Grammar.initializers
    rfl
  named := by
    rintro name ts value more members rest ⟨h, hv⟩ ⟨h', hm⟩
    refine ⟨by simp only [weight_cons]; omega, ?_⟩
    unfold Grammar.initializers
    simp only [hv, hm]
  comma := by
    rintro ts members rest ⟨h, hm⟩
    refine ⟨by simp only [weight_cons]; omega, ?_⟩
    unfold Grammar.moreInitializers
    simp only [hm]
  endInitializers := by
    intro ts
    refine ⟨by simp [Token.weight], ?_⟩
    unfold Grammar.moreInitializers
    rfl

variable {R : Relation}

/-- The relations hold of all that is read with a measure below `n`. The measure is the one by which
the reader ends. -/
structure Relation.Below (R : Relation) (n : Nat) : Prop where
  expression : ∀ {ts e rest}, weight ts * 16 + 6 < n → (Grammar.expression ts).Is e rest →
    R.expression ts e rest
  binary : ∀ {least ts e rest}, weight ts * 16 + 5 < n → (Grammar.binary least ts).Is e rest →
    R.binary least ts e rest
  binaryRest : ∀ {least left ts e rest}, weight ts * 16 < n →
    (Grammar.binaryRest least left ts).Is e rest → R.binaryRest least left ts e rest
  unary : ∀ {ts e rest}, weight ts * 16 + 4 < n → (Grammar.unary ts).Is e rest → R.unary ts e rest
  trailers : ∀ {e ts e' rest}, weight ts * 16 + 2 < n → (Grammar.trailers e ts).Is e' rest →
    R.trailers e ts e' rest
  items : ∀ {close ts es rest}, weight ts * 16 + 8 < n → (Grammar.items close ts).Is es rest →
    R.items close ts es rest
  someItems : ∀ {close ts es rest}, weight ts * 16 + 7 < n →
    (Grammar.someItems close ts).Is es rest → R.someItems close ts es rest
  memberTrailer : ∀ {e optional ts e' rest}, weight ts * 16 + 3 < n →
    (Grammar.memberTrailer e optional ts).Is e' rest → R.memberTrailer e optional ts e' rest
  genericCall : ∀ {e ts e' rest}, weight ts * 16 < n → (Grammar.genericCall e ts).Is e' rest →
    R.genericCall e ts e' rest
  primary : ∀ {ts e rest}, weight ts * 16 + 3 < n → (Grammar.primary ts).Is e rest →
    R.primary ts e rest
  holes : ∀ {ss parts}, cost ss * 16 < n → Grammar.holes ss = .ok parts → R.holes ss parts
  creation : ∀ {ts e rest}, weight ts * 16 + 2 < n → (Grammar.creation ts).Is e rest →
    R.creation ts e rest
  initializers : ∀ {ts ms rest}, weight ts * 16 + 7 < n → (Grammar.initializers ts).Is ms rest →
    R.initializers ts ms rest
  moreInitializers : ∀ {ts ms rest}, weight ts * 16 < n → (Grammar.moreInitializers ts).Is ms rest →
    R.moreInitializers ts ms rest

attribute [local grind =] weight_cons Token.weight cost_cons Segment.cost String.length_toList

theorem expression_step (rules : R.Kept) {ts : List Token} {e : Expr} {rest : List Token}
    (below : R.Below (weight ts * 16 + 6)) (h : (Grammar.expression ts).Is e rest) :
    R.expression ts e rest := by
  obtain ⟨_, h⟩ := h
  unfold Grammar.expression at h
  split at h
  · rename_i header hl
    split at h
    · cases h
    · rename_i hb
      split at h
      · cases h
      · rename_i hbody
        cases h
        have := weight_lambdaHeader_lt hl
        exact rules.lambda hl (Bool.eq_false_iff.2 hb) (below.expression (by grind) ⟨_, hbody⟩)
  · rename_i hl
    split at h
    · cases h
    · rename_i hc
      split at h
      · split at h
        · cases h
        · rename_i ht
          split at h
          · split at h
            · cases h
            · rename_i hf
              cases h
              exact rules.conditional hl (below.binary (by grind) ⟨_, hc⟩)
                (below.expression (by grind) ⟨_, ht⟩) (below.expression (by grind) ⟨_, hf⟩)
          · cases h
      · rename_i hq
        cases h
        refine rules.noConditional hl (below.binary (by grind) ⟨_, hc⟩) ?_
        rintro more rfl
        exact hq _ _ rfl HEq.rfl

theorem binary_step (rules : R.Kept) {least : Nat} {ts : List Token} {e : Expr}
    {rest : List Token} (below : R.Below (weight ts * 16 + 5))
    (h : (Grammar.binary least ts).Is e rest) : R.binary least ts e rest := by
  obtain ⟨_, h⟩ := h
  unfold Grammar.binary at h
  split at h
  · cases h
  · rename_i hl
    split at h
    · cases h
    · rename_i hr
      cases h
      exact rules.operands (below.unary (by grind) ⟨_, hl⟩) (below.binaryRest (by grind) ⟨_, hr⟩)

theorem binaryRest_step (rules : R.Kept) {least : Nat} {left : Expr} {ts : List Token}
    {e : Expr} {rest : List Token} (below : R.Below (weight ts * 16))
    (h : (Grammar.binaryRest least left ts).Is e rest) :
    R.binaryRest least left ts e rest := by
  obtain ⟨_, h⟩ := h
  unfold Grammar.binaryRest at h
  split at h
  · cases h
    exact rules.noOperator (by simp)
  · split at h
    · rename_i ho
      cases h
      refine rules.noOperator ?_
      rintro t more op ⟨⟩ hop
      rw [ho] at hop
      cases hop
    · rename_i op ho
      split at h
      · rename_i hp
        cases h
        refine rules.noOperator ?_
        rintro t more op ⟨⟩ hop
        rw [ho] at hop
        cases hop
        exact hp
      · rename_i hp
        split at h
        · cases h
        · rename_i hr
          split at h
          · cases h
          · rename_i he
            cases h
            exact rules.operator ho (Nat.not_lt.1 hp)
              (below.binary (by grind [Token.weight_pos]) ⟨_, hr⟩)
              (below.binaryRest (by grind [Token.weight_pos]) ⟨_, he⟩)

theorem unary_step (rules : R.Kept) {ts : List Token} {e : Expr} {rest : List Token}
    (below : R.Below (weight ts * 16 + 4))
    (h : (Grammar.unary ts).Is e rest) : R.unary ts e rest := by
  obtain ⟨_, h⟩ := h
  unfold Grammar.unary at h
  split at h
  · cases h
  · rename_i t more _
    have hw := weight_cons t more
    have hpos := t.weight_pos
    split at h
    · rename_i ho
      split at h
      · cases h
      · rename_i hr
        cases h
        exact rules.prefixed ho (below.unary (by grind [Token.weight_pos]) ⟨_, hr⟩)
    · rename_i ho
      split at h
      · rename_i hc
        obtain ⟨rfl, hc⟩ := Option.ite_none_right_eq_some.1 hc
        split at h
        · cases h
        · rename_i hr
          cases h
          exact rules.cast ⟨_, hc⟩ (below.unary (by grind [Token.weight_pos]) ⟨_, hr⟩)
      · rename_i hc
        have hc := ite_eq_right_iff.1 hc
        split at h
        · cases h
        · rename_i hp
          split at h
          · cases h
          · rename_i hg
            split at h
            · cases h
            · rename_i ht
              cases h
              split at hg
              · rename_i hi
                exact rules.name ho hc (below.primary (by grind) ⟨_, hp⟩) hi
                  (below.genericCall (by grind) ⟨_, hg⟩)
                  (below.trailers (by grind) ⟨_, ht⟩)
              · rename_i hi
                cases hg
                exact rules.value ho hc (below.primary (by grind) ⟨_, hp⟩) (Bool.eq_false_iff.2 hi)
                  (below.trailers (by grind) ⟨_, ht⟩)

theorem primary_step (rules : R.Kept) {ts : List Token} {e : Expr} {rest : List Token}
    (below : R.Below (weight ts * 16 + 3))
    (h : (Grammar.primary ts).Is e rest) : R.primary ts e rest := by
  obtain ⟨_, h⟩ := h
  unfold Grammar.primary at h
  split at h
  · split at h
    · rename_i hw
      cases h
      rcases wordValue?_cases hw with ⟨value, htoken, rfl⟩ | ⟨rfl, rfl⟩
      · exact htoken ▸ rules.literal value
      · exact rules.receiver
    · rename_i hw
      split at h
      · rename_i hn
        subst hn
        split at h
        · cases h
        · rename_i hc
          cases h
          exact rules.creation (below.creation (by grind) ⟨_, hc⟩)
      · rename_i hn
        split at h
        · rename_i hd
          subst hd
          split at h
          · split at h
            · cases h
            · rename_i ht
              split at h
              · cases h
                exact rules.typedDefault ⟨_, ht⟩
              · cases h
          · rename_i hp
            cases h
            exact rules.default hp
        · rename_i hd
          cases h
          exact rules.ident hw hn hd
  · cases h
    exact rules.literal (.int _)
  · cases h
    exact rules.literal (.float _)
  · cases h
    exact rules.literal (.string _)
  · cases h
    exact rules.literal (.char _)
  · split at h
    · cases h
    · rename_i hp
      cases h
      exact rules.interpolated (below.holes (by grind [cost_segments_le]) hp)
  · split at h
    · cases h
    · rename_i he
      split at h
      · cases h
        exact rules.paren (below.expression (by grind) ⟨_, he⟩)
      · cases h
  · cases h

theorem trailers_step (rules : R.Kept) {e : Expr} {ts : List Token} {e' : Expr}
    {rest : List Token} (below : R.Below (weight ts * 16 + 2))
    (h : (Grammar.trailers e ts).Is e' rest) : R.trailers e ts e' rest := by
  obtain ⟨_, h⟩ := h
  unfold Grammar.trailers at h
  split at h
  · split at h
    · cases h
    · rename_i hm
      cases h
      exact rules.access (o := false) (below.memberTrailer (by grind) ⟨_, hm⟩)
  · split at h
    · cases h
    · rename_i hm
      cases h
      exact rules.access (o := true) (below.memberTrailer (by grind) ⟨_, hm⟩)
  · split at h
    · cases h
    · rename_i ha
      split at h
      · cases h
      · rename_i ht
        cases h
        exact rules.call (below.items (by grind) ⟨_, ha⟩) (below.trailers (by grind) ⟨_, ht⟩)
  · split at h
    · cases h
    · rename_i ha
      split at h
      · cases h
      · rename_i ht
        cases h
        exact rules.index (o := false) (below.items (by grind) ⟨_, ha⟩)
          (below.trailers (by grind) ⟨_, ht⟩)
  · split at h
    · cases h
    · rename_i ha
      split at h
      · cases h
      · rename_i ht
        cases h
        exact rules.index (o := true) (below.items (by grind) ⟨_, ha⟩)
          (below.trailers (by grind) ⟨_, ht⟩)
  · cases h
    refine rules.noTrailer ?_
    rintro p more rfl
    simp_all

theorem memberTrailer_step (rules : R.Kept) {e : Expr} {optional : Bool} {ts : List Token}
    {e' : Expr} {rest : List Token} (below : R.Below (weight ts * 16 + 3))
    (h : (Grammar.memberTrailer e optional ts).Is e' rest) :
    R.memberTrailer e optional ts e' rest := by
  obtain ⟨_, h⟩ := h
  unfold Grammar.memberTrailer at h
  split at h
  · split at h
    · cases h
    · rename_i hg
      split at h
      · cases h
      · rename_i ht
        cases h
        exact rules.member (below.genericCall (by grind) ⟨_, hg⟩)
          (below.trailers (by grind) ⟨_, ht⟩)
  · cases h

theorem genericCall_step (rules : R.Kept) {e : Expr} {ts : List Token} {e' : Expr}
    {rest : List Token} (below : R.Below (weight ts * 16))
    (h : (Grammar.genericCall e ts).Is e' rest) :
    R.genericCall e ts e' rest := by
  obtain ⟨_, h⟩ := h
  unfold Grammar.genericCall at h
  split at h
  · rename_i hn
    cases h
    exact rules.noTypeArgs hn
  · rename_i hs
    split at h
    · cases h
    · rename_i ha
      cases h
      exact rules.typeArgs ⟨_, hs⟩ (below.items (by grind) ⟨_, ha⟩)

theorem items_step (rules : R.Kept) {close : Punct} {ts : List Token} {es : List Expr}
    {rest : List Token} (below : R.Below (weight ts * 16 + 8))
    (h : (Grammar.items close ts).Is es rest) : R.items close ts es rest := by
  obtain ⟨_, h⟩ := h
  unfold Grammar.items at h
  split at h
  · split at h
    · rename_i hp
      cases h
      cases hp
      exact rules.noItems
    · rename_i hp
      refine rules.items ?_ (below.someItems (by grind) ⟨_, h⟩)
      simp [hp]
  · rename_i hp
    exact rules.items (fun more => hp close more) (below.someItems (by grind) ⟨_, h⟩)

theorem someItems_step (rules : R.Kept) {close : Punct} {ts : List Token} {es : List Expr}
    {rest : List Token} (below : R.Below (weight ts * 16 + 7))
    (h : (Grammar.someItems close ts).Is es rest) :
    R.someItems close ts es rest := by
  obtain ⟨_, h⟩ := h
  unfold Grammar.someItems at h
  split at h
  · cases h
  · rename_i he
    split at h
    · split at h
      · rename_i hp
        cases h
        cases hp
        exact rules.lastItem (below.expression (by grind) ⟨_, he⟩)
      · rename_i hp
        split at h
        · rename_i hcomma
          subst hcomma
          split at h
          · cases h
          · rename_i hs
            cases h
            exact rules.nextItem (Ne.symm hp) (below.expression (by grind) ⟨_, he⟩)
              (below.someItems (by grind) ⟨_, hs⟩)
        · cases h
    · cases h

theorem creation_step (rules : R.Kept) {ts : List Token} {e : Expr} {rest : List Token}
    (below : R.Below (weight ts * 16 + 2))
    (h : (Grammar.creation ts).Is e rest) : R.creation ts e rest := by
  obtain ⟨_, h⟩ := h
  unfold Grammar.creation at h
  split at h
  · split at h
    · cases h
    · rename_i hm
      cases h
      exact rules.anonymous (below.initializers (by grind) ⟨_, hm⟩)
  · split at h
    · cases h
    · rename_i ht
      split at h
      · split at h
        · cases h
        · rename_i ha
          split at h
          · split at h
            · cases h
            · rename_i hm
              cases h
              exact rules.constructedWith ⟨_, ht⟩ (below.items (by grind) ⟨_, ha⟩)
                (below.initializers (by grind) ⟨_, hm⟩)
          · rename_i hb
            cases h
            refine rules.constructed ⟨_, ht⟩ (below.items (by grind) ⟨_, ha⟩) ?_
            rintro more rfl
            exact hb _ _ rfl HEq.rfl
      · split at h
        · cases h
        · rename_i hm
          cases h
          exact rules.initialized ⟨_, ht⟩ (below.initializers (by grind) ⟨_, hm⟩)
      · cases h

theorem initializers_step (rules : R.Kept) {ts : List Token} {ms : List Initializer}
    {rest : List Token} (below : R.Below (weight ts * 16 + 7))
    (h : (Grammar.initializers ts).Is ms rest) :
    R.initializers ts ms rest := by
  obtain ⟨_, h⟩ := h
  unfold Grammar.initializers at h
  split at h
  · cases h
    exact rules.noInitializers
  · split at h
    · cases h
    · rename_i hv
      split at h
      · cases h
      · rename_i hm
        cases h
        exact rules.named (below.expression (by grind) ⟨_, hv⟩)
          (below.moreInitializers (by grind) ⟨_, hm⟩)
  · rename_i hc hn
    split at h
    · cases h
    · rename_i hv
      split at h
      · cases h
      · rename_i hm
        cases h
        exact rules.bare hc hn (below.expression (by grind) ⟨_, hv⟩)
          (below.moreInitializers (by grind) ⟨_, hm⟩)

theorem moreInitializers_step (rules : R.Kept) {ts : List Token} {ms : List Initializer}
    {rest : List Token} (below : R.Below (weight ts * 16))
    (h : (Grammar.moreInitializers ts).Is ms rest) :
    R.moreInitializers ts ms rest := by
  obtain ⟨_, h⟩ := h
  unfold Grammar.moreInitializers at h
  split at h
  · split at h
    · cases h
    · rename_i hm
      cases h
      exact rules.comma (below.initializers (by grind) ⟨_, hm⟩)
  · cases h
    exact rules.endInitializers
  · cases h

theorem holes_step (rules : R.Kept) {ss : List Segment} {parts : List Part}
    (below : R.Below (cost ss * 16))
    (h : Grammar.holes ss = .ok parts) : R.holes ss parts := by
  unfold Grammar.holes at h
  split at h
  · cases h
    exact rules.noSegments
  · split at h
    · cases h
    · rename_i hp
      cases h
      exact rules.text (below.holes (by grind) hp)
  · split at h
    · cases h
    · rename_i hs
      split at h
      · cases h
      · rename_i he
        split at h
        · rename_i hb
          split at h
          · cases h
          · rename_i hp
            cases h
            cases List.isEmpty_iff.1 hb
            have := Scan.weight_ofChars_le hs
            exact rules.hole hs (below.expression (by grind) ⟨_, he⟩) (below.holes (by grind) hp)
        · cases h

theorem Relation.Kept.below (rules : R.Kept) (n : Nat) : R.Below n := by
  induction n using Nat.strongRecOn with
  | ind n ih =>
      exact
        { expression := fun hn h => expression_step rules (ih _ hn) h
          binary := fun hn h => binary_step rules (ih _ hn) h
          binaryRest := fun hn h => binaryRest_step rules (ih _ hn) h
          unary := fun hn h => unary_step rules (ih _ hn) h
          trailers := fun hn h => trailers_step rules (ih _ hn) h
          items := fun hn h => items_step rules (ih _ hn) h
          someItems := fun hn h => someItems_step rules (ih _ hn) h
          memberTrailer := fun hn h => memberTrailer_step rules (ih _ hn) h
          genericCall := fun hn h => genericCall_step rules (ih _ hn) h
          primary := fun hn h => primary_step rules (ih _ hn) h
          holes := fun hn h => holes_step rules (ih _ hn) h
          creation := fun hn h => creation_step rules (ih _ hn) h
          initializers := fun hn h => initializers_step rules (ih _ hn) h
          moreInitializers := fun hn h => moreInitializers_step rules (ih _ hn) h }

theorem Relation.Kept.expression (rules : R.Kept) {ts : List Token} {e : Expr} {rest : List Token}
    (h : (Grammar.expression ts).Is e rest) : R.expression ts e rest :=
  (rules.below _).expression (Nat.lt_succ_self _) h

end Projection.Grammar

namespace Projection.Expr

theorem parse_eq_ok_iff {source : String} {e : Expr} :
    parse source = .ok e ↔
      ∃ s, Scan.ofChars source.toList = .ok s ∧ (Grammar.expression s.words).Is e [] := by
  unfold parse parseChars
  constructor
  · intro h
    split at h
    · cases h
    · rename_i s hs
      split at h
      · cases h
      · rename_i r hr
        obtain ⟨value, rest, bound⟩ := r
        split at h
        · rename_i hrest
          cases h
          cases List.isEmpty_iff.1 hrest
          exact ⟨s, hs, bound, hr⟩
        · cases h
  · rintro ⟨s, hs, bound, hr⟩
    rw [hs]
    simp only [hr]
    rfl

end Projection.Expr
