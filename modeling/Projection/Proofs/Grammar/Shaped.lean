import Projection.Proofs.Grammar.Built

/-!
What is read has the forms that are read as they are printed: the reader gives a cast wherever
parentheses could be one, and keeps words that are values apart from names.
-/

namespace Projection.Grammar

open Projection.Expr

def Signed (ts : List Token) : Prop := ∃ t ∈ ts.head?, isSign t = true

def Opened (ts : List Token) : Prop := ts.head? = some (.punct .openParen)

/-- What could be a type was written as it is printed. -/
def Echoes (ts : List Token) (e : Expr) (rest : List Token) : Prop :=
  e.isTypeLike = true → ts = e.tokens ++ rest

/-- A sign behind the last operand does not carry on a type in parentheses. -/
def Stops (e : Expr) (rest : List Token) : Prop := Signed rest → e.endsAsType = false

structure Extends (e : Expr) (ts : List Token) (e' : Expr) (rest : List Token) : Prop where
  shaped : e'.Every Shaped
  same : e' = e ∧ rest = ts ∨ e'.endsAsType = false ∧ e'.isSigned = false
  typeLike : e'.isTypeLike = true →
    e.isTypeLike = true ∧ ∃ w, e'.tokens = e.tokens ++ w ∧ ts = w ++ rest

def shaping : Relation where
  expression ts e rest := e.Every Shaped ∧ Echoes ts e rest
  binary _ ts e rest := e.Every Shaped ∧ Echoes ts e rest ∧ Stops e rest
  binaryRest _ left ts e rest := left.Every Shaped → Stops left ts →
    e.Every Shaped ∧ Stops e rest ∧ (e = left ∧ rest = ts ∨ e.isTypeLike = false)
  unary ts e rest :=
    e.Every Shaped ∧ Echoes ts e rest ∧ Stops e rest ∧ (e.isSigned = true → Signed ts)
  trailers e ts e' rest := e.Every Shaped → (Opened ts → e.isCallable = true) →
    Extends e ts e' rest
  items close ts es rest := (∀ e ∈ es, e.Every Shaped) ∧ (es = [] → ts = .punct close :: rest)
  someItems _ _ es _ := (∀ e ∈ es, e.Every Shaped) ∧ es ≠ []
  memberTrailer e optional ts e' rest := e.Every Shaped →
    Extends e (.punct (if optional then .questionDot else .dot) :: ts) e' rest
  genericCall e ts e' rest := e.Every Shaped → e.isName = true →
    e'.Every Shaped ∧ (e' = e ∧ rest = ts ∨ ∃ us as, e' = .invoke e us as)
  primary ts e rest := e.Every Shaped ∧ Echoes ts e rest ∧ e.isSigned = false ∧
    (e = .defaultValue none → ¬Opened rest) ∧ (e.endsAsType = true → ∃ c, e = .paren c) ∧
    ∀ c, e = .paren c → ∃ more, ts = .punct .openParen :: more ∧
      (c.isTypeLike = true → more = c.tokens ++ .punct .closeParen :: rest)
  holes _ parts := ∀ e ∈ parts.filterMap Part.expr?, e.Every Shaped
  creation _ e _ := e.Every Shaped ∧
    ((∃ ms, e = .anonymous ms) ∨ ∃ t as ms, e = .creation t as ms)
  initializers _ ms _ := ∀ e ∈ ms.map (·.value), e.Every Shaped
  moreInitializers _ ms _ := ∀ e ∈ ms.map (·.value), e.Every Shaped

theorem every_shaped {e : Expr} (h : e.Shaped) (hc : ∀ c ∈ e.children, c.Every Shaped) :
    e.Every Shaped :=
  every_iff.2 ⟨h, hc⟩

theorem isSign_iff {t : Token} : isSign t = true ↔ t = .punct .minus ∨ t = .punct .plus := by
  constructor
  · intro h
    unfold isSign at h
    split at h <;> simp_all
  · rintro (rfl | rfl) <;> rfl

theorem isSign_of_binaryOp? {op : BinaryOp} (h : op = .add ∨ op = .sub) :
    isSign (.punct op.punct) = true := by
  rcases h with rfl | rfl <;> rfl

theorem Extends.trans {e : Expr} {ts : List Token} {e₁ : Expr} {more : List Token} {e' : Expr}
    {rest : List Token} (hends : e₁.endsAsType = false) (hsigned : e₁.isSigned = false)
    (hlike : e₁.isTypeLike = true →
      e.isTypeLike = true ∧ ∃ w, e₁.tokens = e.tokens ++ w ∧ ts = w ++ more)
    (h : Extends e₁ more e' rest) : Extends e ts e' rest where
  shaped := h.shaped
  same := by
    rcases h.same with ⟨rfl, -⟩ | h
    · exact .inr ⟨hends, hsigned⟩
    · exact .inr h
  typeLike hl := by
    obtain ⟨hl₁, w', hw', rfl⟩ := h.typeLike hl
    obtain ⟨hle, w, hw, rfl⟩ := hlike hl₁
    exact ⟨hle, w ++ w', by rw [hw', hw, List.append_assoc], (List.append_assoc ..).symm⟩

theorem extends_self {e : Expr} (h : e.Every Shaped) (ts : List Token) : Extends e ts e ts :=
  ⟨h, .inl ⟨rfl, rfl⟩, fun hl => ⟨hl, [], by simp⟩⟩

section Rules

variable {e e' called left right operand : Expr} {t : Token} {ts more more' rest : List Token}

theorem shaping_operator {least : Nat} {op : BinaryOp} (ho : binaryOp? t = some op)
    (hr : shaping.binary (rightLimit op) ts right more)
    (he : shaping.binaryRest least (.binary op left right) more e rest) :
    shaping.binaryRest least left (t :: ts) e rest := by
  obtain rfl := binaryOp?_eq_some_iff.1 ho
  obtain ⟨hright, -, hstops⟩ := hr
  intro hleft hstop
  have hbinary : (Expr.binary op left right).Every Shaped :=
    every_shaped (fun hop => hstop ⟨_, rfl, isSign_of_binaryOp? hop⟩)
      (List.forall_mem_cons.2 ⟨hleft, List.forall_mem_singleton.2 hright⟩)
  obtain ⟨hshaped, hrest, hsame⟩ := he hbinary hstops
  refine ⟨hshaped, hrest, .inr ?_⟩
  rcases hsame with ⟨rfl, -⟩ | hlike
  · rfl
  · exact hlike

theorem shaping_prefixed {op : UnaryOp} (ho : unaryOp? t = some op)
    (he : shaping.unary ts operand rest) : shaping.unary (t :: ts) (.unary op operand) rest := by
  obtain rfl := unaryOp?_eq_some_iff.1 ho
  obtain ⟨hshaped, -, hstops, -⟩ := he
  refine ⟨every_shaped trivial (List.forall_mem_singleton.2 hshaped), (by rintro ⟨⟩), hstops,
    fun h => ?_⟩
  refine ⟨_, rfl, ?_⟩
  cases op with
  | neg | plus => rfl
  | not | bitNot => cases h

theorem shaping_cast {type : TypeExpr} (hc : Found (castType? ts) type more)
    (he : shaping.unary more operand rest) :
    shaping.unary (.punct .openParen :: ts) (.cast type operand) rest := by
  obtain ⟨-, hmay⟩ := found_castType?_iff.1 hc
  obtain ⟨hshaped, -, hstops, hsigned⟩ := he
  refine ⟨every_shaped (fun hs => ?_) (List.forall_mem_singleton.2 hshaped), (by rintro ⟨⟩),
    hstops, (by rintro ⟨⟩)⟩
  obtain ⟨u, hu, hsign⟩ := hsigned hs
  obtain ⟨behind, rfl⟩ := List.head?_eq_some_iff.1 hu
  rcases isSign_iff.1 hsign with rfl | rfl <;> exact hmay

theorem shaping_name (he : shaping.primary (t :: ts) e more) (hident : isIdent e = true)
    (hcall : shaping.genericCall e more called more')
    (ht : shaping.trailers called more' e' rest) : shaping.unary (t :: ts) e' rest := by
  obtain ⟨name, rfl⟩ : ∃ name, e = .ident name := by
    cases e with
    | ident name => exact ⟨name, rfl⟩
    | _ => cases hident
  obtain ⟨hshaped, hechoes, -⟩ := he
  obtain ⟨hcalled, hsame⟩ := hcall hshaped rfl
  have hcallable : called.isCallable = true := by
    rcases hsame with ⟨rfl, -⟩ | ⟨us, as, rfl⟩ <;> rfl
  have hplain : called.endsAsType = false ∧ called.isSigned = false := by
    rcases hsame with ⟨rfl, -⟩ | ⟨us, as, rfl⟩ <;> exact ⟨rfl, rfl⟩
  have hext := ht hcalled fun _ => hcallable
  have hforms : e'.endsAsType = false ∧ e'.isSigned = false := by
    rcases hext.same with ⟨rfl, -⟩ | h
    · exact hplain
    · exact h
  refine ⟨hext.shaped, fun hlike => ?_, fun _ => hforms.1, fun h => ?_⟩
  · obtain ⟨hl, w, hw, rfl⟩ := hext.typeLike hlike
    rcases hsame with ⟨rfl, rfl⟩ | ⟨us, as, rfl⟩
    · rw [hechoes rfl, hw, List.append_assoc]
    · cases hl
  · rw [hforms.2] at h
    cases h

/-- Parentheses around what could be a type stand where they are no cast. -/
theorem castMayPrecede_of_primary (hcast : t = .punct .openParen → castType? ts = none)
    {c : Expr} (he : shaping.primary (t :: ts) (.paren c) more) (hlike : c.isTypeLike = true) :
    ∃ u, isSurelyType u = c.isSureType ∧ castMayPrecede u more = false := by
  obtain ⟨behind, hbehind, hc⟩ := he.2.2.2.2.2 c rfl
  obtain ⟨rfl, rfl⟩ := List.cons.inj hbehind
  obtain rfl := hc hlike
  exact castMayPrecede_of_castType? hlike (hcast rfl)

theorem shaping_value (hcast : t = .punct .openParen → castType? ts = none)
    (he : shaping.primary (t :: ts) e more) (ht : shaping.trailers e more e' rest) :
    shaping.unary (t :: ts) e' rest := by
  obtain ⟨hshaped, hechoes, hsigned, hdefault, hends, -⟩ := id he
  have hcallable : Opened more → e.isCallable = true := by
    intro hopened
    obtain ⟨behind, rfl⟩ := List.head?_eq_some_iff.1 hopened
    cases e with
    | defaultValue d =>
        cases d with
        | none => exact absurd hopened (hdefault rfl)
        | some u => rfl
    | paren c =>
        cases hlike : c.isTypeLike with
        | false => exact congrArg not hlike
        | true =>
            obtain ⟨u, -, hmay⟩ := castMayPrecede_of_primary hcast he hlike
            cases hmay
    | _ => rfl
  have hext := ht hshaped hcallable
  refine ⟨hext.shaped, fun hlike => ?_, fun hsign => ?_, fun h => ?_⟩
  · obtain ⟨hl, w, hw, rfl⟩ := hext.typeLike hlike
    rw [hechoes hl, hw, List.append_assoc]
  · rcases hext.same with ⟨rfl, rfl⟩ | h
    · refine Bool.eq_false_iff.2 fun hend => ?_
      obtain ⟨c, rfl⟩ := hends hend
      obtain ⟨u, hu, hmay⟩ := castMayPrecede_of_primary hcast he (isTypeLike_of_isSureType hend)
      obtain ⟨s, hs, hsign⟩ := hsign
      obtain ⟨behind, rfl⟩ := List.head?_eq_some_iff.1 hs
      have hsure : isSurelyType u = true := hu.trans hend
      rcases isSign_iff.1 hsign with rfl | rfl
      · rw [castMayPrecede, hsure] at hmay
        cases hmay
      · rw [castMayPrecede, hsure] at hmay
        cases hmay
    · exact h.1
  · rcases hext.same with ⟨rfl, -⟩ | h'
    · rw [hsigned] at h
      cases h
    · rw [h'.2] at h
      cases h

theorem shaping_index {o : Bool} {args : List Expr} (ha : shaping.items .closeBracket ts args more)
    (ht : shaping.trailers (.index e args o) more e' rest) :
    shaping.trailers e (.punct (if o then .questionBracket else .openBracket) :: ts) e' rest := by
  intro he _
  have hindex : (Expr.index e args o).Every Shaped :=
    every_shaped trivial (List.forall_mem_cons.2 ⟨he, ha.1⟩)
  refine (ht hindex fun _ => rfl).trans rfl rfl fun hlike => ?_
  cases args with
  | cons a as => cases hlike
  | nil =>
      have hl : e.isTypeLike = true := hlike
      refine ⟨hl, [.punct (if o then .questionBracket else .openBracket), .punct .closeBracket], ?_,
        ?_⟩
      · rw [tokens_index (Nat.le_of_eq (power_of_isTypeLike hl).symm)]
        rfl
      · rw [ha.2 rfl]
        rfl

theorem shaping_member {optional : Bool} {name : String}
    (hg : shaping.genericCall (.member e name optional) ts called more)
    (ht : shaping.trailers called more e' rest) :
    shaping.memberTrailer e optional (.ident name :: ts) e' rest := by
  intro he
  have hmember : (Expr.member e name optional).Every Shaped :=
    every_shaped trivial (List.forall_mem_singleton.2 he)
  obtain ⟨hcalled, hsame⟩ := hg hmember rfl
  have hcallable : called.isCallable = true := by
    rcases hsame with ⟨rfl, -⟩ | ⟨us, as, rfl⟩ <;> rfl
  have hext := ht hcalled fun _ => hcallable
  rcases hsame with ⟨rfl, rfl⟩ | ⟨us, as, rfl⟩
  · refine hext.trans rfl rfl fun hlike => ?_
    cases optional with
    | true => cases hlike
    | false =>
        have hpath : e.isPath = true := hlike
        refine ⟨?_, [.punct .dot, .ident name], ?_, rfl⟩
        · unfold isTypeLike
          split
          · cases hpath
          · exact hpath
        · exact tokens_member (Nat.le_of_eq (power_of_isPath hpath).symm)
  · exact hext.trans rfl rfl fun hlike => by cases hlike

end Rules

/-- A form that is neither a type nor parentheses. -/
theorem shaping_primary {ts : List Token} {e : Expr} {rest : List Token} (h : e.Every Shaped)
    (hlike : e.isTypeLike = false) (hsigned : e.isSigned = false) (hends : e.endsAsType = false)
    (hdefault : e ≠ .defaultValue none) (hparen : ∀ c, e ≠ .paren c) :
    shaping.primary ts e rest := by
  refine ⟨h, fun hl => ?_, hsigned, fun hd => absurd hd hdefault, fun hend => ?_,
    fun c hc => absurd hc (hparen c)⟩
  · rw [hlike] at hl
    cases hl
  · rw [hends] at hend
    cases hend

theorem shaping_kept : shaping.Kept where
  lambda _ _ h := ⟨every_shaped trivial (List.forall_mem_singleton.2 h.1), (by rintro ⟨⟩)⟩
  conditional _ hc ht hf :=
    ⟨every_shaped trivial (List.forall_mem_cons.2 ⟨hc.1, List.forall_mem_cons.2
      ⟨ht.1, List.forall_mem_singleton.2 hf.1⟩⟩), (by rintro ⟨⟩)⟩
  noConditional _ h _ := ⟨h.1, h.2.1⟩
  operands hl he := by
    obtain ⟨hleft, hechoes, hstops, -⟩ := hl
    obtain ⟨hshaped, hrest, hsame⟩ := he hleft hstops
    refine ⟨hshaped, fun hlike => ?_, hrest⟩
    rcases hsame with ⟨rfl, rfl⟩ | h
    · exact hechoes hlike
    · rw [h] at hlike
      cases hlike
  noOperator _ h hs := ⟨h, hs, .inl ⟨rfl, rfl⟩⟩
  operator ho _ hr he := shaping_operator ho hr he
  prefixed ho h := shaping_prefixed ho h
  cast hc h := shaping_cast hc h
  name _ _ he hi hg ht := shaping_name he hi hg ht
  value _ hc he _ ht := shaping_value hc he ht
  access h he _ := h he
  call ha ht he hcall := by
    have hshaped := every_shaped (e := .call _ _) (hcall rfl) (List.forall_mem_cons.2 ⟨he, ha.1⟩)
    exact (ht hshaped fun _ => rfl).trans rfl rfl fun hlike => by cases hlike
  index ha ht := shaping_index ha ht
  noTrailer _ h _ := extends_self h _
  member hg ht := shaping_member hg ht
  noTypeArgs _ h _ := ⟨h, .inl ⟨rfl, rfl⟩⟩
  typeArgs {e ts us more args rest} _ ha he hname := by
    refine ⟨every_shaped ?_ (List.forall_mem_cons.2 ⟨he, ha.1⟩), .inr ⟨us, args, rfl⟩⟩
    cases us with
    | nil =>
        change e.isCallable = true
        cases e <;> first | rfl | cases hname
    | cons u us => exact hname
  noItems := ⟨List.forall_mem_nil _, fun _ => rfl⟩
  items _ h := ⟨h.1, fun hes => absurd hes h.2⟩
  lastItem h := ⟨List.forall_mem_singleton.2 h.1, (by simp)⟩
  nextItem _ h hs := ⟨List.forall_mem_cons.2 ⟨h.1, hs.1⟩, (by simp)⟩
  literal value := by
    refine ⟨every_shaped trivial (List.forall_mem_nil _), fun _ => ?_, rfl, (by simp),
      (by rintro ⟨⟩), (by simp)⟩
    rw [tokens]
    rfl
  receiver := by
    refine ⟨every_shaped trivial (List.forall_mem_nil _), fun _ => ?_, rfl, (by simp),
      (by rintro ⟨⟩), (by simp)⟩
    rw [tokens]
    rfl
  creation h := by
    obtain ⟨hshaped, ⟨ms, rfl⟩ | ⟨t, as, ms, rfl⟩⟩ := h
    · exact shaping_primary hshaped rfl rfl rfl (by simp) (by simp)
    · exact shaping_primary hshaped rfl rfl rfl (by simp) (by simp)
  typedDefault _ :=
    shaping_primary (every_shaped trivial (List.forall_mem_nil _)) rfl rfl rfl (by simp) (by simp)
  default hne := by
    refine ⟨every_shaped trivial (List.forall_mem_nil _), fun _ => ?_, rfl, fun _ hopened => ?_,
      (by rintro ⟨⟩), (by simp)⟩
    · rw [tokens]
      rfl
    · obtain ⟨behind, rfl⟩ := List.head?_eq_some_iff.1 hopened
      exact hne behind rfl
  ident {word ts} hword hnew hdefault := by
    refine ⟨every_shaped ?_ (List.forall_mem_nil _), fun _ => ?_, rfl, (by simp), (by rintro ⟨⟩),
      (by simp)⟩
    · simp [Shaped, isReserved, hword, hnew, hdefault]
    · rw [tokens]
      rfl
  interpolated h := shaping_primary (every_shaped trivial h) rfl rfl rfl (by simp) (by simp)
  paren {ts e rest} h := by
    refine ⟨every_shaped trivial (List.forall_mem_singleton.2 h.1), (by rintro ⟨⟩), rfl, (by simp),
      fun _ => ⟨e, rfl⟩, ?_⟩
    rintro c ⟨⟩
    exact ⟨ts, rfl, h.2⟩
  noSegments := (List.forall_mem_nil _)
  text h := h
  hole _ he h := List.forall_mem_cons.2 ⟨he.1, h⟩
  anonymous h := ⟨every_shaped trivial h, .inl ⟨_, rfl⟩⟩
  constructed _ ha _ := ⟨every_shaped trivial ha.1, .inr ⟨_, _, _, rfl⟩⟩
  constructedWith _ ha hm :=
    ⟨every_shaped trivial (List.forall_mem_append.2 ⟨ha.1, hm⟩), .inr ⟨_, _, _, rfl⟩⟩
  initialized _ hm := ⟨every_shaped trivial hm, .inr ⟨_, _, _, rfl⟩⟩
  noInitializers := (List.forall_mem_nil _)
  named h hm := List.forall_mem_cons.2 ⟨h.1, hm⟩
  bare _ _ h hm := List.forall_mem_cons.2 ⟨h.1, hm⟩
  comma h := h
  endInitializers := (List.forall_mem_nil _)

end Projection.Grammar

namespace Projection.Expr

/-- What is read without holes is read again as it is printed. -/
theorem every_formed_of_parse {source : String} {e : Expr} (h : parse source = .ok e)
    (hplain : e.Holeless) : e.Every (Formed .none) := by
  obtain ⟨s, hs, hread⟩ := parse_eq_ok_iff.1 h
  have hlexical := (Grammar.echo_of_expression (Scan.valid_run hs) hplain hread).1
  have hshaped := (Grammar.shaping_kept.expression hread).1
  exact fun n hn => ⟨hlexical n hn, hshaped n hn⟩

end Projection.Expr
