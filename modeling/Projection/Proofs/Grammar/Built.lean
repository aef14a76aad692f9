import Projection.Proofs.Grammar.Casts
import Projection.Proofs.Grammar.ReadBack

/-!
Reading back trees that were built rather than read. Binding strength puts the parentheses where
they are needed, so all that can go wrong is that a comparison is taken for generic arguments.
-/

namespace Projection

namespace Expr

/-- Items of a list, each with its tokens, and what of the list stands behind each of them. -/
def itemTails (close : List Token) : List (Expr × List Token) → List (Expr × List Token)
  | [] => []
  | (e, _) :: more => (e, commaTail (more.map (·.2)) ++ close) :: itemTails close more

def argTails (close : List Token) (as : List Expr) : List (Expr × List Token) :=
  itemTails close (as.map fun a => (a, a.tokens))

def memberList (ms : List Initializer) : List (List Token) :=
  ms.map fun m => valueTokens m.name m.value.tokens

def memberTails (ms : List Initializer) : List (Expr × List Token) :=
  itemTails [.punct .closeBrace] (ms.map fun m => (m.value, valueTokens m.name m.value.tokens))

theorem argTails_cons (close : List Token) (a : Expr) (as : List Expr) :
    argTails close (a :: as) = (a, commaTail (as.map tokens) ++ close) :: argTails close as := by
  simp [argTails, itemTails, Function.comp_def]

theorem memberTails_cons (m : Initializer) (ms : List Initializer) :
    memberTails (m :: ms) =
      (m.value, commaTail (memberList ms) ++ [.punct .closeBrace]) :: memberTails ms := by
  simp [memberTails, memberList, itemTails, Function.comp_def]

def argTokens (opener close : Punct) (as : List Expr) : List Token :=
  .punct opener :: (commaList (as.map tokens) ++ [.punct close])

def memberTokens (ms : List Initializer) : List Token :=
  .punct .openBrace :: (commaList (memberList ms) ++ [.punct .closeBrace])

/-- The operands of a node that needs no parentheses, each with the tokens of the node that stand
behind it. -/
def operands : Expr → List (Expr × List Token)
  | member t n o => [(t, [.punct (if o then .questionDot else .dot), .ident n])]
  | index t as o =>
      (t, argTokens (if o then .questionBracket else .openBracket) .closeBracket as) ::
        argTails [.punct .closeBracket] as
  | invoke t ts as =>
      (t, typeArgTokens ts ++ argTokens .openParen .closeParen as) ::
        argTails [.punct .closeParen] as
  | lambda _ b => [(b, [])]
  | anonymous ms => memberTails ms
  | creation _ as none => argTails [.punct .closeParen] as
  | creation _ as (some ms) => argTails (.punct .closeParen :: memberTokens ms) as ++ memberTails ms
  | conditional c t f =>
      [(c, .punct .question :: (t.tokens ++ .punct .colon :: f.tokens)),
        (t, .punct .colon :: f.tokens), (f, [])]
  | binary op l r => [(l, .punct op.punct :: r.tokens), (r, [])]
  | unary _ e | cast _ e => [(e, [])]
  | paren e => [(e, [.punct .closeParen])]
  | _ => []

theorem mem_of_mem_itemTails {close : List Token} {items : List (Expr × List Token)}
    {x : Expr × List Token} (h : x ∈ itemTails close items) : ∃ w, (x.1, w) ∈ items := by
  induction items with
  | nil => cases h
  | cons i items ih =>
      rcases List.mem_cons.1 h with rfl | h
      · exact ⟨_, List.mem_cons_self⟩
      · obtain ⟨w, hw⟩ := ih h
        exact ⟨w, List.mem_cons_of_mem _ hw⟩

theorem mem_of_mem_argTails {close : List Token} {as : List Expr} {x : Expr × List Token}
    (h : x ∈ argTails close as) : x.1 ∈ as := by
  obtain ⟨w, hw⟩ := mem_of_mem_itemTails h
  obtain ⟨a, ha, heq⟩ := List.mem_map.1 hw
  cases heq
  exact ha

theorem mem_of_mem_memberTails {ms : List Initializer} {x : Expr × List Token}
    (h : x ∈ memberTails ms) : x.1 ∈ ms.map (·.value) := by
  obtain ⟨w, hw⟩ := mem_of_mem_itemTails h
  obtain ⟨m, hm, heq⟩ := List.mem_map.1 hw
  rw [← (Prod.mk.inj heq).1]
  exact List.mem_map_of_mem hm

theorem mem_children_of_mem_operands {e : Expr} {x : Expr × List Token} (h : x ∈ e.operands) :
    x.1 ∈ e.children := by
  cases e with
  | index t as o | invoke t ts as =>
      rcases List.mem_cons.1 h with rfl | h
      · exact List.mem_cons_self
      · exact List.mem_cons_of_mem t (mem_of_mem_argTails h)
  | anonymous ms => exact mem_of_mem_memberTails h
  | creation t as i =>
      cases i with
      | none => exact mem_of_mem_argTails h
      | some ms =>
          rcases List.mem_append.1 h with h | h
          · exact List.mem_append_left _ (mem_of_mem_argTails h)
          · exact List.mem_append_right _ (mem_of_mem_memberTails h)
  | _ => simp_all [operands, children]; try grind

/-- The tree and all below it, each with the tokens that stand behind it. -/
def followed (e : Expr) (p : List Token) : List (Expr × List Token) :=
  (e, p) :: e.operands.attach.flatMap fun x => followed x.1.1 (x.1.2 ++ p)
termination_by sizeOf e
decreasing_by exact sizeOf_lt_of_mem_children (mem_children_of_mem_operands x.2)

theorem followed_eq (e : Expr) (p : List Token) :
    e.followed p = (e, p) :: e.operands.flatMap fun x => followed x.1 (x.2 ++ p) := by
  rw [followed]
  congr 1
  conv => rhs; rw [← List.attach_map_subtype_val e.operands, List.flatMap_map]

end Expr

namespace Grammar

open Projection.Expr

/-- A comparison that reads, with what stands behind it, as a call with generic arguments. -/
def isMistaken : Expr × List Token → Bool
  | (.binary .lt l r, p) =>
      l.endsInName && (callTypeArgs? (.punct .less :: (r.tokens ++ p))).isSome
  | _ => false

/-- No comparison in the tree is taken for generic arguments. -/
def Clear (e : Expr) (p : List Token) : Prop := ∀ x ∈ e.followed p, isMistaken x = false

instance (e : Expr) (p : List Token) : Decidable (Clear e p) :=
  inferInstanceAs (Decidable (∀ x ∈ e.followed p, isMistaken x = false))

theorem Clear.operand {e c : Expr} {w p : List Token} (h : Clear e p) (hc : (c, w) ∈ e.operands) :
    Clear c (w ++ p) := by
  intro x hx
  refine h x ?_
  rw [followed_eq]
  exact List.mem_cons_of_mem _ (List.mem_flatMap.2 ⟨(c, w), hc, hx⟩)

theorem Clear.less {l r : Expr} {p : List Token} (h : Clear (.binary .lt l r) p)
    (hl : l.endsInName = true) : callTypeArgs? (.punct .less :: (r.tokens ++ p)) = none := by
  have hself := h (.binary .lt l r, p) (by rw [followed_eq]; exact List.mem_cons_self)
  rw [isMistaken, hl, Bool.true_and] at hself
  simpa using hself

variable {S : Strings} {R : Relation}

def ends : Token → Bool
  | .punct p => [.closeParen, .closeBracket, .closeBrace, .comma, .colon].contains p
  | _ => false

def pauses (t : Token) : Bool := ends t || t == .punct .question || (binaryOp? t).isSome

def Ended (p : List Token) : Prop := ∀ t ∈ p.head?, ends t = true

def Paused (p : List Token) : Prop := ∀ t ∈ p.head?, pauses t = true

def isSign : Token → Bool
  | .punct .minus | .punct .plus => true
  | _ => false

theorem callTypeArgs?_eq_none {p : List Token} (h : p.head? ≠ some (.punct .less)) :
    callTypeArgs? p = none := by
  unfold callTypeArgs?
  split
  · exact absurd rfl h
  · rfl

theorem Ended.paused {p : List Token} (h : Ended p) : Paused p := by
  intro t ht
  rw [pauses, h t ht]
  rfl

theorem Paused.noTrailer {p : List Token} (h : Paused p) : NoTrailer p := by
  rintro q more rfl
  have hq := h _ rfl
  refine ⟨?_, ?_, ?_, ?_, ?_⟩ <;> rintro rfl <;> cases hq

theorem Ended.opsBelow {p : List Token} (h : Ended p) (least : Nat) : OpsBelow least p := by
  rintro t more op rfl hop
  have ht := h _ rfl
  rw [binaryOp?_eq_some_iff.1 hop] at ht
  cases op <;> cases ht

theorem Ended.ne {p : List Token} (h : Ended p) {q : Punct} (hq : ends (.punct q) = false) :
    p.head? ≠ some (.punct q) := by
  intro hp
  rw [h _ hp] at hq
  cases hq

theorem Paused.castMayPrecede {p : List Token} (h : Paused p) {t : TypeExpr}
    (hsign : ∀ u ∈ p.head?, isSign u = true → isSurelyType t = false) :
    castMayPrecede t p = false := by
  cases p with
  | nil => rfl
  | cons u p =>
      have hu := h u rfl
      replace hsign := hsign u rfl
      cases u with
      | punct q =>
          cases q with
          | minus | plus => exact hsign rfl
          | openParen | bang | tilde => cases hu
          | _ => rfl
      | _ => cases hu

structure Behind (e : Expr) (p : List Token) : Prop where
  paused : Paused p
  sign : ∀ t ∈ p.head?, isSign t = true → e.endsAsType = false
  name : e.endsInName = true → callTypeArgs? p = none
  clear : Clear e p

theorem Ended.behind {e : Expr} {p : List Token} (h : Ended p) (hc : Clear e p) : Behind e p where
  paused := h.paused
  sign t ht hs := by
    have := h t ht
    unfold isSign at hs
    split at hs
    · cases this
    · cases this
    · cases hs
  name _ := callTypeArgs?_eq_none (h.ne rfl)
  clear := hc

structure Fits (e : Expr) (p : List Token) : Prop where
  name : e.isName = true → callTypeArgs? p = none
  default : e = .defaultValue none → p.head? ≠ some (.punct .openParen)
  paren : ∀ c, e = .paren c → castType? (c.tokens ++ .punct .closeParen :: p) = none
  brace : p.head? ≠ some (.punct .openBrace)

/-- The expression is read from its tokens at each level of the grammar that it belongs to. -/
structure Relation.ReadsAs (R : Relation) (e : Expr) : Prop where
  generic : e.isName = true → ∀ {p called more e' rest}, Clear e p →
    R.genericCall e p called more → R.trailers called more e' rest →
    R.unary (e.tokens ++ p) e' rest
  carried : primaryPower ≤ e.power → ∀ {p e' rest}, Fits e p → Clear e p →
    R.trailers e p e' rest → R.unary (e.tokens ++ p) e' rest
  unary : unaryPower ≤ e.power → ∀ {p}, Behind e p → R.unary (e.tokens ++ p) e p
  binary : ∀ {least p e' rest}, 1 ≤ least → least ≤ e.power → Behind e p →
    (∀ op l r, e = .binary op l r → OpsBelow (rightLimit op) p) →
    R.binaryRest least e p e' rest → R.binary least (e.tokens ++ p) e' rest
  expression : ∀ {p}, Ended p → Clear e p → R.expression (e.tokens ++ p) e p

theorem reads_expression_of_binary (rules : R.KeptOutside) {e : Expr} (h : e.Every (Printable S))
    (hp : 1 ≤ e.power) (hb : ∀ {p e' rest}, Behind e p →
      (∀ op l r, e = .binary op l r → OpsBelow (rightLimit op) p) →
      R.binaryRest 1 e p e' rest → R.binary 1 (e.tokens ++ p) e' rest)
    {p : List Token} (hended : Ended p) (hc : Clear e p) :
    R.expression (e.tokens ++ p) e p := by
  refine rules.noConditional ?_ ?_ ?_
  · exact lambdaHeader_eq_none h (isLambda_of_power hp) (hended.ne rfl)
  · exact hb (hended.behind hc) (fun op _ _ _ => hended.opsBelow _)
      (rules.noOperator (hended.opsBelow 1))
  · rintro more rfl
    exact hended.ne (q := .question) rfl rfl

theorem readsAs_of_unary (rules : R.KeptOutside) {e : Expr} (h : e.Every (Printable S))
    (hpower : e.power = unaryPower)
    (hu : ∀ {p}, Behind e p → R.unary (e.tokens ++ p) e p) : R.ReadsAs e where
  generic hn := by
    rw [power_of_isName hn] at hpower
    cases hpower
  carried hp := by
    rw [hpower] at hp
    cases Nat.not_lt.2 hp (by decide)
  unary _ := hu
  binary _ _ hp _ hrest := rules.operands (hu hp) hrest
  expression := reads_expression_of_binary rules h (by rw [hpower]; decide)
    fun hp _ hrest => rules.operands (hu hp) hrest

theorem Behind.fits {e : Expr} (h : e.Every (Printable S)) {p : List Token} (hp : Behind e p) :
    Fits e p where
  name hn := hp.name (by cases e <;> first | rfl | cases hn)
  default _ hhead := by cases hp.paused _ hhead
  paren := by
    rintro c rfl
    refine castType?_tokens (h.child (by simp [children])) fun t hlike ht => ?_
    refine hp.paused.castMayPrecede fun u hu hsign => ?_
    rw [ht]
    exact hp.sign u hu hsign
  brace hhead := by cases hp.paused _ hhead

theorem readsAs_of_carried (rules : R.KeptOutside) {e : Expr} (h : e.Every (Printable S))
    (hpower : e.power = primaryPower) (hg : e.isName = true → ∀ {p called more e' rest}, Clear e p →
      R.genericCall e p called more → R.trailers called more e' rest →
      R.unary (e.tokens ++ p) e' rest)
    (hcarried : ∀ {p e' rest}, Fits e p → Clear e p → R.trailers e p e' rest →
      R.unary (e.tokens ++ p) e' rest) : R.ReadsAs e := by
  have hu {p : List Token} (hp : Behind e p) : R.unary (e.tokens ++ p) e p :=
    hcarried (hp.fits h) hp.clear (rules.noTrailer hp.paused.noTrailer)
  exact
    { generic := hg
      carried := fun _ => hcarried
      unary := fun _ => hu
      binary := fun _ _ hp _ hrest => rules.operands (hu hp) hrest
      expression := reads_expression_of_binary rules h (by rw [hpower]; decide)
        fun hp _ hrest => rules.operands (hu hp) hrest }

theorem ne_of_begins {e : Expr} (h : e.Every (Printable S)) {q : Punct}
    (hq : begins (.punct q) = false) (p more : List Token) :
    e.tokens ++ p ≠ .punct q :: more := by
  obtain ⟨t, w, he, hlead⟩ := exists_leads h
  rw [he]
  intro heq
  have ht := hlead.begins
  rw [(List.cons.inj heq).1, hq] at ht
  cases ht

theorem reads_someItems (rules : R.KeptOutside) {close : Punct}
    (hclose : ends (.punct close) = true ∧ close ≠ .comma)
    {w p : List Token} {e : Expr} {es : List Expr} (hes : ∀ a ∈ e :: es, R.ReadsAs a)
    (hc : ∀ x ∈ argTails (.punct close :: w) (e :: es), Clear x.1 (x.2 ++ p)) :
    R.someItems close (commaList ((e :: es).map tokens) ++ .punct close :: (w ++ p)) (e :: es)
      (w ++ p) := by
  induction es generalizing e with
  | nil =>
      have he := (hes e (by simp)).expression (p := .punct close :: (w ++ p))
        (by rintro _ ⟨⟩; exact hclose.1) (hc _ List.mem_cons_self)
      simpa [commaList, commaTail] using rules.lastItem he
  | cons b es ih =>
      obtain ⟨he, hes⟩ := List.forall_mem_cons.1 hes
      rw [argTails_cons] at hc
      have hread := he.expression (by rintro _ ⟨⟩; rfl) (hc _ List.mem_cons_self)
      have hrest := ih hes fun x hx => hc x (List.mem_cons_of_mem _ hx)
      have hall := rules.nextItem hclose.2 hread (by simpa [commaList] using hrest)
      simpa [commaList, commaTail] using hall

theorem reads_items (rules : R.KeptOutside) {close : Punct}
    (hclose : ends (.punct close) = true ∧ close ≠ .comma)
    (hb : begins (.punct close) = false) {w p : List Token} {es : List Expr}
    (hes : ∀ a ∈ es, R.ReadsAs a) (hp : ∀ a ∈ es, a.Every (Printable S))
    (hc : ∀ x ∈ argTails (.punct close :: w) es, Clear x.1 (x.2 ++ p)) :
    R.items close (commaList (es.map tokens) ++ .punct close :: (w ++ p)) es (w ++ p) := by
  cases es with
  | nil => exact rules.noItems
  | cons e es =>
      refine rules.items (fun more => ?_) (reads_someItems rules hclose hes hc)
      rw [List.map_cons, commaList, List.append_assoc]
      exact ne_of_begins (hp e (by simp)) hb _ more

theorem reads_initializer (rules : R.KeptOutside) {m : Initializer} (hm : R.ReadsAs m.value)
    (hp : m.value.Every (Printable S))
    {more rest : List Token} {ms : List Initializer} (hended : Ended more)
    (hc : Clear m.value more) (hmore : R.moreInitializers more ms rest) :
    R.initializers (valueTokens m.name m.value.tokens ++ more) (m :: ms) rest := by
  have hread := hm.expression hended hc
  obtain ⟨name, value⟩ := m
  cases name with
  | some name => exact rules.named hread hmore
  | none =>
      refine rules.bare (ne_of_begins hp rfl more) (fun n w => ?_) hread hmore
      obtain ⟨t, v, hv, hlead⟩ := exists_leads hp
      simp only [valueTokens, hv, List.cons_append]
      intro heq
      obtain ⟨rfl, hw⟩ := List.cons.inj heq
      refine head?_append_ne (hlead.assign n rfl) (hended.ne rfl) ?_
      rw [hw]
      rfl

theorem reads_initializers (rules : R.KeptOutside) {ms : List Initializer}
    (hms : ∀ e ∈ ms.map (·.value), R.ReadsAs e)
    (hp : ∀ e ∈ ms.map (·.value), e.Every (Printable S)) {p : List Token}
    (hc : ∀ x ∈ memberTails ms, Clear x.1 (x.2 ++ p)) :
    R.initializers (commaList (memberList ms) ++ .punct .closeBrace :: p) ms p := by
  induction ms with
  | nil => exact rules.noInitializers
  | cons m ms ih =>
      obtain ⟨hm, hms⟩ := List.forall_mem_cons.1 hms
      obtain ⟨hpm, hp⟩ := List.forall_mem_cons.1 hp
      rw [memberTails_cons] at hc
      obtain ⟨hfirst, hc⟩ := List.forall_mem_cons.1 hc
      rw [List.append_assoc] at hfirst
      replace ih := ih hms hp hc
      rw [memberList, List.map_cons, commaList, List.append_assoc]
      cases ms with
      | nil =>
          exact reads_initializer rules hm hpm (by rintro _ ⟨⟩; rfl) hfirst rules.endInitializers
      | cons m' ms =>
          refine reads_initializer rules hm hpm (by rintro _ ⟨⟩; rfl) hfirst ?_
          have hmore := rules.comma ih
          simpa [memberList, commaList, commaTail] using hmore

section Forms

variable {t c f e l r : Expr} {n : String} {o : Bool} {as : List Expr} {ts : List TypeExpr}
  {ms : List Initializer} {op : BinaryOp} {sign : UnaryOp} {type : TypeExpr}

theorem readsAs_of_primary (rules : R.KeptOutside) (h : e.Every (Printable S))
    (hpower : e.power = primaryPower) (hident : isIdent e = false) (hname : e.isName = false)
    (hprimary : ∀ {p}, Fits e p → Clear e p → R.primary (e.tokens ++ p) e p)
    (hcast : ∀ {p w}, Fits e p → e.tokens = .punct .openParen :: w → castType? (w ++ p) = none) :
    R.ReadsAs e := by
  refine readsAs_of_carried rules h hpower (fun hn => ?_) fun {p e' rest} hfits hc ht => ?_
  · rw [hname] at hn
    cases hn
  · obtain ⟨u, w, hw, hlead⟩ := exists_leads h
    have hread := hprimary hfits hc
    rw [hw] at hread ⊢
    refine rules.value (hlead.unsigned (Nat.le_of_eq hpower.symm)) ?_ hread hident ht
    rintro rfl
    exact hcast hfits hw

theorem readsAs_ident (rules : R.KeptOutside) (h : (Expr.ident n).Every (Printable S)) :
    R.ReadsAs (.ident n) := by
  have hreserved : isReserved n = false := h.self.shaped
  simp only [isReserved, Bool.or_eq_false_iff, beq_eq_false_iff_ne, Option.isSome_eq_false_iff,
    Option.isNone_iff_eq_none] at hreserved
  obtain ⟨⟨hword, hnew⟩, hdefault⟩ := hreserved
  have hg {p : List Token} {called : Expr} {more : List Token} {e' : Expr} {rest : List Token}
      (hcall : R.genericCall (.ident n) p called more)
      (ht : R.trailers called more e' rest) : R.unary (.ident n :: p) e' rest :=
    rules.name rfl (by simp) (rules.ident hword hnew hdefault) rfl hcall ht
  refine readsAs_of_carried rules h rfl (fun _ _ _ _ _ _ _ => ?_) fun hfits _ ht => ?_
  · rw [tokens]
    exact hg
  · rw [tokens]
    exact hg (rules.noTypeArgs (hfits.name rfl)) ht

theorem readsAs_literal (rules : R.KeptOutside) (value : Literal)
    (h : (Expr.literal value).Every (Printable S)) :
    R.ReadsAs (.literal value) := by
  refine readsAs_of_primary rules h rfl rfl rfl (fun _ _ => ?_) (fun _ hw => ?_)
  · rw [tokens]
    exact rules.literal value
  · rw [tokens] at hw
    exact absurd (List.cons.inj hw).1 (value.token_ne.1 _)

theorem readsAs_this (rules : R.KeptOutside) (h : Expr.this.Every (Printable S)) :
    R.ReadsAs .this := by
  refine readsAs_of_primary rules h rfl rfl rfl (fun _ _ => ?_) (fun _ hw => ?_)
  · rw [tokens]
    exact rules.receiver
  · rw [tokens] at hw
    cases hw

theorem readsAs_default (rules : R.KeptOutside) {d : Option TypeExpr}
    (h : (Expr.defaultValue d).Every (Printable S)) :
    R.ReadsAs (.defaultValue d) := by
  refine readsAs_of_primary rules h rfl rfl rfl (fun {p} hfits _ => ?_) (fun _ hw => ?_)
  · cases d with
    | none =>
        rw [tokens]
        refine rules.default ?_
        rintro more rfl
        exact hfits.default rfl rfl
    | some t =>
        have htype : (Grammar.type (t.tokens ++ .punct .closeParen :: p)).Is t _ :=
          type_tokens (h.self.spellable.types t (by simp [types])) (by decide)
        rw [tokens]
        simpa using rules.typedDefault htype
  · cases d <;> rw [tokens] at hw <;> cases hw

theorem readsAs_paren (rules : R.KeptOutside) (h : (Expr.paren e).Every (Printable S))
    (ih : R.ReadsAs e) :
    R.ReadsAs (.paren e) := by
  refine readsAs_of_primary rules h rfl rfl rfl (fun {p} _ hc => ?_) (fun hfits hw => ?_)
  · have hread := ih.expression (p := .punct .closeParen :: p) (by rintro _ ⟨⟩; rfl)
      (hc.operand List.mem_cons_self)
    rw [tokens]
    simpa using rules.paren hread
  · rw [tokens] at hw
    cases hw
    rw [List.append_assoc]
    exact hfits.paren e rfl

/-- A mark that goes on with an expression, but opens no parenthesis. -/
theorem fits_trailer (h : t.Every (Printable S)) {q : Punct}
    (hq : q = .dot ∨ q = .questionDot ∨ q = .openBracket ∨ q = .questionBracket)
    (p : List Token) : Fits t (.punct q :: p) := by
  have hless : callTypeArgs? (.punct q :: p) = none := by
    rcases hq with rfl | rfl | rfl | rfl <;> rfl
  refine ⟨fun _ => hless, fun _ hp => ?_, ?_, fun hp => ?_⟩
  · rcases hq with rfl | rfl | rfl | rfl <;> cases hp
  · rintro c rfl
    refine castType?_tokens (h.child (by simp [children])) fun u _ _ => ?_
    rcases hq with rfl | rfl | rfl | rfl <;> rfl
  · rcases hq with rfl | rfl | rfl | rfl <;> cases hp

theorem readsAs_member (rules : R.KeptOutside) (h : (Expr.member t n o).Every (Printable S))
    (ih : R.ReadsAs t) :
    R.ReadsAs (.member t n o) := by
  have ht : t.Every (Printable S) := h.child (by simp [children])
  have hg {p : List Token} {called : Expr} {more : List Token} {e' : Expr} {rest : List Token}
      (hc : Clear (.member t n o) p) (hcall : R.genericCall (.member t n o) p called more)
      (hrest : R.trailers called more e' rest) :
      R.unary ((Expr.member t n o).tokens ++ p) e' rest := by
    have hmember := rules.member hcall hrest
    have hclear := hc.operand (c := t) List.mem_cons_self
    rw [tokens_member h.self.unwrapped, List.append_assoc]
    exact ih.carried h.self.unwrapped (fits_trailer ht (by cases o <;> simp) _) hclear
      (rules.access hmember)
  exact readsAs_of_carried rules h rfl (fun _ => hg) fun hfits hc hrest =>
    hg hc (rules.noTypeArgs (hfits.name rfl)) hrest

theorem readsAs_index (rules : R.KeptOutside) (h : (Expr.index t as o).Every (Printable S))
    (ih : ∀ c ∈ (Expr.index t as o).children, R.ReadsAs c) : R.ReadsAs (.index t as o) := by
  obtain ⟨iht, ihas⟩ := List.forall_mem_cons.1 ih
  have ht : t.Every (Printable S) := h.child (by simp [children])
  refine readsAs_of_carried rules h rfl (by rintro ⟨⟩) fun {p e' rest} hfits hc hrest => ?_
  have hitems : R.items .closeBracket
      (commaList (as.map tokens) ++ .punct .closeBracket :: ([] ++ p)) as ([] ++ p) :=
    reads_items rules (by decide) rfl ihas (fun a ha => h.child (by simp [children, ha]))
      fun x hx =>
      hc.operand (List.mem_cons_of_mem _ hx)
  have hclear := hc.operand (c := t) List.mem_cons_self
  rw [tokens_index h.self.unwrapped, List.append_assoc]
  simp only [argTokens, List.cons_append, List.append_assoc, List.nil_append] at hclear hitems ⊢
  exact iht.carried h.self.unwrapped (fits_trailer ht (by cases o <;> simp) _) hclear
    (rules.index hitems hrest)

theorem fits_call (h : (Expr.call t as).Every (Printable S)) (p : List Token) :
    Fits t (.punct .openParen :: p) := by
  have hcallable : t.isCallable = true := h.self.shaped
  refine ⟨fun _ => rfl, ?_, ?_, (by simp)⟩
  · rintro rfl
    cases hcallable
  · rintro c rfl
    refine castType?_tokens ((h.child (c := .paren c) ?_).child ?_) fun u hlike _ => ?_
    · simp [children, call]
    · simp [children]
    · rw [isCallable, hlike] at hcallable
      cases hcallable

theorem readsAs_invoke (rules : R.KeptOutside) (h : (Expr.invoke t ts as).Every (Printable S))
    (ih : ∀ c ∈ (Expr.invoke t ts as).children, R.ReadsAs c) : R.ReadsAs (.invoke t ts as) := by
  obtain ⟨iht, ihas⟩ := List.forall_mem_cons.1 ih
  refine readsAs_of_carried rules h rfl (by rintro ⟨⟩) fun {p e' rest} hfits hc hrest => ?_
  have hitems : R.items .closeParen
      (commaList (as.map tokens) ++ .punct .closeParen :: ([] ++ p)) as ([] ++ p) :=
    reads_items rules (by decide) rfl ihas (fun a ha => h.child (by simp [children, ha]))
      fun x hx =>
      hc.operand (List.mem_cons_of_mem _ hx)
  have hclear := hc.operand (c := t) List.mem_cons_self
  rw [tokens_invoke h.self.unwrapped, List.append_assoc]
  simp only [argTokens, List.cons_append, List.append_assoc, List.nil_append] at hclear hitems ⊢
  cases ts with
  | nil => exact iht.carried h.self.unwrapped (fits_call h _) hclear (rules.call hitems hrest)
  | cons u us =>
      have htypes := list_tokens (fun u hu => readsBack_of_readable (h.self.spellable.types u hu))
        (.punct .openParen :: (commaList (as.map tokens) ++ .punct .closeParen :: p))
      have hfound := found_callTypeArgs?_iff.2 ⟨_, rfl, htypes⟩
      refine iht.generic h.self.shaped hclear ?_ hrest
      simpa [typeArgTokens, TypeExpr.listTokens] using rules.typeArgs hfound hitems

theorem readsAs_anonymous (rules : R.KeptOutside) (h : (Expr.anonymous ms).Every (Printable S))
    (ih : ∀ c ∈ (Expr.anonymous ms).children, R.ReadsAs c) : R.ReadsAs (.anonymous ms) := by
  refine readsAs_of_primary rules h rfl rfl rfl (fun {p} _ hc => ?_) (fun _ hw => ?_)
  · have hmembers := reads_initializers rules ih (fun e he => h.child he) fun x hx => hc.operand hx
    rw [tokens]
    simpa [memberList] using rules.creation (rules.anonymous hmembers)
  · rw [tokens] at hw
    cases hw

theorem readsAs_creation (rules : R.KeptOutside) {i : Option (List Initializer)}
    (h : (Expr.creation type as i).Every (Printable S))
    (ih : ∀ c ∈ (Expr.creation type as i).children, R.ReadsAs c) :
    R.ReadsAs (.creation type as i) := by
  have htype : type.Readable := h.self.spellable.types type (by simp [types])
  refine readsAs_of_primary rules h rfl rfl rfl (fun {p} hfits hc => ?_) (fun _ hw => ?_)
  · cases i with
    | none =>
        have hitems : R.items .closeParen
            (commaList (as.map tokens) ++ .punct .closeParen :: ([] ++ p)) as ([] ++ p) :=
          reads_items rules (by decide) rfl ih (fun a ha => h.child ha) fun x hx => hc.operand hx
        have hcreation := rules.constructed (type_tokens htype (by decide)) hitems
          fun more heq => hfits.brace (by simpa using congrArg List.head? heq)
        rw [tokens]
        simpa using rules.creation hcreation
    | some ms =>
        obtain ⟨ihas, ihms⟩ := List.forall_mem_append.1 ih
        have hmembers := reads_initializers rules ihms
          (fun e he => h.child (List.mem_append_right _ he))
          fun x hx => hc.operand (List.mem_append_right _ hx)
        cases as with
        | nil =>
            have hcreation := rules.initialized (type_tokens htype (by decide)) hmembers
            rw [tokens]
            simpa [memberList] using rules.creation hcreation
        | cons a as =>
            have hitems := reads_items rules (w := memberTokens ms) (by decide) rfl ihas
              (fun e he => h.child (List.mem_append_left _ he)) fun x hx =>
                hc.operand (List.mem_append_left _ hx)
            simp only [memberTokens, List.cons_append, List.append_assoc, List.nil_append]
              at hitems
            have hcreation := rules.constructedWith (type_tokens htype (by decide)) hitems
              hmembers
            rw [tokens]
            simpa [memberList] using rules.creation hcreation
  · cases i with
    | none =>
        rw [tokens] at hw
        cases hw
    | some ms => cases as <;> rw [tokens] at hw <;> cases hw

theorem castMayPrecede_of_begins {u : Token} {w : List Token} (hu : begins u = true)
    (hsign : isSign u = true → isSurelyType type = true) : castMayPrecede type (u :: w) = true := by
  cases u with
  | punct q =>
      cases q with
      | openParen | bang | tilde => rfl
      | minus | plus => exact hsign rfl
      | _ => cases hu
  | _ => rfl

theorem precedence_bounds (op : BinaryOp) : 1 ≤ op.precedence ∧ op.precedence < unaryPower := by
  cases op <;> decide

theorem isSigned_of_leads (he : e.Spellable S) (hp : unaryPower ≤ e.power) {u : Token}
    {w : List Token} (hw : e.tokens = u :: w) (hlead : Leads e u w) (hsign : isSign u = true) :
    e.isSigned = true := by
  have hprimary : ¬primaryPower ≤ e.power := by
    intro hp
    have hu := hlead.unsigned hp
    unfold isSign at hsign
    split at hsign
    · cases hu
    · cases hu
    · cases hsign
  cases e with
  | unary op e =>
      rw [tokens] at hw
      cases hw
      cases op with
      | neg | plus => rfl
      | not | bitNot => cases hsign
  | cast t e =>
      rw [tokens] at hw
      cases hw
      cases hsign
  | marked note e => cases he.plain.2
  | binary op l r => exact absurd hp (Nat.not_le.2 (precedence_bounds op).2)
  | conditional | lambda => cases hp
  | _ => exact absurd (Nat.le_refl _) hprimary

theorem readsAs_unary (rules : R.KeptOutside) (h : (Expr.unary sign e).Every (Printable S))
    (ih : R.ReadsAs e) :
    R.ReadsAs (.unary sign e) := by
  refine readsAs_of_unary rules h rfl fun {p} hp => ?_
  have hread := ih.unary h.self.unwrapped.2 (p := p)
    ⟨hp.paused, hp.sign, hp.name, hp.clear.operand List.mem_cons_self⟩
  rw [tokens_unary h.self.unwrapped]
  exact rules.prefixed (unaryOp?_eq_some_iff.2 rfl) hread

theorem readsAs_cast (rules : R.KeptOutside) (h : (Expr.cast type e).Every (Printable S))
    (ih : R.ReadsAs e) :
    R.ReadsAs (.cast type e) := by
  refine readsAs_of_unary rules h rfl fun {p} hp => ?_
  have he : e.Every (Printable S) := h.child (by simp [children])
  have hread := ih.unary h.self.unwrapped (p := p)
    ⟨hp.paused, hp.sign, hp.name, hp.clear.operand List.mem_cons_self⟩
  obtain ⟨u, w, hw, hlead⟩ := exists_leads he
  have hmay : castMayPrecede type (e.tokens ++ p) = true := by
    rw [hw]
    exact castMayPrecede_of_begins hlead.begins fun hsign =>
      h.self.shaped (isSigned_of_leads he.self.spellable h.self.unwrapped hw hlead hsign)
  have htype : (Grammar.type (type.tokens ++ .punct .closeParen :: (e.tokens ++ p))).Is type _ :=
    type_tokens (h.self.spellable.types type (by simp [types])) (by decide)
  have hcast := rules.cast (found_castType?_iff.2 ⟨htype, hmay⟩) hread
  rw [tokens_cast h.self.unwrapped]
  simpa using hcast

theorem behind_left (h : (Expr.binary op l r).Every (Printable S)) {p : List Token}
    (hc : Clear (.binary op l r) p) : Behind l (.punct op.punct :: (r.tokens ++ p)) where
  paused := by
    rintro _ ⟨⟩
    cases op <;> rfl
  sign := by
    rintro _ ⟨⟩ hsign
    refine h.self.shaped ?_
    cases op with
    | add => exact .inl rfl
    | sub => exact .inr rfl
    | _ => cases hsign
  name hl := by
    cases op with
    | lt => exact hc.less hl
    | _ => rfl
  clear := hc.operand List.mem_cons_self

/-- Behind a left operand, its operator waits for no more. -/
theorem precedence_lt_rightLimit {op op' : BinaryOp} (h : leftLimit op ≤ op'.precedence) :
    op.precedence < rightLimit op' := by
  have hop := precedence_cases op
  have hop' := precedence_cases op'
  unfold leftLimit at h
  unfold rightLimit
  grind

theorem precedence_le_limits (op : BinaryOp) :
    op.precedence ≤ leftLimit op ∧ op.precedence ≤ rightLimit op := by
  cases op <;> decide

theorem OpsBelow.mono {a b : Nat} {p : List Token} (h : OpsBelow a p) (hab : a ≤ b) :
    OpsBelow b p :=
  fun t more op hp hop => Nat.lt_of_lt_of_le (h t more op hp hop) hab

theorem reads_binary_operands (rules : R.KeptOutside)
    (h : (Expr.binary op l r).Every (Printable S)) (ihl : R.ReadsAs l)
    (ihr : R.ReadsAs r) {least : Nat} {p : List Token} {e' : Expr} {rest : List Token}
    (hone : 1 ≤ least) (hleast : least ≤ op.precedence) (hp : Behind (.binary op l r) p)
    (hops : OpsBelow (rightLimit op) p)
    (hrest : R.binaryRest least (.binary op l r) p e' rest) :
    R.binary least ((Expr.binary op l r).tokens ++ p) e' rest := by
  obtain ⟨hleft, hright⟩ : leftLimit op ≤ l.power ∧ rightLimit op ≤ r.power := h.self.unwrapped
  have hlimits := precedence_le_limits op
  have hbehind : Behind r p :=
    ⟨hp.paused, hp.sign, hp.name, hp.clear.operand (List.mem_cons_of_mem _ List.mem_cons_self)⟩
  have hr := ihr.binary (Nat.le_trans (precedence_bounds op).1 hlimits.2) hright hbehind
    (by
      rintro op' l' r' rfl
      exact hops.mono (Nat.le_trans hright (precedence_le_limits op').2))
    (rules.noOperator hops)
  rw [tokens_binary h.self.unwrapped, List.append_assoc]
  refine ihl.binary hone (Nat.le_trans hleast (Nat.le_trans hlimits.1 hleft))
    (behind_left h hp.clear) ?_ (rules.operator (binaryOp?_eq_some_iff.2 rfl) hleast hr hrest)
  rintro op' l' r' rfl t more op'' ⟨⟩ hop
  cases (binaryOp?_eq_some_iff.2 rfl).symm.trans hop
  exact precedence_lt_rightLimit hleft

theorem readsAs_binary (rules : R.KeptOutside) (h : (Expr.binary op l r).Every (Printable S))
    (ihl : R.ReadsAs l) (ihr : R.ReadsAs r) : R.ReadsAs (.binary op l r) := by
  obtain ⟨hone, hlt⟩ := precedence_bounds op
  exact
    { generic := (by rintro ⟨⟩)
      carried := fun hp => absurd (Nat.le_trans (by decide) hp) (Nat.not_le.2 hlt)
      unary := fun hp => absurd hp (Nat.not_le.2 hlt)
      binary := fun hone hleast hp hops =>
        reads_binary_operands rules h ihl ihr hone hleast hp (hops op l r rfl)
      expression := reads_expression_of_binary rules h hone fun hp hops =>
        reads_binary_operands rules h ihl ihr (Nat.le_refl _) hone hp (hops op l r rfl) }

theorem readsAs_of_power_zero (hpower : e.power = 0)
    (hread : ∀ {p}, Ended p → Clear e p → R.expression (e.tokens ++ p) e p) : R.ReadsAs e where
  generic hn := by
    rw [power_of_isName hn] at hpower
    cases hpower
  carried hp := by
    rw [hpower] at hp
    cases hp
  unary hp := by
    rw [hpower] at hp
    cases hp
  binary hone hleast := by
    rw [hpower] at hleast
    cases Nat.le_trans hone hleast
  expression := hread

theorem readsAs_conditional (rules : R.KeptOutside)
    (h : (Expr.conditional c t f).Every (Printable S)) (ihc : R.ReadsAs c)
    (iht : R.ReadsAs t) (ihf : R.ReadsAs f) : R.ReadsAs (.conditional c t f) := by
  refine readsAs_of_power_zero rfl fun {p} hended hc => ?_
  have hheader := lambdaHeader_eq_none h rfl (hended.ne (q := .arrow) rfl)
  have hnoOps (least : Nat) (w : List Token) : OpsBelow least (.punct .question :: w) := by
    rintro _ _ op ⟨⟩ hop
    cases hop
  have hbehind : Behind c (.punct .question :: (t.tokens ++ .punct .colon :: (f.tokens ++ p))) :=
    ⟨by rintro _ ⟨⟩; rfl, by rintro _ ⟨⟩ ⟨⟩, fun _ => rfl, by
      simpa using hc.operand (c := c) List.mem_cons_self⟩
  have hcond := ihc.binary (Nat.le_refl _) h.self.unwrapped.1 hbehind
    (fun op _ _ _ => hnoOps _ _) (rules.noOperator (hnoOps 1 _))
  have htrue := iht.expression (p := .punct .colon :: (f.tokens ++ p)) (by rintro _ ⟨⟩; rfl)
    (hc.operand (c := t) (w := _ :: _) (by simp [operands]))
  have hfalse := ihf.expression hended (hc.operand (w := []) (by simp [operands]))
  rw [tokens_conditional h.self.unwrapped] at hheader ⊢
  simp only [List.append_assoc, List.cons_append] at hheader ⊢
  exact rules.conditional hheader hcond htrue hfalse

theorem readsAs_lambda (rules : R.KeptOutside) {ps : List String}
    (h : (Expr.lambda ps e).Every (Printable S)) (ih : R.ReadsAs e) : R.ReadsAs (.lambda ps e) := by
  refine readsAs_of_power_zero rfl fun {p} hended hc => ?_
  have hbody := ih.expression hended (hc.operand (w := []) List.mem_cons_self)
  have hblock : startsBlock (e.tokens ++ p) = false := by
    refine Bool.eq_false_iff.2 fun hblock => ?_
    unfold startsBlock at hblock
    split at hblock
    · rename_i more heq
      exact ne_of_begins (h.child (by simp [children])) rfl p more heq
    · cases hblock
  have hheader := lambdaHeader_paramTokens ps (e.tokens ++ p)
  rw [tokens, List.append_assoc]
  exact rules.lambda hheader hblock hbody

end Forms

def Relation.ReadsStrings (R : Relation) (S : Strings) : Prop :=
  ∀ ps rest, S.allows ps →
    R.primary (.interpolated (printParts StructuralId.placeholder ps) :: rest) (.interpolated ps)
      rest

theorem readsAs_interpolated (rules : R.KeptOutside) (strings : R.ReadsStrings S) {ps : List Part}
    (h : (Expr.interpolated ps).Every (Printable S)) : R.ReadsAs (.interpolated ps) := by
  refine readsAs_of_primary rules h rfl rfl rfl (fun _ _ => ?_) (fun _ hw => ?_)
  · rw [tokens]
    exact strings ps _ h.self.spellable.plain.1
  · rw [tokens] at hw
    cases hw

theorem readsAs_of_printable (rules : R.KeptOutside) (strings : R.ReadsStrings S) {e : Expr}
    (h : e.Every (Printable S)) : R.ReadsAs e := by
  induction e using childInduction with
  | h e ih =>
      replace ih := fun c hc => ih c hc (h.child hc)
      cases e with
      | ident n => exact readsAs_ident rules h
      | this => exact readsAs_this rules h
      | literal value => exact readsAs_literal rules value h
      | member t n o => exact readsAs_member rules h (ih t (by simp [children]))
      | index t as o => exact readsAs_index rules h ih
      | invoke t ts as => exact readsAs_invoke rules h ih
      | lambda ps b => exact readsAs_lambda rules h (ih b (by simp [children]))
      | anonymous ms => exact readsAs_anonymous rules h ih
      | creation t as i => exact readsAs_creation rules h ih
      | conditional c t f =>
          exact readsAs_conditional rules h (ih c (by simp [children])) (ih t (by simp [children]))
            (ih f (by simp [children]))
      | binary op l r =>
          exact readsAs_binary rules h (ih l (by simp [children])) (ih r (by simp [children]))
      | unary op e => exact readsAs_unary rules h (ih e (by simp [children]))
      | cast t e => exact readsAs_cast rules h (ih e (by simp [children]))
      | defaultValue d => exact readsAs_default rules h
      | interpolated ps => exact readsAs_interpolated rules strings h
      | paren e => exact readsAs_paren rules h (ih e (by simp [children]))
      | marked note e => cases h.self.spellable.plain.2

/-- A tree that needs no parentheses is read from its tokens, if no comparison in it is taken for
generic arguments. -/
theorem reads_tokens (rules : R.KeptOutside) (strings : R.ReadsStrings S) {e : Expr}
    (h : e.Every (Printable S)) (hc : Clear e []) : R.expression e.tokens e [] := by
  simpa using (readsAs_of_printable rules strings h).expression (p := []) (by rintro _ ⟨⟩) hc

/-- Nothing is said of strings where there are none. -/
theorem readsStrings_none (R : Relation) : R.ReadsStrings .none := fun _ _ h => h.elim

end Grammar

end Projection
