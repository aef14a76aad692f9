import Projection.Proofs.Grammar.Boundaries

/-!
Reading what was read and printed. Each function of the reader reads the tokens of its result again,
in front of anything that agrees with what it left, and finds the result with the printer's
parentheses as nodes. Along the way the printed tokens stay near those of the source, so that no
trial reading goes another way.
-/

namespace Projection

namespace Expr

def Holeless (e : Expr) : Prop := e.Every fun n => n.isInterpolated = false

def Lexical (e : Expr) : Prop := e.Every (Spellable .none)

theorem Holeless.child {c e : Expr} (h : e.Holeless) (hc : c ∈ e.children) : c.Holeless :=
  Every.child h hc

theorem lexical_of {e : Expr} (hchildren : ∀ c ∈ e.children, c.Lexical)
    (hown : ∀ t ∈ e.ownTokens, t.Valid) (htypes : ∀ t ∈ e.types, t.Readable)
    (hplain : e.isInterpolated = false ∧ e.isMarked = false) : e.Lexical :=
  every_iff.2 ⟨⟨hown, htypes, Strings.none.admits_of_isInterpolated hplain.1, hplain.2⟩, hchildren⟩

theorem wrapTokens_of_le {a b : Nat} (h : b ≤ a) (ts : List Token) :
    wrapTokens (a < b) ts = ts := by
  rw [wrapTokens, if_neg]
  simpa using h

theorem wrap_of_le {a b : Nat} (h : b ≤ a) (e : Expr) : wrap (a < b) e = e := by
  rw [wrap, if_neg]
  simpa using h

end Expr

namespace Grammar

open Projection.Expr Text

/-- The printed tokens start as the source does, and behind a parenthesis they are near to it. -/
def Front (s p : List Token) : Prop :=
  ∃ t s' p', s = t :: s' ∧ p = t :: p' ∧ (t = .punct .openParen → Near false s' p')

/-- The result of a rule, behind `ts`, is read again by it. -/
structure Again (read : List Token → Expr → List Token → Prop) (ts : List Token) (e : Expr)
    (rest : List Token) (Starts : List Token → Prop) : Prop where
  valid : AllValid rest
  lexical : e.Lexical
  echo : ∀ k p, Agree k rest p →
    read (e.tokens ++ p) e.bracketed p ∧ Near k ts (e.tokens ++ p) ∧ Starts (e.tokens ++ p)

/-- What a rule adds to `e` to get `e'` is read again by it. -/
structure Further (read : Expr → List Token → Expr → List Token → Prop) (e : Expr)
    (ts : List Token) (e' : Expr) (rest : List Token) : Prop where
  valid : AllValid rest
  lexical : e.Lexical → e'.Lexical
  echo : ∃ w, e'.tokens = e.tokens ++ w ∧ ∀ k p, Agree k rest p →
    read e.bracketed (w ++ p) e'.bracketed p ∧ Agree k ts (w ++ p)

theorem Again.further {read : List Token → Expr → List Token → Prop}
    {read' : Expr → List Token → Expr → List Token → Prop} {ts : List Token} {e : Expr}
    {more : List Token} {e' : Expr} {rest : List Token} {Starts : List Token → Prop}
    (h : Again read ts e more Starts) (h' : Further read' e more e' rest) :
    Again (fun s e₂ p => ∃ q, read s e.bracketed q ∧ read' e.bracketed q e₂ p) ts e' rest
      Starts := by
  refine ⟨h'.valid, h'.lexical h.lexical, fun k p hp => ?_⟩
  obtain ⟨w, hw, hecho⟩ := h'.echo
  obtain ⟨hread', hagree⟩ := hecho k p hp
  obtain ⟨hread, hnear, hstarts⟩ := h.echo k (w ++ p) hagree
  rw [hw, List.append_assoc]
  exact ⟨⟨w ++ p, hread, hread'⟩, hnear, hstarts⟩

theorem Further.trans {read read' : Expr → List Token → Expr → List Token → Prop} {e : Expr}
    {ts : List Token} {e₁ : Expr} {more : List Token} {e' : Expr} {rest : List Token}
    (h : Further read e ts e₁ more) (h' : Further read' e₁ more e' rest) :
    Further (fun e₀ s e₂ p => ∃ q, read e₀ s e₁.bracketed q ∧ read' e₁.bracketed q e₂ p) e ts e'
      rest := by
  obtain ⟨w, hw, hecho⟩ := h.echo
  obtain ⟨w', hw', hecho'⟩ := h'.echo
  refine ⟨h'.valid, fun hlex => h'.lexical (h.lexical hlex), w ++ w', ?_, fun k p hp => ?_⟩
  · rw [hw', hw, List.append_assoc]
  · obtain ⟨hread', hagree'⟩ := hecho' k p hp
    obtain ⟨hread, hagree⟩ := hecho k (w' ++ p) hagree'
    rw [List.append_assoc]
    exact ⟨⟨w' ++ p, hread, hread'⟩, hagree⟩

structure ListAgain (read : List Token → List Expr → List Token → Prop) (close : Punct)
    (ts : List Token) (es : List Expr) (rest : List Token) : Prop where
  valid : AllValid rest
  lexical : ∀ e ∈ es, e.Lexical
  echo : ∀ k p, Agree k (.punct close :: rest) (.punct close :: p) →
    read (commaList (es.map tokens) ++ .punct close :: p) (es.map bracketed) p ∧
      Near k ts (commaList (es.map tokens) ++ .punct close :: p)

def initializerTokens (ms : List Initializer) : List (List Token) :=
  ms.map fun m => valueTokens m.name m.value.tokens

def bracketedAll (ms : List Initializer) : List Initializer :=
  ms.map fun m => ⟨m.name, m.value.bracketed⟩

structure Assigned (ms : List Initializer) : Prop where
  own : ∀ t ∈ ms.filterMap fun m => m.name.map Token.ident, t.Valid
  values : ∀ e ∈ ms.map (·.value), e.Lexical

def Ready (left : Expr) (ts : List Token) : Prop :=
  ∀ t more op, ts = t :: more → binaryOp? t = some op →
    (if op.groupsRight then op.precedence + 1 else op.precedence) ≤ left.power

def echoing : Relation where
  expression ts e rest := e.Holeless → AllValid ts →
    Again reads.expression ts e rest (fun _ => True) ∧ Final rest
  binary least ts e rest := e.Holeless → AllValid ts →
    Again (reads.binary least) ts e rest (fun _ => True) ∧ NoTrailer rest ∧ OpsBelow least rest ∧
      (least ≤ unaryPower → least ≤ e.power)
  binaryRest least left ts e rest := (e.Holeless → left.Holeless) ∧
    (e.Holeless → AllValid ts → NoTrailer ts → Ready left ts →
      Further (reads.binaryRest least) left ts e rest ∧ NoTrailer rest ∧ OpsBelow least rest ∧
        (least ≤ left.power → least ≤ e.power))
  unary ts e rest := e.Holeless → AllValid ts →
    Again reads.unary ts e rest (fun p => ts.head? = p.head?) ∧ NoTrailer rest ∧
      unaryPower ≤ e.power
  trailers e ts e' rest := (e'.Holeless → e.Holeless) ∧
    (e'.Holeless → AllValid ts → e.power = primaryPower →
      Further reads.trailers e ts e' rest ∧ NoTrailer rest ∧ e'.power = primaryPower)
  items close ts es rest := close = .closeParen ∨ close = .closeBracket → (∀ e ∈ es, e.Holeless) →
    AllValid ts → ListAgain (reads.items close) close ts es rest
  someItems close ts es rest := close = .closeParen ∨ close = .closeBracket →
    (∀ e ∈ es, e.Holeless) → AllValid ts →
      ListAgain (reads.someItems close) close ts es rest ∧ es ≠ []
  memberTrailer e optional ts e' rest := (e'.Holeless → e.Holeless) ∧
    (e'.Holeless → AllValid ts → e.power = primaryPower →
      Further reads.trailers e (.punct (if optional then .questionDot else .dot) :: ts) e' rest ∧
        NoTrailer rest ∧ e'.power = primaryPower)
  genericCall e ts e' rest := (e'.Holeless → e.Holeless) ∧
    (e'.Holeless → AllValid ts → e.power = primaryPower →
      Further reads.genericCall e ts e' rest ∧ e'.power = primaryPower)
  primary ts e rest := e.Holeless → AllValid ts →
    Again reads.primary ts e rest (Front ts) ∧ e.power = primaryPower
  holes _ _ := True
  creation ts e rest := e.Holeless → AllValid ts →
    Again reads.primary (.ident "new" :: ts) e rest (Front (.ident "new" :: ts)) ∧
      e.power = primaryPower
  initializers ts ms rest := (∀ e ∈ ms.map (·.value), e.Holeless) → AllValid ts →
    AllValid rest ∧ Assigned ms ∧ ∀ k p,
      reads.initializers (commaList (initializerTokens ms) ++ .punct .closeBrace :: p)
        (bracketedAll ms) p ∧
      Near k ts (commaList (initializerTokens ms) ++ .punct .closeBrace :: p)
  moreInitializers ts ms rest := (∀ e ∈ ms.map (·.value), e.Holeless) → AllValid ts →
    AllValid rest ∧ Assigned ms ∧ ∀ k p,
      reads.moreInitializers (commaTail (initializerTokens ms) ++ .punct .closeBrace :: p)
        (bracketedAll ms) p ∧
      Agree k ts (commaTail (initializerTokens ms) ++ .punct .closeBrace :: p)

theorem echo_lambda {ts : List Token} {header : List String × List Token} {body : Expr}
    {rest : List Token} (hl : lambdaHeader ts = some header)
    (hbody : echoing.expression header.2 body rest) :
    echoing.expression ts (.lambda header.1 body) rest := by
  intro hplain hv
  obtain ⟨hnames, hv'⟩ := hv.lambdaHeader hl
  obtain ⟨hagain, hfinal⟩ := hbody (hplain.child (by simp [children])) hv'
  refine ⟨⟨hagain.valid, ?_, fun k p hp => ⟨?_, ?_, trivial⟩⟩, hfinal⟩
  · refine lexical_of (List.forall_mem_singleton.2 hagain.lexical) ?_ (List.forall_mem_nil _)
      ⟨rfl, rfl⟩
    intro t ht
    obtain ⟨n, hn, rfl⟩ := List.mem_map.1 ht
    exact hnames n hn
  · have hread := (hagain.echo k p hp).1
    have hblock : startsBlock (body.tokens ++ p) = false := by
      unfold startsBlock
      split
      · rename_i hbrace
        rw [hbrace] at hread
        exact absurd hread (not_expression_punct (by decide) rfl)
      · rfl
    have hheader := lambdaHeader_paramTokens header.1 (body.tokens ++ p)
    rw [tokens, bracketed, List.append_assoc]
    exact (reads_kept.lambda hheader hblock hread :)
  · have hsome : (lambdaHeader ts).isSome := by rw [hl]; rfl
    rw [tokens, List.append_assoc]
    by_cases hps : ∃ x, header.1 = [x]
    · obtain ⟨x, hx⟩ := hps
      rw [hx]
      exact .header hsome
    · obtain ⟨more, rfl⟩ : ∃ more, ts = .punct .openParen :: more := by
        revert hl
        fun_cases lambdaHeader ts with
        | case1 name rest =>
            rintro ⟨⟩
            exact absurd ⟨name, rfl⟩ hps
        | case2 more => exact fun _ => ⟨more, rfl⟩
        | case3 => simp
      rw [paramTokens]
      · exact .opened fun _ => hsome
      · exact fun x hx => hps ⟨x, hx⟩

/-- A branch of a conditional: a lambda is read from the parentheses that are printed around it. -/
theorem reads_branch {ts : List Token} {e : Expr} {rest : List Token}
    (h : Again reads.expression ts e rest fun _ => True) {k : Bool} {p : List Token}
    (hp : Agree k rest p) (hfinal : Final p) :
    reads.expression (wrapTokens e.isLambda e.tokens ++ p) (wrap e.isLambda e.bracketed) p := by
  cases e with
  | lambda ps b =>
      have hread := (h.echo true (.punct .closeParen :: p) (agree_shut rest p)).1
      rw [tokens, List.append_assoc] at hread
      have htrials := trials_paramTokens ps (b.tokens ++ .punct .closeParen :: p)
      rw [tokens]
      simpa [wrapTokens, wrap, isLambda] using reads_expression_of_unary htrials.2
        (reads_unary_paren hread htrials.1 hfinal.trailer) hfinal
  | _ => exact (h.echo k p hp).1

theorem echo_conditional {ts : List Token} {condition : Expr} {more : List Token}
    {whenTrue : Expr} {more' : List Token} {whenFalse : Expr} {rest : List Token}
    (hl : lambdaHeader ts = none)
    (hc : echoing.binary 1 ts condition (.punct .question :: more))
    (ht : echoing.expression more whenTrue (.punct .colon :: more'))
    (hf : echoing.expression more' whenFalse rest) :
    echoing.expression ts (.conditional condition whenTrue whenFalse) rest := by
  intro hplain hv
  obtain ⟨hcagain, -, -, hpower⟩ := hc (hplain.child (by simp [children])) hv
  obtain ⟨htagain, htfinal⟩ := ht (hplain.child (by simp [children])) hcagain.valid.tail
  obtain ⟨hfagain, hfinal⟩ := hf (hplain.child (by simp [children])) htagain.valid.tail
  refine ⟨⟨hfagain.valid, ?_, fun k p hp => ?_⟩, hfinal⟩
  · refine lexical_of ?_ (List.forall_mem_nil _) (List.forall_mem_nil _) ⟨rfl, rfl⟩
    simp [children, hcagain.lexical, htagain.lexical, hfagain.lexical]
  · have hfread := reads_branch hfagain hp (hp.2.final hfinal)
    have hcolon : Agree k (.punct .colon :: more') (.punct .colon ::
        (wrapTokens whenFalse.isLambda whenFalse.tokens ++ p)) := agree_dead (by decide) _ _
    have htread := reads_branch htagain hcolon (hcolon.2.final htfinal)
    have hquestion : Agree k (.punct .question :: more) (.punct .question ::
        (wrapTokens whenTrue.isLambda whenTrue.tokens ++ .punct .colon ::
          (wrapTokens whenFalse.isLambda whenFalse.tokens ++ p))) := by
      cases hlambda : whenTrue.isLambda with
      | true => exact ⟨.wrapped, .inl rfl⟩
      | false => exact agree_same rfl (htagain.echo k _ hcolon).2.1
    obtain ⟨hcread, hnear, -⟩ := hcagain.echo k _ hquestion
    have hheader := lambdaHeader_eq_none_of_near hnear hl
    have hle := hpower (by decide)
    rw [tokens, bracketed, wrapTokens_of_le hle, wrap_of_le hle]
    simp only [List.append_assoc, List.cons_append]
    exact ⟨reads_kept.conditional hheader hcread htread hfread, hnear, trivial⟩

theorem echo_noConditional {ts : List Token} {e : Expr} {rest : List Token}
    (hl : lambdaHeader ts = none) (he : echoing.binary 1 ts e rest)
    (hrest : ∀ more, rest ≠ .punct .question :: more) : echoing.expression ts e rest := by
  intro hplain hv
  obtain ⟨hagain, htrailer, hops, -⟩ := he hplain hv
  refine ⟨⟨hagain.valid, hagain.lexical, fun k p hp => ?_⟩, htrailer, hops, hrest⟩
  obtain ⟨hread, hnear, -⟩ := hagain.echo k p hp
  refine ⟨reads_kept.noConditional (lambdaHeader_eq_none_of_near hnear hl) hread ?_, hnear, trivial⟩
  exact hp.2.ne_of_ne (by decide) (by decide) hrest

theorem echo_operands {least : Nat} {ts : List Token} {left : Expr} {more : List Token} {e : Expr}
    {rest : List Token} (hleft : echoing.unary ts left more)
    (he : echoing.binaryRest least left more e rest) : echoing.binary least ts e rest := by
  intro hplain hv
  obtain ⟨hagain, htrailer, hpower⟩ := hleft (he.1 hplain) hv
  have hready : Ready left more := by
    intro t more op _ _
    refine Nat.le_trans ?_ hpower
    cases op <;> decide
  obtain ⟨hfurther, htrailer', hops, hpower'⟩ := he.2 hplain hagain.valid htrailer hready
  have hall := hagain.further hfurther
  refine ⟨⟨hall.valid, hall.lexical, fun k p hp => ?_⟩, htrailer', hops,
    fun hle => hpower' (Nat.le_trans hle hpower)⟩
  obtain ⟨⟨q, hread, hrest⟩, hnear, -⟩ := hall.echo k p hp
  exact ⟨reads_kept.operands hread hrest, hnear, trivial⟩

theorem echo_noOperator {least : Nat} {left : Expr} {ts : List Token} (hops : OpsBelow least ts) :
    echoing.binaryRest least left ts left ts := by
  refine ⟨id, fun _ hv htrailer _ => ⟨⟨hv, id, [], by simp, fun k p hp => ⟨?_, hp⟩⟩, htrailer, hops,
    id⟩⟩
  exact reads_kept.noOperator (hp.2.opsBelow hops)

theorem binaryOp?_eq_some_iff {t : Token} {op : BinaryOp} :
    binaryOp? t = some op ↔ t = .punct op.punct := by
  constructor
  · intro h
    unfold binaryOp? at h
    split at h <;> cases h <;> rfl
  · rintro rfl
    cases op <;> rfl

theorem precedence_cases (op : BinaryOp) :
    op.groupsRight = true ∧ op.precedence = 1 ∨
      op.groupsRight = false ∧ 2 ≤ op.precedence ∧ op.precedence ≤ 10 := by
  cases op <;> decide

/-- Behind its right operand, an operator is followed by one that it may be the left operand of. -/
theorem ready_binary {op : BinaryOp} {left right : Expr} {ts : List Token}
    (h : OpsBelow (rightLimit op) ts) : Ready (.binary op left right) ts := by
  intro t more op' hts hop'
  have hlt := h t more op' hts hop'
  have hop := precedence_cases op
  have hop' := precedence_cases op'
  rw [power]
  unfold rightLimit at hlt
  rcases hop with ⟨hr, hp⟩ | ⟨hr, hp⟩ <;> rcases hop' with ⟨hr', hp'⟩ | ⟨hr', hp'⟩ <;>
    simp only [hr, hr'] at hlt ⊢ <;> simp at hlt ⊢ <;> omega

theorem agree_operator {k : Bool} {op : BinaryOp} {s p : List Token} (h : Near k s p) :
    Agree k (.punct op.punct :: s) (.punct op.punct :: p) := by
  cases op with
  | lt | gt => exact agree_same rfl h
  | _ => exact agree_dead (by decide) s p

theorem echo_operator {least : Nat} {left : Expr} {t : Token} {ts : List Token} {op : BinaryOp}
    {right : Expr} {more : List Token} {e : Expr} {rest : List Token} (ho : binaryOp? t = some op)
    (hleast : least ≤ op.precedence) (hright : echoing.binary (rightLimit op) ts right more)
    (he : echoing.binaryRest least (.binary op left right) more e rest) :
    echoing.binaryRest least left (t :: ts) e rest := by
  refine ⟨fun hplain => (he.1 hplain).child (by simp [children]), fun hplain hv _ hready => ?_⟩
  obtain ⟨hagain, htrailer, hops, hpower⟩ :=
    hright ((he.1 hplain).child (by simp [children])) hv.tail
  have hleft : (if op.groupsRight then op.precedence + 1 else op.precedence) ≤ left.power :=
    hready t ts op rfl ho
  have hright : (if op.groupsRight then op.precedence else op.precedence + 1) ≤ right.power :=
    hpower (by cases op <;> decide)
  obtain ⟨hfurther, htrailer', hops', hpower'⟩ :=
    he.2 hplain hagain.valid htrailer (ready_binary hops)
  have htokens : (Expr.binary op left right).tokens =
      left.tokens ++ .punct op.punct :: right.tokens := by
    rw [tokens, wrapTokens_of_le hleft, wrapTokens_of_le hright]
  have hbracketed : (Expr.binary op left right).bracketed =
      Expr.binary op left.bracketed right.bracketed := by
    rw [bracketed, wrap_of_le hleft, wrap_of_le hright]
  refine ⟨⟨hfurther.valid, fun hlex => hfurther.lexical ?_, ?_⟩, htrailer', hops',
    fun _ => hpower' hleast⟩
  · refine lexical_of ?_ (List.forall_mem_nil _) (List.forall_mem_nil _) ⟨rfl, rfl⟩
    simp [children, hlex, hagain.lexical]
  · obtain ⟨w, hw, hecho⟩ := hfurther.echo
    refine ⟨.punct op.punct :: (right.tokens ++ w), ?_, fun k p hp => ?_⟩
    · rw [hw, htokens, List.append_assoc, List.cons_append]
    · obtain ⟨hrest, hagree⟩ := hecho k p hp
      obtain ⟨hread, hnear, -⟩ := hagain.echo k (w ++ p) hagree
      rw [hbracketed] at hrest
      rw [binaryOp?_eq_some_iff.1 ho, List.cons_append, List.append_assoc]
      exact ⟨reads_kept.operator (binaryOp?_eq_some_iff.2 rfl) hleast hread hrest,
        agree_operator hnear⟩

theorem unaryOp?_eq_some_iff {t : Token} {op : UnaryOp} :
    unaryOp? t = some op ↔ t = .punct op.punct := by
  constructor
  · intro h
    unfold unaryOp? at h
    split at h <;> cases h <;> rfl
  · rintro rfl
    cases op <;> rfl

theorem exists_sign_of_repeatsSign {op : UnaryOp} {e : Expr} (h : repeatsSign op e = true) :
    ∃ q w, e.tokens = .punct q :: w ∧ ∀ ts, lambdaHeader (.punct q :: ts) = none := by
  unfold repeatsSign at h
  split at h
  · exact ⟨.minus, _, by rw [tokens]; rfl, fun _ => rfl⟩
  · exact ⟨.plus, _, by rw [tokens]; rfl, fun _ => rfl⟩
  · cases h

theorem echo_prefixed {t : Token} {ts : List Token} {op : UnaryOp} {operand : Expr}
    {rest : List Token} (ho : unaryOp? t = some op) (he : echoing.unary ts operand rest) :
    echoing.unary (t :: ts) (.unary op operand) rest := by
  obtain rfl := unaryOp?_eq_some_iff.1 ho
  intro hplain hv
  obtain ⟨hagain, htrailer, hpower⟩ := he (hplain.child (by simp [children])) hv.tail
  refine ⟨⟨hagain.valid, ?_, fun k p hp => ?_⟩, htrailer, Nat.le_refl _⟩
  · exact lexical_of (List.forall_mem_singleton.2 hagain.lexical) (List.forall_mem_nil _)
      (List.forall_mem_nil _) ⟨rfl, rfl⟩
  · rw [tokens, bracketed]
    refine ⟨reads_kept.prefixed ho ?_, (agree_dead (by cases op <;> decide) _ _).1, rfl⟩
    cases hsign : repeatsSign op operand with
    | false =>
        rw [Bool.false_or, wrapTokens_of_le hpower, wrap_of_le hpower]
        exact (hagain.echo k p hp).1
    | true =>
        obtain ⟨q, w, hw, hheader⟩ := exists_sign_of_repeatsSign hsign
        have hread := (hagain.echo true (.punct .closeParen :: p) (agree_shut rest p)).1
        rw [hw] at hread
        have hinner := reads_expression_of_unary (hheader _) hread (final_closeParen p)
        simpa [wrapTokens, wrap, hw] using
          reads_unary_paren hinner castType?_eq_none_of_punct (hp.2.noTrailer htrailer)

theorem echo_cast {ts : List Token} {type : TypeExpr} {more : List Token} {operand : Expr}
    {rest : List Token} (hc : Found (castType? ts) type more)
    (he : echoing.unary more operand rest) :
    echoing.unary (.punct .openParen :: ts) (.cast type operand) rest := by
  obtain ⟨htype, hcast⟩ := found_castType?_iff.1 hc
  intro hplain hv
  obtain ⟨hreadable, hv', hprinted⟩ := printedTypes_kept.all.1 _ _ _ htype hv.tail
  obtain ⟨hagain, htrailer, hpower⟩ := he (hplain.child (by simp [children])) hv'.tail
  refine ⟨⟨hagain.valid, ?_, fun k p hp => ?_⟩, htrailer, Nat.le_refl _⟩
  · exact lexical_of (List.forall_mem_singleton.2 hagain.lexical) (List.forall_mem_nil _)
      (List.forall_mem_singleton.2 hreadable) ⟨rfl, rfl⟩
  · obtain ⟨hread, -, hhead⟩ := hagain.echo k p hp
    have hnear := hprinted false _ (agree_closed (.inl hhead)).1
    have hcast' : castMayPrecede type (operand.tokens ++ p) = true :=
      castMayPrecede_of_sameHead rfl (.inl hhead.symm) hcast
    have hfound := found_castType?_iff.2 ⟨type_tokens hreadable (by decide), hcast'⟩
    rw [tokens, bracketed, wrapTokens_of_le hpower, wrap_of_le hpower]
    simp only [List.append_assoc, List.cons_append]
    exact ⟨reads_kept.cast hfound hread, .opened fun h => lambdaParams_of_near hnear h, rfl⟩

theorem isIdent_bracketed (e : Expr) : isIdent e.bracketed = isIdent e := by
  cases e with
  | creation t as i => cases i <;> rw [bracketed] <;> rfl
  | _ => simp [bracketed, isIdent]

/-- Where no cast is read in the source, none is read in what is printed. -/
theorem Front.cast {t : Token} {ts p : List Token} (h : Front (t :: ts) p)
    (hcast : t = .punct .openParen → castType? ts = none) :
    ∃ p', p = t :: p' ∧ (t = .punct .openParen → castType? p' = none) := by
  obtain ⟨t, s', p', ⟨⟩, rfl, hnear⟩ := h
  exact ⟨p', rfl, fun ht => castType?_eq_none_of_near (hnear ht) (hcast ht)⟩

theorem echo_name {t : Token} {ts : List Token} {e : Expr} {more : List Token} {called : Expr}
    {more' : List Token} {e' : Expr} {rest : List Token} (ho : unaryOp? t = none)
    (hcast : t = .punct .openParen → castType? ts = none) (he : echoing.primary (t :: ts) e more)
    (hident : isIdent e = true) (hcall : echoing.genericCall e more called more')
    (htrailers : echoing.trailers called more' e' rest) : echoing.unary (t :: ts) e' rest := by
  intro hplain hv
  have hcalled := htrailers.1 hplain
  obtain ⟨hagain, hpower⟩ := he (hcall.1 hcalled) hv
  obtain ⟨hfurther, hpower'⟩ := hcall.2 hcalled hagain.valid hpower
  obtain ⟨hfurther', htrailer, hpower''⟩ := htrailers.2 hplain hfurther.valid hpower'
  have hall := hagain.further (hfurther.trans hfurther')
  refine ⟨⟨hall.valid, hall.lexical, fun k p hp => ?_⟩, htrailer, hpower'' ▸ by decide⟩
  obtain ⟨⟨q, hprimary, q', hread, hread'⟩, hnear, hfront⟩ := hall.echo k p hp
  obtain ⟨p', hp', hcast'⟩ := hfront.cast hcast
  rw [hp'] at hprimary hnear ⊢
  exact ⟨reads_kept.name ho hcast' hprimary (by rw [isIdent_bracketed, hident]) hread hread',
    hnear, rfl⟩

theorem echo_value {t : Token} {ts : List Token} {e : Expr} {more : List Token} {e' : Expr}
    {rest : List Token} (ho : unaryOp? t = none)
    (hcast : t = .punct .openParen → castType? ts = none) (he : echoing.primary (t :: ts) e more)
    (hident : isIdent e = false) (htrailers : echoing.trailers e more e' rest) :
    echoing.unary (t :: ts) e' rest := by
  intro hplain hv
  obtain ⟨hagain, hpower⟩ := he (htrailers.1 hplain) hv
  obtain ⟨hfurther, htrailer, hpower'⟩ := htrailers.2 hplain hagain.valid hpower
  have hall := hagain.further hfurther
  refine ⟨⟨hall.valid, hall.lexical, fun k p hp => ?_⟩, htrailer, hpower' ▸ by decide⟩
  obtain ⟨⟨q, hprimary, hread⟩, hnear, hfront⟩ := hall.echo k p hp
  obtain ⟨p', hp', hcast'⟩ := hfront.cast hcast
  rw [hp'] at hprimary hnear ⊢
  exact ⟨reads_kept.value ho hcast' hprimary (by rw [isIdent_bracketed, hident]) hread, hnear, rfl⟩

def Brackets (opener close : Punct) : Prop :=
  opener = .openParen ∧ close = .closeParen ∨
    (opener = .openBracket ∨ opener = .questionBracket) ∧ close = .closeBracket

theorem Brackets.close {opener close : Punct} (h : Brackets opener close) :
    close = .closeParen ∨ close = .closeBracket :=
  h.imp And.right And.right

/-- A list in brackets is read again, and agrees with the one that was read. -/
theorem ListAgain.access {read : List Token → List Expr → List Token → Prop}
    {opener close : Punct} (hb : Brackets opener close) {ts : List Token} {es : List Expr}
    {rest : List Token} (h : ListAgain read close ts es rest) {k : Bool} {p : List Token}
    (hp : Agree k rest p) :
    read (commaList (es.map tokens) ++ .punct close :: p) (es.map bracketed) p ∧
      Agree k (.punct opener :: ts)
        (.punct opener :: (commaList (es.map tokens) ++ .punct close :: p)) := by
  rcases hb with ⟨rfl, rfl⟩ | ⟨hopen, rfl⟩
  · obtain ⟨hread, hnear⟩ := h.echo false p (agree_closed hp.2)
    exact ⟨hread, .opened fun hs => lambdaParams_of_near hnear hs, .inl rfl⟩
  · obtain ⟨hread, hnear⟩ := h.echo k p (agree_same rfl hp.1)
    rcases hopen with rfl | rfl
    · exact ⟨hread, agree_same rfl hnear⟩
    · exact ⟨hread, agree_same rfl hnear⟩

structure Access (opener close : Punct) (make : Expr → List Expr → Expr) : Prop where
  brackets : Brackets opener close
  children : ∀ e as, (make e as).children = e :: as
  power : ∀ e as, (make e as).power = primaryPower
  tokens : ∀ {e as}, e.power = primaryPower → (make e as).tokens =
    e.tokens ++ .punct opener :: (commaList (as.map Expr.tokens) ++ [.punct close])
  bracketed : ∀ {e as}, e.power = primaryPower →
    (make e as).bracketed = make e.bracketed (as.map Expr.bracketed)
  spellable : ∀ e as, (make e as).Spellable .none
  read : ∀ {e ts args more e' rest}, reads.items close ts args more →
    reads.trailers (make e args) more e' rest → reads.trailers e (.punct opener :: ts) e' rest

theorem echo_access {opener close : Punct} {make : Expr → List Expr → Expr}
    (form : Access opener close make) {e : Expr} {ts : List Token} {args : List Expr}
    {more : List Token} {e' : Expr} {rest : List Token} (hitems : echoing.items close ts args more)
    (htrailers : echoing.trailers (make e args) more e' rest) :
    echoing.trailers e (.punct opener :: ts) e' rest := by
  have hchild : e ∈ (make e args).children := form.children e args ▸ List.mem_cons_self
  refine ⟨fun hplain => (htrailers.1 hplain).child hchild, fun hplain hv hpower => ?_⟩
  have hmade := htrailers.1 hplain
  have hlist := hitems form.brackets.close
    (fun a ha => hmade.child (form.children e args ▸ List.mem_cons_of_mem e ha)) hv.tail
  obtain ⟨hfurther, htrailer, hpower'⟩ :=
    htrailers.2 hplain hlist.valid (form.power e args)
  refine ⟨⟨hfurther.valid, fun hlex => hfurther.lexical (every_iff.2 ⟨form.spellable e args, ?_⟩),
    ?_⟩, htrailer, hpower'⟩
  · rw [form.children]
    exact List.forall_mem_cons.2 ⟨hlex, hlist.lexical⟩
  · obtain ⟨w, hw, hecho⟩ := hfurther.echo
    refine ⟨.punct opener :: (commaList (args.map tokens) ++ .punct close :: w), ?_,
      fun k p hp => ?_⟩
    · rw [hw, form.tokens hpower]
      simp
    · obtain ⟨hread, hagree⟩ := hecho k p hp
      obtain ⟨hargs, hagree'⟩ := hlist.access form.brackets hagree
      rw [form.bracketed hpower] at hread
      simp only [List.cons_append, List.append_assoc]
      exact ⟨form.read hargs hread, hagree'⟩

theorem access_call : Access .openParen .closeParen Expr.call where
  brackets := .inl ⟨rfl, rfl⟩
  children _ _ := rfl
  power _ _ := rfl
  tokens hpower := by
    rw [Expr.call, Expr.tokens, wrapTokens_of_le (Nat.le_of_eq hpower.symm)]
    rfl
  bracketed hpower := by
    rw [Expr.call, Expr.bracketed, wrap_of_le (Nat.le_of_eq hpower.symm)]
    rfl
  spellable _ _ := ⟨List.forall_mem_nil _, List.forall_mem_nil _, trivial, rfl⟩
  read hitems htrailers := reads_kept.call hitems htrailers

theorem access_index (optional : Bool) :
    Access (if optional then .questionBracket else .openBracket) .closeBracket
      (fun e as => .index e as optional) where
  brackets := by cases optional <;> exact .inr ⟨by decide, rfl⟩
  children _ _ := rfl
  power _ _ := rfl
  tokens hpower := by rw [Expr.tokens, wrapTokens_of_le (Nat.le_of_eq hpower.symm)]
  bracketed hpower := by rw [Expr.bracketed, wrap_of_le (Nat.le_of_eq hpower.symm)]
  spellable _ _ := ⟨List.forall_mem_nil _, List.forall_mem_nil _, trivial, rfl⟩
  read hitems htrailers := reads_kept.index hitems htrailers

theorem echo_noTrailer {e : Expr} {ts : List Token} (h : NoTrailer ts) :
    echoing.trailers e ts e ts := by
  refine ⟨id, fun _ hv hpower => ⟨⟨hv, id, [], by simp, fun k p hp => ⟨?_, hp⟩⟩, h, hpower⟩⟩
  exact reads_kept.noTrailer (hp.2.noTrailer h)

theorem echo_member {e : Expr} {optional : Bool} {name : String} {ts : List Token} {called : Expr}
    {more : List Token} {e' : Expr} {rest : List Token}
    (hcall : echoing.genericCall (.member e name optional) ts called more)
    (htrailers : echoing.trailers called more e' rest) :
    echoing.memberTrailer e optional (.ident name :: ts) e' rest := by
  refine ⟨fun hplain => (hcall.1 (htrailers.1 hplain)).child (by simp [children]),
    fun hplain hv hpower => ?_⟩
  have hle := Nat.le_of_eq hpower.symm
  obtain ⟨hfurther, hpower'⟩ := hcall.2 (htrailers.1 hplain) hv.tail rfl
  obtain ⟨hfurther', htrailer, hpower''⟩ := htrailers.2 hplain hfurther.valid hpower'
  have hall := hfurther.trans hfurther'
  refine ⟨⟨hall.valid, fun hlex => hall.lexical ?_, ?_⟩, htrailer, hpower''⟩
  · exact lexical_of (List.forall_mem_singleton.2 hlex)
      (List.forall_mem_singleton.2 (hv _ List.mem_cons_self)) (List.forall_mem_nil _) ⟨rfl, rfl⟩
  · obtain ⟨w, hw, hecho⟩ := hall.echo
    refine ⟨.punct (if optional then .questionDot else .dot) :: .ident name :: w, ?_,
      fun k p hp => ?_⟩
    · rw [hw, tokens, wrapTokens_of_le hle]
      simp
    · obtain ⟨⟨q, hread, hread'⟩, hagree⟩ := hecho k p hp
      rw [bracketed, wrap_of_le hle] at hread
      have hmember := reads_kept.member hread hread'
      simp only [List.cons_append]
      refine ⟨reads_kept.access hmember, ?_⟩
      cases optional with
      | false => exact agree_same rfl (.same rfl hagree.1)
      | true => exact agree_dead (by decide) _ _

theorem echo_noTypeArgs {e : Expr} {ts : List Token} (h : callTypeArgs? ts = none) :
    echoing.genericCall e ts e ts := by
  refine ⟨id, fun _ hv hpower => ⟨⟨hv, id, [], by simp, fun k p hp => ⟨?_, hp⟩⟩, hpower⟩⟩
  exact reads_kept.noTypeArgs (callTypeArgs?_eq_none_of_near hp.1 h)

theorem echo_typeArgs {e : Expr} {ts : List Token} {typeArgs : List TypeExpr} {more : List Token}
    {args : List Expr} {rest : List Token} (ht : Found (callTypeArgs? ts) typeArgs more)
    (hitems : echoing.items .closeParen more args rest) :
    echoing.genericCall e ts (.invoke e typeArgs args) rest := by
  obtain ⟨ts, rfl, hread⟩ := found_callTypeArgs?_iff.1 ht
  refine ⟨fun hplain => hplain.child (by simp [children]), fun hplain hv hpower => ?_⟩
  have hle := Nat.le_of_eq hpower.symm
  obtain ⟨hreadable, hv', hne, hprinted⟩ := printedTypes_kept.all.2 _ _ _ hread hv.tail
  have hlist := hitems (.inl rfl) (fun a ha => hplain.child (by simp [children, ha])) hv'.tail
  refine ⟨⟨hlist.valid, fun hlex => ?_, ?_⟩, rfl⟩
  · exact lexical_of (List.forall_mem_cons.2 ⟨hlex, hlist.lexical⟩) (List.forall_mem_nil _)
      hreadable ⟨rfl, rfl⟩
  · cases typeArgs with
    | nil => exact absurd rfl hne
    | cons t us =>
        refine ⟨_, by rw [tokens, wrapTokens_of_le hle], fun k p hp => ?_⟩
        obtain ⟨hargs, hagree⟩ := hlist.access (.inl ⟨rfl, rfl⟩) hp
        have htypes := list_tokens (fun u hu => readsBack_of_readable (hreadable u hu))
          (.punct .openParen :: (commaList (args.map tokens) ++ .punct .closeParen :: p))
        have hfound := found_callTypeArgs?_iff.2 ⟨_, rfl, htypes⟩
        have hnear := hprinted k _ hagree.1
        rw [bracketed, wrap_of_le hle]
        simp only [typeArgTokens, TypeExpr.listTokens, List.cons_append, List.append_assoc,
          List.nil_append] at hnear ⊢
        exact ⟨reads_kept.typeArgs hfound hargs, agree_same rfl hnear⟩

theorem echo_noItems {close : Punct} {ts : List Token} :
    echoing.items close (.punct close :: ts) [] ts := by
  intro _ _ hv
  exact ⟨hv.tail, (List.forall_mem_nil _), fun k p hp => ⟨reads_kept.noItems, hp.1⟩⟩

theorem echo_items {close : Punct} {ts : List Token} {es : List Expr} {rest : List Token}
    (h : echoing.someItems close ts es rest) : echoing.items close ts es rest := by
  intro hclose hplain hv
  obtain ⟨hlist, -⟩ := h hclose hplain hv
  refine ⟨hlist.valid, hlist.lexical, fun k p hp => ?_⟩
  obtain ⟨hread, hnear⟩ := hlist.echo k p hp
  refine ⟨reads_kept.items (fun more hmore => ?_) hread, hnear⟩
  rw [hmore] at hread
  rcases hclose with rfl | rfl
  · exact not_someItems_punct (by decide) rfl hread
  · exact not_someItems_punct (by decide) rfl hread

theorem echo_lastItem {close : Punct} {ts : List Token} {e : Expr} {rest : List Token}
    (he : echoing.expression ts e (.punct close :: rest)) :
    echoing.someItems close ts [e] rest := by
  intro _ hplain hv
  obtain ⟨hagain, -⟩ := he (hplain e List.mem_cons_self) hv
  refine ⟨⟨hagain.valid.tail, List.forall_mem_singleton.2 hagain.lexical, fun k p hp => ?_⟩,
    (by simp)⟩
  obtain ⟨hread, hnear, -⟩ := hagain.echo k _ hp
  simp only [List.map_cons, List.map_nil, commaList, commaTail, List.append_nil]
  exact ⟨reads_kept.lastItem hread, hnear⟩

theorem echo_nextItem {close : Punct} {ts : List Token} {e : Expr} {more : List Token}
    {es : List Expr} {rest : List Token} (hc : close ≠ .comma)
    (he : echoing.expression ts e (.punct .comma :: more))
    (hes : echoing.someItems close more es rest) : echoing.someItems close ts (e :: es) rest := by
  intro hclose hplain hv
  obtain ⟨hagain, -⟩ := he (hplain e List.mem_cons_self) hv
  obtain ⟨hlist, hne⟩ :=
    hes hclose (fun a ha => hplain a (List.mem_cons_of_mem e ha)) hagain.valid.tail
  refine ⟨⟨hlist.valid, List.forall_mem_cons.2 ⟨hagain.lexical, hlist.lexical⟩, fun k p hp => ?_⟩,
    nofun⟩
  obtain ⟨hread, hnear⟩ := hlist.echo k p hp
  cases es with
  | nil => exact absurd rfl hne
  | cons e' es =>
      obtain ⟨hfirst, hnear', -⟩ := hagain.echo k _ (agree_same rfl hnear)
      simp only [List.map_cons, commaList, commaTail, List.cons_append, List.append_assoc]
        at hread hfirst hnear' ⊢
      exact ⟨reads_kept.nextItem hc hfirst hread, hnear'⟩

/-- A word or literal that is an expression by itself. -/
theorem echo_leaf {t : Token} {e : Expr} (hread : ∀ p, reads.primary (t :: p) e p)
    (htokens : e.tokens = [t]) (hchildren : e.children = []) (hpower : e.power = primaryPower)
    (hspell : t.Valid → e.Spellable .none) (ht : t ≠ .punct .openParen) {ts : List Token}
    (hnear : ∀ k p, Near k ts p → Near k (t :: ts) (t :: p)) :
    echoing.primary (t :: ts) e ts := by
  intro _ hv
  refine ⟨⟨hv.tail, ?_, fun k p hp => ?_⟩, hpower⟩
  · refine every_iff.2 ⟨hspell (hv t List.mem_cons_self), ?_⟩
    rw [hchildren]
    exact List.forall_mem_nil _
  · rw [htokens, bracketed_of_children_nil hchildren]
    exact ⟨hread p, hnear k p hp.1, t, ts, p, rfl, rfl, fun h => absurd h ht⟩

theorem echo_ident_leaf {word : String} {e : Expr}
    (hread : ∀ p, reads.primary (.ident word :: p) e p) (htokens : e.tokens = [.ident word])
    (hchildren : e.children = []) (hpower : e.power = primaryPower)
    (hspell : IsName word → e.Spellable .none) {ts : List Token} :
    echoing.primary (.ident word :: ts) e ts :=
  echo_leaf hread htokens hchildren hpower hspell (by simp) fun _ _ h => .same rfl h

theorem echo_literal (value : Literal) {ts : List Token} :
    echoing.primary (value.token :: ts) (.literal value) ts := by
  refine echo_leaf (fun _ => reads_kept.literal value) (by rw [tokens]) rfl rfl
    (fun hv => ⟨List.forall_mem_singleton.2 hv, List.forall_mem_nil _, trivial, rfl⟩)
    (value.token_ne.1 _) fun k p hp => ?_
  cases value with
  | null => exact .same rfl hp
  | bool b => cases b <;> exact .same rfl hp
  | _ => exact (agree_dead ⟨rfl, (by rintro ⟨⟩), (by rintro ⟨⟩)⟩ ts p).1

theorem echo_this {ts : List Token} : echoing.primary (.ident "this" :: ts) .this ts :=
  echo_ident_leaf (fun _ => reads_kept.receiver) (by rw [tokens]) rfl rfl fun _ =>
    ⟨List.forall_mem_nil _, List.forall_mem_nil _, trivial, rfl⟩

theorem echo_ident {word : String} {ts : List Token} (hw : wordValue? word = none)
    (hn : word ≠ "new") (hd : word ≠ "default") :
    echoing.primary (.ident word :: ts) (.ident word) ts :=
  echo_ident_leaf (fun _ => reads_kept.ident hw hn hd) (by rw [tokens]) rfl rfl
    fun hname => ⟨List.forall_mem_singleton.2 hname, (List.forall_mem_nil _), trivial, rfl⟩

theorem echo_typedDefault {ts : List Token} {t : TypeExpr} {rest : List Token}
    (ht : (type ts).Is t (.punct .closeParen :: rest)) :
    echoing.primary (.ident "default" :: .punct .openParen :: ts) (.defaultValue (some t))
      rest := by
  intro _ hv
  obtain ⟨hreadable, hv', hprinted⟩ := printedTypes_kept.all.1 _ _ _ ht hv.tail.tail
  refine ⟨⟨hv'.tail, ?_, fun k p hp => ?_⟩, rfl⟩
  · exact lexical_of (List.forall_mem_nil _) (List.forall_mem_nil _)
      (List.forall_mem_singleton.2 hreadable) ⟨rfl, rfl⟩
  · have hnear := hprinted false _ (agree_closed hp.2).1
    rw [tokens, bracketed_of_children_nil rfl]
    simp only [List.append_assoc, List.cons_append, List.nil_append]
    refine ⟨reads_kept.typedDefault (type_tokens hreadable (by decide)), .same rfl (.opened ?_),
      _, _, _, rfl, rfl, (by simp)⟩
    exact fun h => lambdaParams_of_near hnear h

theorem echo_default {ts : List Token} (h : ∀ more, ts ≠ .punct .openParen :: more) :
    echoing.primary (.ident "default" :: ts) (.defaultValue none) ts := by
  intro _ hv
  refine ⟨⟨hv.tail, lexical_of (List.forall_mem_nil _) (List.forall_mem_nil _)
    (List.forall_mem_nil _) ⟨rfl, rfl⟩, fun k p hp => ?_⟩, rfl⟩
  rw [tokens, bracketed_of_children_nil rfl]
  refine ⟨reads_kept.default ?_, .same rfl hp.1, _, _, _, rfl, rfl, (by simp)⟩
  exact hp.2.ne_of_ne (by decide) (by decide) h

theorem echo_paren {ts : List Token} {e : Expr} {rest : List Token}
    (he : echoing.expression ts e (.punct .closeParen :: rest)) :
    echoing.primary (.punct .openParen :: ts) (.paren e) rest := by
  intro hplain hv
  obtain ⟨hagain, -⟩ := he (hplain.child (by simp [children])) hv.tail
  refine ⟨⟨hagain.valid.tail, ?_, fun k p hp => ?_⟩, rfl⟩
  · exact lexical_of (List.forall_mem_singleton.2 hagain.lexical) (List.forall_mem_nil _)
      (List.forall_mem_nil _) ⟨rfl, rfl⟩
  · obtain ⟨hread, hnear, -⟩ := hagain.echo false _ (agree_closed hp.2)
    rw [tokens, bracketed]
    simp only [List.append_assoc, List.cons_append, List.nil_append]
    exact ⟨reads_kept.paren hread, .opened fun h => lambdaParams_of_near hnear h,
      _, _, _, rfl, rfl, fun _ => hnear⟩

/-- An object is read again with the word `new`, once what stands behind the word is. -/
theorem again_creation {ts : List Token} {e : Expr} {rest w : List Token} (hvalid : AllValid rest)
    (hlexical : e.Lexical) (hw : e.tokens = .ident "new" :: w)
    (hecho : ∀ k p, Agree k rest p → reads.creation (w ++ p) e.bracketed p ∧ Near k ts (w ++ p)) :
    Again reads.primary (.ident "new" :: ts) e rest (Front (.ident "new" :: ts)) := by
  refine ⟨hvalid, hlexical, fun k p hp => ?_⟩
  obtain ⟨hread, hnear⟩ := hecho k p hp
  rw [hw, List.cons_append]
  exact ⟨reads_kept.creation hread, .same rfl hnear, _, _, _, rfl, rfl, (by simp)⟩

theorem echo_anonymous {ts : List Token} {members : List Initializer} {rest : List Token}
    (hm : echoing.initializers ts members rest) :
    echoing.creation (.punct .openBrace :: ts) (.anonymous members) rest := by
  intro hplain hv
  obtain ⟨hvalid, hassigned, hecho⟩ := hm (fun e he => hplain.child he) hv.tail
  have hlexical := lexical_of (e := .anonymous members) hassigned.values hassigned.own
    (List.forall_mem_nil _) ⟨rfl, rfl⟩
  refine ⟨again_creation hvalid hlexical (by rw [tokens]) fun k p hp => ?_, rfl⟩
  rw [bracketed]
  simp only [List.cons_append, List.append_assoc, List.nil_append]
  exact ⟨reads_kept.anonymous (hecho k p).1, (agree_dead (by decide) _ _).1⟩

theorem echo_constructed {ts : List Token} {t : TypeExpr} {more : List Token} {args : List Expr}
    {rest : List Token} (ht : (type ts).Is t (.punct .openParen :: more))
    (ha : echoing.items .closeParen more args rest)
    (hrest : ∀ more, rest ≠ .punct .openBrace :: more) :
    echoing.creation ts (.creation t args none) rest := by
  intro hplain hv
  obtain ⟨hreadable, hv', hprinted⟩ := printedTypes_kept.all.1 _ _ _ ht hv
  have hlist := ha (.inl rfl) (fun e he => hplain.child he) hv'.tail
  have hlexical := lexical_of (e := .creation t args none) hlist.lexical (List.forall_mem_nil _)
    (List.forall_mem_singleton.2 hreadable) ⟨rfl, rfl⟩
  refine ⟨again_creation hlist.valid hlexical (by rw [tokens]) fun k p hp => ?_, rfl⟩
  obtain ⟨hargs, hagree⟩ := hlist.access (.inl ⟨rfl, rfl⟩) hp
  rw [bracketed]
  simp only [List.cons_append, List.append_assoc, List.nil_append]
  refine ⟨reads_kept.constructed (type_tokens hreadable (by decide)) hargs ?_,
    hprinted k _ hagree.1⟩
  exact hp.2.ne_of_ne (by decide) (by decide) hrest

/-- Empty parentheses before the braces are not printed. -/
theorem echo_initialized {ts : List Token} {t : TypeExpr} {q : Punct} {more more' : List Token}
    {members : List Initializer} {rest : List Token} (ht : (type ts).Is t (.punct q :: more))
    (hv' : AllValid more → AllValid more') (hm : echoing.initializers more' members rest) :
    echoing.creation ts (.creation t [] (some members)) rest := by
  intro hplain hv
  obtain ⟨hreadable, hmore, hprinted⟩ := printedTypes_kept.all.1 _ _ _ ht hv
  obtain ⟨hvalid, hassigned, hecho⟩ := hm (fun e he => hplain.child he) (hv' hmore.tail)
  have hlexical := lexical_of (e := .creation t [] (some members)) hassigned.values hassigned.own
    (List.forall_mem_singleton.2 hreadable) ⟨rfl, rfl⟩
  refine ⟨again_creation hvalid hlexical (by rw [tokens]) fun k p hp => ?_, rfl⟩
  rw [bracketed]
  simp only [List.cons_append, List.append_assoc, List.nil_append]
  refine ⟨reads_kept.initialized (type_tokens hreadable (by decide)) (hecho k p).1,
    hprinted k _ (.dead ?_ (.inr (.inl rfl)))⟩
  rintro _ ⟨⟩
  decide

theorem echo_constructedWith {ts : List Token} {t : TypeExpr} {more : List Token}
    {args : List Expr} {more' : List Token} {members : List Initializer} {rest : List Token}
    (ht : (type ts).Is t (.punct .openParen :: more))
    (ha : echoing.items .closeParen more args (.punct .openBrace :: more'))
    (hm : echoing.initializers more' members rest) :
    echoing.creation ts (.creation t args (some members)) rest := by
  cases args with
  | nil =>
      exact echo_initialized ht
        (fun hv => (ha (.inl rfl) (List.forall_mem_nil _) hv).valid.tail) hm
  | cons a as =>
      intro hplain hv
      obtain ⟨hreadable, hmore, hprinted⟩ := printedTypes_kept.all.1 _ _ _ ht hv
      have hlist := ha (.inl rfl) (fun e he => hplain.child (List.mem_append_left _ he)) hmore.tail
      obtain ⟨hvalid, hassigned, hecho⟩ :=
        hm (fun e he => hplain.child (List.mem_append_right _ he)) hlist.valid.tail
      have hlexical := lexical_of (e := .creation t (a :: as) (some members))
        (List.forall_mem_append.2 ⟨hlist.lexical, hassigned.values⟩) hassigned.own
        (List.forall_mem_singleton.2 hreadable) ⟨rfl, rfl⟩
      refine ⟨again_creation hvalid hlexical (by rw [tokens]) fun k p hp => ?_, rfl⟩
      have hbrace : Agree k (.punct .openBrace :: more') (.punct .openBrace ::
          (commaList (initializerTokens members) ++ .punct .closeBrace :: p)) :=
        agree_dead (by decide) _ _
      obtain ⟨hargs, hagree⟩ := hlist.access (.inl ⟨rfl, rfl⟩) hbrace
      rw [bracketed]
      simp only [List.cons_append, List.append_assoc, List.nil_append]
      exact ⟨reads_kept.constructedWith (type_tokens hreadable (by decide)) hargs (hecho k p).1,
        hprinted k _ hagree.1⟩

theorem echo_noInitializers {ts : List Token} :
    echoing.initializers (.punct .closeBrace :: ts) [] ts := by
  intro _ hv
  refine ⟨hv.tail, ⟨List.forall_mem_nil _, List.forall_mem_nil _⟩,
    fun k p => ⟨reads_kept.noInitializers, ?_⟩⟩
  exact (agree_dead (by decide) _ _).1

theorem echo_named {name : String} {ts : List Token} {value : Expr} {more : List Token}
    {members : List Initializer} {rest : List Token} (hvalue : echoing.expression ts value more)
    (hm : echoing.moreInitializers more members rest) :
    echoing.initializers (.ident name :: .punct .assign :: ts) (.named name value :: members)
      rest := by
  intro hplain hv
  obtain ⟨hagain, -⟩ := hvalue (hplain _ List.mem_cons_self) hv.tail.tail
  obtain ⟨hvalid, hassigned, hecho⟩ :=
    hm (fun e he => hplain e (List.mem_cons_of_mem _ he)) hagain.valid
  refine ⟨hvalid, ⟨?_, ?_⟩, fun k p => ?_⟩
  · exact List.forall_mem_cons.2 ⟨hv _ List.mem_cons_self, hassigned.own⟩
  · exact List.forall_mem_cons.2 ⟨hagain.lexical, hassigned.values⟩
  · obtain ⟨hmore, hagree⟩ := hecho k p
    obtain ⟨hread, -, -⟩ := hagain.echo k _ hagree
    have htokens : commaList (initializerTokens (.named name value :: members)) ++
        .punct .closeBrace :: p = .ident name :: .punct .assign :: (value.tokens ++
          (commaTail (initializerTokens members) ++ .punct .closeBrace :: p)) := by
      simp [initializerTokens, commaList, valueTokens, Initializer.named]
    rw [htokens]
    exact ⟨reads_kept.named hread hmore, .same rfl (agree_dead (by decide) _ _).1⟩

theorem echo_bare {ts : List Token} {value : Expr} {more : List Token}
    {members : List Initializer} {rest : List Token}
    (hassign : ∀ name more, ts ≠ .ident name :: .punct .assign :: more)
    (hvalue : echoing.expression ts value more)
    (hm : echoing.moreInitializers more members rest) :
    echoing.initializers ts (.bare value :: members) rest := by
  intro hplain hv
  obtain ⟨hagain, -⟩ := hvalue (hplain _ List.mem_cons_self) hv
  obtain ⟨hvalid, hassigned, hecho⟩ :=
    hm (fun e he => hplain e (List.mem_cons_of_mem _ he)) hagain.valid
  refine ⟨hvalid, ⟨hassigned.own, ?_⟩, fun k p => ?_⟩
  · exact List.forall_mem_cons.2 ⟨hagain.lexical, hassigned.values⟩
  · obtain ⟨hmore, hagree⟩ := hecho k p
    obtain ⟨hread, hnear, -⟩ := hagain.echo k _ hagree
    have htokens : commaList (initializerTokens (.bare value :: members)) ++
        .punct .closeBrace :: p = value.tokens ++
          (commaTail (initializerTokens members) ++ .punct .closeBrace :: p) := by
      simp [initializerTokens, commaList, valueTokens, Initializer.bare]
    rw [htokens]
    refine ⟨reads_kept.bare (fun behind hbrace => ?_) (fun name behind hname => ?_) hread hmore,
      hnear⟩
    · rw [hbrace] at hread
      exact not_expression_punct (by decide) rfl hread
    · rw [hname] at hnear
      obtain ⟨more', hts⟩ := hnear.assign
      exact hassign name more' hts

/-- A comma before the closing brace is not printed. -/
theorem echo_comma {ts : List Token} {members : List Initializer} {rest : List Token}
    (hm : echoing.initializers ts members rest) :
    echoing.moreInitializers (.punct .comma :: ts) members rest := by
  intro hplain hv
  obtain ⟨hvalid, hassigned, hecho⟩ := hm hplain hv.tail
  refine ⟨hvalid, hassigned, fun k p => ?_⟩
  cases members with
  | nil =>
      refine ⟨reads_kept.endInitializers, .dead ?_ (.inr (.inr rfl)), .inr (.inl ⟨rfl, rfl⟩)⟩
      rintro _ ⟨⟩
      decide
  | cons m ms =>
      obtain ⟨hread, hnear⟩ := hecho k p
      exact ⟨reads_kept.comma hread, agree_same rfl hnear⟩

theorem echo_endInitializers {ts : List Token} :
    echoing.moreInitializers (.punct .closeBrace :: ts) [] ts := by
  intro _ hv
  refine ⟨hv.tail, ⟨List.forall_mem_nil _, List.forall_mem_nil _⟩,
    fun k p => ⟨reads_kept.endInitializers, ?_⟩⟩
  exact agree_dead (by decide) _ _

theorem echoing_kept : echoing.Kept where
  lambda hl _ h := echo_lambda hl h
  conditional := echo_conditional
  noConditional := echo_noConditional
  operands := echo_operands
  noOperator := echo_noOperator
  operator := echo_operator
  prefixed := echo_prefixed
  cast := echo_cast
  name := echo_name
  value := echo_value
  access h := ⟨h.1, fun hplain hv => h.2 hplain hv.tail⟩
  call := echo_access access_call
  index := echo_access (access_index _)
  noTrailer := echo_noTrailer
  member := echo_member
  noTypeArgs := echo_noTypeArgs
  typeArgs := echo_typeArgs
  noItems := echo_noItems
  items _ h := echo_items h
  lastItem := echo_lastItem
  nextItem := echo_nextItem
  literal value := echo_literal value
  receiver := echo_this
  creation h := fun hplain hv => h hplain hv.tail
  typedDefault := echo_typedDefault
  default := echo_default
  ident := echo_ident
  interpolated _ hplain := absurd hplain.self (by simp [isInterpolated])
  paren := echo_paren
  noSegments := trivial
  text _ := trivial
  hole _ _ _ := trivial
  anonymous := echo_anonymous
  constructed := echo_constructed
  constructedWith := echo_constructedWith
  initialized ht hm := echo_initialized ht id hm
  noInitializers := echo_noInitializers
  named := echo_named
  bare _ := echo_bare
  comma := echo_comma
  endInitializers := echo_endInitializers

/-- What is read from the tokens of a source is read again from its own tokens, with the printer's
parentheses as nodes. -/
theorem echo_of_expression {ts : List Token} {e : Expr} (hv : AllValid ts) (hplain : e.Holeless)
    (h : (expression ts).Is e []) :
    e.Lexical ∧ (expression e.tokens).Is e.bracketed [] := by
  obtain ⟨hagain, -⟩ := echoing_kept.expression h hplain hv
  have hnil : Agree false ([] : List Token) [] := ⟨.dead (by rintro _ ⟨⟩) (.inl rfl), .inl rfl⟩
  have hread := (hagain.echo false [] hnil).1
  rw [List.append_nil] at hread
  exact ⟨hagain.lexical, hread⟩

end Grammar

end Projection
