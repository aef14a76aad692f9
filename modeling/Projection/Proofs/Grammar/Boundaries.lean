import Projection.Proofs.Expr.Tokens
import Projection.Proofs.Grammar.Lookahead

/-!
Where expressions end and begin. What ends an expression in the source ends it in what is printed,
parentheses around an expression are read as such unless they hold a type, and the parameters of a
lambda are read back from their tokens.
-/

namespace Projection.Grammar

open Text

def NoTrailer (ts : List Token) : Prop :=
  ∀ p more, ts = .punct p :: more →
    p ≠ .dot ∧ p ≠ .questionDot ∧ p ≠ .openParen ∧ p ≠ .openBracket ∧ p ≠ .questionBracket

def OpsBelow (least : Nat) (ts : List Token) : Prop :=
  ∀ t more op, ts = t :: more → binaryOp? t = some op → op.precedence < least

structure Final (ts : List Token) : Prop where
  trailer : NoTrailer ts
  ops : OpsBelow 1 ts
  question : ∀ more, ts ≠ .punct .question :: more

theorem SameHead.noTrailer {s p : List Token} (h : SameHead s p) (hs : NoTrailer s) :
    NoTrailer p := by
  rintro q more rfl
  rcases h with h | ⟨-, h⟩ | h
  · obtain ⟨s', rfl⟩ := List.head?_eq_some_iff.1 h
    exact hs q s' rfl
  · cases h
    decide
  · cases h
    decide

theorem SameHead.opsBelow {least : Nat} {s p : List Token} (h : SameHead s p)
    (hs : OpsBelow least s) : OpsBelow least p := by
  rintro t more op rfl hop
  rcases h with h | ⟨-, h⟩ | h
  · obtain ⟨s', rfl⟩ := List.head?_eq_some_iff.1 h
    exact hs t s' op rfl hop
  · cases h
    cases hop
  · cases h
    cases hop

theorem SameHead.ne_of_ne {s p : List Token} (h : SameHead s p) {q : Punct}
    (hbrace : q ≠ .closeBrace) (hparen : q ≠ .closeParen)
    (hs : ∀ more, s ≠ .punct q :: more) : ∀ more, p ≠ .punct q :: more := by
  rintro more rfl
  have heq := h.eq rfl (by simp [hbrace]) (by simp [hparen])
  obtain ⟨s', rfl⟩ := List.head?_eq_some_iff.1 heq
  exact hs s' rfl

theorem SameHead.final {s p : List Token} (h : SameHead s p) (hs : Final s) : Final p :=
  ⟨h.noTrailer hs.trailer, h.opsBelow hs.ops, h.ne_of_ne (by decide) (by decide) hs.question⟩

/-- Tokens behind which an added parenthesis is closed. -/
theorem agree_shut (s p : List Token) : Agree true s (.punct .closeParen :: p) :=
  ⟨.shut, .inr (.inr rfl)⟩

theorem agree_closed {s p : List Token} (h : SameHead s p) :
    Agree false (.punct .closeParen :: s) (.punct .closeParen :: p) :=
  ⟨.closed h, .inl rfl⟩

theorem agree_same {k : Bool} {q : Punct} (hq : isTypeToken (.punct q) = true) {s p : List Token}
    (h : Near k s p) : Agree k (.punct q :: s) (.punct q :: p) :=
  ⟨.same hq h, .inl rfl⟩

/-- A mark that no trial reads hides what stands behind it. -/
theorem agree_dead {k : Bool} {t : Token}
    (ht : isTypeToken t = false ∧ t ≠ .punct .openParen ∧ t ≠ .punct .closeParen)
    (s p : List Token) : Agree k (t :: s) (t :: p) := by
  refine ⟨.dead ?_ (.inl rfl), .inl rfl⟩
  rintro _ ⟨⟩
  exact ht

theorem final_closeParen (p : List Token) : Final (.punct .closeParen :: p) where
  trailer := by
    rintro q more ⟨⟩
    decide
  ops := by
    rintro t more op ⟨⟩ hop
    cases hop
  question := (by simp)

theorem reads_unary_paren {ts : List Token} {e : Expr} {p : List Token}
    (he : reads.expression ts e (.punct .closeParen :: p)) (hcast : castType? ts = none)
    (hp : NoTrailer p) : reads.unary (.punct .openParen :: ts) (.paren e) p :=
  reads_kept.value rfl (fun _ => hcast) (reads_kept.paren he) rfl (reads_kept.noTrailer hp)

theorem reads_expression_of_unary {ts : List Token} {e : Expr} {p : List Token}
    (hl : lambdaHeader ts = none) (he : reads.unary ts e p) (hp : Final p) :
    reads.expression ts e p :=
  reads_kept.noConditional hl (reads_kept.operands he (reads_kept.noOperator hp.ops)) hp.question

theorem castType?_eq_none_of_punct {q : Punct} {ts : List Token} :
    castType? (.punct q :: ts) = none := by
  refine eq_none_of_not_found fun t rest h => ?_
  obtain ⟨name, more, hts⟩ := exists_ident_of_type (found_castType?_iff.1 h).1
  cases hts

theorem not_unary_punct {q : Punct} (hq : q ≠ .openParen) (hu : unaryOp? (.punct q) = none)
    {ts : List Token} {e : Expr} {rest : List Token} : ¬reads.unary (.punct q :: ts) e rest := by
  have hprimary : ∀ {e rest}, ¬reads.primary (.punct q :: ts) e rest := by
    rintro e rest ⟨_, h⟩
    cases q with
    | openParen => exact absurd rfl hq
    | _ =>
        unfold Grammar.primary at h
        cases h
  have hparen : Token.punct q ≠ .punct .openParen := by simp [hq]
  rintro ⟨_, h⟩
  unfold Grammar.unary at h
  simp only [hu, if_neg hparen] at h
  split at h
  · cases h
  · rename_i h'
    exact hprimary ⟨_, h'⟩

/-- An expression starts with a word, a literal, a parenthesis or a sign. -/
theorem not_expression_punct {q : Punct} (hq : q ≠ .openParen) (hu : unaryOp? (.punct q) = none)
    {ts : List Token} {e : Expr} {rest : List Token} :
    ¬reads.expression (.punct q :: ts) e rest := by
  have hheader : lambdaHeader (.punct q :: ts) = none := by
    cases q with
    | openParen => exact absurd rfl hq
    | _ => rfl
  rintro ⟨_, h⟩
  unfold Grammar.expression at h
  split at h
  · rename_i hl
    rw [hheader] at hl
    cases hl
  · split at h
    · cases h
    · rename_i hc
      unfold Grammar.binary at hc
      split at hc
      · cases hc
      · rename_i hunary
        exact not_unary_punct hq hu ⟨_, hunary⟩

theorem not_someItems_punct {close q : Punct} (hq : q ≠ .openParen)
    (hu : unaryOp? (.punct q) = none) {ts : List Token} {es : List Expr} {rest : List Token} :
    ¬reads.someItems close (.punct q :: ts) es rest := by
  rintro ⟨_, h⟩
  unfold Grammar.someItems at h
  split at h
  · cases h
  · rename_i he
    exact not_expression_punct hq hu ⟨_, he⟩

theorem lambdaParams_commaTail (ps : List String) (done : List String) (name : String)
    (w : List Token) :
    lambdaParams done (some name) (commaTail (ps.map fun p => [.ident p]) ++
      .punct .closeParen :: .punct .arrow :: w) = some (done ++ name :: ps, w) := by
  induction ps generalizing done name with
  | nil => rfl
  | cons p ps ih =>
      refine (ih (done ++ [name]) p).trans ?_
      rw [List.append_assoc]
      rfl

theorem lambdaHeader_paramTokens (ps : List String) (w : List Token) :
    lambdaHeader (paramTokens ps ++ .punct .arrow :: w) = some (ps, w) := by
  match ps with
  | [] | [p] => rfl
  | p :: q :: ps =>
      have h := lambdaParams_commaTail (q :: ps) [] p w
      rw [paramTokens]
      · simpa [commaList, lambdaHeader, lambdaParams] using h
      · simp

/-- The parameters of a lambda are no type, and no parameters of a lambda around it. -/
theorem trials_paramTokens (ps : List String) (w : List Token) :
    castType? (paramTokens ps ++ .punct .arrow :: w) = none ∧
      lambdaHeader (.punct .openParen :: (paramTokens ps ++ .punct .arrow :: w)) = none := by
  by_cases hps : ∃ p, ps = [p]
  · obtain ⟨p, rfl⟩ := hps
    refine ⟨?_, rfl⟩
    refine eq_none_of_not_found fun t rest h => ?_
    have hless : ∀ more, (dotted p (.punct .arrow :: w)).2 ≠ .punct .less :: more := by
      rintro _ ⟨⟩
    have hread := readsType_kept.simple hless
    obtain ⟨-, hrest⟩ := hread.unique (found_castType?_iff.1 h).1
    cases hrest
  · rw [paramTokens]
    · exact ⟨castType?_eq_none_of_punct, rfl⟩
    · exact fun p hp => hps ⟨p, hp⟩

theorem AllValid.lambdaParams {ts : List Token} (hv : AllValid ts) {done : List String}
    {current : Option String} {r : List String × List Token}
    (hdone : ∀ n ∈ done, IsName n) (hcurrent : ∀ n ∈ current, IsName n)
    (h : Grammar.lambdaParams done current ts = some r) :
    (∀ n ∈ r.1, IsName n) ∧ AllValid r.2 := by
  fun_induction Grammar.lambdaParams done current ts with
  | case1 done current name rest ih =>
      refine ih hv.tail hdone ?_ h
      rintro _ ⟨⟩
      exact hv _ List.mem_cons_self
  | case2 done rest name ih =>
      refine ih hv.tail ?_ (by simp) h
      exact List.forall_mem_append.2 ⟨hdone, List.forall_mem_singleton.2 (hcurrent name rfl)⟩
  | case4 rest name done =>
      cases h
      refine ⟨?_, hv.tail.tail⟩
      exact List.forall_mem_append.2 ⟨hdone, List.forall_mem_singleton.2 (hcurrent name rfl)⟩
  | case5 rest =>
      cases h
      exact ⟨List.forall_mem_nil _, hv.tail.tail⟩
  | case3 | case6 | case7 => cases h

theorem AllValid.lambdaHeader {ts : List Token} (hv : AllValid ts)
    {r : List String × List Token} (h : Grammar.lambdaHeader ts = some r) :
    (∀ n ∈ r.1, IsName n) ∧ AllValid r.2 := by
  revert h
  fun_cases Grammar.lambdaHeader ts with
  | case1 name rest =>
      rintro ⟨⟩
      exact ⟨List.forall_mem_singleton.2 (hv _ List.mem_cons_self), hv.tail.tail⟩
  | case2 rest => exact hv.tail.lambdaParams (List.forall_mem_nil _) (by simp)
  | case3 => simp

end Projection.Grammar
