import Projection.Proofs.Expr.Tokens
import Projection.Proofs.Grammar.Rules

/-!
Trees in which no operand needs parentheses. Those with a node for every pair of parentheses are
such trees; their tokens are the tokens of the operands with marks between them.
-/

namespace Projection.Expr

open Grammar (rightLimit)

def leftLimit (op : BinaryOp) : Nat := if op.groupsRight then op.precedence + 1 else op.precedence

def Unwrapped : Expr → Prop
  | member t _ _ | index t _ _ | invoke t _ _ => primaryPower ≤ t.power
  | conditional c t f => 1 ≤ c.power ∧ t.isLambda = false ∧ f.isLambda = false
  | binary op l r => leftLimit op ≤ l.power ∧ rightLimit op ≤ r.power
  | unary op e => repeatsSign op e = false ∧ unaryPower ≤ e.power
  | cast _ e => unaryPower ≤ e.power
  | _ => True

theorem power_le (e : Expr) : e.power ≤ primaryPower := by
  induction e using childInduction with
  | h e ih =>
      cases e with
      | marked note e => exact ih e (by simp [children])
      | binary op l r => exact Nat.le_of_lt (precedence_lt_primaryPower op)
      | _ => simp [power, unaryPower, primaryPower]

theorem limit_le_primaryPower (op : BinaryOp) :
    leftLimit op ≤ primaryPower ∧ rightLimit op ≤ primaryPower := by
  cases op <;> decide

section Tokens

variable {t c f e l r : Expr} {n : String} {o : Bool} {as : List Expr} {ts : List TypeExpr}
  {op : BinaryOp} {sign : UnaryOp} {type : TypeExpr}

theorem wrapTokens_power {limit : Nat} (h : limit ≤ e.power) (w : List Token) :
    wrapTokens (e.power < limit) w = w := by
  rw [wrapTokens, if_neg]
  simpa using h

theorem tokens_member (h : (member t n o).Unwrapped) :
    (member t n o).tokens =
      t.tokens ++ [.punct (if o then .questionDot else .dot), .ident n] := by
  rw [tokens, wrapTokens_power h]

theorem tokens_index (h : (index t as o).Unwrapped) :
    (index t as o).tokens = t.tokens ++ .punct (if o then .questionBracket else .openBracket) ::
      (commaList (as.map tokens) ++ [.punct .closeBracket]) := by
  rw [tokens, wrapTokens_power h]

theorem tokens_invoke (h : (invoke t ts as).Unwrapped) :
    (invoke t ts as).tokens = t.tokens ++ (typeArgTokens ts ++
      .punct .openParen :: (commaList (as.map tokens) ++ [.punct .closeParen])) := by
  rw [tokens, wrapTokens_power h]

theorem tokens_conditional (h : (conditional c t f).Unwrapped) :
    (conditional c t f).tokens =
      c.tokens ++ .punct .question :: (t.tokens ++ .punct .colon :: f.tokens) := by
  rw [tokens, wrapTokens_power h.1, h.2.1, h.2.2]
  rfl

theorem tokens_binary (h : (binary op l r).Unwrapped) :
    (binary op l r).tokens = l.tokens ++ .punct op.punct :: r.tokens := by
  have hl : wrapTokens _ l.tokens = l.tokens := wrapTokens_power h.1 _
  have hr : wrapTokens _ r.tokens = r.tokens := wrapTokens_power h.2 _
  rw [leftLimit] at hl
  rw [rightLimit] at hr
  rw [tokens, hl, hr]

theorem tokens_unary (h : (unary sign e).Unwrapped) :
    (unary sign e).tokens = .punct sign.punct :: e.tokens := by
  rw [tokens, h.1, Bool.false_or, wrapTokens_power h.2]

theorem tokens_cast (h : (cast type e).Unwrapped) :
    (cast type e).tokens =
      .punct .openParen :: (type.tokens ++ .punct .closeParen :: e.tokens) := by
  rw [tokens, wrapTokens_power h]

end Tokens

theorem unwrapped_wrap (needs : Expr → Bool) {e : Expr} (hparen : ∀ e, needs (paren e) = false)
    (hneeds : needs e.bracketed = needs e) : needs (wrap (needs e) e.bracketed) = false := by
  cases h : needs e with
  | true => exact hparen _
  | false => exact hneeds.trans h

theorem le_power_wrap {limit : Nat} (hlimit : limit ≤ primaryPower) (e : Expr) :
    limit ≤ (wrap (e.power < limit) e.bracketed).power := by
  have h := unwrapped_wrap (fun e => e.power < limit) (e := e)
    (fun _ => decide_eq_false (Nat.not_lt.2 hlimit)) (by rw [power_bracketed])
  exact Nat.not_lt.1 (of_decide_eq_false h)

theorem isLambda_wrap (e : Expr) : (wrap e.isLambda e.bracketed).isLambda = false :=
  unwrapped_wrap isLambda (fun _ => rfl) (isLambda_bracketed e)

theorem wraps_sign {sign : UnaryOp} (e : Expr) :
    repeatsSign sign (wrap (repeatsSign sign e || e.power < unaryPower) e.bracketed) = false ∧
      unaryPower ≤ (wrap (repeatsSign sign e || e.power < unaryPower) e.bracketed).power := by
  have h := unwrapped_wrap (fun e => repeatsSign sign e || e.power < unaryPower) (e := e)
    (fun _ => by cases sign <;> rfl) (by simp)
  obtain ⟨hsign, hpower⟩ := Bool.or_eq_false_iff.1 h
  exact ⟨hsign, Nat.not_lt.1 (of_decide_eq_false hpower)⟩

theorem unwrapped_bracketed (e : Expr) : e.bracketed.Unwrapped := by
  cases e with
  | member t n o | index t as o | invoke t ts as =>
      rw [bracketed]
      exact le_power_wrap (Nat.le_refl _) t
  | conditional c t f =>
      rw [bracketed]
      exact ⟨le_power_wrap (by decide) c, isLambda_wrap t, isLambda_wrap f⟩
  | binary op l r =>
      rw [bracketed]
      have hlimit := limit_le_primaryPower op
      exact ⟨le_power_wrap hlimit.1 l, le_power_wrap hlimit.2 r⟩
  | unary op e =>
      rw [bracketed]
      exact wraps_sign e
  | cast t e =>
      rw [bracketed]
      exact le_power_wrap (by decide) e
  | creation t as i => cases i <;> rw [bracketed] <;> trivial
  | _ => simp [bracketed, Unwrapped]

theorem mem_children_bracketed {d e : Expr} (hsolid : e.isInterpolated = true → e.children = [])
    (h : d ∈ e.bracketed.children) : ∃ c ∈ e.children, ∃ needed, d = wrap needed c.bracketed := by
  have hmap {es : List Expr} (hd : d ∈ es.map bracketed) :
      ∃ c ∈ es, ∃ needed, d = wrap needed c.bracketed := by
    obtain ⟨c, hc, rfl⟩ := List.mem_map.1 hd
    exact ⟨c, hc, false, rfl⟩
  cases e with
  | ident | this | literal | defaultValue => simp [bracketed, children] at h
  | interpolated ps =>
      rw [bracketed_of_children_nil (hsolid rfl), hsolid rfl] at h
      cases h
  | anonymous ms =>
      rw [bracketed, children, values_map_bracketed] at h
      exact hmap h
  | creation t as i =>
      cases i with
      | none =>
          rw [bracketed] at h
          exact hmap h
      | some ms =>
          rw [bracketed, children, values_map_bracketed, ← List.map_append] at h
          exact hmap h
  | index t as o | invoke t ts as =>
      rw [bracketed] at h
      rcases List.mem_cons.1 h with rfl | h
      · exact ⟨t, List.mem_cons_self, _, rfl⟩
      · obtain ⟨c, hc, hd⟩ := hmap h
        exact ⟨c, List.mem_cons_of_mem t hc, hd⟩
  | lambda ps b | paren b | marked note b =>
      rw [bracketed] at h
      have hb : d ∈ [b].map bracketed := h
      exact hmap hb
  | member t n o | unary op t | cast ty t =>
      rw [bracketed] at h
      exact ⟨t, List.mem_cons_self, _, List.mem_singleton.1 h⟩
  | binary op l r =>
      rw [bracketed] at h
      simp only [children, List.mem_cons, List.not_mem_nil, or_false] at h ⊢
      rcases h with rfl | rfl
      · exact ⟨l, .inl rfl, _, rfl⟩
      · exact ⟨r, .inr rfl, _, rfl⟩
  | conditional c t f =>
      rw [bracketed] at h
      simp only [children, List.mem_cons, List.not_mem_nil, or_false] at h ⊢
      rcases h with rfl | rfl | rfl
      · exact ⟨c, .inl rfl, _, rfl⟩
      · exact ⟨t, .inr (.inl rfl), _, rfl⟩
      · exact ⟨f, .inr (.inr rfl), _, rfl⟩

/-- The nodes of a tree with all its parentheses are those of the tree, and parentheses. -/
theorem every_bracketed {P Q : Expr → Prop} (hnode : ∀ n, P n → Q n.bracketed)
    (hparen : ∀ e, Q (paren e))
    (hsolid : ∀ n, P n → n.isInterpolated = true → n.children = []) {e : Expr} (h : e.Every P) :
    e.bracketed.Every Q := by
  induction e using childInduction with
  | h e ih =>
      refine every_iff.2 ⟨hnode e h.self, fun d hd => ?_⟩
      obtain ⟨c, hc, needed, rfl⟩ := mem_children_bracketed (hsolid e h.self) hd
      have hchild := ih c hc (h.child hc)
      cases needed with
      | false => exact hchild
      | true => exact every_iff.2 ⟨hparen _, List.forall_mem_singleton.2 hchild⟩

/-- A pair of parentheses that stands as a node is not added once more. -/
theorem wrapTokens_wrap (needs : Expr → Bool) {e : Expr} (hparen : ∀ e, needs (paren e) = false)
    (hneeds : needs e.bracketed = needs e) (ih : e.bracketed.tokens = e.tokens) :
    wrapTokens (needs (wrap (needs e) e.bracketed)) (wrap (needs e) e.bracketed).tokens =
      wrapTokens (needs e) e.tokens := by
  rw [unwrapped_wrap needs hparen hneeds]
  cases h : needs e with
  | true =>
      rw [wrap, if_pos rfl, tokens, ih]
      rfl
  | false => exact ih

theorem wrapTokens_wrap_power {e : Expr} {limit : Nat} (hlimit : limit ≤ primaryPower)
    (ih : e.bracketed.tokens = e.tokens) :
    wrapTokens ((wrap (e.power < limit) e.bracketed).power < limit)
        (wrap (e.power < limit) e.bracketed).tokens =
      wrapTokens (e.power < limit) e.tokens :=
  wrapTokens_wrap (fun e => e.power < limit)
    (fun _ => decide_eq_false (Nat.not_lt.2 hlimit)) (by rw [power_bracketed]) ih

theorem map_tokens_bracketed {es : List Expr} (ih : ∀ e ∈ es, e.bracketed.tokens = e.tokens) :
    (es.map bracketed).map tokens = es.map tokens := by
  rw [List.map_map]
  exact List.map_congr_left ih

theorem valueTokens_bracketed {ms : List Initializer}
    (ih : ∀ e ∈ ms.map (·.value), e.bracketed.tokens = e.tokens) :
    ((ms.map fun m => (⟨m.name, m.value.bracketed⟩ : Initializer)).map fun m =>
      valueTokens m.name m.value.tokens) = ms.map fun m => valueTokens m.name m.value.tokens := by
  rw [List.map_map]
  refine List.map_congr_left fun m hm => ?_
  exact congrArg (valueTokens m.name) (ih m.value (List.mem_map_of_mem hm))

theorem tokens_bracketed (e : Expr) : e.bracketed.tokens = e.tokens := by
  induction e using childInduction with
  | h e ih =>
      cases e with
      | ident | this | literal | defaultValue | interpolated => simp [bracketed]
      | member t n o =>
          rw [bracketed, tokens, tokens,
            wrapTokens_wrap_power (Nat.le_refl _) (ih t (by simp [children]))]
      | index t as o | invoke t ts as =>
          rw [bracketed, tokens, tokens,
            wrapTokens_wrap_power (Nat.le_refl _) (ih t (by simp [children])),
            map_tokens_bracketed fun e (he : e ∈ as) => ih e (List.mem_cons_of_mem t he)]
      | lambda ps b => rw [bracketed, tokens, tokens, ih b (by simp [children])]
      | anonymous ms => rw [bracketed, tokens, tokens, valueTokens_bracketed ih]
      | creation t as i =>
          cases i with
          | none =>
              rw [bracketed, tokens, tokens, map_tokens_bracketed fun e (he : e ∈ as) => ih e he]
          | some ms =>
              have has := map_tokens_bracketed fun e (he : e ∈ as) =>
                ih e (List.mem_append_left _ he)
              have hms := valueTokens_bracketed fun e (he : e ∈ ms.map (·.value)) =>
                ih e (List.mem_append_right _ he)
              cases as with
              | nil => rw [bracketed, List.map_nil, tokens, tokens, hms]
              | cons a as =>
                  rw [List.map_cons, List.map_cons, List.map_cons, List.cons.injEq] at has
                  rw [bracketed, List.map_cons, tokens, tokens, hms, has.1, has.2]
      | conditional c t f =>
          rw [bracketed, tokens, tokens,
            wrapTokens_wrap_power (by decide : 1 ≤ primaryPower) (ih c (by simp [children])),
            wrapTokens_wrap isLambda (fun _ => rfl) (isLambda_bracketed t)
              (ih t (by simp [children])),
            wrapTokens_wrap isLambda (fun _ => rfl) (isLambda_bracketed f)
              (ih f (by simp [children]))]
      | binary op l r =>
          have hlimit := limit_le_primaryPower op
          have hl := wrapTokens_wrap_power hlimit.1 (ih l (by simp [children]))
          have hr := wrapTokens_wrap_power hlimit.2 (ih r (by simp [children]))
          rw [leftLimit] at hl
          rw [rightLimit] at hr
          rw [bracketed, tokens, tokens, hl, hr]
      | unary op e =>
          rw [bracketed, tokens, tokens,
            wrapTokens_wrap (fun e => repeatsSign op e || e.power < unaryPower)
              (fun _ => by cases op <;> rfl) (by simp) (ih e (by simp [children]))]
      | cast t e =>
          rw [bracketed, tokens, tokens,
            wrapTokens_wrap_power (by decide : unaryPower ≤ primaryPower)
              (ih e (by simp [children]))]
      | paren e => rw [bracketed, tokens, tokens, ih e (by simp [children])]
      | marked note e => rw [bracketed, tokens, tokens, ih e (by simp [children])]

end Projection.Expr
