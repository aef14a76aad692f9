import Projection.Proofs.Expr.Shaped
import Projection.Proofs.Grammar.TypeWords

/-!
How the tokens of a tree begin. They begin as no lambda does unless the tree is one, and none of
their parentheses is closed before it is opened.
-/

namespace Projection.Grammar

open Projection.Expr

variable {S : Strings}

def begins : Token → Bool
  | .punct p => p == .openParen || (unaryOp? (.punct p)).isSome
  | _ => true

def Opens (w : List Token) : Prop :=
  ∀ u v, w = u ++ .punct .closeParen :: v → .punct .openParen ∈ u

theorem opens_of_not_mem {w : List Token} (h : .punct .closeParen ∉ w) : Opens w := by
  rintro u v rfl
  simp at h

theorem opens_openParen (w : List Token) : Opens (.punct .openParen :: w) := by
  intro u v h
  cases u with
  | nil => cases h
  | cons t u =>
      cases h
      exact List.mem_cons_self

theorem Opens.append {w w' : List Token} (h : Opens w) (h' : Opens w') : Opens (w ++ w') := by
  intro u v huv
  rcases List.append_eq_append_iff.1 huv with ⟨x, rfl, hx⟩ | ⟨x, rfl, hx⟩
  · exact List.mem_append_right _ (h' x v hx)
  · cases x with
    | nil => exact absurd (h' [] v hx.symm) (by simp)
    | cons t x =>
        cases hx
        exact h u x rfl

theorem Opens.cons {t : Token} (ht : t ≠ .punct .closeParen) {w : List Token} (h : Opens w) :
    Opens (t :: w) :=
  Opens.append (opens_of_not_mem (w := [t]) (by simpa using ht.symm)) h

theorem Opens.tail {t : Token} (ht : t ≠ .punct .openParen) {w : List Token}
    (h : Opens (t :: w)) : Opens w := by
  rintro u v rfl
  exact List.mem_of_ne_of_mem ht.symm (h (t :: u) v rfl)

theorem opens_commaTail {ws : List (List Token)} (h : ∀ w ∈ ws, Opens w) :
    Opens (commaTail ws) := by
  induction ws with
  | nil => exact opens_of_not_mem (by rintro ⟨⟩)
  | cons w ws ih =>
      obtain ⟨hw, hws⟩ := List.forall_mem_cons.1 h
      exact .cons (by simp) (hw.append (ih hws))

theorem opens_commaList {ws : List (List Token)} (h : ∀ w ∈ ws, Opens w) :
    Opens (commaList ws) := by
  cases ws with
  | nil => exact opens_of_not_mem (by rintro ⟨⟩)
  | cons w ws =>
      obtain ⟨hw, hws⟩ := List.forall_mem_cons.1 h
      exact hw.append (opens_commaTail hws)

theorem opens_valueTokens {name : Option String} {w : List Token} (h : Opens w) :
    Opens (valueTokens name w) := by
  cases name with
  | none => exact h
  | some n => exact .cons (by simp) (.cons (by simp) h)

theorem opens_paramTokens (ps : List String) : Opens (paramTokens ps) := by
  by_cases hps : ∃ p, ps = [p]
  · obtain ⟨p, rfl⟩ := hps
    exact opens_of_not_mem (by simp [paramTokens])
  · rw [paramTokens]
    · exact opens_openParen _
    · exact fun p hp => hps ⟨p, hp⟩

theorem typeWord_tokens {t : TypeExpr} (h : t.Readable) : TypeWord 0 t.tokens := by
  have hread : (type (t.tokens ++ [.punct .closeParen])).Is t [.punct .closeParen] :=
    type_tokens h (by decide)
  obtain ⟨w, hw, hword⟩ := exists_word_of_type hread
  rw [List.append_left_inj] at hw
  rwa [hw]

theorem opens_type {t : TypeExpr} (h : t.Readable) : Opens t.tokens := by
  refine opens_of_not_mem fun hmem => ?_
  cases (typeWord_tokens h).tokens _ hmem

theorem opens_typeArgs {ts : List TypeExpr} (h : ∀ t ∈ ts, t.Readable) :
    Opens (typeArgTokens ts) := by
  have hmore {ts : List TypeExpr} (h : ∀ t ∈ ts, t.Readable) : Opens (TypeExpr.moreTokens ts) := by
    induction ts with
    | nil => exact opens_of_not_mem (by simp [TypeExpr.moreTokens])
    | cons t ts ih =>
        obtain ⟨ht, hts⟩ := List.forall_mem_cons.1 h
        rw [TypeExpr.moreTokens]
        exact .cons (by simp) ((opens_type ht).append (ih hts))
  cases ts with
  | nil => exact opens_of_not_mem (by rintro ⟨⟩)
  | cons t ts =>
      obtain ⟨ht, hts⟩ := List.forall_mem_cons.1 h
      exact .cons (by simp) ((opens_type ht).append (hmore hts))

theorem opens_members {ms : List Initializer} (h : ∀ e ∈ ms.map (·.value), Opens e.tokens) :
    Opens (commaList (ms.map fun m => valueTokens m.name m.value.tokens) ++
      [.punct .closeBrace]) := by
  refine Opens.append (opens_commaList (List.forall_mem_map.2 fun m hm => ?_))
    (opens_of_not_mem (by simp))
  exact opens_valueTokens (h m.value (List.mem_map_of_mem hm))

theorem opens_tokens {e : Expr} (h : e.Every (Printable S)) : Opens e.tokens := by
  induction e using childInduction with
  | h e ih =>
      replace ih := fun c hc => ih c hc (h.child hc)
      obtain ⟨⟨⟨-, htypes, hplain⟩, -⟩, hself⟩ := h.self
      cases e with
      | ident name =>
          rw [tokens]
          exact opens_of_not_mem (by simp)
      | this =>
          rw [tokens]
          exact opens_of_not_mem (by simp)
      | literal value =>
          rw [tokens]
          exact opens_of_not_mem fun hm => value.token_ne.1 _ (List.mem_singleton.1 hm).symm
      | member t n o =>
          rw [tokens_member hself]
          refine (ih t (by simp [children])).append (opens_of_not_mem ?_)
          cases o <;> simp
      | index t as o =>
          rw [tokens_index hself]
          refine (ih t (by simp [children])).append (.cons ?_ (.append ?_ (opens_of_not_mem ?_)))
          · cases o <;> simp
          · exact opens_commaList (List.forall_mem_map.2 fun a ha =>
              ih a (List.mem_cons_of_mem t ha))
          · simp
      | invoke t ts as =>
          rw [tokens_invoke hself]
          exact (ih t (by simp [children])).append
            ((opens_typeArgs htypes).append (opens_openParen _))
      | lambda ps b =>
          rw [tokens]
          exact (opens_paramTokens ps).append (.cons (by simp) (ih b (by simp [children])))
      | anonymous ms =>
          rw [tokens]
          exact .cons (by simp) (.cons (by simp) (opens_members ih))
      | creation t as i =>
          have ht := opens_type (htypes t List.mem_cons_self)
          cases i with
          | none =>
              rw [tokens]
              exact .cons (by simp) (ht.append (opens_openParen _))
          | some ms =>
              cases as with
              | nil =>
                  rw [tokens]
                  exact .cons (by simp) (ht.append (.cons (by simp) (opens_members ih)))
              | cons a as =>
                  rw [tokens]
                  exact .cons (by simp) (ht.append (opens_openParen _))
      | conditional c t f =>
          rw [tokens_conditional hself]
          exact (ih c (by simp [children])).append (.cons (by simp)
            ((ih t (by simp [children])).append (.cons (by simp) (ih f (by simp [children])))))
      | binary op l r =>
          rw [tokens_binary hself]
          refine (ih l (by simp [children])).append (.cons ?_ (ih r (by simp [children])))
          cases op <;> simp [BinaryOp.punct]
      | unary op e =>
          rw [tokens_unary hself]
          refine .cons ?_ (ih e (by simp [children]))
          cases op <;> simp [UnaryOp.punct]
      | cast t e =>
          rw [tokens]
          exact opens_openParen _
      | defaultValue t =>
          cases t with
          | none =>
              rw [tokens]
              exact opens_of_not_mem (by simp)
          | some t =>
              rw [tokens]
              exact .cons (by simp) (opens_openParen _)
      | paren e =>
          rw [tokens]
          exact opens_openParen _
      | interpolated ps =>
          rw [tokens]
          exact opens_of_not_mem (by simp)
      | marked note e => cases hplain.2

theorem lambdaParams_eq_none {w : List Token} (hw : Opens w) {p : List Token}
    (hp : p.head? ≠ some (.punct .arrow)) (done : List String) (current : Option String) :
    lambdaParams done current (w ++ .punct .closeParen :: p) = none := by
  induction w generalizing done current with
  | nil =>
      cases p with
      | nil => rfl
      | cons t p =>
          rw [List.nil_append]
          unfold lambdaParams
          split <;> simp_all
  | cons t w ih =>
      cases t with
      | ident name => exact ih (hw.tail (by simp)) done (some name)
      | punct q =>
          cases q with
          | closeParen => exact absurd (hw [] w rfl) (by simp)
          | comma =>
              cases current with
              | none => rfl
              | some name => exact ih (hw.tail (by simp)) (done ++ [name]) none
          | _ => rfl
      | _ => rfl

/-- How the tokens of `e` begin. -/
structure Leads (e : Expr) (t : Token) (w : List Token) : Prop where
  begins : begins t = true
  unsigned : primaryPower ≤ e.power → unaryOp? t = none
  assign : ∀ n, t = .ident n → w.head? ≠ some (.punct .assign)
  header : e.isLambda = false → ∀ p, p.head? ≠ some (.punct .arrow) →
    lambdaHeader (t :: (w ++ p)) = none

theorem isLambda_of_power {e : Expr} (h : 1 ≤ e.power) : e.isLambda = false := by
  cases e with
  | lambda => cases h
  | _ => rfl

theorem head?_append_ne {w v : List Token} {t : Token} (hw : w.head? ≠ some t)
    (hv : v.head? ≠ some t) : (w ++ v).head? ≠ some t := by
  cases w with
  | nil => exact hv
  | cons => exact hw

/-- A parenthesis that is closed in front of something other than the arrow of a lambda. -/
theorem Leads.paren (e : Expr) {w v : List Token} (hw : Opens w)
    (hv : ∀ p, p.head? ≠ some (.punct .arrow) → (v ++ p).head? ≠ some (.punct .arrow)) :
    Leads e (.punct .openParen) (w ++ .punct .closeParen :: v) where
  begins := rfl
  unsigned _ := rfl
  assign := (by simp)
  header _ p hp := by
    rw [List.append_assoc]
    exact lambdaParams_eq_none hw (hv p hp) [] none

/-- A word in front of something that is neither an assignment nor the arrow of a lambda. -/
theorem Leads.word (e : Expr) (name : String) {w : List Token}
    (hassign : w.head? ≠ some (.punct .assign)) (harrow : w.head? ≠ some (.punct .arrow)) :
    Leads e (.ident name) w where
  begins := rfl
  unsigned _ := rfl
  assign _ _ := hassign
  header _ p hp := by
    have hhead := head?_append_ne harrow hp
    unfold lambdaHeader
    split
    · rename_i heq
      rw [(List.cons.inj heq).2] at hhead
      exact absurd rfl hhead
    · rename_i heq
      cases heq
    · rfl

theorem Leads.mark (e : Expr) {t : Token} (w : List Token) (ht : Grammar.begins t = true)
    (hparen : t ≠ .punct .openParen) (hword : ∀ n, t ≠ .ident n)
    (hsign : primaryPower ≤ e.power → unaryOp? t = none) : Leads e t w where
  begins := ht
  unsigned := hsign
  assign n hn := absurd hn (hword n)
  header _ p _ := by
    unfold lambdaHeader
    split <;> simp_all

/-- A tree begins as its first operand does. -/
theorem Leads.operand {c e : Expr} {t : Token} {w : List Token} (h : Leads c t w)
    (hc : 1 ≤ c.power) (hp : primaryPower ≤ e.power → primaryPower ≤ c.power) {q : Punct}
    (hq : q ≠ .assign ∧ q ≠ .arrow) (v : List Token) : Leads e t (w ++ .punct q :: v) where
  begins := h.begins
  unsigned he := h.unsigned (hp he)
  assign n hn := head?_append_ne (h.assign n hn) (by simpa using hq.1)
  header _ p _ := by
    rw [List.append_assoc]
    exact h.header (isLambda_of_power hc) _ (by simpa using hq.2)

theorem head?_tokens_ne {t : TypeExpr} (h : t.Readable) {q : Punct} {u : Token}
    (hu : isTypeToken u = false) (hq : u ≠ .punct q) (v : List Token) :
    (t.tokens ++ .punct q :: v).head? ≠ some u := by
  refine head?_append_ne (fun hhead => ?_) (by simpa using hq.symm)
  have htoken := (typeWord_tokens h).tokens u (List.mem_of_mem_head? hhead)
  rw [hu] at htoken
  cases htoken

theorem leads_literal (value : Literal) : Leads (.literal value) value.token [] := by
  cases value with
  | bool b => cases b <;> exact .word _ _ (by simp) (by simp)
  | null => exact .word _ _ (by simp) (by simp)
  | _ => exact .mark _ _ rfl (by rintro ⟨⟩) (by rintro _ ⟨⟩) fun _ => rfl

theorem leads_creation {e : Expr} {t : TypeExpr} (h : t.Readable) {q : Punct}
    (hq : q ≠ .assign ∧ q ≠ .arrow) (v : List Token) :
    Leads e (.ident "new") (t.tokens ++ .punct q :: v) :=
  .word _ _ (head?_tokens_ne h rfl (by simpa using hq.1.symm) v)
    (head?_tokens_ne h rfl (by simpa using hq.2.symm) v)

theorem exists_leads {e : Expr} (h : e.Every (Printable S)) :
    ∃ t w, e.tokens = t :: w ∧ Leads e t w := by
  induction e using childInduction with
  | h e ih =>
      replace ih := fun c hc => ih c hc (h.child hc)
      obtain ⟨⟨⟨-, htypes, hplain⟩, -⟩, hself⟩ := h.self
      cases e with
      | ident name =>
          rw [tokens]
          exact ⟨_, _, rfl, .word _ _ (by simp) (by simp)⟩
      | this =>
          rw [tokens]
          exact ⟨_, _, rfl, .word _ _ (by simp) (by simp)⟩
      | literal value =>
          rw [tokens]
          exact ⟨_, _, rfl, leads_literal value⟩
      | member t n o =>
          obtain ⟨u, w, ht, hw⟩ := ih t (by simp [children])
          rw [tokens_member hself, ht]
          refine ⟨u, _, rfl, hw.operand (Nat.le_trans (by decide) hself) (fun _ => hself) ?_ _⟩
          cases o <;> decide
      | index t as o =>
          obtain ⟨u, w, ht, hw⟩ := ih t (by simp [children])
          rw [tokens_index hself, ht]
          refine ⟨u, _, rfl, hw.operand (Nat.le_trans (by decide) hself) (fun _ => hself) ?_ _⟩
          cases o <;> decide
      | invoke t ts as =>
          obtain ⟨u, w, ht, hw⟩ := ih t (by simp [children])
          rw [tokens_invoke hself, ht]
          have hpower : 1 ≤ t.power := Nat.le_trans (by decide) hself
          cases ts with
          | nil => exact ⟨u, _, rfl, hw.operand hpower (fun _ => hself) (by decide) _⟩
          | cons => exact ⟨u, _, rfl, hw.operand hpower (fun _ => hself) (by decide) _⟩
      | lambda ps b =>
          rw [tokens]
          by_cases hps : ∃ p, ps = [p]
          · obtain ⟨p, rfl⟩ := hps
            exact ⟨_, _, rfl, rfl, fun _ => rfl, fun _ _ => by simp, (by rintro ⟨⟩)⟩
          · rw [paramTokens]
            · exact ⟨_, _, rfl, rfl, fun _ => rfl, (by simp), (by rintro ⟨⟩)⟩
            · exact fun p hp => hps ⟨p, hp⟩
      | anonymous ms =>
          rw [tokens]
          exact ⟨_, _, rfl, .word _ _ (by simp) (by simp)⟩
      | creation t as i =>
          have ht := htypes t List.mem_cons_self
          cases i with
          | none =>
              rw [tokens]
              exact ⟨_, _, rfl, leads_creation ht (by decide) _⟩
          | some ms =>
              cases as <;> rw [tokens] <;> exact ⟨_, _, rfl, leads_creation ht (by decide) _⟩
      | conditional c t f =>
          obtain ⟨u, w, hc, hw⟩ := ih c (by simp [children])
          rw [tokens_conditional hself, hc]
          refine ⟨u, _, rfl, hw.operand hself.1 (fun hp => ?_) (by decide) _⟩
          cases hp
      | binary op l r =>
          obtain ⟨u, w, hl, hw⟩ := ih l (by simp [children])
          rw [tokens_binary hself, hl]
          have hlimit : 1 ≤ leftLimit op := by cases op <;> decide
          refine ⟨u, _, rfl, hw.operand (Nat.le_trans hlimit hself.1) (fun hp => ?_) ?_ _⟩
          · exact absurd (precedence_lt_primaryPower op) (Nat.not_lt.2 hp)
          · cases op <;> decide
      | unary op e =>
          rw [tokens]
          have hpower : ¬ primaryPower ≤ unaryPower := by decide
          refine ⟨_, _, rfl, .mark _ _ ?_ ?_ (by simp) fun hp => absurd hp hpower⟩
          all_goals cases op <;> simp [begins, unaryOp?, UnaryOp.punct]
      | cast t e =>
          obtain ⟨u, w, he, hw⟩ := ih e (by simp [children])
          rw [tokens_cast hself, he]
          refine ⟨_, _, rfl, .paren _ (opens_type (htypes t List.mem_cons_self)) fun p _ => ?_⟩
          rintro ⟨⟩
          cases hw.begins
      | defaultValue t =>
          cases t with
          | none =>
              rw [tokens]
              exact ⟨_, _, rfl, .word _ _ (by simp) (by simp)⟩
          | some t =>
              rw [tokens]
              exact ⟨_, _, rfl, .word _ _ (by simp) (by simp)⟩
      | paren e =>
          rw [tokens]
          exact ⟨_, _, rfl, .paren _ (opens_tokens (h.child (by simp [children]))) fun p hp => hp⟩
      | interpolated ps =>
          rw [tokens]
          exact ⟨_, _, rfl, .mark _ _ rfl (by rintro ⟨⟩) (by rintro _ ⟨⟩) fun _ => rfl⟩
      | marked note e => cases hplain.2

theorem lambdaHeader_eq_none {e : Expr} (h : e.Every (Printable S)) (hl : e.isLambda = false)
    {p : List Token} (hp : p.head? ≠ some (.punct .arrow)) :
    lambdaHeader (e.tokens ++ p) = none := by
  obtain ⟨t, w, he, hw⟩ := exists_leads h
  rw [he]
  exact hw.header hl p hp

end Projection.Grammar
