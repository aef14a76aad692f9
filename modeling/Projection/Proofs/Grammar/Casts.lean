import Projection.Proofs.Grammar.Fronts

/-!
Which expressions in parentheses can be taken for a cast: those that are a name with members or
empty brackets behind it, and only in front of what can be cast.
-/

namespace Projection.Grammar

open Projection.Expr Text

variable {S : Strings}

theorem not_isKeyword_dottedName (first n : String) (names : List String) :
    TypeExpr.isKeyword (dottedName first (n :: names)) = false := by
  refine Bool.eq_false_iff.2 fun h => ?_
  have hpoint : '.' ∉ (dottedName first (n :: names)).toList := by
    have hall : TypeExpr.keywords.all fun k => !k.toList.contains '.' := by decide
    have hk := List.all_eq_true.1 hall _ (List.contains_iff_mem.1 h)
    simpa using hk
  rw [toList_dottedName] at hpoint
  simp at hpoint

theorem exists_pointed {e : Expr} (hpath : e.isPath = true) :
    ∃ first names, e.tokens = .ident first :: pointed names ∧
      TypeExpr.isKeyword (dottedName first names) = e.isSureType := by
  induction e using childInduction with
  | h e ih =>
      cases e with
      | ident name =>
          rw [tokens]
          exact ⟨name, [], rfl, rfl⟩
      | this =>
          rw [tokens]
          exact ⟨_, [], rfl, by decide⟩
      | literal value =>
          rw [tokens]
          cases value with
          | null => exact ⟨_, [], rfl, by decide⟩
          | bool b => cases b <;> exact ⟨_, [], rfl, by decide⟩
          | _ => cases hpath
      | defaultValue t =>
          cases t with
          | none =>
              rw [tokens]
              exact ⟨_, [], rfl, by decide⟩
          | some t => cases hpath
      | member t n o =>
          cases o with
          | true => cases hpath
          | false =>
              obtain ⟨first, names, ht, -⟩ := ih t (by simp [children]) hpath
              have hpower : t.power = primaryPower := power_of_isPath hpath
              refine ⟨first, names ++ [n], ?_, ?_⟩
              · rw [tokens_member (Nat.le_of_eq hpower.symm), ht]
                simp [pointed]
              · cases names with
                | nil => exact not_isKeyword_dottedName first n []
                | cons m names => exact not_isKeyword_dottedName first m (names ++ [n])
      | _ => cases hpath

/-- What could be a type is read as one. -/
theorem exists_type_of_isTypeLike {e : Expr} (hlike : e.isTypeLike = true) :
    ∃ t, isSurelyType t = e.isSureType ∧
      ∀ p, Closes p → readsType.type (e.tokens ++ p) (typeMarks t p).1 (typeMarks t p).2 := by
  have path {e : Expr} (hpath : e.isPath = true) :
      ∃ t, isSurelyType t = e.isSureType ∧
        ∀ p, Closes p → readsType.type (e.tokens ++ p) (typeMarks t p).1 (typeMarks t p).2 := by
    obtain ⟨first, names, htokens, hsure⟩ := exists_pointed hpath
    refine ⟨.simple (dottedName first names), hsure, fun p hp => ?_⟩
    have hd := dotted_pointed first names hp.1
    have hless : ∀ more, (dotted first (pointed names ++ p)).2 ≠ .punct .less :: more := by
      rw [hd]
      rintro more rfl
      exact hp.2 rfl
    have hread := readsType_kept.simple hless
    rw [hd] at hread
    rw [htokens]
    exact hread
  induction e using childInduction with
  | h e ih =>
      cases e with
      | index t as o =>
          cases as with
          | nil =>
              obtain ⟨u, -, hu⟩ := ih t (by simp [children]) hlike
              have hpower : t.power = primaryPower := power_of_isTypeLike hlike
              rw [tokens_index (Nat.le_of_eq hpower.symm)]
              cases o with
              | false =>
                  refine ⟨.array u, hlike.symm, fun p _ => ?_⟩
                  have hread := hu (.punct .openBracket :: .punct .closeBracket :: p)
                    (by simp [Closes])
                  rw [typeMarks] at hread
                  simpa [commaList] using hread
              | true =>
                  refine ⟨.array u.asNullable, hlike.symm, fun p _ => ?_⟩
                  have hread := hu (.punct .questionBracket :: .punct .closeBracket :: p)
                    (by simp [Closes])
                  rw [typeMarks] at hread
                  simpa [commaList] using hread
          | cons a as => cases hlike
      | _ => exact path hlike

theorem exists_ident_of_begins {t : Token} (hb : begins t = true) (ht : isTypeToken t = true) :
    ∃ n, t = .ident n := by
  cases t with
  | ident n => exact ⟨n, rfl⟩
  | punct p => cases p <;> first | (cases hb; done) | cases ht
  | _ => cases ht

theorem getLast?_of_isTypeLike {e : Expr} (h : e.Every (Printable S)) (hlike : e.isTypeLike = true)
    (hpath : e.isPath = false) : e.tokens.getLast? = some (.punct .closeBracket) := by
  cases e with
  | index t as o =>
      rw [tokens_index h.self.unwrapped, ← List.cons_append, ← List.append_assoc,
        List.getLast?_concat]
  | _ =>
      rw [isTypeLike, hpath] at hlike
      · cases hlike
      · simp

/-- Tokens as in a type are those of what could be one, or of comparisons that leave brackets
open. -/
theorem isTypeLike_of_word {e : Expr} (h : e.Every (Printable S))
    (ht : ∀ t ∈ e.tokens, isTypeToken t = true) (hs : e.tokens.IsChain TypeSeam) :
    e.tokens.count (.punct .greater) = 0 ∧
      (e.isTypeLike = true ∨ e.power < primaryPower ∧ 0 < e.tokens.count (.punct .less)) := by
  induction e using childInduction with
  | h e ih =>
      replace ih := fun c hc => ih c hc (h.child hc)
      have alien {t : Token} (hmem : t ∈ e.tokens) (hf : isTypeToken t = false) : False := by
        rw [ht t hmem] at hf
        cases hf
      obtain ⟨⟨⟨-, htypes, hplain⟩, -⟩, hself⟩ := h.self
      cases e with
      | ident name =>
          rw [tokens]
          exact ⟨rfl, .inl rfl⟩
      | this =>
          rw [tokens]
          exact ⟨rfl, .inl rfl⟩
      | literal value =>
          rw [tokens] at ht ⊢
          cases value with
          | bool b => cases b <;> exact ⟨rfl, .inl rfl⟩
          | null => exact ⟨rfl, .inl rfl⟩
          | _ => cases ht _ List.mem_cons_self
      | member t n o =>
          rw [tokens_member hself] at ht hs ⊢
          obtain ⟨htarget, hmark⟩ := List.forall_mem_append.1 ht
          obtain ⟨hchain, -, hseam⟩ := List.isChain_append.1 hs
          obtain ⟨hcount, hlike⟩ := ih t (by simp [children]) htarget hchain
          cases o with
          | true => cases hmark _ List.mem_cons_self
          | false =>
              refine ⟨by simpa [List.count_append] using hcount, .inl ?_⟩
              replace hlike := hlike.resolve_right fun hp => Nat.not_lt.2 hself hp.1
              change t.isPath = true
              refine Bool.not_eq_false _ |>.mp fun hpath => ?_
              have hlast := getLast?_of_isTypeLike (h.child (by simp [children])) hlike hpath
              obtain ⟨m, hm⟩ := (hseam _ hlast _ rfl).dot rfl
              cases hm
      | index t as o =>
          rw [tokens_index hself] at ht hs ⊢
          obtain ⟨htarget, -⟩ := List.forall_mem_append.1 ht
          obtain ⟨hchain, hargs, -⟩ := List.isChain_append.1 hs
          obtain ⟨hcount, hlike⟩ := ih t (by simp [children]) htarget hchain
          replace hlike := hlike.resolve_right fun hp => Nat.not_lt.2 hself hp.1
          cases as with
          | nil =>
              refine ⟨?_, .inl hlike⟩
              cases o <;> simpa [List.count_append, commaList] using hcount
          | cons a as =>
              obtain ⟨u, w, ha, hw⟩ := exists_leads (h.child (show a ∈ _ by simp [children]))
              simp only [List.map_cons, commaList, ha, List.cons_append,
                List.isChain_cons_cons] at hargs
              have hclose := hargs.1.bracket (by cases o <;> simp)
              rw [hclose] at hw
              cases hw.begins
      | binary op l r =>
          rw [tokens_binary hself] at ht hs ⊢
          obtain ⟨htl, hrest⟩ := List.forall_mem_append.1 ht
          obtain ⟨hop, htr⟩ := List.forall_mem_cons.1 hrest
          obtain ⟨hl, hr, -⟩ := List.isChain_append.1 hs
          obtain ⟨hcl, -⟩ := ih l (by simp [children]) htl hl
          obtain ⟨hcr, -⟩ := ih r (by simp [children]) htr hr.tail
          have hpower : (Expr.binary op l r).power < primaryPower := precedence_lt_primaryPower op
          cases op with
          | lt =>
              refine ⟨by simp [List.count_append, BinaryOp.punct, hcl, hcr], .inr ⟨hpower, ?_⟩⟩
              simp only [List.count_append, BinaryOp.punct, List.count_cons_self]
              omega
          | gt =>
              obtain ⟨u, w, hu, hw⟩ := exists_leads (h.child (show r ∈ _ by simp [children]))
              rw [hu] at htr hr
              obtain ⟨n, rfl⟩ := exists_ident_of_begins hw.begins (htr _ List.mem_cons_self)
              exact absurd rfl ((List.isChain_cons_cons.1 hr).1.greater rfl n)
          | _ => cases hop
      | defaultValue t =>
          cases t with
          | none =>
              rw [tokens]
              exact ⟨rfl, .inl rfl⟩
          | some t => exact (alien (t := .punct .openParen) (by simp [tokens]) rfl).elim
      | invoke t ts as =>
          exact (alien (t := .punct .openParen) (by simp [tokens]) rfl).elim
      | lambda ps b => exact (alien (t := .punct .arrow) (by simp [tokens]) rfl).elim
      | anonymous ms => exact (alien (t := .punct .openBrace) (by simp [tokens]) rfl).elim
      | creation t as i =>
          cases i with
          | none => exact (alien (t := .punct .openParen) (by simp [tokens]) rfl).elim
          | some ms =>
              cases as with
              | nil => exact (alien (t := .punct .openBrace) (by simp [tokens]) rfl).elim
              | cons => exact (alien (t := .punct .openParen) (by simp [tokens]) rfl).elim
      | conditional c t f => exact (alien (t := .punct .colon) (by simp [tokens]) rfl).elim
      | unary op e =>
          refine (alien (t := .punct op.punct) (by simp [tokens]) ?_).elim
          cases op <;> rfl
      | cast t e => exact (alien (t := .punct .openParen) (by simp [tokens]) rfl).elim
      | paren e => exact (alien (t := .punct .openParen) (by simp [tokens]) rfl).elim
      | interpolated ps =>
          exact (alien (t := .interpolated _) (by simp [tokens]; rfl) rfl).elim
      | marked note e => cases hplain.2

theorem isTypeLike_of_type {e : Expr} (h : e.Every (Printable S)) {p : List Token} {t : TypeExpr}
    {rest : List Token}
    (ht : (type (e.tokens ++ .punct .closeParen :: p)).Is t (.punct .closeParen :: rest)) :
    e.isTypeLike = true ∧ rest = p := by
  obtain ⟨w, hw, hword⟩ := exists_word_of_type ht
  have hself : e.tokens = w ∧ rest = p := by
    rcases List.append_eq_append_iff.1 hw with ⟨x, rfl, hx⟩ | ⟨x, hx, hp⟩
    · cases x with
      | nil =>
          cases hx
          exact ⟨(List.append_nil _).symm, rfl⟩
      | cons u x =>
          cases hx
          cases hword.tokens (.punct .closeParen) (by simp)
    · cases x with
      | nil =>
          cases hp
          exact ⟨by rw [hx, List.append_nil], rfl⟩
      | cons u x =>
          cases hp
          cases hword.tokens _ (opens_tokens h w x hx)
  obtain ⟨rfl, rfl⟩ := hself
  refine ⟨?_, rfl⟩
  obtain ⟨hcount, hlike | ⟨-, hless⟩⟩ := isTypeLike_of_word h hword.tokens hword.seams
  · exact hlike
  · have hbalance := hword.balance
    omega

theorem type_of_isTypeLike {e : Expr} (hlike : e.isTypeLike = true) (p : List Token) :
    ∃ t, isSurelyType t = e.isSureType ∧
      (type (e.tokens ++ .punct .closeParen :: p)).Is t (.punct .closeParen :: p) := by
  obtain ⟨t, hsure, ht⟩ := exists_type_of_isTypeLike hlike
  have hread := ht (.punct .closeParen :: p) (by simp [Closes])
  have hmarks : typeMarks t (.punct .closeParen :: p) = (t, .punct .closeParen :: p) :=
    typeMarks_stop (by decide) t p
  rw [hmarks] at hread
  exact ⟨t, hsure, hread⟩

/-- Parentheses are a cast only around what could be a type, in front of what can be cast to it. -/
theorem castType?_tokens {e : Expr} (h : e.Every (Printable S)) {p : List Token}
    (hcast : ∀ t, e.isTypeLike = true → isSurelyType t = e.isSureType →
      castMayPrecede t p = false) :
    castType? (e.tokens ++ .punct .closeParen :: p) = none := by
  refine eq_none_of_not_found fun t rest hfound => ?_
  obtain ⟨hread, hmay⟩ := found_castType?_iff.1 hfound
  obtain ⟨hlike, rfl⟩ := isTypeLike_of_type h hread
  obtain ⟨u, hsure, hread'⟩ := type_of_isTypeLike hlike rest
  obtain ⟨rfl, -⟩ := hread'.unique hread
  rw [hcast u hlike hsure] at hmay
  cases hmay

/-- Around what could be a type they are one there. -/
theorem castMayPrecede_of_castType? {e : Expr} (hlike : e.isTypeLike = true) {p : List Token}
    (hcast : castType? (e.tokens ++ .punct .closeParen :: p) = none) :
    ∃ t, isSurelyType t = e.isSureType ∧ castMayPrecede t p = false := by
  obtain ⟨t, hsure, hread⟩ := type_of_isTypeLike hlike p
  refine ⟨t, hsure, Bool.eq_false_iff.2 fun hmay => ?_⟩
  exact not_found_none hcast (found_castType?_iff.2 ⟨hread, hmay⟩)

end Projection.Grammar
