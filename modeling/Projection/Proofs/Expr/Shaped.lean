import Projection.Proofs.Expr.Unwrapped

/-!
Forms that reading gives and keeps apart. Parentheses around what could be a type are a cast when
something follows that can be cast, a word that is a value is no name, and generic arguments stand
behind names only; trees that mix these up are printed as something else.
-/

namespace Projection.Expr

open Grammar (wordValue? isSurelyType)

def isPath : Expr → Bool
  | ident _ | this | literal .null | literal (.bool _) | defaultValue none => true
  | member t _ false => t.isPath
  | _ => false

def isTypeLike : Expr → Bool
  | index t [] _ => t.isTypeLike
  | e => e.isPath

def isSureType : Expr → Bool
  | ident name => TypeExpr.isKeyword name
  | index t [] _ => t.isTypeLike
  | _ => false

/-- The last operand is a sure type in parentheses. -/
def endsAsType : Expr → Bool
  | paren e => e.isSureType
  | binary _ _ e | unary _ e | cast _ e => e.endsAsType
  | _ => false

def isName : Expr → Bool
  | ident _ | member _ _ _ => true
  | _ => false

def endsInName : Expr → Bool
  | ident _ | member _ _ _ => true
  | binary _ _ e | unary _ e | cast _ e => e.endsInName
  | _ => false

def isCallable : Expr → Bool
  | defaultValue none => false
  | paren e => !e.isTypeLike
  | _ => true

def isSigned : Expr → Bool
  | unary .neg _ | unary .plus _ => true
  | _ => false

/-- Words that are no names of values. -/
def isReserved (word : String) : Bool :=
  (wordValue? word).isSome || word == "new" || word == "default"

/-- The node is of a form that is read as it is printed. -/
def Shaped : Expr → Prop
  | ident name => isReserved name = false
  | invoke t [] _ => t.isCallable = true
  | invoke t (_ :: _) _ => t.isName = true
  | binary op l _ => op = .add ∨ op = .sub → l.endsAsType = false
  | cast t e => e.isSigned = true → isSurelyType t = true
  | _ => True

instance : DecidablePred Shaped
  | ident name => inferInstanceAs (Decidable (isReserved name = false))
  | invoke t [] _ => inferInstanceAs (Decidable (t.isCallable = true))
  | invoke t (_ :: _) _ => inferInstanceAs (Decidable (t.isName = true))
  | binary op l _ => inferInstanceAs (Decidable (op = .add ∨ op = .sub → l.endsAsType = false))
  | cast t e => inferInstanceAs (Decidable (e.isSigned = true → isSurelyType t = true))
  | this | literal _ | member _ _ _ | index _ _ _ | lambda _ _ | anonymous _ | creation _ _ _
  | conditional _ _ _ | unary _ _ | defaultValue _ | interpolated _ | paren _ | marked _ _ =>
      .isTrue trivial

theorem power_of_isPath {e : Expr} (h : e.isPath = true) : e.power = primaryPower := by
  unfold isPath at h
  split at h <;> first | rfl | cases h

theorem power_of_isTypeLike {e : Expr} (h : e.isTypeLike = true) : e.power = primaryPower := by
  unfold isTypeLike at h
  split at h
  · rfl
  · exact power_of_isPath h

theorem power_of_isName {e : Expr} (h : e.isName = true) : e.power = primaryPower := by
  unfold isName at h
  split at h <;> first | rfl | cases h

theorem wrap_primary (e : Expr) :
    wrap (e.power < primaryPower) e.bracketed = e.bracketed ∧ e.power = primaryPower ∨
      wrap (e.power < primaryPower) e.bracketed = paren e.bracketed ∧ e.power < primaryPower := by
  by_cases h : e.power < primaryPower
  · exact .inr ⟨by simp [wrap, h], h⟩
  · exact .inl ⟨by simp [wrap, h], Nat.le_antisymm (power_le e) (Nat.not_lt.1 h)⟩

theorem isPath_bracketed (e : Expr) : e.bracketed.isPath = e.isPath := by
  induction e using childInduction with
  | h e ih =>
      cases e with
      | member t n o =>
          rw [bracketed]
          cases o with
          | true => rfl
          | false =>
              have ht := ih t (by simp [children])
              rcases wrap_primary t with ⟨hw, -⟩ | ⟨hw, hp⟩
              · rw [hw]
                exact ht
              · rw [hw]
                refine (Bool.eq_false_iff.2 fun h => ?_).symm
                exact absurd (power_of_isPath (e := t) h) (Nat.ne_of_lt hp)
      | creation t as i => cases i <;> rw [bracketed] <;> rfl
      | _ => simp [bracketed, isPath]

theorem isTypeLike_bracketed (e : Expr) : e.bracketed.isTypeLike = e.isTypeLike := by
  induction e using childInduction with
  | h e ih =>
      cases e with
      | index t as o =>
          rw [bracketed]
          cases as with
          | nil =>
              have ht := ih t (by simp [children])
              rcases wrap_primary t with ⟨hw, -⟩ | ⟨hw, hp⟩
              · rw [hw]
                exact ht
              · rw [hw]
                refine (Bool.eq_false_iff.2 fun h => ?_).symm
                exact absurd (power_of_isTypeLike (e := t) h) (Nat.ne_of_lt hp)
          | cons a as => rfl
      | member t n o =>
          have h := isPath_bracketed (member t n o)
          rw [bracketed] at h ⊢
          exact h
      | creation t as i => cases i <;> rw [bracketed] <;> rfl
      | _ => simp [bracketed, isTypeLike, isPath]

theorem isTypeLike_of_isSureType {e : Expr} (h : e.isSureType = true) : e.isTypeLike = true := by
  unfold isSureType at h
  split at h
  · rfl
  · exact h
  · cases h

theorem isSureType_bracketed (e : Expr) : e.bracketed.isSureType = e.isSureType := by
  cases e with
  | index t as o =>
      cases as with
      | nil =>
          have h := isTypeLike_bracketed (index t [] o)
          rw [bracketed] at h ⊢
          exact h
      | cons a as =>
          rw [bracketed]
          rfl
  | creation t as i => cases i <;> rw [bracketed] <;> rfl
  | _ => simp [bracketed, isSureType]

theorem lt_primaryPower_of_repeatsSign {op : UnaryOp} {e : Expr} (h : repeatsSign op e = true) :
    e.power < primaryPower := by
  unfold repeatsSign at h
  split at h
  · exact Nat.lt_of_sub_eq_succ rfl
  · exact Nat.lt_of_sub_eq_succ rfl
  · cases h

theorem endsAsType_wrap {needed : Bool} {e : Expr} (hn : needed = true → e.power < primaryPower)
    (ih : e.bracketed.endsAsType = true → e.endsAsType = true)
    (h : (wrap needed e.bracketed).endsAsType = true) : e.endsAsType = true := by
  cases needed with
  | false => exact ih h
  | true =>
      rw [wrap, if_pos rfl, endsAsType, isSureType_bracketed] at h
      have hp := power_of_isTypeLike (isTypeLike_of_isSureType h)
      exact absurd hp (Nat.ne_of_lt (hn rfl))

theorem lt_primaryPower {limit : Nat} (hl : limit ≤ primaryPower) {e : Expr}
    (h : decide (e.power < limit) = true) : e.power < primaryPower :=
  Nat.lt_of_lt_of_le (of_decide_eq_true h) hl

theorem endsAsType_of_bracketed {e : Expr} (h : e.bracketed.endsAsType = true) :
    e.endsAsType = true := by
  induction e using childInduction with
  | h e ih =>
      cases e with
      | paren e =>
          rw [bracketed, endsAsType, isSureType_bracketed] at h
          exact h
      | binary op l r =>
          rw [bracketed] at h
          exact endsAsType_wrap (e := r) (lt_primaryPower (limit_le_primaryPower op).2)
            (ih r (by simp [children])) h
      | unary op e =>
          rw [bracketed] at h
          refine endsAsType_wrap (e := e) (fun hn => ?_) (ih e (by simp [children])) h
          rcases Bool.or_eq_true_iff.1 hn with hn | hn
          · exact lt_primaryPower_of_repeatsSign hn
          · exact lt_primaryPower (by decide) hn
      | cast t e =>
          rw [bracketed] at h
          have hlimit : unaryPower ≤ primaryPower := by decide
          exact endsAsType_wrap (e := e) (lt_primaryPower hlimit) (ih e (by simp [children])) h
      | creation t as i => cases i <;> rw [bracketed] at h <;> cases h
      | _ => simp [bracketed, endsAsType] at h

theorem isName_bracketed (e : Expr) : e.bracketed.isName = e.isName := by
  cases e with
  | creation t as i => cases i <;> rw [bracketed] <;> rfl
  | _ => simp [bracketed, isName]

theorem isSigned_bracketed (e : Expr) : e.bracketed.isSigned = e.isSigned := by
  cases e with
  | creation t as i => cases i <;> rw [bracketed] <;> rfl
  | unary op e => cases op <;> rw [bracketed] <;> rfl
  | _ => simp [bracketed, isSigned]

theorem isCallable_bracketed (e : Expr) : e.bracketed.isCallable = e.isCallable := by
  cases e with
  | creation t as i => cases i <;> rw [bracketed] <;> rfl
  | paren e => rw [bracketed, isCallable, isCallable, isTypeLike_bracketed]
  | _ => simp [bracketed, isCallable]

theorem Shaped.bracketed {e : Expr} (h : e.Shaped) : e.bracketed.Shaped := by
  cases e with
  | invoke t ts as =>
      rw [Expr.bracketed]
      rcases wrap_primary t with ⟨hw, -⟩ | ⟨hw, hp⟩
      · rw [hw]
        cases ts with
        | nil => exact (isCallable_bracketed t).trans h
        | cons => exact (isName_bracketed t).trans h
      · rw [hw]
        cases ts with
        | nil =>
            have hlike : t.bracketed.isTypeLike = false := by
              rw [isTypeLike_bracketed]
              exact Bool.eq_false_iff.2 fun h => Nat.ne_of_lt hp (power_of_isTypeLike h)
            exact congrArg not hlike
        | cons => exact absurd (power_of_isName (e := t) h) (Nat.ne_of_lt hp)
  | binary op l r =>
      rw [Expr.bracketed]
      intro hop
      refine Bool.eq_false_iff.2 fun hends => ?_
      have hl := endsAsType_wrap (lt_primaryPower (limit_le_primaryPower op).1)
        endsAsType_of_bracketed hends
      rw [h hop] at hl
      cases hl
  | cast t e =>
      rw [Expr.bracketed]
      intro hsign
      refine h ?_
      cases hn : decide (e.power < unaryPower) with
      | true =>
          rw [hn] at hsign
          cases hsign
      | false =>
          rw [hn] at hsign
          exact (isSigned_bracketed e).symm.trans hsign
  | ident name =>
      rw [bracketed_of_children_nil rfl]
      exact h
  | creation t as i => cases i <;> rw [Expr.bracketed] <;> trivial
  | _ => simp [Expr.bracketed, Shaped]

variable {S : Strings}

theorem Spellable.bracketed {e : Expr} (h : e.Spellable S) : e.bracketed.Spellable S := by
  obtain ⟨hown, htypes, hplain⟩ := h
  cases e with
  | anonymous ms =>
      rw [Expr.bracketed]
      refine ⟨?_, htypes, hplain⟩
      simpa [ownTokens, List.filterMap_map, Function.comp_def] using hown
  | creation t as i =>
      cases i with
      | none =>
          rw [Expr.bracketed]
          exact ⟨hown, htypes, hplain⟩
      | some ms =>
          rw [Expr.bracketed]
          refine ⟨?_, htypes, hplain⟩
          simpa [ownTokens, List.filterMap_map, Function.comp_def] using hown
  | _ =>
      simp only [Expr.bracketed]
      exact ⟨hown, htypes, hplain⟩

/-- The node can be spelled and is read as it is printed. -/
structure Formed (S : Strings) (n : Expr) : Prop where
  spellable : n.Spellable S
  shaped : n.Shaped

structure Printable (S : Strings) (n : Expr) : Prop extends Formed S n where
  unwrapped : n.Unwrapped

theorem printable_paren (e : Expr) : (paren e).Printable S :=
  ⟨⟨⟨nofun, nofun, trivial, rfl⟩, trivial⟩, trivial⟩

theorem Spellable.children_eq_nil {e : Expr} (hS : S.Solid) (h : e.Spellable S)
    (hi : e.isInterpolated = true) : e.children = [] := by
  cases e with
  | interpolated ps => exact hS ps h.plain.1
  | _ => cases hi

theorem every_printable_bracketed {e : Expr} (hS : S.Solid) (h : e.Every (Formed S)) :
    e.bracketed.Every (Printable S) :=
  every_bracketed (fun n hn => ⟨⟨hn.spellable.bracketed, hn.shaped.bracketed⟩,
    unwrapped_bracketed n⟩) printable_paren (fun _ hn => hn.spellable.children_eq_nil hS) h

end Projection.Expr
