import Projection.TypeExpr.Parser

/-!
The grammar of types rule by rule, as what the reader accepts and as the way to prove facts of all
that it accepts.
-/

namespace Projection.Grammar

def Result.Is {α : Type} {limit : Nat} (r : Result α limit) (a : α) (rest : List Token) : Prop :=
  ∃ h, r = .ok ⟨a, rest, h⟩

theorem Result.Is.unique {α : Type} {limit : Nat} {r : Result α limit} {a b : α}
    {rest rest' : List Token} (h : r.Is a rest) (h' : r.Is b rest') : a = b ∧ rest = rest' := by
  obtain ⟨_, h⟩ := h
  obtain ⟨_, h'⟩ := h'
  rw [h] at h'
  cases h'
  exact ⟨rfl, rfl⟩

/-- What is read where: a type, and types up to the closing bracket. -/
structure TypeRelation where
  type : List Token → TypeExpr → List Token → Prop
  list : List Token → List TypeExpr → List Token → Prop

structure TypeRelation.Kept (R : TypeRelation) : Prop where
  generic : ∀ {first ts more args rest}, (dotted first ts).2 = .punct .less :: more →
    R.list more args rest →
    R.type (.ident first :: ts) (typeMarks (.named (dotted first ts).1 args) rest).1
      (typeMarks (.named (dotted first ts).1 args) rest).2
  simple : ∀ {first ts}, (∀ more, (dotted first ts).2 ≠ .punct .less :: more) →
    R.type (.ident first :: ts) (typeMarks (.simple (dotted first ts).1) (dotted first ts).2).1
      (typeMarks (.simple (dotted first ts).1) (dotted first ts).2).2
  next : ∀ {ts t more us rest}, R.type ts t (.punct .comma :: more) → R.list more us rest →
    R.list ts (t :: us) rest
  last : ∀ {ts t rest}, R.type ts t (.punct .greater :: rest) → R.list ts [t] rest

def readsType : TypeRelation where
  type ts := (Grammar.type ts).Is
  list ts := (Grammar.typeList ts).Is

theorem readsType_kept : readsType.Kept where
  generic := by
    rintro first ts more args rest hd ⟨h, ha⟩
    have hw := weight_dotted_le first ts
    have hm := weight_typeMarks_le (.named (dotted first ts).1 args) rest
    rw [hd, weight_cons] at hw
    refine ⟨by rw [weight_cons]; omega, ?_⟩
    unfold Grammar.type
    split
    · rename_i hd'
      rw [hd] at hd'
      cases hd'
      simp only [ha]
      rfl
    · rename_i hn
      exact absurd hd (hn _)
  simple := by
    intro first ts hn
    have hw := weight_dotted_le first ts
    have hm := weight_typeMarks_le (.simple (dotted first ts).1) (dotted first ts).2
    refine ⟨by rw [weight_cons]; have := (Token.ident first).weight_pos; omega, ?_⟩
    unfold Grammar.type
    split
    · rename_i hd
      exact absurd hd (hn _)
    · rfl
  next := by
    rintro ts t more us rest ⟨h, ht⟩ ⟨h', hu⟩
    refine ⟨by rw [weight_cons] at h; omega, ?_⟩
    unfold Grammar.typeList
    simp only [ht, hu]
  last := by
    rintro ts t rest ⟨h, ht⟩
    refine ⟨by rw [weight_cons] at h; omega, ?_⟩
    unfold Grammar.typeList
    simp only [ht]

theorem TypeRelation.Kept.all {R : TypeRelation} (rules : R.Kept) :
    (∀ ts, ∀ t rest, (Grammar.type ts).Is t rest → R.type ts t rest) ∧
    ∀ ts, ∀ us rest, (Grammar.typeList ts).Is us rest → R.list ts us rest := by
  apply Grammar.type.mutual_induct
  case case1 =>
    intro first ts _ more hd f hf _ t rest ⟨_, h⟩
    unfold Grammar.type at h
    split at h
    · rename_i hd'
      rw [hd] at hd'
      cases hd'
      simp only [hf] at h
      cases h
    · rename_i hn
      exact absurd hd (hn _)
  case case2 =>
    intro first ts _ more hd args behind hb ha ih t rest h
    obtain ⟨rfl, rfl⟩ := (readsType_kept.generic hd ⟨hb, ha⟩).unique h
    exact rules.generic hd (ih _ _ ⟨hb, ha⟩)
  case case3 =>
    intro first ts _ hn t rest h
    obtain ⟨rfl, rfl⟩ := (readsType_kept.simple hn).unique h
    exact rules.simple hn
  case case4 =>
    intro ts hn t rest ⟨_, h⟩
    unfold Grammar.type at h
    split at h
    · exact absurd rfl (hn _ _)
    · cases h
  case case5 =>
    intro ts f hf _ us rest ⟨_, h⟩
    unfold Grammar.typeList at h
    simp only [hf] at h
    cases h
  case case6 =>
    intro ts t more _ f hf hb ht _ _ us rest ⟨_, h⟩
    unfold Grammar.typeList at h
    simp only [ht, hf] at h
    cases h
  case case7 =>
    intro ts t more _ others behind hb ho hb' ht iht iho us rest h
    obtain ⟨rfl, rfl⟩ := (readsType_kept.next ⟨hb', ht⟩ ⟨hb, ho⟩).unique h
    exact rules.next (iht _ _ ⟨hb', ht⟩) (iho _ _ ⟨hb, ho⟩)
  case case8 =>
    intro ts t more _ hb ht iht us rest h
    obtain ⟨rfl, rfl⟩ := (readsType_kept.last ⟨hb, ht⟩).unique h
    exact rules.last (iht _ _ ⟨hb, ht⟩)
  case case9 =>
    intro ts t behind _ _ _ hb ht _ us rest ⟨_, h⟩
    unfold Grammar.typeList at h
    simp only [ht] at h
    cases h

end Projection.Grammar
