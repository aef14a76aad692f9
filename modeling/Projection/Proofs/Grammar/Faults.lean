import Projection.Proofs.Grammar.Suffix

/-!
Where faults come from. A rule fails at a token, or because a hole of an interpolated string is
refused; then the string is among the tokens that the rule was given, and the hole is refused as a
source of its own would be.
-/

namespace Projection.Grammar

open Interpolation

/-- If the fault is that of a hole, then of one in an interpolated string among the tokens. -/
def Blames (ts : List Token) (f : Fault) : Prop :=
  ∀ e, f = .hole e → ∃ raw, .interpolated raw ∈ ts ∧ holes (segments raw.toList) = .error f

section Blames

variable {ts rest : List Token} {f : Fault}

theorem blames_expected {what : String} {left : Nat} : Blames ts (.expected what left) := by
  intro e he
  cases he

theorem Blames.suffix (h : Blames rest f) (hs : rest <:+ ts) : Blames ts f := by
  intro e he
  obtain ⟨raw, hraw, hholes⟩ := h e he
  exact ⟨raw, hs.subset hraw, hholes⟩

theorem Blames.cons {t : Token} (h : Blames ts f) : Blames (t :: ts) f :=
  h.suffix (List.suffix_cons t ts)

theorem blames_of_fail {α : Type} {limit : Nat} {what : String}
    (h : (fail what rest : Result α limit) = .error f) : Blames ts f := by
  cases h
  exact blames_expected

end Blames

/-- Types hold no strings. -/
theorem type_blames_and :
    (∀ ts, ∀ f, type ts = .error f → Blames ts f) ∧
    ∀ ts, ∀ f, typeList ts = .error f → Blames ts f := by
  apply type.mutual_induct
  case case1 =>
    intro first ts _ more hd f hf ih f' h
    unfold type at h
    split at h
    · rename_i hd'
      rw [hd] at hd'
      cases hd'
      have hdotted := dotted_suffix first ts
      rw [hd] at hdotted
      simp only [hf] at h
      cases h
      exact (ih f hf).suffix (suffix_cons_of_suffix (suffix_of_cons hdotted))
    · rename_i hn
      exact absurd hd (hn _)
  case case2 =>
    intro first ts _ more hd args behind hb ha ih f h
    obtain ⟨_, hok⟩ := readsType_kept.generic hd ⟨hb, ha⟩
    rw [hok] at h
    cases h
  case case3 =>
    intro first ts _ hn f h
    obtain ⟨_, hok⟩ := readsType_kept.simple hn
    rw [hok] at h
    cases h
  case case4 =>
    intro ts hn f h
    unfold type at h
    split at h
    · exact absurd rfl (hn _ _)
    · exact blames_of_fail h
  case case5 =>
    intro ts f hf ih f' h
    unfold typeList at h
    simp only [hf] at h
    cases h
    exact ih f hf
  case case6 =>
    intro ts t more _ f hf hb ht _ ih f' h
    unfold typeList at h
    simp only [ht, hf] at h
    cases h
    exact (ih f hf).suffix (suffix_of_cons (type_suffix ⟨hb, ht⟩))
  case case7 =>
    intro ts t more _ others behind hb ho hb' ht _ _ f h
    obtain ⟨_, hok⟩ := readsType_kept.next ⟨hb', ht⟩ ⟨hb, ho⟩
    rw [hok] at h
    cases h
  case case8 =>
    intro ts t more _ hb ht _ f h
    obtain ⟨_, hok⟩ := readsType_kept.last ⟨hb, ht⟩
    rw [hok] at h
    cases h
  case case9 =>
    intro ts t behind _ _ _ hb ht _ f h
    unfold typeList at h
    simp only [ht] at h
    exact blames_of_fail h

theorem type_blames {ts : List Token} {f : Fault} (h : type ts = .error f) : Blames ts f :=
  type_blames_and.1 ts f h

structure BlamesBelow (n : Nat) : Prop where
  expression : ∀ {ts f}, weight ts * 16 + 6 < n → expression ts = .error f → Blames ts f
  binary : ∀ {least ts f}, weight ts * 16 + 5 < n → binary least ts = .error f → Blames ts f
  binaryRest : ∀ {least left ts f}, weight ts * 16 < n → binaryRest least left ts = .error f →
    Blames ts f
  unary : ∀ {ts f}, weight ts * 16 + 4 < n → unary ts = .error f → Blames ts f
  trailers : ∀ {e ts f}, weight ts * 16 + 2 < n → trailers e ts = .error f → Blames ts f
  items : ∀ {close ts f}, weight ts * 16 + 8 < n → items close ts = .error f → Blames ts f
  someItems : ∀ {close ts f}, weight ts * 16 + 7 < n → someItems close ts = .error f → Blames ts f
  memberTrailer : ∀ {e optional ts f}, weight ts * 16 + 3 < n →
    memberTrailer e optional ts = .error f → Blames ts f
  genericCall : ∀ {e ts f}, weight ts * 16 < n → genericCall e ts = .error f → Blames ts f
  primary : ∀ {ts f}, weight ts * 16 + 3 < n → primary ts = .error f → Blames ts f
  creation : ∀ {ts f}, weight ts * 16 + 2 < n → creation ts = .error f → Blames ts f
  initializers : ∀ {ts f}, weight ts * 16 + 7 < n → initializers ts = .error f → Blames ts f
  moreInitializers : ∀ {ts f}, weight ts * 16 < n → moreInitializers ts = .error f → Blames ts f

attribute [local grind =] weight_cons Token.weight

section Steps

variable {ts : List Token} {f : Fault}

theorem expression_blames_step (below : BlamesBelow (weight ts * 16 + 6))
    (h : expression ts = .error f) : Blames ts f := by
  unfold expression at h
  split at h
  · rename_i header hl
    have := weight_lambdaHeader_lt hl
    split at h
    · exact blames_of_fail h
    · split at h
      · rename_i hbody
        cases h
        exact (below.expression (by grind) hbody).suffix (lambdaHeader_suffix hl)
      · cases h
  · split at h
    · rename_i hc
      cases h
      exact below.binary (by grind) hc
    · rename_i hc
      split at h
      · have hmore := suffix_of_cons (binary_suffix ⟨_, hc⟩)
        split at h
        · rename_i ht
          cases h
          exact (below.expression (by grind) ht).suffix hmore
        · rename_i ht
          split at h
          · have hmore' := suffix_of_cons (expression_suffix ⟨_, ht⟩)
            split at h
            · rename_i hf
              cases h
              exact (below.expression (by grind) hf).suffix (hmore'.trans hmore)
            · cases h
          · exact blames_of_fail h
      · cases h

theorem binary_blames_step {least : Nat} (below : BlamesBelow (weight ts * 16 + 5))
    (h : binary least ts = .error f) : Blames ts f := by
  unfold binary at h
  split at h
  · rename_i hl
    cases h
    exact below.unary (by grind) hl
  · rename_i hl
    split at h
    · rename_i hr
      cases h
      exact (below.binaryRest (by grind) hr).suffix (unary_suffix ⟨_, hl⟩)
    · cases h

theorem binaryRest_blames_step {least : Nat} {left : Expr} (below : BlamesBelow (weight ts * 16))
    (h : binaryRest least left ts = .error f) : Blames ts f := by
  unfold binaryRest at h
  split at h
  · cases h
  · split at h
    · cases h
    · split at h
      · cases h
      · split at h
        · rename_i hr
          cases h
          exact (below.binary (by grind [Token.weight_pos]) hr).cons
        · rename_i hr
          split at h
          · rename_i he
            cases h
            exact ((below.binaryRest (by grind [Token.weight_pos]) he).suffix
              (binary_suffix ⟨_, hr⟩)).cons
          · cases h

theorem unary_blames_step (below : BlamesBelow (weight ts * 16 + 4))
    (h : unary ts = .error f) : Blames ts f := by
  unfold unary at h
  split at h
  · exact blames_of_fail h
  · rename_i t more
    have hw := weight_cons t more
    have hpos := t.weight_pos
    split at h
    · split at h
      · rename_i hr
        cases h
        exact (below.unary (by grind) hr).cons
      · cases h
    · split at h
      · rename_i hc
        obtain ⟨rfl, hc⟩ := Option.ite_none_right_eq_some.1 hc
        split at h
        · rename_i hr
          cases h
          exact ((below.unary (by grind) hr).suffix (castType?_suffix ⟨_, hc⟩)).cons
        · cases h
      · split at h
        · rename_i hp
          cases h
          exact below.primary (by grind) hp
        · rename_i hp
          have hmore := primary_suffix ⟨_, hp⟩
          split at h
          · rename_i hg
            cases h
            split at hg
            · exact (below.genericCall (by grind) hg).suffix hmore
            · cases hg
          · rename_i hg
            split at h
            · rename_i ht
              cases h
              refine (below.trailers (by grind) ht).suffix ?_
              split at hg
              · exact (genericCall_suffix ⟨_, hg⟩).trans hmore
              · cases hg
                exact hmore
            · cases h

theorem primary_blames_step (below : BlamesBelow (weight ts * 16 + 3))
    (h : primary ts = .error f) : Blames ts f := by
  unfold primary at h
  split at h
  · split at h
    · cases h
    · split at h
      · split at h
        · rename_i hc
          cases h
          exact (below.creation (by grind) hc).cons
        · cases h
      · split at h
        · split at h
          · split at h
            · rename_i ht
              cases h
              exact (type_blames ht).cons.cons
            · split at h
              · cases h
              · exact blames_of_fail h
          · cases h
        · cases h
  · cases h
  · cases h
  · cases h
  · cases h
  · rename_i raw rest
    split at h
    · rename_i hp
      cases h
      exact fun e he => ⟨raw, List.mem_cons_self, hp⟩
    · cases h
  · split at h
    · rename_i he
      cases h
      exact (below.expression (by grind) he).cons
    · split at h
      · cases h
      · exact blames_of_fail h
  · exact blames_of_fail h

theorem trailers_blames_step {e : Expr} (below : BlamesBelow (weight ts * 16 + 2))
    (h : trailers e ts = .error f) : Blames ts f := by
  unfold trailers at h
  split at h
  · split at h
    · rename_i hm
      cases h
      exact (below.memberTrailer (by grind) hm).cons
    · cases h
  · split at h
    · rename_i hm
      cases h
      exact (below.memberTrailer (by grind) hm).cons
    · cases h
  iterate 3
    split at h
    · rename_i ha
      cases h
      exact (below.items (by grind) ha).cons
    · rename_i ha
      split at h
      · rename_i ht
        cases h
        exact ((below.trailers (by grind) ht).suffix (items_suffix ⟨_, ha⟩)).cons
      · cases h
  · cases h

theorem memberTrailer_blames_step {e : Expr} {optional : Bool}
    (below : BlamesBelow (weight ts * 16 + 3)) (h : memberTrailer e optional ts = .error f) :
    Blames ts f := by
  unfold memberTrailer at h
  split at h
  · split at h
    · rename_i hg
      cases h
      exact (below.genericCall (by grind) hg).cons
    · rename_i hg
      split at h
      · rename_i ht
        cases h
        exact ((below.trailers (by grind) ht).suffix (genericCall_suffix ⟨_, hg⟩)).cons
      · cases h
  · exact blames_of_fail h

theorem genericCall_blames_step {e : Expr} (below : BlamesBelow (weight ts * 16))
    (h : genericCall e ts = .error f) : Blames ts f := by
  unfold genericCall at h
  split at h
  · cases h
  · rename_i hs
    split at h
    · rename_i ha
      cases h
      exact (below.items (by grind) ha).suffix (callTypeArgs?_suffix ⟨_, hs⟩)
    · cases h

theorem items_blames_step {close : Punct} (below : BlamesBelow (weight ts * 16 + 8))
    (h : items close ts = .error f) : Blames ts f := by
  unfold items at h
  split at h
  · split at h
    · cases h
    · exact below.someItems (by grind) h
  · exact below.someItems (by grind) h

theorem someItems_blames_step {close : Punct} (below : BlamesBelow (weight ts * 16 + 7))
    (h : someItems close ts = .error f) : Blames ts f := by
  unfold someItems at h
  split at h
  · rename_i he
    cases h
    exact below.expression (by grind) he
  · rename_i he
    split at h
    · split at h
      · cases h
      · split at h
        · split at h
          · rename_i hs
            cases h
            exact (below.someItems (by grind) hs).suffix
              (suffix_of_cons (expression_suffix ⟨_, he⟩))
          · cases h
        · exact blames_of_fail h
    · exact blames_of_fail h

theorem creation_blames_step (below : BlamesBelow (weight ts * 16 + 2))
    (h : creation ts = .error f) : Blames ts f := by
  unfold creation at h
  split at h
  · split at h
    · rename_i hm
      cases h
      exact (below.initializers (by grind) hm).cons
    · cases h
  · split at h
    · rename_i ht
      cases h
      exact type_blames ht
    · rename_i ht
      split at h
      · have hmore := suffix_of_cons (type_suffix ⟨_, ht⟩)
        split at h
        · rename_i ha
          cases h
          exact (below.items (by grind) ha).suffix hmore
        · rename_i ha
          split at h
          · have hmore' := suffix_of_cons (items_suffix ⟨_, ha⟩)
            split at h
            · rename_i hm
              cases h
              exact (below.initializers (by grind) hm).suffix (hmore'.trans hmore)
            · cases h
          · cases h
      · have hmore := suffix_of_cons (type_suffix ⟨_, ht⟩)
        split at h
        · rename_i hm
          cases h
          exact (below.initializers (by grind) hm).suffix hmore
        · cases h
      · exact blames_of_fail h

theorem initializers_blames_step (below : BlamesBelow (weight ts * 16 + 7))
    (h : initializers ts = .error f) : Blames ts f := by
  unfold initializers at h
  split at h
  · cases h
  · split at h
    · rename_i hv
      cases h
      exact (below.expression (by grind) hv).cons.cons
    · rename_i hv
      split at h
      · rename_i hm
        cases h
        exact ((below.moreInitializers (by grind) hm).suffix
          (expression_suffix ⟨_, hv⟩)).cons.cons
      · cases h
  · split at h
    · rename_i hv
      cases h
      exact below.expression (by grind) hv
    · rename_i hv
      split at h
      · rename_i hm
        cases h
        exact (below.moreInitializers (by grind) hm).suffix (expression_suffix ⟨_, hv⟩)
      · cases h

theorem moreInitializers_blames_step (below : BlamesBelow (weight ts * 16))
    (h : moreInitializers ts = .error f) : Blames ts f := by
  unfold moreInitializers at h
  split at h
  · split at h
    · rename_i hm
      cases h
      exact (below.initializers (by grind) hm).cons
    · cases h
  · cases h
  · exact blames_of_fail h

end Steps

theorem blamesBelow (n : Nat) : BlamesBelow n := by
  induction n using Nat.strongRecOn with
  | ind n ih =>
      exact
        { expression := fun hn h => expression_blames_step (ih _ hn) h
          binary := fun hn h => binary_blames_step (ih _ hn) h
          binaryRest := fun hn h => binaryRest_blames_step (ih _ hn) h
          unary := fun hn h => unary_blames_step (ih _ hn) h
          trailers := fun hn h => trailers_blames_step (ih _ hn) h
          items := fun hn h => items_blames_step (ih _ hn) h
          someItems := fun hn h => someItems_blames_step (ih _ hn) h
          memberTrailer := fun hn h => memberTrailer_blames_step (ih _ hn) h
          genericCall := fun hn h => genericCall_blames_step (ih _ hn) h
          primary := fun hn h => primary_blames_step (ih _ hn) h
          creation := fun hn h => creation_blames_step (ih _ hn) h
          initializers := fun hn h => initializers_blames_step (ih _ hn) h
          moreInitializers := fun hn h => moreInitializers_blames_step (ih _ hn) h }

theorem expression_blames {ts : List Token} {f : Fault} (h : expression ts = .error f) :
    Blames ts f :=
  (blamesBelow _).expression (Nat.lt_succ_self _) h

theorem holes_of_parseChars_error {source : List Char} {e : SyntaxError}
    (h : Expr.parseChars source = .error e) (format : Option (List Char)) (ss : List Segment) :
    holes (.hole source format :: ss) = .error (.hole e) := by
  unfold Expr.parseChars at h
  unfold holes
  split
  · rename_i hs
    rw [hs] at h
    cases h
    rfl
  · rename_i hs
    rw [hs] at h
    dsimp only at h
    split at h
    · rename_i hf
      cases h
      simp only [hf]
    · rename_i hr
      split at h
      · cases h
      · rename_i hrest
        cases h
        simp only [hr, if_neg hrest]

theorem holes_of_parseChars_ok {source : List Char} {e : Expr}
    (h : Expr.parseChars source = .ok e) (format : Option (List Char)) (ss : List Segment) :
    holes (.hole source format :: ss) =
      (holes ss).map (.hole e (format.map String.ofList) :: ·) := by
  unfold Expr.parseChars at h
  conv => lhs; unfold holes
  split
  · rename_i hs
    rw [hs] at h
    cases h
  · rename_i hs
    rw [hs] at h
    dsimp only at h
    split at h
    · cases h
    · rename_i hr
      split at h
      · rename_i hrest
        cases h
        simp only [hr, if_pos hrest]
        cases holes ss <;> rfl
      · cases h

/-- Holes are refused as the sources they are. -/
theorem exists_hole_of_holes_error {ss : List Segment} {f : Fault} (h : holes ss = .error f) :
    ∃ source format e, .hole source format ∈ ss ∧ f = .hole e ∧
      Expr.parseChars source = .error e := by
  induction ss with
  | nil =>
      unfold holes at h
      cases h
  | cons s ss ih =>
      have later (h : holes ss = .error f) : ∃ source format e,
          .hole source format ∈ s :: ss ∧ f = .hole e ∧ Expr.parseChars source = .error e := by
        obtain ⟨source, format, e, hmem, hf, he⟩ := ih h
        exact ⟨source, format, e, List.mem_cons_of_mem _ hmem, hf, he⟩
      cases s with
      | text chars =>
          simp only [holes] at h
          split at h
          · rename_i hrest
            exact later (hrest.trans h)
          · cases h
      | hole source format =>
          cases hp : Expr.parseChars source with
          | error e =>
              rw [holes_of_parseChars_error hp] at h
              cases h
              exact ⟨source, format, e, List.mem_cons_self, rfl, hp⟩
          | ok e =>
              rw [holes_of_parseChars_ok hp] at h
              cases hrest : holes ss with
              | error f' =>
                  rw [hrest] at h
                  cases h
                  exact later hrest
              | ok parts =>
                  rw [hrest] at h
                  cases h

end Projection.Grammar
