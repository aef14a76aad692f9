import Projection.Proofs.Token.Lossless

/-!
How far a scan comes. Whether it succeeds or not, each place where it looks for a token is reached
over tokens with gaps between them, and its errors tell what it met there.
-/

namespace Projection

namespace Lexer

def literalOpenings : List (List Char) := [['"'], ['\''], ['$', '"']]

theorem lexeme_fault_cases {c : Char} {rest : List Char} {fault : Fault}
    (h : lexeme c rest = .error fault) :
    fault = .stray c ∨
      fault = .openLiteral ∧ ∃ opening ∈ literalOpenings, opening <+: c :: rest := by
  unfold lexeme at h
  split at h
  · rename_i hc
    obtain ⟨rfl, hq⟩ := hc
    split at h
    · cases h
    · cases h
      cases rest with
      | nil => cases hq
      | cons d rest =>
          cases hq
          exact .inr ⟨rfl, ['$', '"'], by decide, rest, rfl⟩
  · split at h
    · cases h
    · split at h
      · cases h
      · split at h
        · cases h
        · split at h
          · rename_i hc
            subst hc
            exact .inr ⟨openLiteral_of_literal h, ['"'], by decide, rest, rfl⟩
          · split at h
            · rename_i hc
              subst hc
              exact .inr ⟨openLiteral_of_literal h, ['\''], by decide, rest, rfl⟩
            · split at h
              · cases h
              · cases h
                exact .inl rfl
where
  openLiteral_of_literal {q : Char} {make : String → Token} {cs : List Char} {fault : Fault}
      (h : literal q make cs = .error fault) : fault = .openLiteral := by
    unfold literal at h
    split at h
    · cases h
    · cases h
      rfl

end Lexer

namespace Scan

open Lexer Text

/-- Behind the characters `before`, the pieces and a gap are what of `cs` stands in front of `rest`;
each piece stands where the others leave it. -/
structure Reaches (before cs : List Char) (ps : List Piece) (last rest : List Char) : Prop where
  text : cs = Piece.join ps ++ (last ++ rest)
  gap : IsGap last rest
  stands : ∀ {front p more}, ps = front ++ p :: more →
    p.Stands (before ++ Piece.join front) (Piece.join more ++ (last ++ rest))

def ReachedAt (before cs : List Char) (place : Position) (rest : List Char) : Prop :=
  ∃ ps last, Reaches before cs ps last rest ∧ place = .behind (before ++ (Piece.join ps ++ last))

theorem reachedAt_gap (before cs : List Char) :
    ReachedAt before cs (.behind (before ++ (gap cs).1)) (gap cs).2 := by
  refine ⟨[], (gap cs).1, ⟨(gap_split cs).symm, isGap_gap cs, ?_⟩, rfl⟩
  intro front p more heq
  simp at heq

theorem ReachedAt.cons {before behind : List Char} {p : Piece} {place : Position}
    {rest : List Char} (hp : p.Stands before behind)
    (h : ReachedAt (before ++ (p.gap ++ p.text)) behind place rest) :
    ReachedAt before (p.gap ++ p.text ++ behind) place rest := by
  obtain ⟨ps, last, h, rfl⟩ := h
  refine ⟨p :: ps, last, ⟨?_, h.gap, ?_⟩, ?_⟩
  · rw [Piece.join, List.flatMap_cons, List.append_assoc _ _ (last ++ rest), h.text]
    rfl
  · intro front q more heq
    cases front with
    | nil =>
        cases heq
        rw [← h.text, Piece.join, List.flatMap_nil, List.append_nil]
        exact hp
    | cons _ front =>
        cases heq
        rw [Piece.join, List.flatMap_cons, ← List.append_assoc]
        exact h.stands rfl
  · simp only [Piece.join, List.flatMap_cons, List.append_assoc]

/-- The first token of a scan as a piece, and where the scan goes on. -/
theorem stands_first (before : List Char) {cs rest : List Char} {c : Char} {l : Lexeme}
    (hg : (gap cs).2 = c :: rest) (hl : lexeme c rest = .ok l) :
    let first := (Position.behind before).after (gap cs).1
    let p : Piece := ⟨(gap cs).1, l.text, ⟨l.token, first⟩⟩
    p.Stands before l.rest ∧ p.gap ++ p.text ++ l.rest = cs ∧
      Position.behind (before ++ (p.gap ++ p.text)) = first.after l.text := by
  intro first p
  have hgap := isGap_gap cs
  have hsplit := gap_split cs
  rw [hg, ← lexeme_split hl] at hgap hsplit
  refine ⟨⟨hgap, spells_lexeme hl, Position.after_behind _ _⟩, ?_, ?_⟩
  · rw [List.append_assoc]
    exact hsplit
  · rw [← Position.after_behind, Position.after_append]

theorem exists_reachedAt_of_error {before cs : List Char} {e : SyntaxError}
    (h : run (.behind before) cs = .error e) :
    ∃ place c rest fault, ReachedAt before cs place (c :: rest) ∧
      lexeme c rest = .error fault ∧ e = fault.error place := by
  generalize hhere : Position.behind before = here at h
  fun_induction run here cs generalizing before with
  | case1 => cases h
  | case2 =>
      rename_i cs first c rest hg fault hl
      cases h
      subst hhere
      have hreached := reachedAt_gap before cs
      rw [hg, ← Position.after_behind] at hreached
      exact ⟨first, c, rest, fault, hreached, hl, rfl⟩
  | case3 =>
      rename_i cs first c rest hg l hl e' he' ih
      cases h
      subst hhere
      obtain ⟨hp, htext, hnext⟩ := stands_first before hg hl
      obtain ⟨place, d, more, fault, hreached, hfault, rfl⟩ := ih hnext he'
      exact ⟨place, d, more, fault, htext ▸ hreached.cons hp, hfault, rfl⟩
  | case4 => cases h

theorem exists_reachedAt_of_mem {before cs : List Char} {s : Scan}
    (h : run (.behind before) cs = .ok s) {p : Placed} (hp : p ∈ s.tokens) :
    ∃ c rest l, ReachedAt before cs p.position (c :: rest) ∧ lexeme c rest = .ok l ∧
      l.token = p.token := by
  generalize hhere : Position.behind before = here at h
  fun_induction run here cs generalizing before s with
  | case1 =>
      cases h
      cases hp
  | case2 => cases h
  | case3 => cases h
  | case4 =>
      rename_i cs first c rest hg l hl more hm ih
      cases h
      subst hhere
      rcases List.mem_cons.1 hp with rfl | hp
      · have hreached := reachedAt_gap before cs
        rw [hg, ← Position.after_behind] at hreached
        exact ⟨c, rest, l, hreached, hl, rfl⟩
      · obtain ⟨hstands, htext, hnext⟩ := stands_first before hg hl
        obtain ⟨d, behind, l', hreached, hl', htoken⟩ := ih hp hnext hm
        exact ⟨d, behind, l', htext ▸ hreached.cons hstands, hl', htoken⟩

end Scan

end Projection
