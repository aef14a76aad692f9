import Projection.Proofs.Token.Lexed

/-!
Nothing of a source is lost, and every token is where its first character is. A source is the
spellings of its tokens with blanks and comments between them; lines and columns, which the scan
counts as it goes, can be told from the text in front of a token.
-/

namespace Projection

namespace Text.Position

/-- The place behind a text that begins at the start: one line for each newline in it, and one
column for each character behind the last of them. -/
def behind (text : List Char) : Position :=
  ⟨text.count '\n' + 1, (text.reverse.takeWhile (· != '\n')).length + 1⟩

theorem behind_concat (text : List Char) (c : Char) :
    behind (text ++ [c]) = (behind text).advance c := by
  by_cases hc : c = '\n'
  · simp [behind, advance, hc]
  · simp [behind, advance, hc, List.count_append]

theorem after_behind (before text : List Char) :
    (behind before).after text = behind (before ++ text) := by
  induction text generalizing before with
  | nil => rw [after_nil, List.append_nil]
  | cons c text ih => rw [after_cons, ← behind_concat, ih, List.append_assoc, List.singleton_append]

end Text.Position

open Text

/-- The characters spell the token: as it is described, a name also with the mark that keeps it from
being a keyword. -/
def Token.Spells (t : Token) (chars : List Char) : Prop :=
  chars = t.describe.toList ∨ ∃ name, t = .ident name ∧ chars = '@' :: name.toList

namespace Lexer

/-- What can stand between tokens, in front of the characters `behind`: blanks, comments up to the
end of a line, and comments up to the first end mark or, where there is none, to the end. -/
inductive IsGap : List Char → List Char → Prop
  | nil {behind : List Char} : IsGap [] behind
  | blank {c : Char} {more behind : List Char} (blank : isBlank c = true) :
      IsGap more behind → IsGap (c :: more) behind
  | line {text more behind : List Char} (inside : '\n' ∉ text)
      (ends : ∀ c ∈ (more ++ behind).head?, c = '\n') :
      IsGap more behind → IsGap ('/' :: '/' :: (text ++ more)) behind
  | block {text more behind : List Char} (inside : ¬ ['*', '/'] <:+: text ++ ['*']) :
      IsGap more behind → IsGap ('/' :: '*' :: (text ++ '*' :: '/' :: more)) behind
  | unclosed {text : List Char} (inside : ¬ ['*', '/'] <:+: text) :
      IsGap ('/' :: '*' :: text) []

theorem blockComment_cases (cs : List Char) :
    (∃ text, (blockComment cs).1 = text ++ ['*', '/'] ∧ ¬ ['*', '/'] <:+: text ++ ['*']) ∨
      blockComment cs = (cs, []) ∧ ¬ ['*', '/'] <:+: cs := by
  fun_induction blockComment cs with
  | case1 rest => exact .inl ⟨[], rfl, by decide⟩
  | case2 c rest hopen after ih =>
      rcases ih with ⟨text, htext, hinside⟩ | ⟨hall, hinside⟩
      · refine .inl ⟨c :: text, congrArg (c :: ·) htext, ?_⟩
        rw [List.cons_append, List.infix_cons_iff, List.cons_prefix_cons]
        rintro (⟨rfl, hslash⟩ | hmore)
        · have hsplit := blockComment_split rest
          rw [htext] at hsplit
          cases text with
          | nil => cases (List.cons_prefix_cons.1 hslash).1
          | cons d text =>
              obtain ⟨rfl, -⟩ := List.cons_prefix_cons.1 hslash
              exact hopen _ rfl hsplit.symm
        · exact hinside hmore
      · refine .inr ⟨?_, ?_⟩
        · simp only [after, hall]
        · rw [List.infix_cons_iff, List.cons_prefix_cons]
          rintro (⟨rfl, more, hmore⟩ | hmore)
          · exact hopen more rfl hmore.symm
          · exact hinside hmore
  | case3 => exact .inr ⟨rfl, by decide⟩

theorem isGap_gap (cs : List Char) : IsGap (gap cs).1 (gap cs).2 := by
  fun_induction gap cs with
  | case1 rest after ih =>
      refine .line ?_ ?_ ih
      · intro hmem
        have hline := List.all_eq_true.1 List.all_takeWhile _ hmem
        cases hline
      · intro c hc
        rw [gap_split] at hc
        have hline := List.head?_dropWhile_not inLine rest
        rw [Option.mem_def.1 hc] at hline
        simpa [inLine] using hline
  | case2 rest after ih =>
      rcases blockComment_cases rest with ⟨text, htext, hinside⟩ | ⟨hall, hinside⟩
      · rw [htext, List.append_assoc]
        exact .block hinside ih
      · have hend : after = ([], []) := by
          simp only [after, hall]
          unfold gap
          rfl
        rw [hend, hall, List.append_nil]
        exact .unclosed hinside
  | case3 c rest _ _ hblank after ih => exact .blank hblank ih
  | case4 => exact .nil
  | case5 => exact .nil

theorem spells_number (cs : List Char) : (number cs).token.Spells (number cs).text := by
  left
  simp only [number]
  split <;> simp [Token.describe]

theorem spells_lexeme {c : Char} {rest : List Char} {l : Lexeme} (h : lexeme c rest = .ok l) :
    l.token.Spells l.text := by
  cases isLexeme_of_lexeme h with
  | interpolated => exact .inl (by simp [Token.describe])
  | verbatim => exact .inr ⟨_, rfl, by simp [name]⟩
  | name => exact .inl (by simp [name, Token.describe])
  | number => exact spells_number _
  | str | char => exact .inl (by simp [Token.describe])
  | punct => exact .inl rfl

end Lexer

namespace Scan

open Lexer

/-- A token with its spelling and the gap in front of it. -/
structure Piece where
  gap : List Char
  text : List Char
  placed : Placed

def Piece.join (ps : List Piece) : List Char := ps.flatMap fun p => p.gap ++ p.text

structure Piece.Stands (p : Piece) (before behind : List Char) : Prop where
  gap : IsGap p.gap (p.text ++ behind)
  text : p.placed.token.Spells p.text
  position : p.placed.position = .behind (before ++ p.gap)

/-- Behind the characters `before`, the pieces and a last gap are all of the characters `cs`. Each
piece stands where the others leave it, and the scan has the tokens of the pieces. -/
structure Lays (before cs : List Char) (s : Scan) (ps : List Piece) (last : List Char) : Prop where
  text : cs = Piece.join ps ++ last
  gap : IsGap last []
  tokens : s.tokens = ps.map Piece.placed
  finish : s.finish = .behind (before ++ cs)
  stands : ∀ {front p more}, ps = front ++ p :: more →
    p.Stands (before ++ Piece.join front) (Piece.join more ++ last)

theorem Lays.cons {before behind : List Char} {s : Scan} {p : Piece} {ps : List Piece}
    {last : List Char} (hp : p.Stands before behind)
    (h : Lays (before ++ (p.gap ++ p.text)) behind s ps last) :
    Lays before (p.gap ++ p.text ++ behind) ⟨p.placed :: s.tokens, s.finish⟩ (p :: ps) last where
  text := by
    rw [Piece.join, List.flatMap_cons, List.append_assoc _ _ last, h.text]
    rfl
  gap := h.gap
  tokens := congrArg (p.placed :: ·) h.tokens
  finish := by
    rw [h.finish]
    simp only [List.append_assoc]
  stands := by
    intro front q more heq
    cases front with
    | nil =>
        cases heq
        rw [← h.text, Piece.join, List.flatMap_nil, List.append_nil]
        exact hp
    | cons _ front =>
        cases heq
        rw [Piece.join, List.flatMap_cons, ← List.append_assoc]
        exact h.stands rfl

theorem exists_lays_run {before cs : List Char} {s : Scan} (h : run (.behind before) cs = .ok s) :
    ∃ ps last, Lays before cs s ps last := by
  generalize hhere : Position.behind before = here at h
  fun_induction run here cs generalizing before s with
  | case1 =>
      rename_i cs first hg
      cases h
      subst hhere
      have hgap := isGap_gap cs
      have hsplit := gap_split cs
      rw [hg] at hgap hsplit
      rw [List.append_nil] at hsplit
      refine ⟨[], (gap cs).1, hsplit.symm, hgap, rfl, ?_, ?_⟩
      · change (Position.behind before).after (gap cs).1 = _
        rw [Position.after_behind, hsplit]
      · intro front p more heq
        simp at heq
  | case2 => cases h
  | case3 => cases h
  | case4 =>
      rename_i cs first c rest hg l hl more hm ih
      cases h
      subst hhere
      have hgap := isGap_gap cs
      have hsplit := gap_split cs
      rw [hg, ← lexeme_split hl] at hgap hsplit
      let p : Piece := ⟨(gap cs).1, l.text, ⟨l.token, first⟩⟩
      have hp : p.Stands before l.rest := ⟨hgap, spells_lexeme hl, Position.after_behind _ _⟩
      have hhere : Position.behind (before ++ (p.gap ++ p.text)) = first.after l.text := by
        rw [← Position.after_behind, Position.after_append]
      obtain ⟨ps, last, h⟩ := ih hhere hm
      refine ⟨p :: ps, last, ?_⟩
      rw [← hsplit, ← List.append_assoc]
      exact h.cons hp

/-- A source that can be scanned is its tokens as they are spelled, with gaps between them. Every
token has the place of its first character, and the end has the place behind the last one. -/
theorem exists_lays_ofString {source : String} {s : Scan} (h : ofString source = .ok s) :
    ∃ ps last, Lays [] source.toList s ps last :=
  exists_lays_run h

theorem exists_lays_ofString_comments :
    let source := "// note\n  /* block */ @new?.5 + $\"\x7bx\x7d\" /* open"
    let s : Scan := ⟨[⟨.ident "new", ⟨2, 15⟩⟩, ⟨.punct .question, ⟨2, 19⟩⟩, ⟨.float ".5", ⟨2, 20⟩⟩,
      ⟨.punct .plus, ⟨2, 23⟩⟩, ⟨.interpolated "\x7bx\x7d", ⟨2, 25⟩⟩], ⟨2, 39⟩⟩
    ofString source = .ok s ∧ ∃ ps last, Lays [] source.toList s ps last := by
  intro source s
  have h : ofString source = .ok s := ok_of_toOption (by decide +kernel)
  exact ⟨h, exists_lays_ofString h⟩

end Scan

end Projection
