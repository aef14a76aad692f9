import Projection.Token.Lexer

/-!
Reading a whole source. The scan alternates gaps and tokens until the characters end, and no token
weighs more than the characters that spell it.
-/

namespace Projection

namespace Lexer

open Text

theorem name_text_ne_nil {c : Char} {rest : List Char} (h : isNamePart c = true) :
    (name (c :: rest)).text ≠ [] := by
  simp [name, h]

theorem decimal_text_ne_nil {c : Char} {rest : List Char}
    (h : c.isDigit = true ∨ c = '.' ∧ startsWithDigit rest = true) :
    (decimal (c :: rest)).text ≠ [] := by
  rcases h with h | ⟨rfl, h⟩
  · simp [decimal, isDigitPart, h]
  · simp [decimal, isDigitPart, fraction, h]

theorem number_text_ne_nil {c : Char} {rest : List Char}
    (h : c.isDigit = true ∨ c = '.' ∧ startsWithDigit rest = true) :
    (number (c :: rest)).text ≠ [] := by
  have hn : (numeral (c :: rest)).text ≠ [] := by
    unfold numeral
    split
    · split
      · simp
      · rename_i heq _
        cases heq
        exact decimal_text_ne_nil h
    · exact decimal_text_ne_nil h
  simp [number, hn]

theorem punct_spelling_ne_nil (p : Punct) : p.spelling.toList ≠ [] := by
  cases p <;> simp [Punct.spelling]

private theorem one_le_length {α : Type} {xs : List α} (h : xs ≠ []) : 1 ≤ xs.length :=
  List.length_pos_iff.2 h

theorem weight_le_length {c : Char} {rest : List Char} {l : Lexeme}
    (h : lexeme c rest = .ok l) : l.token.weight ≤ l.text.length := by
  unfold lexeme at h
  split at h
  · split at h
    · cases h
      simp [Token.weight]
    · cases h
  · split at h
    · cases h
      simp [name, Token.weight]
    · split at h
      · rename_i hc
        cases h
        exact one_le_length (name_text_ne_nil (isNamePart_of_isNameStart hc))
      · split at h
        · rename_i hc
          cases h
          have hw : (number (c :: rest)).token.weight = 1 := by
            simp only [number]
            split <;> rfl
          exact hw ▸ one_le_length (number_text_ne_nil hc)
        · split at h
          · exact literal_weight (fun _ => rfl) h
          · split at h
            · exact literal_weight (fun _ => rfl) h
            · split at h
              · cases h
                exact one_le_length (punct_spelling_ne_nil _)
              · cases h
where
  literal_weight {q : Char} {make : String → Token} {cs : List Char} {l : Lexeme}
      (hm : ∀ s, (make s).weight = 1) (h : literal q make cs = .ok l) :
      l.token.weight ≤ l.text.length := by
    unfold literal at h
    split at h
    · cases h
      simp [hm]
    · cases h

theorem length_lexeme_lt {c : Char} {rest : List Char} {l : Lexeme}
    (h : lexeme c rest = .ok l) : l.rest.length < (c :: rest).length := by
  have hs := congrArg List.length (lexeme_split h)
  have hw := weight_le_length h
  have := l.token.weight_pos
  simp only [List.length_append] at hs
  omega

end Lexer

namespace Scan

open Text Lexer

def run (here : Position) (cs : List Char) : Except SyntaxError Scan :=
  let first := here.after (gap cs).1
  match _hg : (gap cs).2 with
  | [] => .ok ⟨[], first⟩
  | c :: rest =>
      match _hl : lexeme c rest with
      | .error fault => .error (fault.error first)
      | .ok l =>
          match run (first.after l.text) l.rest with
          | .error e => .error e
          | .ok more => .ok ⟨⟨l.token, first⟩ :: more.tokens, more.finish⟩
termination_by cs.length
decreasing_by
  have := length_lexeme_lt _hl
  have := length_gap_le cs
  simp_all only [List.length_cons]
  omega

def ofChars (source : List Char) : Except SyntaxError Scan := run .start source

def ofString (source : String) : Except SyntaxError Scan := ofChars source.toList

theorem weight_run_le {here : Position} {cs : List Char} {s : Scan}
    (h : run here cs = .ok s) : weight s.words ≤ cs.length := by
  fun_induction run here cs generalizing s with
  | case1 =>
      cases h
      simp [words]
  | case2 => cases h
  | case3 => cases h
  | case4 =>
      rename_i cs _ c rest hg l hl more hm ih
      cases h
      have hw := weight_le_length hl
      have hs := congrArg List.length (lexeme_split hl)
      have hgl := length_gap_le cs
      have := ih hm
      rw [hg] at hgl
      simp only [words, List.map_cons, weight_cons, List.length_append] at *
      omega

theorem weight_ofChars_le {cs : List Char} {s : Scan} (h : ofChars cs = .ok s) :
    weight s.words ≤ cs.length :=
  weight_run_le h

end Scan

end Projection
