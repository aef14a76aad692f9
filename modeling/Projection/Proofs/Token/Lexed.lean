import Projection.Proofs.Token.Regions

/-!
Tokens written back. Every token of a source is spelled in a way that is read as that token again,
in front of any text that does not carry it on.
-/

namespace Projection

open Text Lexer

theorem ok_of_toOption {ε α : Type} {x : Except ε α} {a : α} (h : x.toOption = some a) :
    x = .ok a := by
  cases x with
  | error _ => cases h
  | ok b => exact congrArg Except.ok (Option.some.inj h)

namespace Lexer

/-- What the front of the characters can be. -/
inductive IsLexeme : Char → List Char → Lexeme → Prop
  | interpolated {more : List Char} {r : List Char × List Char}
      (inside : Lexer.interpolated 0 more = some r) :
      IsLexeme '$' ('"' :: more)
        ⟨.interpolated (String.ofList r.1), '$' :: '"' :: (r.1 ++ ['"']), r.2⟩
  | verbatim {rest : List Char} (start : rest.head?.any isNameStart = true) :
      IsLexeme '@' rest ⟨(name rest).token, '@' :: (name rest).text, (name rest).rest⟩
  | name {c : Char} {rest : List Char} (start : isNameStart c = true) :
      IsLexeme c rest (Lexer.name (c :: rest))
  | number {c : Char} {rest : List Char}
      (start : c.isDigit = true ∨ c = '.' ∧ startsWithDigit rest = true) :
      IsLexeme c rest (Lexer.number (c :: rest))
  | str {rest : List Char} {r : List Char × List Char} (inside : quoted '"' rest = some r) :
      IsLexeme '"' rest ⟨.str (String.ofList r.1), '"' :: (r.1 ++ ['"']), r.2⟩
  | char {rest : List Char} {r : List Char × List Char} (inside : quoted '\'' rest = some r) :
      IsLexeme '\'' rest ⟨.char (String.ofList r.1), '\'' :: (r.1 ++ ['\'']), r.2⟩
  | punct {c : Char} {rest behind : List Char} {p : Punct}
      (mark : Lexer.punct (c :: rest) = some (p, behind)) :
      IsLexeme c rest ⟨.punct p, p.spelling.toList, behind⟩

theorem exists_quoted_of_literal {quote : Char} {make : String → Token} {cs : List Char}
    {l : Lexeme} (h : literal quote make cs = .ok l) :
    ∃ r, quoted quote cs = some r ∧
      l = ⟨make (String.ofList r.1), quote :: (r.1 ++ [quote]), r.2⟩ := by
  unfold literal at h
  split at h
  · rename_i r hr
    cases h
    exact ⟨r, hr, rfl⟩
  · cases h

theorem isLexeme_of_lexeme {c : Char} {rest : List Char} {l : Lexeme}
    (h : lexeme c rest = .ok l) : IsLexeme c rest l := by
  unfold lexeme at h
  split at h
  · rename_i hc
    obtain ⟨rfl, hquote⟩ := hc
    obtain ⟨more, rfl⟩ := List.head?_eq_some_iff.1 hquote
    split at h
    · rename_i r hr
      cases h
      exact .interpolated hr
    · cases h
  · split at h
    · rename_i hc
      obtain ⟨rfl, hstart⟩ := hc
      cases h
      exact .verbatim hstart
    · split at h
      · rename_i hc
        cases h
        exact .name hc
      · split at h
        · rename_i hc
          cases h
          exact .number hc
        · split at h
          · rename_i hc
            subst hc
            obtain ⟨r, hr, rfl⟩ := exists_quoted_of_literal h
            exact .str hr
          · split at h
            · rename_i hc
              subst hc
              obtain ⟨r, hr, rfl⟩ := exists_quoted_of_literal h
              exact .char hr
            · split at h
              · rename_i hp
                cases h
                exact .punct hp
              · cases h

end Lexer

def IsNumber (t : Token) (cs : List Char) : Prop :=
  (∃ c rest, cs = c :: rest ∧ (c.isDigit = true ∨ c = '.' ∧ startsWithDigit rest = true)) ∧
    ∀ behind, Breaks behind → number (cs ++ behind) = ⟨t, cs, behind⟩

namespace Token

/-- The token has a spelling that gives it back. -/
def Valid : Token → Prop
  | ident name => IsName name
  | int text => IsNumber (.int text) text.toList
  | float text => IsNumber (.float text) text.toList
  | str text => ∀ behind, quoted '"' (text.toList ++ '"' :: behind) = some (text.toList, behind)
  | char text =>
      ∀ behind, quoted '\'' (text.toList ++ '\'' :: behind) = some (text.toList, behind)
  | interpolated raw =>
      ∀ behind, Lexer.interpolated 0 (raw.toList ++ '"' :: behind) = some (raw.toList, behind)
  | punct _ => True

theorem valid_name {cs : List Char} (h : cs.head?.any isNameStart = true) :
    (name cs).token.Valid := by
  cases cs with
  | nil => cases h
  | cons c cs =>
      have hpart := isNamePart_of_isNameStart h
      refine ⟨c, cs.takeWhile isNamePart, ?_, h, ?_⟩
      · rw [String.toList_ofList, List.takeWhile_cons, if_pos hpart]
      · exact fun d hd => List.all_eq_true.1 List.all_takeWhile d hd

theorem isNumber_number {c : Char} {rest : List Char}
    (h : c.isDigit = true ∨ c = '.' ∧ startsWithDigit rest = true) :
    IsNumber (number (c :: rest)).token (number (c :: rest)).text := by
  refine ⟨?_, fun behind hb => number_again hb _⟩
  have hsplit := number_split (c :: rest)
  rcases h with h | ⟨rfl, h⟩
  · cases htext : (number (c :: rest)).text with
    | nil => exact absurd htext (number_text_ne_nil (.inl h))
    | cons d more =>
        rw [htext, List.cons_append, List.cons.injEq] at hsplit
        exact ⟨d, more, rfl, .inl (hsplit.1 ▸ h)⟩
  · have hnum : numeral ('.' :: rest) = decimal ('.' :: rest) := by
      refine numeral_eq_decimal ?_
      rintro _ _ ⟨⟩
    have htext : (number ('.' :: rest)).text = '.' :: (rest.takeWhile isDigitPart ++
        ((exponent (rest.dropWhile isDigitPart)).1 ++
          (suffix (decimal ('.' :: rest)).isReal (decimal ('.' :: rest)).rest).text)) := by
      rw [number, hnum]
      simp [decimal, fraction, isDigitPart, h]
    exact ⟨'.', _, htext, .inr ⟨rfl, startsWithDigit_takeWhile h _⟩⟩

theorem valid_number {c : Char} {rest : List Char}
    (h : c.isDigit = true ∨ c = '.' ∧ startsWithDigit rest = true) :
    (number (c :: rest)).token.Valid := by
  have hn := isNumber_number h
  unfold number at hn ⊢
  dsimp only at hn ⊢
  split
  · rename_i hr
    rw [if_pos hr] at hn
    simpa [Valid] using hn
  · rename_i hr
    rw [if_neg hr] at hn
    simpa [Valid] using hn

theorem valid_lexeme {c : Char} {rest : List Char} {l : Lexeme} (h : lexeme c rest = .ok l) :
    l.token.Valid := by
  cases isLexeme_of_lexeme h with
  | interpolated inside =>
      intro behind
      rw [String.toList_ofList]
      exact interpolated_again inside behind
  | punct => trivial
  | verbatim start => exact valid_name start
  | name start => exact valid_name start
  | number start => exact valid_number start
  | str inside | char inside =>
      intro behind
      rw [String.toList_ofList]
      exact quoted_again inside behind

end Token

theorem Scan.valid_run {here : Position} {cs : List Char} {s : Scan} (h : run here cs = .ok s) :
    ∀ t ∈ s.words, t.Valid := by
  fun_induction run here cs generalizing s with
  | case1 =>
      cases h
      simp [words]
  | case2 => cases h
  | case3 => cases h
  | case4 =>
      rename_i l hl more hm ih
      cases h
      exact List.forall_mem_cons.2 ⟨Token.valid_lexeme hl, ih hm⟩

def Punct.Stands (cs : List Char) : Punct → Prop
  | question => ∀ c ∈ cs.head?, c ≠ '.' ∧ c ≠ '[' ∧ c ≠ '?'
  | assign => ∀ c ∈ cs.head?, c ≠ '>' ∧ c ≠ '='
  | bang | less | greater => ∀ c ∈ cs.head?, c ≠ '='
  | amp => ∀ c ∈ cs.head?, c ≠ '&'
  | pipe => ∀ c ∈ cs.head?, c ≠ '|'
  | slash => ∀ c ∈ cs.head?, c ≠ '/' ∧ c ≠ '*'
  | dot | questionDot => startsWithDigit cs = false
  | _ => True

/-- A blank carries no mark on. -/
theorem Punct.stands_blank (p : Punct) (cs : List Char) : p.Stands (' ' :: cs) := by
  cases p <;> simp [Stands, startsWithDigit]

theorem Lexer.punct_again {p : Punct} {cs : List Char} (h : p.Stands cs) :
    punct (p.spelling.toList ++ cs) = some (p, cs) := by
  cases p <;> cases cs <;> simp_all [Punct.spelling, Punct.Stands, punct]

def Token.Stands (cs : List Char) : Token → Prop
  | ident _ | int _ | float _ => Breaks cs
  | str _ | char _ | interpolated _ => True
  | punct p => p.Stands cs

namespace Lexer

/-- The characters start with a token, with no gap before it. -/
def Fronts (cs : List Char) (t : Token) (behind : List Char) : Prop :=
  ∃ c rest text, cs = c :: rest ∧ gap cs = ([], cs) ∧ lexeme c rest = .ok ⟨t, text, behind⟩

theorem gap_none {c : Char} {rest : List Char} (hc : isBlank c = false)
    (hslash : c = '/' → ∀ d ∈ rest.head?, d ≠ '/' ∧ d ≠ '*') :
    gap (c :: rest) = ([], c :: rest) := by
  unfold gap
  split
  · rename_i heq
    cases heq
    exact absurd rfl (hslash rfl '/' rfl).1
  · rename_i heq
    cases heq
    exact absurd rfl (hslash rfl '*' rfl).2
  · rename_i heq
    cases heq
    rw [if_neg (Bool.eq_false_iff.1 hc)]
  · rename_i heq
    cases heq

theorem isBlank_of_isNamePart {c : Char} (h : isNamePart c = true) : isBlank c = false := by
  let blanks := [9, 10, 11, 12, 13, 0x20, 0x85, 0xA0, 0x1680, 0x2000, 0x2001, 0x2002, 0x2003,
    0x2004, 0x2005, 0x2006, 0x2007, 0x2008, 0x2009, 0x200A, 0x2028, 0x2029, 0x202F, 0x205F, 0x3000]
  have hall : ∀ n ∈ blanks, isNamePart (Char.ofNat n) = false := by decide +kernel
  refine Bool.eq_false_iff.2 fun hb => ?_
  have hmem : c.toNat ∈ blanks := by
    simp only [isBlank, Bool.or_eq_true, Bool.and_eq_true, decide_eq_true_eq, beq_iff_eq] at hb
    simp only [blanks, List.mem_cons, List.not_mem_nil, or_false]
    omega
  rw [← Char.ofNat_toNat c, hall _ hmem] at h
  cases h

theorem number_front {c : Char} (h : c.isDigit = true ∨ c = '.') :
    isNameStart c = false ∧ isBlank c = false ∧ c ≠ '/' ∧ c ≠ '$' ∧ c ≠ '@' := by
  have hall : ∀ n ∈ List.range' 48 10, isNameStart (Char.ofNat n) = false ∧
      isBlank (Char.ofNat n) = false ∧ Char.ofNat n ≠ '/' ∧ Char.ofNat n ≠ '$' ∧
        Char.ofNat n ≠ '@' := by decide
  rcases h with h | rfl
  · rw [← Char.ofNat_toNat c]
    refine hall _ (List.mem_range'_1.2 ?_)
    simp only [Char.isDigit, Bool.and_eq_true, decide_eq_true_eq, UInt32.le_iff_toNat_le,
      ge_iff_le] at h
    exact ⟨h.1, Nat.lt_succ_of_le h.2⟩
  · decide

theorem fronts_name {name : String} (hname : IsName name) {behind : List Char}
    (hb : Breaks behind) : Fronts (name.toList ++ behind) (.ident name) behind := by
  have hagain := name_again hb hname.part
  rw [String.ofList_toList] at hagain
  obtain ⟨c, cs, hn, hc, -⟩ := hname
  rw [hn, List.cons_append] at hagain ⊢
  refine ⟨c, cs ++ behind, c :: cs, rfl, gap_none ?_ ?_, ?_⟩
  · exact isBlank_of_isNamePart (isNamePart_of_isNameStart hc)
  · rintro rfl
    cases hc
  · rw [lexeme, if_neg, if_neg, if_pos hc, hagain]
    · rintro ⟨rfl, -⟩
      cases hc
    · rintro ⟨rfl, -⟩
      cases hc

/-- Behind the sign that makes any word a name. -/
theorem fronts_verbatim {name : String} (hname : IsName name) {behind : List Char}
    (hb : Breaks behind) : Fronts ('@' :: (name.toList ++ behind)) (.ident name) behind := by
  have hagain := name_again hb hname.part
  rw [String.ofList_toList] at hagain
  obtain ⟨c, cs, hn, hc, -⟩ := hname
  rw [hn, List.cons_append] at hagain ⊢
  refine ⟨'@', c :: (cs ++ behind), '@' :: c :: cs, rfl, gap_none rfl (by rintro ⟨⟩), ?_⟩
  rw [lexeme, if_neg (by rintro ⟨⟨⟩, -⟩), if_pos ⟨rfl, hc⟩, hagain]

theorem fronts_number {t : Token} {cs : List Char} (h : IsNumber t cs) {behind : List Char}
    (hb : Breaks behind) : Fronts (cs ++ behind) t behind := by
  obtain ⟨⟨c, rest, rfl, hc⟩, hagain⟩ := h
  have hstart : c.isDigit = true ∨ c = '.' ∧ startsWithDigit (rest ++ behind) = true := by
    refine hc.imp_right fun ⟨hpoint, hd⟩ => ⟨hpoint, ?_⟩
    cases rest with
    | nil => cases hd
    | cons d rest => exact hd
  obtain ⟨hname, hblank, hslash, hdollar, hat⟩ := number_front (hc.imp_right And.left)
  refine ⟨c, rest ++ behind, c :: rest, rfl, gap_none hblank fun h => absurd h hslash, ?_⟩
  rw [lexeme, if_neg fun h => hdollar h.1, if_neg fun h => hat h.1,
    if_neg (Bool.eq_false_iff.1 hname), if_pos hstart]
  exact congrArg _ (hagain behind hb)

theorem fronts_literal {quote : Char} {make : String → Token} {text : String}
    {behind : List Char} (hlex : ∀ rest, lexeme quote rest = literal quote make rest)
    (hgap : ∀ rest, gap (quote :: rest) = ([], quote :: rest))
    (h : quoted quote (text.toList ++ quote :: behind) = some (text.toList, behind)) :
    Fronts (quote :: (text.toList ++ quote :: behind)) (make text) behind := by
  refine ⟨quote, text.toList ++ quote :: behind, quote :: (text.toList ++ [quote]), rfl, hgap _, ?_⟩
  rw [hlex, literal, h]
  simp

theorem fronts_interpolated {raw : String} (h : (Token.interpolated raw).Valid)
    {behind : List Char} :
    Fronts ('$' :: '"' :: (raw.toList ++ '"' :: behind)) (.interpolated raw) behind := by
  refine ⟨'$', '"' :: (raw.toList ++ '"' :: behind), '$' :: '"' :: (raw.toList ++ ['"']), rfl,
    gap_none rfl (by rintro ⟨⟩), ?_⟩
  rw [lexeme, if_pos ⟨rfl, rfl⟩, List.tail_cons, h behind]
  simp

theorem fronts_punct {p : Punct} {behind : List Char} (h : p.Stands behind) :
    Fronts (p.spelling.toList ++ behind) (.punct p) behind := by
  have hagain := punct_again h
  obtain ⟨c, more, hp, hblank, hname, hdigit, hsigns⟩ : ∃ c more, p.spelling.toList = c :: more ∧
      isBlank c = false ∧ isNameStart c = false ∧ c.isDigit = false ∧
        c ∉ ['$', '@', '"', '\''] := by
    cases p <;> exact ⟨_, _, rfl, by decide⟩
  have hslash : c = '/' → ∀ d ∈ (more ++ behind).head?, d ≠ '/' ∧ d ≠ '*' := by
    rintro rfl
    cases p <;> cases hp
    exact h
  have hpoint : c = '.' → startsWithDigit (more ++ behind) = false := by
    rintro rfl
    cases p <;> cases hp
    exact h
  simp only [List.mem_cons, List.not_mem_nil, or_false, not_or] at hsigns
  obtain ⟨hdollar, hat, hdouble, hsingle⟩ := hsigns
  rw [hp, List.cons_append] at hagain ⊢
  refine ⟨c, more ++ behind, p.spelling.toList, rfl, gap_none hblank hslash, ?_⟩
  rw [lexeme, if_neg fun h => hdollar h.1, if_neg fun h => hat h.1,
    if_neg (Bool.eq_false_iff.1 hname), if_neg, if_neg hdouble, if_neg hsingle, hagain]
  rintro (hd | ⟨hd, hs⟩)
  · rw [hdigit] at hd
    cases hd
  · rw [hpoint hd] at hs
    cases hs

theorem fronts_of_valid {t : Token} (hv : t.Valid) {behind : List Char} (hs : t.Stands behind) :
    Fronts (t.describe.toList ++ behind) t behind := by
  cases t with
  | ident name => exact fronts_name hv hs
  | int text | float text => exact fronts_number hv hs
  | str text | char text =>
      simp only [Token.describe, String.toList_append, List.append_assoc]
      refine fronts_literal (fun _ => rfl) (fun _ => ?_) (hv behind)
      exact gap_none rfl fun h => absurd h (by decide)
  | interpolated raw =>
      simp only [Token.describe, String.toList_append, List.append_assoc]
      exact fronts_interpolated hv
  | punct p => exact fronts_punct hs

end Lexer

namespace Scan

theorem run_eq (here : Position) (cs : List Char) :
    run here cs =
      match (gap cs).2 with
      | [] => .ok ⟨[], here.after (gap cs).1⟩
      | c :: rest =>
          match lexeme c rest with
          | .error fault => .error (fault.error (here.after (gap cs).1))
          | .ok l =>
              match run ((here.after (gap cs).1).after l.text) l.rest with
              | .error e => .error e
              | .ok more => .ok ⟨⟨l.token, here.after (gap cs).1⟩ :: more.tokens, more.finish⟩ := by
  rw [run]
  split
  · rename_i hg
    rw [hg]
  · rename_i hg
    rw [hg]
    dsimp only
    split
    · rename_i hl
      rw [hl]
    · rename_i hl
      exact hl ▸ rfl

/-- The scan of the characters gives these tokens, wherever they stand. -/
def Lexed (cs : List Char) (ts : List Token) : Prop :=
  ∀ here, ∃ s, run here cs = .ok s ∧ s.words = ts

namespace Lexed

theorem nil : Lexed [] [] := by
  intro here
  refine ⟨⟨[], here⟩, ?_, rfl⟩
  rw [run_eq]
  unfold gap
  rfl

theorem blank {cs : List Char} {ts : List Token} (h : Lexed cs ts) : Lexed (' ' :: cs) ts := by
  intro here
  obtain ⟨s, hs, hwords⟩ := h (here.advance ' ')
  refine ⟨s, ?_, hwords⟩
  have hgap : gap (' ' :: cs) = (' ' :: (gap cs).1, (gap cs).2) := by
    conv => lhs; unfold gap
    rfl
  rw [run_eq] at hs ⊢
  rw [hgap]
  exact hs

/-- A comment says nothing. -/
theorem comment {cs : List Char} {ts : List Token} (h : Lexed (blockComment cs).2 ts) :
    Lexed ('/' :: '*' :: cs) ts := by
  intro here
  obtain ⟨s, hs, hwords⟩ := h (here.after ('/' :: '*' :: (blockComment cs).1))
  refine ⟨s, ?_, hwords⟩
  have hgap : gap ('/' :: '*' :: cs) = ('/' :: '*' :: ((blockComment cs).1 ++
      (gap (blockComment cs).2).1), (gap (blockComment cs).2).2) := by
    conv => lhs; unfold gap
    rfl
  rw [run_eq] at hs ⊢
  rw [hgap]
  simpa using hs

theorem front {t : Token} {cs behind : List Char} (hfront : Fronts cs t behind) {ts : List Token}
    (h : Lexed behind ts) : Lexed cs (t :: ts) := by
  intro here
  obtain ⟨c, rest, text, rfl, hgap, hlex⟩ := hfront
  obtain ⟨s, hrun, hwords⟩ := h (here.after text)
  refine ⟨⟨⟨t, here⟩ :: s.tokens, s.finish⟩, ?_, ?_⟩
  · rw [run_eq, hgap]
    simp [hlex, hrun]
  · rw [words, List.map_cons, ← hwords]
    rfl

theorem token {t : Token} (hv : t.Valid) {cs : List Char} (hs : t.Stands cs) {ts : List Token}
    (h : Lexed cs ts) : Lexed (t.describe.toList ++ cs) (t :: ts) :=
  front (fronts_of_valid hv hs) h

end Lexed

end Scan

end Projection
