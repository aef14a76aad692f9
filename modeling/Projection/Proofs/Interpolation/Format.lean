import Projection.Expr.Interpolation
import Projection.Proofs.Token.Lexed

/-!
Where a hole is cut. The cut looks at characters, counting brackets and leaving out what stands
between quotes; the tokens of the hole say the same, as long as no literal has its own quote inside
and every bracket is closed by its like.
-/

namespace Projection

open Text Lexer

def Punct.closer? : Punct → Option Punct
  | openParen => some closeParen
  | openBracket | questionBracket => some closeBracket
  | openBrace => some closeBrace
  | _ => none

def Punct.isCloser (p : Punct) : Bool := [closeParen, closeBracket, closeBrace].contains p

namespace Token

def isSeparator : Token → Bool
  | punct .comma | punct .colon => true
  | _ => false

def Plain : Token → Prop
  | str text | interpolated text => '"' ∉ text.toList
  | char text => '\'' ∉ text.toList
  | _ => True

instance : DecidablePred Plain
  | str text | interpolated text => inferInstanceAs (Decidable ('"' ∉ text.toList))
  | char text => inferInstanceAs (Decidable ('\'' ∉ text.toList))
  | ident _ | int _ | float _ | punct _ => .isTrue trivial

/-- The marks that close the brackets around the next token, innermost first. -/
def nest (brackets : List Punct) : Token → Option (List Punct)
  | punct p =>
      match p.closer? with
      | some q => some (q :: brackets)
      | none =>
          if p.isCloser then
            match brackets with
            | q :: rest => if q = p then some rest else none
            | [] => none
          else some brackets
  | _ => some brackets

end Token

namespace Scan

def gaps (cs : List Char) : List Char :=
  (gap cs).1 ++
    match _hg : (gap cs).2 with
    | [] => []
    | c :: rest =>
        match _hl : lexeme c rest with
        | .error _ => []
        | .ok l => gaps l.rest
termination_by cs.length
decreasing_by
  have := length_lexeme_lt _hl
  have := length_gap_le cs
  simp_all only [List.length_cons]
  omega

end Scan

namespace Interpolation

/-- Where the tokens of a hole ask for a cut: before the first comma or colon outside of all
brackets, or nowhere. Brackets that do not match leave it open. -/
inductive Verdict where
  | cut (before : List Placed) (separator : Placed)
  | whole
  | tangled
  deriving DecidableEq, Repr

def Verdict.behind (p : Placed) : Verdict → Verdict
  | cut before separator => cut (p :: before) separator
  | v => v

def verdict (brackets : List Punct) : List Placed → Verdict
  | [] => .whole
  | p :: ps =>
      if p.token.isSeparator ∧ brackets = [] then .cut [] p
      else
        match p.token.nest brackets with
        | some now => (verdict now ps).behind p
        | none => .tangled

/-- Before these characters the depth is `d`, behind them `d'`, and no cut lies between. -/
def Passes (d d' : Int) (cs : List Char) : Prop :=
  ∀ more, cutFormat d none (cs ++ more) =
    (cs ++ (cutFormat d' none more).1, (cutFormat d' none more).2)

theorem Passes.nil (d : Int) : Passes d d [] := fun _ => rfl

theorem Passes.append {d d' d'' : Int} {xs ys : List Char} (h : Passes d d' xs)
    (h' : Passes d' d'' ys) : Passes d d'' (xs ++ ys) := by
  intro more
  rw [List.append_assoc, h, h', List.append_assoc]

/-- Characters with a meaning to the cut. -/
def loud : List Char := [',', ':', '"', '\'', '(', '[', '{', ')', ']', '}']

def isLoud (c : Char) : Bool := loud.contains c

theorem passes_quiet {cs : List Char} (h : ∀ c ∈ cs, isLoud c = false) (d : Int) :
    Passes d d cs := by
  induction cs with
  | nil => exact .nil d
  | cons c cs ih =>
      obtain ⟨hc, hcs⟩ := List.forall_mem_cons.1 h
      have hone : Passes d d [c] := by
        intro more
        simp only [isLoud, loud, List.contains_cons, Bool.or_eq_false_iff,
          beq_eq_false_iff_ne] at hc
        simp [cutFormat, hc]
      exact hone.append (ih hcs)

theorem cutFormat_quoted {quote : Char} {cs : List Char} (h : quote ∉ cs) (d : Int)
    (more : List Char) : cutFormat d (some quote) (cs ++ quote :: more) =
      (cs ++ quote :: (cutFormat d none more).1, (cutFormat d none more).2) := by
  induction cs with
  | nil => simp [cutFormat]
  | cons c cs ih =>
      obtain ⟨hc, hcs⟩ := not_or.1 (fun hm => h (List.mem_cons.2 hm))
      simp [cutFormat, Ne.symm hc, ih hcs]

theorem passes_quoted {quote : Char} (hq : quote = '"' ∨ quote = '\'') {cs : List Char}
    (h : quote ∉ cs) (d : Int) : Passes d d (quote :: (cs ++ [quote])) := by
  intro more
  have hquoted := cutFormat_quoted h d more
  rcases hq with rfl | rfl <;> simp [cutFormat, hquoted]

def turn : Token → Int
  | .punct p => if p.closer?.isSome then 1 else if p.isCloser then -1 else 0
  | _ => 0

theorem passes_punct (p : Punct) {d : Int} (hd : (Token.punct p).isSeparator = true → d ≠ 0) :
    Passes d (d + turn (.punct p)) p.spelling.toList := by
  intro more
  cases p with
  | comma | colon =>
      have hd := hd rfl
      simp [Punct.spelling, cutFormat, turn, Punct.closer?, Punct.isCloser, hd]
  | _ => simp [Punct.spelling, cutFormat, turn, Punct.closer?, Punct.isCloser, Int.sub_eq_add_neg]

def isWordPart (c : Char) : Bool := isNamePart c || c == '.' || c == '+' || c == '-'

theorem isLoud_eq_false {p : Char → Bool} (hall : loud.all (!p ·) = true) {c : Char}
    (h : p c = true) : isLoud c = false := by
  refine Bool.eq_false_iff.2 fun hloud => ?_
  have hnot := List.all_eq_true.1 hall c (List.contains_iff_mem.1 hloud)
  rw [h] at hnot
  cases hnot

theorem isLoud_of_isWordPart {c : Char} (h : isWordPart c = true) : isLoud c = false :=
  isLoud_eq_false (by decide) h

theorem isLoud_of_isBlank {c : Char} (h : isBlank c = true) : isLoud c = false :=
  isLoud_eq_false (by decide) h

end Interpolation

namespace Lexer

open Interpolation

def Wordy (cs : List Char) : Prop := ∀ c ∈ cs, isWordPart c = true

theorem Wordy.append {xs ys : List Char} (h : Wordy xs) (h' : Wordy ys) : Wordy (xs ++ ys) :=
  List.forall_mem_append.2 ⟨h, h'⟩

theorem wordy_takeWhile {p : Char → Bool} (hp : ∀ {c}, p c = true → isNamePart c = true)
    (cs : List Char) : Wordy (cs.takeWhile p) := by
  intro c hc
  have hname := hp (List.all_eq_true.1 List.all_takeWhile c hc)
  simp [isWordPart, hname]

theorem wordy_fraction (cs : List Char) : Wordy (fraction cs).1 := by
  fun_cases fraction cs with
  | case1 rest =>
      exact List.forall_mem_cons.2 ⟨by decide, wordy_takeWhile isNamePart_of_isDigitPart rest⟩
  | case2 | case3 => exact fun _ h => by cases h

theorem wordy_sign (cs : List Char) : Wordy (sign cs).1 := by
  fun_cases sign cs with
  | case1 c rest hc =>
      refine List.forall_mem_singleton.2 ?_
      rcases hc with rfl | rfl <;> decide
  | case2 | case3 => exact fun _ h => by cases h

theorem wordy_exponent (cs : List Char) : Wordy (exponent cs).1 := by
  fun_cases exponent cs with
  | case1 c rest hc =>
      refine List.forall_mem_cons.2 ⟨?_, (wordy_sign rest).append
        (wordy_takeWhile isNamePart_of_isDigitPart _)⟩
      rcases hc.1 with rfl | rfl <;> decide
  | case2 | case3 => exact fun _ h => by cases h

theorem wordy_decimal (cs : List Char) : Wordy (decimal cs).text :=
  ((wordy_takeWhile isNamePart_of_isDigitPart cs).append (wordy_fraction _)).append
    (wordy_exponent _)

theorem wordy_numeral (cs : List Char) : Wordy (numeral cs).text := by
  fun_cases numeral cs with
  | case1 c rest hc =>
      refine List.forall_mem_cons.2 ⟨by decide, List.forall_mem_cons.2 ⟨?_,
        wordy_takeWhile isNamePart_of_isHexPart rest⟩⟩
      rcases hc with rfl | rfl | rfl | rfl <;> decide
  | case2 => exact wordy_decimal _
  | case3 => exact wordy_decimal _

theorem wordy_suffix (isReal : Bool) (cs : List Char) : Wordy (suffix isReal cs).text := by
  fun_induction suffix isReal cs with
  | case1 c rest hc more ih =>
      have hname := isNamePart_of_isSuffixChar (isSuffixChar_of_toLower
        (hc.1.elim .inl fun h => .inr (.inl h)))
      exact List.forall_mem_cons.2 ⟨by simp [isWordPart, hname], ih⟩
  | case2 c rest _ hc =>
      have hname := isNamePart_of_isSuffixChar (isSuffixChar_of_toLower (.inr (.inr hc)))
      exact List.forall_mem_singleton.2 (by simp [isWordPart, hname])
  | case3 | case4 => exact fun _ h => by cases h

theorem wordy_number (cs : List Char) : Wordy (number cs).text :=
  (wordy_numeral cs).append (wordy_suffix _ _)

theorem wordy_name (cs : List Char) : Wordy (name cs).text := wordy_takeWhile id cs

theorem turn_number (cs : List Char) : turn (number cs).token = 0 := by
  rw [number]
  dsimp only
  split <;> rfl

theorem Wordy.passes {cs : List Char} (h : Wordy cs) (d : Int) : Passes d d cs :=
  passes_quiet (fun c hc => isLoud_of_isWordPart (h c hc)) d

/-- A token is passed over as a whole. -/
theorem passes_lexeme {c : Char} {rest : List Char} {l : Lexeme} (h : lexeme c rest = .ok l)
    (hplain : l.token.Plain) {d : Int} (hd : l.token.isSeparator = true → d ≠ 0) :
    Passes d (d + turn l.token) l.text := by
  cases isLexeme_of_lexeme h with
  | interpolated =>
      have hsign : Passes d d ['$'] := passes_quiet (by simp [isLoud, loud]) d
      have hquoted := passes_quoted (.inl rfl) (by simpa [Token.Plain] using hplain) d
      simpa [turn] using hsign.append hquoted
  | verbatim =>
      have hsign : Passes d d ['@'] := passes_quiet (by simp [isLoud, loud]) d
      simpa [turn, name] using hsign.append ((wordy_name rest).passes d)
  | name => simpa [turn, name] using (wordy_name (c :: rest)).passes d
  | number =>
      rw [turn_number, Int.add_zero]
      exact (wordy_number (c :: rest)).passes d
  | str =>
      have hquoted := passes_quoted (.inl rfl) (by simpa [Token.Plain] using hplain) d
      simpa [turn] using hquoted
  | char =>
      have hquoted := passes_quoted (.inr rfl) (by simpa [Token.Plain] using hplain) d
      simpa [turn] using hquoted
  | punct => exact passes_punct _ hd

end Lexer

namespace Scan

open Interpolation

theorem gaps_nil {cs : List Char} (hg : (gap cs).2 = []) : gaps cs = (gap cs).1 := by
  rw [gaps]
  split
  · rw [List.append_nil]
  · rename_i hg'
    rw [hg] at hg'
    cases hg'

theorem gaps_cons {cs : List Char} {c : Char} {rest : List Char} {l : Lexeme}
    (hg : (gap cs).2 = c :: rest) (hl : lexeme c rest = .ok l) :
    gaps cs = (gap cs).1 ++ gaps l.rest := by
  rw [gaps]
  split
  · rename_i hg'
    rw [hg] at hg'
    cases hg'
  · rename_i hg'
    rw [hg] at hg'
    cases hg'
    split
    · rename_i hl'
      rw [hl] at hl'
      cases hl'
    · rename_i hl'
      rw [hl] at hl'
      cases hl'
      rfl

end Scan

namespace Interpolation

open Scan

theorem length_of_nest {brackets now : List Punct} {t : Token} (h : t.nest brackets = some now) :
    (now.length : Int) = brackets.length + turn t := by
  cases t with
  | punct p =>
      simp only [Token.nest] at h
      split at h
      · rename_i hp
        cases h
        simp [turn, hp]
      · rename_i hp
        split at h
        · rename_i hclose
          split at h
          · split at h
            · cases h
              have hturn : turn (.punct p) = -1 := by simp [turn, hp, hclose]
              rw [hturn, List.length_cons]
              omega
            · cases h
          · cases h
        · rename_i hclose
          cases h
          simp [turn, hp, hclose]
  | _ =>
      cases h
      simp [turn]

theorem passes_gap {cs : List Char} (h : ∀ c ∈ (gap cs).1, isBlank c = true) (d : Int) :
    Passes d d (gap cs).1 :=
  passes_quiet (fun c hc => isLoud_of_isBlank (h c hc)) d

theorem verdict_eq_cut {brackets : List Punct} {p q : Placed} {ps before : List Placed}
    (h : verdict brackets (p :: ps) = .cut before q) :
    (p.token.isSeparator = true ∧ brackets = [] ∧ before = [] ∧ q = p) ∨
      ∃ now more, (p.token.isSeparator = true → brackets ≠ []) ∧
        p.token.nest brackets = some now ∧ verdict now ps = .cut more q ∧ before = p :: more := by
  rw [verdict] at h
  split at h
  · rename_i hp
    cases h
    exact .inl ⟨hp.1, hp.2, rfl, rfl⟩
  · rename_i hp
    split at h
    · rename_i now hnow
      have hsep : p.token.isSeparator = true → brackets ≠ [] := fun hs hb => hp ⟨hs, hb⟩
      cases hmore : verdict now ps with
      | cut more r =>
          rw [hmore] at h
          cases h
          exact .inr ⟨now, more, hsep, hnow, hmore, rfl⟩
      | whole | tangled =>
          rw [hmore] at h
          cases h
    · cases h

theorem verdict_eq_whole {brackets : List Punct} {p : Placed} {ps : List Placed}
    (h : verdict brackets (p :: ps) = .whole) :
    ∃ now, (p.token.isSeparator = true → brackets ≠ []) ∧ p.token.nest brackets = some now ∧
      verdict now ps = .whole := by
  rw [verdict] at h
  split at h
  · cases h
  · rename_i hp
    split at h
    · rename_i now hnow
      refine ⟨now, fun hs hb => hp ⟨hs, hb⟩, hnow, ?_⟩
      cases hmore : verdict now ps with
      | whole => rfl
      | cut more r | tangled =>
          rw [hmore] at h
          cases h
    · cases h

/-- The gap before a token and the token are passed over. -/
theorem passes_token {cs : List Char} {c : Char} {rest : List Char} {l : Lexeme}
    (hg : (gap cs).2 = c :: rest) (hl : lexeme c rest = .ok l)
    (hblank : ∀ c ∈ gaps cs, isBlank c = true) (hplain : l.token.Plain)
    {brackets now : List Punct} (hsep : l.token.isSeparator = true → brackets ≠ [])
    (hnow : l.token.nest brackets = some now) :
    Passes brackets.length now.length ((gap cs).1 ++ l.text) ∧
      (gap cs).1 ++ l.text ++ l.rest = cs ∧ ∀ c ∈ gaps l.rest, isBlank c = true := by
  rw [gaps_cons hg hl] at hblank
  obtain ⟨hgap, hrest⟩ := List.forall_mem_append.1 hblank
  have hd : l.token.isSeparator = true → (brackets.length : Int) ≠ 0 := fun hs hlen =>
    hsep hs (List.length_eq_zero_iff.1 (Int.ofNat.inj hlen))
  have hsplit := gap_split cs
  rw [hg, ← lexeme_split hl, ← List.append_assoc] at hsplit
  rw [length_of_nest hnow]
  exact ⟨(passes_gap hgap _).append (passes_lexeme hl hplain hd), hsplit, hrest⟩

theorem separator_of_lexeme {c : Char} {rest : List Char} {l : Lexeme} (h : lexeme c rest = .ok l)
    (hsep : l.token.isSeparator = true) : c = ',' ∨ c = ':' := by
  cases isLexeme_of_lexeme h with
  | @punct _ _ _ p mark =>
      have hsplit := punct_split mark
      cases p with
      | comma =>
          cases hsplit
          exact .inl rfl
      | colon =>
          cases hsplit
          exact .inr rfl
      | _ => cases hsep
  | number =>
      simp only [number] at hsep
      split at hsep <;> cases hsep
  | _ => cases hsep

theorem cutFormat_of_cut {here : Position} {cs : List Char} {s : Scan} (h : run here cs = .ok s)
    (hblank : ∀ c ∈ gaps cs, isBlank c = true) {brackets : List Punct} {before : List Placed}
    {p : Placed} (hv : verdict brackets s.tokens = .cut before p)
    (hplain : ∀ q ∈ before, q.token.Plain) :
    ∃ front back, cs = front ++ back ∧ p.position = here.after front ∧ back ≠ [] ∧
      cutFormat brackets.length none cs = (front, back) := by
  fun_induction run here cs generalizing s brackets before with
  | case1 =>
      cases h
      cases hv
  | case2 => cases h
  | case3 => cases h
  | case4 =>
      rename_i here cs first c rest hg l hl more hm ih
      cases h
      rcases verdict_eq_cut hv with ⟨hsep, rfl, rfl, rfl⟩ | ⟨now, others, hsep, hnow, hmore, rfl⟩
      · have hsplit := gap_split cs
        rw [hg] at hsplit
        rw [gaps_cons hg hl] at hblank
        have hpasses := passes_gap (List.forall_mem_append.1 hblank).1 0 (c :: rest)
        have hcut : cutFormat 0 none (c :: rest) = ([], c :: rest) := by
          rcases separator_of_lexeme hl hsep with rfl | rfl <;> simp [cutFormat]
        rw [hsplit, hcut, List.append_nil] at hpasses
        exact ⟨(gap cs).1, c :: rest, hsplit.symm, rfl, by simp, hpasses⟩
      · obtain ⟨htoken, hothers⟩ := List.forall_mem_cons.1 hplain
        obtain ⟨hpasses, hsplit, hrest⟩ := passes_token hg hl hblank htoken hsep hnow
        obtain ⟨front, back, hbehind, hplace, hback, hcut⟩ := ih hm hrest hmore hothers
        refine ⟨(gap cs).1 ++ l.text ++ front, back, ?_, ?_, hback, ?_⟩
        · rw [List.append_assoc, ← hbehind, hsplit]
        · rw [hplace]
          simp [first]
        · have hall := hpasses l.rest
          rwa [hsplit, hcut] at hall

theorem cutFormat_of_whole {here : Position} {cs : List Char} {s : Scan} (h : run here cs = .ok s)
    (hblank : ∀ c ∈ gaps cs, isBlank c = true) {brackets : List Punct}
    (hv : verdict brackets s.tokens = .whole) (hplain : ∀ q ∈ s.tokens, q.token.Plain) :
    cutFormat brackets.length none cs = (cs, []) := by
  fun_induction run here cs generalizing s brackets with
  | case1 =>
      rename_i here cs first hg
      rw [gaps_nil hg] at hblank
      have hsplit := gap_split cs
      rw [hg] at hsplit
      have hall := passes_gap hblank brackets.length []
      rw [hsplit] at hall
      rw [List.append_nil] at hsplit
      rw [hall, hsplit]
      simp [cutFormat]
  | case2 => cases h
  | case3 => cases h
  | case4 =>
      rename_i here cs first c rest hg l hl more hm ih
      cases h
      obtain ⟨htoken, hothers⟩ := List.forall_mem_cons.1 hplain
      obtain ⟨now, hsep, hnow, hv⟩ := verdict_eq_whole hv
      obtain ⟨hpasses, hsplit, hrest⟩ := passes_token hg hl hblank htoken hsep hnow
      have hall := hpasses l.rest
      rwa [hsplit, ih hm hrest hv hothers, hsplit] at hall

/-- A hole is cut where its tokens say. -/
theorem holeSegment_of_scan {hole : List Char} {s : Scan} (h : Scan.ofChars hole = .ok s)
    (hblank : ∀ c ∈ gaps hole, isBlank c = true) :
    (∀ before p, verdict [] s.tokens = .cut before p → (∀ q ∈ before, q.token.Plain) →
      ∃ front back, hole = front ++ back ∧ p.position = Position.start.after front ∧
        holeSegment hole = .hole front (some back)) ∧
    (verdict [] s.tokens = .whole → (∀ q ∈ s.tokens, q.token.Plain) →
      holeSegment hole = .hole hole none) := by
  constructor
  · intro before p hv hplain
    obtain ⟨front, back, hsplit, hplace, hback, hcut⟩ := cutFormat_of_cut h hblank hv hplain
    refine ⟨front, back, hsplit, hplace, ?_⟩
    rw [holeSegment, show cutFormat 0 none hole = (front, back) from hcut]
    simp [hback]
  · intro hv hplain
    have hcut : cutFormat 0 none hole = (hole, []) := cutFormat_of_whole h hblank hv hplain
    rw [holeSegment, hcut]
    rfl

theorem holeSegment_of_scan_arguments :
    let hole := "F(a ? b : \"x,(\", ':'),-10:N2".toList
    ∃ s before p, Scan.ofChars hole = .ok s ∧ (∀ c ∈ gaps hole, isBlank c = true) ∧
      verdict [] s.tokens = .cut before p ∧ (∀ q ∈ before, q.token.Plain) ∧
      p.position = ⟨1, 22⟩ ∧
      ∃ front back, hole = front ++ back ∧ p.position = Position.start.after front ∧
        holeSegment hole = .hole front (some back) := by
  intro hole
  let before : List Placed := [⟨.ident "F", ⟨1, 1⟩⟩, ⟨.punct .openParen, ⟨1, 2⟩⟩,
    ⟨.ident "a", ⟨1, 3⟩⟩, ⟨.punct .question, ⟨1, 5⟩⟩, ⟨.ident "b", ⟨1, 7⟩⟩,
    ⟨.punct .colon, ⟨1, 9⟩⟩, ⟨.str "x,(", ⟨1, 11⟩⟩, ⟨.punct .comma, ⟨1, 16⟩⟩,
    ⟨.char ":", ⟨1, 18⟩⟩, ⟨.punct .closeParen, ⟨1, 21⟩⟩]
  let p : Placed := ⟨.punct .comma, ⟨1, 22⟩⟩
  let s : Scan := ⟨before ++ p :: [⟨.punct .minus, ⟨1, 23⟩⟩, ⟨.int "10", ⟨1, 24⟩⟩,
    ⟨.punct .colon, ⟨1, 26⟩⟩, ⟨.ident "N2", ⟨1, 27⟩⟩], ⟨1, 29⟩⟩
  have hscan : Scan.ofChars hole = .ok s := ok_of_toOption (by decide +kernel)
  have hblank : ∀ c ∈ gaps hole, isBlank c = true :=
    List.all_eq_true.1 (by decide +kernel : (gaps hole).all isBlank = true)
  have hverdict : verdict [] s.tokens = .cut before p := by decide
  have hplain : ∀ q ∈ before, q.token.Plain := by decide
  exact ⟨s, before, p, hscan, hblank, hverdict, hplain, rfl,
    (holeSegment_of_scan hscan hblank).1 before p hverdict hplain⟩

/-- The quote behind a backslash ends the literal for the cut, so that the next one hides the
comma. -/
theorem holeSegment_escaped_quote :
    let hole := "\"\\\"\",5".toList
    ∃ s before p, Scan.ofChars hole = .ok s ∧ (∀ c ∈ gaps hole, isBlank c = true) ∧
      verdict [] s.tokens = .cut before p ∧ holeSegment hole = .hole hole none := by
  intro hole
  let before : List Placed := [⟨.str "\\\"", ⟨1, 1⟩⟩]
  let p : Placed := ⟨.punct .comma, ⟨1, 5⟩⟩
  let s : Scan := ⟨before ++ [p, ⟨.int "5", ⟨1, 6⟩⟩], ⟨1, 7⟩⟩
  exact ⟨s, before, p, ok_of_toOption (by decide +kernel),
    List.all_eq_true.1 (by decide +kernel : (gaps hole).all isBlank = true), by decide, by decide⟩

end Interpolation

end Projection
