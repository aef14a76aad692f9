import Projection.Expr.Interpolation
import Projection.Proofs.Token.Lexed

/-!
Two readings of an interpolated string. The lexer passes over its holes to find the closing quote,
and splitting looks for them again in what was between the quotes; both find the same holes in the
same places, and splitting loses no character.
-/

namespace Projection

open Lexer

namespace Interpolation

/-- The stretch of the string that the segment was made from. -/
def Segment.region : Segment → Region
  | text chars => .text chars
  | hole source format => .hole (source ++ format.getD [])

def openings : List Char → List (List Char)
  | '{' :: '{' :: rest => openings rest
  | '}' :: '}' :: rest => openings rest
  | '\\' :: _ :: rest => openings rest
  | '{' :: rest => rest :: openings (readHole 0 rest).2
  | _ :: rest => openings rest
  | [] => []
termination_by cs => cs.length
decreasing_by
  all_goals simp only [List.length_cons]
  all_goals first
    | omega
    | exact Nat.lt_succ_of_le (Nat.le_trans (Nat.le_add_left ..) (length_readHole_le 0 rest))

def Closed (cs : List Char) : Prop := (readHole 0 cs).1 ++ '}' :: (readHole 0 cs).2 = cs

theorem throughQuote_cons {quote c : Char} (h : ¬(c = '\n' ∨ c = '\\')) (rest : List Char) :
    throughQuote quote (c :: rest) =
      if c = quote then ([c], rest)
      else (c :: (throughQuote quote rest).1, (throughQuote quote rest).2) := by
  rw [throughQuote]
  rintro _ _ rfl
  exact absurd (Or.inr rfl) h

theorem throughQuote_of_quoted {quote : Char} {cs : List Char} {r : List Char × List Char}
    (h : quoted quote cs = some r) (ys : List Char) :
    throughQuote quote (r.1 ++ quote :: ys) = (r.1 ++ [quote], ys) := by
  fun_induction quoted quote cs generalizing r with
  | case1 c rest ih =>
      obtain ⟨s, hs, rfl⟩ := Option.map_eq_some_iff.1 h
      simp [throughQuote, ih hs]
  | case2 => cases h
  | case3 rest _ hplain =>
      cases h
      rw [List.nil_append, throughQuote_cons hplain, if_pos rfl]
      rfl
  | case4 c rest _ hplain hend ih =>
      obtain ⟨s, hs, rfl⟩ := Option.map_eq_some_iff.1 h
      rw [List.cons_append, throughQuote_cons hplain, if_neg hend, ih hs]
      rfl
  | case5 => cases h

theorem readHole_quote {c : Char} (hc : c = '"' ∨ c = '\'') (depth : Nat) (cs : List Char) :
    readHole depth (c :: cs) = (c :: ((throughQuote c cs).1 ++
      (readHole depth (throughQuote c cs).2).1), (readHole depth (throughQuote c cs).2).2) := by
  rw [readHole.eq_def]
  simp only [if_pos hc]

theorem readHole_open (depth : Nat) (cs : List Char) :
    readHole depth ('{' :: cs) =
      ('{' :: (readHole (depth + 1) cs).1, (readHole (depth + 1) cs).2) := by
  rw [readHole.eq_def]
  simp

theorem readHole_other {c : Char} (hquote : ¬(c = '"' ∨ c = '\'')) (hopen : c ≠ '{')
    (hclose : c ≠ '}') (depth : Nat) (cs : List Char) :
    readHole depth (c :: cs) = (c :: (readHole depth cs).1, (readHole depth cs).2) := by
  rw [readHole.eq_def]
  simp only [if_neg hquote, if_neg hopen, if_neg hclose]

/-- Where the lexer closes a hole, splitting does. -/
theorem readHole_of_holeText {depth : Nat} {cs : List Char} {r : List Char × List Char}
    (h : holeText depth cs = some r) (ys : List Char) :
    readHole depth (r.1 ++ '}' :: ys) = (r.1, ys) := by
  fun_induction holeText depth cs generalizing r with
  | case1 => cases h
  | case2 depth rest ih =>
      obtain ⟨s, hs, rfl⟩ := Option.map_eq_some_iff.1 h
      rw [List.cons_append, readHole_open, ih hs]
  | case3 =>
      cases h
      simp [readHole]
  | case4 depth rest hdepth _ ih =>
      obtain ⟨s, hs, rfl⟩ := Option.map_eq_some_iff.1 h
      obtain ⟨d, rfl⟩ := Nat.exists_eq_add_one_of_ne_zero hdepth
      rw [Nat.add_sub_cancel] at ih hs
      simp [readHole, ih hs]
  | case5 => cases h
  | case6 depth c rest hopen hclose hquote inner hq ih =>
      obtain ⟨s, hs, rfl⟩ := Option.map_eq_some_iff.1 h
      have hthrough := throughQuote_of_quoted hq (s.1 ++ '}' :: ys)
      rw [List.cons_append, List.append_assoc, List.cons_append, readHole_quote hquote, hthrough,
        ih hs]
      simp
  | case7 depth c rest hopen hclose hquote ih =>
      obtain ⟨s, hs, rfl⟩ := Option.map_eq_some_iff.1 h
      rw [List.cons_append, readHole_other hquote hopen hclose, ih hs]

theorem closed_of_holeText {cs : List Char} {r : List Char × List Char}
    (h : holeText 0 cs = some r) (ys : List Char) : Closed (r.1 ++ '}' :: ys) := by
  rw [Closed, readHole_of_holeText h]

theorem region_holeSegment (chars : List Char) : (holeSegment chars).region = .hole chars := by
  have hsplit := cutFormat_split 0 none chars
  rw [holeSegment]
  cases hcut : (cutFormat 0 none chars).2 with
  | nil =>
      rw [hcut, List.append_nil] at hsplit
      simp [Segment.region, hsplit]
  | cons c cs =>
      rw [hcut] at hsplit
      simp [Segment.region, hsplit]

theorem map_region_addText (chars : List Char) (ss : List Segment) :
    (addText chars ss).map Segment.region = widen chars (ss.map Segment.region) := by
  cases ss with
  | nil => rfl
  | cons s rest => cases s <;> rfl

theorem addText_addText (a b : List Char) (ss : List Segment) :
    addText a (addText b ss) = addText (a ++ b) ss := by
  cases ss with
  | nil => rfl
  | cons s rest => cases s <;> simp [addText]

/-- A character that starts neither an escape nor a hole is text, also one of two closing braces. -/
theorem segments_char {c : Char} (hslash : c ≠ '\\') (hbrace : c ≠ '{') (cs : List Char) :
    segments (c :: cs) = addText [c] (segments cs) ∧ openings (c :: cs) = openings cs := by
  by_cases hdouble : c = '}' ∧ ∃ more, cs = '}' :: more
  · obtain ⟨rfl, more, rfl⟩ := hdouble
    obtain ⟨hsegments, hopenings⟩ := segments_char hslash hbrace more
    refine ⟨?_, ?_⟩
    · rw [segments, hsegments, addText_addText]
      rfl
    · rw [openings, hopenings]
  · constructor
    · rw [segments]
      · exact fun _ h => absurd h hbrace
      · exact fun more h h' => hdouble ⟨h, more, h'⟩
      · exact fun _ _ h => absurd h hslash
      · exact hbrace
    · rw [openings]
      · exact fun _ h => absurd h hbrace
      · exact fun more h h' => hdouble ⟨h, more, h'⟩
      · exact fun _ _ h => absurd h hslash
      · exact hbrace
termination_by cs.length

/-- Splitting the string gives these regions, and finds the end of each of its holes. -/
structure Splits (raw : List Char) (rs : List Region) : Prop where
  regions : (segments raw).map Segment.region = rs
  holes : (openings raw).map (fun rest => (readHole 0 rest).1) = rs.filterMap Region.hole?
  closed : ∀ rest ∈ openings raw, Closed rest

theorem holes_widen (chars : List Char) (rs : List Region) :
    (widen chars rs).filterMap Region.hole? = rs.filterMap Region.hole? := by
  cases rs with
  | nil => rfl
  | cons r rs => cases r <;> rfl

theorem Splits.text {chars raw : List Char} {rs : List Region} (h : Splits raw rs)
    (hsegments : segments (chars ++ raw) = addText chars (segments raw))
    (hopenings : openings (chars ++ raw) = openings raw) :
    Splits (chars ++ raw) (widen chars rs) where
  regions := by rw [hsegments, map_region_addText, h.regions]
  holes := by rw [hopenings, holes_widen, h.holes]
  closed := hopenings ▸ h.closed

theorem Splits.hole {cs : List Char} {inner : List Char × List Char} {raw : List Char}
    {rs : List Region} (h : Splits raw rs) (hne : ∀ more, cs ≠ '{' :: more)
    (hinner : holeText 0 cs = some inner) :
    Splits ('{' :: (inner.1 ++ '}' :: raw)) (.hole inner.1 :: rs) := by
  have hread := readHole_of_holeText hinner raw
  have hbrace := holeText_ne_brace hne hinner raw
  have hopenings : openings ('{' :: (inner.1 ++ '}' :: raw)) =
      (inner.1 ++ '}' :: raw) :: openings raw := by
    rw [openings, hread]
    exact hbrace
  refine ⟨?_, ?_, ?_⟩
  · rw [segments, hread, List.map_cons, region_holeSegment, h.regions]
    exact hbrace
  · rw [hopenings, List.map_cons, hread, h.holes]
    rfl
  · rw [hopenings]
    exact List.forall_mem_cons.2 ⟨closed_of_holeText hinner raw, h.closed⟩

/-- What the lexer passes over is what splitting finds. -/
theorem splits_of_regions {cs : List Char} {r : List Region × List Char}
    (h : Lexer.regions cs = some r) : Splits (spread r.1) r.1 := by
  fun_induction Lexer.regions cs generalizing r with
  | case1 | case2 | case5 | case7 => cases h
  | case3 =>
      cases h
      exact ⟨by simp [spread, segments], by simp [spread, openings], by simp [spread, openings]⟩
  | case4 c rest ih =>
      obtain ⟨s, hs, rfl⟩ := Option.map_eq_some_iff.1 h
      rw [spread_widen]
      exact (ih hs).text (by simp [segments]) (by simp [openings])
  | case6 rest ih =>
      obtain ⟨s, hs, rfl⟩ := Option.map_eq_some_iff.1 h
      rw [spread_widen]
      exact (ih hs).text (by simp [segments]) (by simp [openings])
  | case8 rest hne inner hinner ih =>
      obtain ⟨s, hs, rfl⟩ := Option.map_eq_some_iff.1 h
      have hhole := (ih hs).hole hne hinner
      simpa [spread, Region.chars] using hhole
  | case9 c rest hline hquote hescape hlast _ hbrace ih =>
      obtain ⟨s, hs, rfl⟩ := Option.map_eq_some_iff.1 h
      have hslash : c ≠ '\\' := by
        rintro rfl
        cases rest with
        | nil => exact hlast rfl rfl
        | cons d rest => exact hescape d rest rfl rfl
      obtain ⟨hsegments, hopenings⟩ := segments_char hslash hbrace (spread s.1)
      rw [spread_widen]
      exact (ih hs).text hsegments hopenings

end Interpolation

namespace Scan

open Interpolation Text

/-- Every token of a scan stands in the source, at its place. -/
theorem exists_lexeme {here : Position} {cs : List Char} {s : Scan} (h : run here cs = .ok s)
    {p : Placed} (hp : p ∈ s.tokens) :
    ∃ before c rest l, cs = before ++ c :: rest ∧ p.position = here.after before ∧
      lexeme c rest = .ok l ∧ l.token = p.token := by
  fun_induction run here cs generalizing s with
  | case1 =>
      cases h
      cases hp
  | case2 => cases h
  | case3 => cases h
  | case4 =>
      rename_i here cs first c rest hg l hl more hm ih
      cases h
      have hsplit := gap_split cs
      rw [hg] at hsplit
      rcases List.mem_cons.1 hp with rfl | hp
      · exact ⟨(gap cs).1, c, rest, l, hsplit.symm, rfl, hl, rfl⟩
      · obtain ⟨before, d, tail, l', hrest, hplace, hl', htoken⟩ := ih hm hp
        refine ⟨(gap cs).1 ++ (l.text ++ before), d, tail, l', ?_, ?_, hl', htoken⟩
        · rw [List.append_assoc, List.append_assoc, ← hrest, lexeme_split hl, hsplit]
        · rw [hplace]
          simp [first]

theorem interpolated_of_lexeme {c : Char} {rest : List Char} {l : Lexeme} {raw : String}
    (h : lexeme c rest = .ok l) (hraw : l.token = .interpolated raw) :
    c = '$' ∧ ∃ more behind, rest = '"' :: more ∧
      interpolated 0 more = some (raw.toList, behind) := by
  cases isLexeme_of_lexeme h with
  | interpolated inside =>
      cases hraw
      exact ⟨rfl, _, _, rfl, by simpa using inside⟩
  | number =>
      simp only [number] at hraw
      split at hraw <;> cases hraw
  | _ => cases hraw

/-- The lexer and splitting agree on the holes of every interpolated string of a source. -/
theorem splits_interpolated {source : String} {s : Scan} (h : ofString source = .ok s)
    {p : Placed} (hp : p ∈ s.tokens) {raw : String} (hraw : p.token = .interpolated raw) :
    ∃ before rs behind,
      source.toList = before ++ '$' :: '"' :: (raw.toList ++ '"' :: behind) ∧
      p.position = Position.start.after before ∧
      Lexer.regions (raw.toList ++ '"' :: behind) = some (rs, behind) ∧
      Lexer.spread rs = raw.toList ∧ Splits raw.toList rs := by
  obtain ⟨before, c, rest, l, hsource, hplace, hl, htoken⟩ := exists_lexeme h hp
  obtain ⟨rfl, more, behind, rfl, hmore⟩ := interpolated_of_lexeme hl (htoken.trans hraw)
  obtain ⟨rs, hrs, hspread⟩ : ∃ rs, regions more = some (rs, behind) ∧ spread rs = raw.toList :=
    exists_regions hmore
  have hsplit : raw.toList ++ '"' :: behind = more := interpolated_split hmore
  have hsplits : Splits (spread rs) rs := splits_of_regions hrs
  rw [← hsplit] at hsource hrs
  exact ⟨before, rs, behind, hsource, hplace, hrs, hspread, hspread ▸ hsplits⟩

theorem splits_interpolated_quoted_brace :
    let raw := "a\x7b\x7b\x7bf(\"\x7d\", '\"'),3:N0\x7d\\\"c\x7d"
    let p : Placed := ⟨.interpolated raw, ⟨1, 5⟩⟩
    ∃ s, ofString ("x + $\"" ++ raw ++ "\" + y") = .ok s ∧ p ∈ s.tokens ∧
      segments raw.toList = [.text "a\x7b\x7b".toList,
        .hole "f(\"\x7d\", '\"')".toList (some ",3:N0".toList), .text "\\\"c\x7d".toList] ∧
      ∃ before rs behind,
        ("x + $\"" ++ raw ++ "\" + y").toList =
          before ++ '$' :: '"' :: (raw.toList ++ '"' :: behind) ∧
        p.position = Position.start.after before ∧
        Lexer.regions (raw.toList ++ '"' :: behind) = some (rs, behind) ∧
        Lexer.spread rs = raw.toList ∧ Splits raw.toList rs := by
  intro raw p
  let s : Scan := ⟨[⟨.ident "x", ⟨1, 1⟩⟩, ⟨.punct .plus, ⟨1, 3⟩⟩, p, ⟨.punct .plus, ⟨1, 34⟩⟩,
    ⟨.ident "y", ⟨1, 36⟩⟩], ⟨1, 37⟩⟩
  have hs : ofString ("x + $\"" ++ raw ++ "\" + y") = .ok s :=
    ok_of_toOption (by decide +kernel)
  have hp : p ∈ s.tokens := by simp [s]
  exact ⟨s, hs, hp, by decide +kernel, splits_interpolated hs hp rfl⟩

end Scan

end Projection
