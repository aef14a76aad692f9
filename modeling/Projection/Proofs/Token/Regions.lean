import Projection.Proofs.Token.Rescanned

/-!
What the lexer passes over inside of an interpolated string: text, and holes between braces. To
record it changes nothing about where the string ends.
-/

namespace Projection.Lexer

/-- A stretch of an interpolated string: text, or what stands between the braces of a hole. -/
inductive Region where
  | text (chars : List Char)
  | hole (chars : List Char)
  deriving DecidableEq, Repr

def Region.chars : Region → List Char
  | text cs => cs
  | hole cs => '{' :: (cs ++ ['}'])

def Region.hole? : Region → Option (List Char)
  | text _ => none
  | hole cs => some cs

def spread (rs : List Region) : List Char := rs.flatMap Region.chars

/-- Puts text in front, as part of the text that is there already. -/
def widen (chars : List Char) : List Region → List Region
  | .text more :: rest => .text (chars ++ more) :: rest
  | rest => .text chars :: rest

@[simp] theorem spread_widen (chars : List Char) (rs : List Region) :
    spread (widen chars rs) = chars ++ spread rs := by
  fun_cases widen chars rs <;> simp [spread, Region.chars]

/-- What stands in a hole before its closing brace, and what follows that brace; `depth` braces are
open inside of it. -/
def holeText (depth : Nat) (cs : List Char) : Option (List Char × List Char) :=
  match cs with
  | [] => none
  | c :: rest =>
      if c = '{' then (holeText (depth + 1) rest).map fun r => (c :: r.1, r.2)
      else if c = '}' then
        if depth = 0 then some ([], rest)
        else (holeText (depth - 1) rest).map fun r => (c :: r.1, r.2)
      else if c = '"' ∨ c = '\'' then
        match _h : quoted c rest with
        | none => none
        | some inner =>
            (holeText depth inner.2).map fun r => (c :: (inner.1 ++ c :: r.1), r.2)
      else (holeText depth rest).map fun r => (c :: r.1, r.2)
termination_by cs.length
decreasing_by
  all_goals simp only [List.length_cons]
  all_goals first
    | omega
    | exact Nat.lt_succ_of_lt (length_quoted_lt _h)

theorem holeText_split {depth : Nat} {cs : List Char} {r : List Char × List Char}
    (h : holeText depth cs = some r) : r.1 ++ '}' :: r.2 = cs := by
  fun_induction holeText depth cs generalizing r with
  | case1 => cases h
  | case2 depth rest ih | case4 depth rest _ _ ih =>
      obtain ⟨s, hs, rfl⟩ := Option.map_eq_some_iff.1 h
      simp [ih hs]
  | case3 =>
      cases h
      rfl
  | case5 => cases h
  | case6 depth c rest _ _ _ inner hq ih =>
      obtain ⟨s, hs, rfl⟩ := Option.map_eq_some_iff.1 h
      simp [ih hs, ← quoted_split hq]
  | case7 depth c rest _ _ _ ih =>
      obtain ⟨s, hs, rfl⟩ := Option.map_eq_some_iff.1 h
      simp [ih hs]

theorem length_holeText_lt {depth : Nat} {cs : List Char} {r : List Char × List Char}
    (h : holeText depth cs = some r) : r.2.length < cs.length := by
  have := congrArg List.length (holeText_split h)
  simp only [List.length_append, List.length_cons] at this
  omega

def regions (cs : List Char) : Option (List Region × List Char) :=
  match cs with
  | [] => none
  | '\n' :: _ => none
  | '"' :: rest => some ([], rest)
  | '\\' :: c :: rest => (regions rest).map fun r => (widen ['\\', c] r.1, r.2)
  | ['\\'] => none
  | '{' :: '{' :: rest => (regions rest).map fun r => (widen ['{', '{'] r.1, r.2)
  | '{' :: rest =>
      match _h : holeText 0 rest with
      | none => none
      | some inner => (regions inner.2).map fun r => (.hole inner.1 :: r.1, r.2)
  | c :: rest => (regions rest).map fun r => (widen [c] r.1, r.2)
termination_by cs.length
decreasing_by
  all_goals simp only [List.length_cons]
  all_goals first
    | omega
    | exact Nat.lt_succ_of_lt (length_holeText_lt _h)

/-- The lexer leaves a hole where `holeText` does, and goes on with text. -/
theorem interpolated_succ (depth : Nat) (cs : List Char) :
    interpolated (depth + 1) cs = (holeText depth cs).bind fun inner =>
      (interpolated 0 inner.2).map fun r => (inner.1 ++ '}' :: r.1, r.2) := by
  fun_induction holeText depth cs with
  | case1 => simp [interpolated]
  | case2 depth rest ih =>
      rw [interpolated, if_pos rfl, ih]
      simp [Option.map_bind, Option.bind_map, Function.comp_def]
  | case3 rest =>
      rw [interpolated, if_neg (by decide), if_pos rfl]
      simp
  | case4 depth rest hdepth _ ih =>
      obtain ⟨d, rfl⟩ := Nat.exists_eq_add_one_of_ne_zero hdepth
      rw [Nat.add_sub_cancel] at ih ⊢
      rw [interpolated, if_neg (by decide), if_pos rfl, ih]
      simp [Option.map_bind, Option.bind_map, Function.comp_def]
  | case5 depth c rest hopen hclose hquote hq =>
      rw [interpolated, if_neg hopen, if_neg hclose, if_pos hquote]
      split
      · rfl
      · rename_i hq'
        rw [hq] at hq'
        cases hq'
  | case6 depth c rest hopen hclose hquote inner hq ih =>
      rw [interpolated, if_neg hopen, if_neg hclose, if_pos hquote]
      split
      · rename_i hq'
        rw [hq] at hq'
        cases hq'
      · rename_i hq'
        rw [hq] at hq'
        cases hq'
        rw [ih]
        simp [Option.map_bind, Option.bind_map, Function.comp_def]
  | case7 depth c rest hopen hclose hquote ih =>
      rw [interpolated, if_neg hopen, if_neg hclose, if_neg hquote, ih]
      simp [Option.map_bind, Option.bind_map, Function.comp_def]

theorem interpolated_zero (cs : List Char) :
    interpolated 0 cs = (regions cs).map fun r => (spread r.1, r.2) := by
  fun_induction regions cs with
  | case1 => simp [interpolated]
  | case2 => simp [interpolated]
  | case3 => simp [interpolated, spread]
  | case4 c rest ih => simp [interpolated, ih, Function.comp_def]
  | case5 => simp [interpolated]
  | case6 rest ih => simp [interpolated, ih, Function.comp_def]
  | case7 rest hne hnone =>
      rw [interpolated, interpolated_succ, hnone]
      · rfl
      · exact hne
  | case8 rest hne inner hinner ih =>
      rw [interpolated, interpolated_succ, hinner, Option.bind_some, ih]
      · simp [spread, Region.chars, Function.comp_def]
      · exact hne
  | case9 c rest _ _ _ _ _ _ ih =>
      rw [interpolated, ih]
      · simp [Function.comp_def]
      all_goals assumption

theorem exists_regions {cs : List Char} {r : List Char × List Char}
    (h : interpolated 0 cs = some r) : ∃ rs, regions cs = some (rs, r.2) ∧ spread rs = r.1 := by
  rw [interpolated_zero] at h
  obtain ⟨⟨rs, behind⟩, hrs, rfl⟩ := Option.map_eq_some_iff.1 h
  exact ⟨rs, hrs, rfl⟩

theorem holeText_again {depth : Nat} {cs : List Char} {r : List Char × List Char}
    (h : holeText depth cs = some r) (ys : List Char) :
    holeText depth (r.1 ++ '}' :: ys) = some (r.1, ys) := by
  fun_induction holeText depth cs generalizing r with
  | case1 => cases h
  | case2 depth rest ih =>
      obtain ⟨s, hs, rfl⟩ := Option.map_eq_some_iff.1 h
      rw [List.cons_append, holeText, if_pos rfl, ih hs]
      rfl
  | case3 =>
      cases h
      simp [holeText]
  | case4 depth rest hdepth _ ih =>
      obtain ⟨s, hs, rfl⟩ := Option.map_eq_some_iff.1 h
      rw [List.cons_append, holeText, if_neg hdepth, ih hs]
      rfl
  | case5 => cases h
  | case6 depth c rest hopen hclose hquote inner hq ih =>
      obtain ⟨s, hs, rfl⟩ := Option.map_eq_some_iff.1 h
      have hagain := quoted_again hq (s.1 ++ '}' :: ys)
      rw [List.cons_append, List.append_assoc, List.cons_append, holeText, if_neg hopen,
        if_neg hclose, if_pos hquote]
      split
      · rename_i hq'
        rw [hagain] at hq'
        cases hq'
      · rename_i hq'
        rw [hagain] at hq'
        cases hq'
        rw [ih hs]
        rfl
  | case7 depth c rest hopen hclose hquote ih =>
      obtain ⟨s, hs, rfl⟩ := Option.map_eq_some_iff.1 h
      rw [List.cons_append, holeText, if_neg hopen, if_neg hclose, if_neg hquote, ih hs]
      rfl

theorem holeText_ne_brace {cs : List Char} {inner : List Char × List Char}
    (hne : ∀ more, cs ≠ '{' :: more) (h : holeText 0 cs = some inner) (ys more : List Char) :
    inner.1 ++ '}' :: ys ≠ '{' :: more := by
  have hsplit := holeText_split h
  obtain ⟨text, behind⟩ := inner
  cases text with
  | nil => rintro ⟨⟩
  | cons c text =>
      rintro ⟨⟩
      exact hne _ hsplit.symm

theorem regions_hole {cs : List Char} {inner : List Char × List Char}
    (hne : ∀ more, cs ≠ '{' :: more) (h : holeText 0 cs = some inner) :
    regions ('{' :: cs) = (regions inner.2).map fun r => (.hole inner.1 :: r.1, r.2) := by
  rw [regions]
  · split
    · rename_i h'
      rw [h] at h'
      cases h'
    · rename_i h'
      rw [h] at h'
      cases h'
      rfl
  · exact hne

theorem regions_again {cs : List Char} {r : List Region × List Char}
    (h : regions cs = some r) (ys : List Char) :
    regions (spread r.1 ++ '"' :: ys) = some (r.1, ys) := by
  fun_induction regions cs generalizing r with
  | case1 => cases h
  | case2 => cases h
  | case3 =>
      cases h
      simp [spread, regions]
  | case4 c rest ih =>
      obtain ⟨s, hs, rfl⟩ := Option.map_eq_some_iff.1 h
      simp [regions, ih hs]
  | case5 => cases h
  | case6 rest ih =>
      obtain ⟨s, hs, rfl⟩ := Option.map_eq_some_iff.1 h
      simp [regions, ih hs]
  | case7 => cases h
  | case8 rest hne inner hinner ih =>
      obtain ⟨s, hs, rfl⟩ := Option.map_eq_some_iff.1 h
      have hopen := holeText_ne_brace hne hinner (spread s.1 ++ '"' :: ys)
      have hhole := regions_hole hopen (holeText_again hinner (spread s.1 ++ '"' :: ys))
      rw [ih hs] at hhole
      simpa [spread, Region.chars] using hhole
  | case9 c rest hline hquote hescape hlast _ hbrace ih =>
      obtain ⟨s, hs, rfl⟩ := Option.map_eq_some_iff.1 h
      have hslash : c ≠ '\\' := by
        rintro rfl
        cases rest with
        | nil => exact hlast rfl rfl
        | cons d rest => exact hescape d rest rfl rfl
      rw [spread_widen, List.cons_append, List.nil_append, List.cons_append, regions, ih hs]
      · rfl
      · exact hline
      · exact hquote
      · exact fun _ _ hc => absurd hc hslash
      · exact fun hc => absurd hc hslash
      · exact fun _ hc => absurd hc hbrace
      · exact hbrace

theorem interpolated_again {cs : List Char} {r : List Char × List Char}
    (h : interpolated 0 cs = some r) (ys : List Char) :
    interpolated 0 (r.1 ++ '"' :: ys) = some (r.1, ys) := by
  obtain ⟨rs, hrs, hspread⟩ := exists_regions h
  rw [interpolated_zero, ← hspread, regions_again hrs]
  rfl

end Projection.Lexer
