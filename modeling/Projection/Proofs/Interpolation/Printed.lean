import Projection.Proofs.Expr.Tokens
import Projection.Proofs.Interpolation.Holes

/-!
The parts of an interpolated string, printed. Texts that stood in a string are passed over as text
again, and a hole that is closed by its own brace is found again. What is left open is only where
the format of a hole starts.
-/

namespace Projection

open Lexer

namespace Interpolation

/-- Text of a string: no quote or line end, and a backslash or an opening brace only in a pair. -/
inductive IsText : List Char → Prop
  | nil : IsText []
  | escape {c cs} : IsText cs → IsText ('\\' :: c :: cs)
  | brace {cs} : IsText cs → IsText ('{' :: '{' :: cs)
  | char {c cs} : c ≠ '\n' → c ≠ '"' → c ≠ '\\' → c ≠ '{' → IsText cs → IsText (c :: cs)

/-- Segments as splitting leaves them: no text is empty or stands next to another, and no format is
empty. -/
inductive Laid : List Segment → Prop
  | nil : Laid []
  | text {chars ss} : chars ≠ [] → IsText chars → (∀ more ss', ss ≠ .text more :: ss') → Laid ss →
      Laid (.text chars :: ss)
  | hole {source format ss} : format ≠ some [] → Laid ss → Laid (.hole source format :: ss)

theorem Laid.addText {ss : List Segment} (h : Laid ss) {chars : List Char} (hne : chars ≠ [])
    (hchars : ∀ cs, IsText cs → IsText (chars ++ cs)) : Laid (addText chars ss) := by
  have halone : IsText chars := by simpa using hchars [] .nil
  cases h with
  | nil => exact .text hne halone nofun .nil
  | text _ htext hnext h => exact .text (by simp [hne]) (hchars _ htext) hnext h
  | hole hformat h => exact .text hne halone nofun (.hole hformat h)

def Segment.frame : Segment → Segment
  | text chars => text chars
  | hole _ format => hole [] format

/-- How segments are laid out has nothing to do with the expressions in the holes. -/
theorem Laid.congr {ss ss' : List Segment} (h : Laid ss)
    (heq : ss'.map Segment.frame = ss.map Segment.frame) : Laid ss' := by
  induction h generalizing ss' with
  | nil =>
      rw [List.map_eq_nil_iff.1 heq]
      exact .nil
  | @text chars ss hne htext hnext _ ih =>
      obtain ⟨s, rest, rfl, hs, hrest⟩ := List.map_eq_cons_iff.1 heq
      cases s with
      | text more =>
          cases hs
          refine .text hne htext (fun more rest' hrest' => ?_) (ih hrest)
          subst hrest'
          cases ss with
          | nil => cases hrest
          | cons s ss =>
              cases s with
              | text more => exact hnext more ss rfl
              | hole source format => cases (List.cons.inj hrest).1
      | hole source format => cases hs
  | hole hformat _ ih =>
      obtain ⟨s, rest, rfl, hs, hrest⟩ := List.map_eq_cons_iff.1 heq
      cases s with
      | text more => cases hs
      | hole source format =>
          cases hs
          exact .hole hformat (ih hrest)

def Segment.ofRegion : Region → Segment
  | .text chars => .text chars
  | .hole chars => holeSegment chars

theorem map_ofRegion_widen (chars : List Char) (rs : List Region) :
    (widen chars rs).map Segment.ofRegion = addText chars (rs.map Segment.ofRegion) := by
  cases rs with
  | nil => rfl
  | cons r rest => cases r <;> rfl

theorem laid_of_regions {cs : List Char} {r : List Region × List Char}
    (h : Lexer.regions cs = some r) : Laid (r.1.map Segment.ofRegion) := by
  fun_induction Lexer.regions cs generalizing r with
  | case1 | case2 | case5 | case7 => cases h
  | case3 =>
      cases h
      exact .nil
  | case4 c rest ih =>
      obtain ⟨s, hs, rfl⟩ := Option.map_eq_some_iff.1 h
      rw [map_ofRegion_widen]
      exact (ih hs).addText (by simp) fun _ => .escape
  | case6 rest ih =>
      obtain ⟨s, hs, rfl⟩ := Option.map_eq_some_iff.1 h
      rw [map_ofRegion_widen]
      exact (ih hs).addText (by simp) fun _ => .brace
  | case8 rest hne inner hinner ih =>
      obtain ⟨s, hs, rfl⟩ := Option.map_eq_some_iff.1 h
      refine .hole ?_ (ih hs)
      split <;> simp_all
  | case9 c rest hline hquote hescape hlast _ hbrace ih =>
      obtain ⟨s, hs, rfl⟩ := Option.map_eq_some_iff.1 h
      have hslash : c ≠ '\\' := by
        rintro rfl
        cases rest with
        | nil => exact hlast rfl rfl
        | cons d rest => exact hescape d rest rfl rfl
      rw [map_ofRegion_widen]
      exact (ih hs).addText (by simp) fun _ => .char hline hquote hslash hbrace

theorem ofRegion_region {cs : List Char} {s : Segment} (h : s ∈ segments cs) :
    Segment.ofRegion s.region = s := by
  have htext {chars : List Char} {ss : List Segment} (ih : s ∈ ss → Segment.ofRegion s.region = s)
      (h : s ∈ addText chars ss) : Segment.ofRegion s.region = s := by
    revert h ih
    fun_cases addText chars ss with
    | case1 more rest =>
        intro ih h
        rcases List.mem_cons.1 h with rfl | h
        · rfl
        · exact ih (List.mem_cons_of_mem _ h)
    | case2 =>
        intro ih h
        rcases List.mem_cons.1 h with rfl | h
        · rfl
        · exact ih h
  fun_induction segments cs with
  | case1 rest ih | case2 rest ih | case3 _ rest ih | case5 _ rest _ _ _ _ ih => exact htext ih h
  | case4 rest _ ih =>
      rcases List.mem_cons.1 h with rfl | h
      · rw [region_holeSegment]
        rfl
      · exact ih h
  | case6 => cases h

/-- The segments of a string are those of its regions, one by one. -/
theorem segments_spread {cs : List Char} {r : List Region × List Char}
    (h : Lexer.regions cs = some r) : segments (spread r.1) = r.1.map Segment.ofRegion := by
  have hregions : (segments (spread r.1)).map Segment.region = r.1 := (splits_of_regions h).regions
  calc segments (spread r.1)
    _ = (segments (spread r.1)).map fun s => Segment.ofRegion s.region :=
        ((List.map_congr_left fun s hs => ofRegion_region hs).trans (List.map_id _)).symm
    _ = ((segments (spread r.1)).map Segment.region).map Segment.ofRegion := by
        rw [List.map_map]
        rfl
    _ = r.1.map Segment.ofRegion := by rw [hregions]

theorem laid_segments {raw : String} (h : (Token.interpolated raw).Valid) :
    Laid (segments raw.toList) := by
  obtain ⟨rs, hrs, hspread⟩ : ∃ rs, Lexer.regions (raw.toList ++ ['"']) = some (rs, []) ∧
      spread rs = raw.toList := exists_regions (h [])
  have hsplit : segments (spread rs) = rs.map Segment.ofRegion := segments_spread hrs
  rw [← hspread, hsplit]
  exact laid_of_regions hrs

theorem widen_widen (a b : List Char) (rs : List Region) :
    widen a (widen b rs) = widen (a ++ b) rs := by
  cases rs with
  | nil => rfl
  | cons r rest => cases r <;> simp [widen]

theorem regions_text {chars : List Char} (h : IsText chars) (hne : chars ≠ []) (cs : List Char) :
    Lexer.regions (chars ++ cs) = (Lexer.regions cs).map fun r => (widen chars r.1, r.2) := by
  have hstep (unit : List Char) {text : List Char}
      (hunit : ∀ cs, Lexer.regions (unit ++ cs) =
        (Lexer.regions cs).map fun r => (widen unit r.1, r.2))
      (ih : text ≠ [] → Lexer.regions (text ++ cs) =
        (Lexer.regions cs).map fun r => (widen text r.1, r.2)) :
      Lexer.regions (unit ++ (text ++ cs)) =
        (Lexer.regions cs).map fun r => (widen (unit ++ text) r.1, r.2) := by
    rw [hunit]
    by_cases htext : text = []
    · simp [htext]
    · rw [ih htext, Option.map_map]
      exact congrArg (Option.map · _) (funext fun r => by simp [widen_widen])
  induction h with
  | nil => exact absurd rfl hne
  | @escape c text _ ih => exact hstep ['\\', c] (fun cs => by simp [Lexer.regions]) ih
  | brace _ ih => exact hstep ['{', '{'] (fun cs => by simp [Lexer.regions]) ih
  | @char c text hline hquote hslash hbrace _ ih =>
      refine hstep [c] (fun cs => ?_) ih
      rw [List.cons_append, List.nil_append, Lexer.regions]
      · exact hline
      · exact hquote
      · exact fun _ _ hc => absurd hc hslash
      · exact fun hc => absurd hc hslash
      · exact fun _ hc => absurd hc hbrace
      · exact hbrace

/-- The text of a hole is not taken for a brace and ends at the brace behind it. -/
structure Closes (chars : List Char) : Prop where
  brace : ∀ more, chars ≠ '{' :: more
  ends : holeText 0 (chars ++ ['}']) = some (chars, [])

theorem Closes.regions {chars : List Char} (h : Closes chars) (cs : List Char) :
    Lexer.regions ('{' :: (chars ++ '}' :: cs)) =
      (Lexer.regions cs).map fun r => (.hole chars :: r.1, r.2) := by
  have hagain := holeText_again h.ends cs
  refine regions_hole (fun more heq => ?_) hagain
  cases chars with
  | nil => cases heq
  | cons c chars =>
      cases heq
      exact h.brace chars rfl

/-- Segments that were split off are passed over as they are, if their holes still end where they
did. -/
theorem regions_of_laid {ss : List Segment} (h : Laid ss)
    (hholes : ∀ chars, .hole chars ∈ ss.map Segment.region → Closes chars) (ys : List Char) :
    Lexer.regions (spread (ss.map Segment.region) ++ '"' :: ys) =
      some (ss.map Segment.region, ys) := by
  induction h with
  | nil => simp [spread, Lexer.regions]
  | @text chars ss hne htext hnext _ ih =>
      have hwiden : widen chars (ss.map Segment.region) = .text chars :: ss.map Segment.region := by
        cases ss with
        | nil => rfl
        | cons s ss =>
            cases s with
            | text more => exact absurd rfl (hnext more ss)
            | hole source format => rfl
      have hread := regions_text htext hne (spread (ss.map Segment.region) ++ '"' :: ys)
      rw [ih fun cs hcs => hholes cs (List.mem_cons_of_mem _ hcs), Option.map_some, hwiden] at hread
      simpa [spread, Segment.region, Region.chars] using hread
  | @hole source format ss _ _ ih =>
      have hread := (hholes _ List.mem_cons_self).regions
        (spread (ss.map Segment.region) ++ '"' :: ys)
      rw [ih fun cs hcs => hholes cs (List.mem_cons_of_mem _ hcs), Option.map_some] at hread
      simpa [spread, Segment.region, Region.chars] using hread

/-- Whether a hole is split as it was put together is a matter of its own text. -/
theorem holeSegment_eq_iff {source : List Char} {format : Option (List Char)}
    (hformat : format ≠ some []) :
    holeSegment (source ++ format.getD []) = .hole source format ↔
      cutFormat 0 none (source ++ format.getD []) = (source, format.getD []) := by
  rw [holeSegment]
  cases hcut : cutFormat 0 none (source ++ format.getD []) with
  | mk before behind =>
      cases format with
      | none => cases behind <;> simp
      | some format =>
          have hne : format ≠ [] := fun h => hformat (h ▸ rfl)
          cases behind with
          | nil => simp [hne.symm]
          | cons c cs => simp

end Interpolation

open Interpolation Projection.Expr

def Part.segment : Part → Segment
  | .text s => .text s.toList
  | .hole e f => .hole e.source.toList (f.map String.toList)

theorem toList_printParts (ps : List Part) :
    (printParts StructuralId.placeholder ps).toList =
      spread ((ps.map Part.segment).map Segment.region) := by
  induction ps with
  | nil => rfl
  | cons p ps ih =>
      cases p with
      | text s =>
          rw [printParts, String.toList_append, ih]
          rfl
      | hole e f =>
          rw [printParts]
          cases f <;> simp [String.toList_append, ih, Part.segment, spread, Segment.region,
            Region.chars, Expr.source]

theorem frames_refill (ps : List Part) (es : List Expr) :
    ((refill ps es).map Part.segment).map Segment.frame =
      (ps.map Part.segment).map Segment.frame := by
  fun_induction refill ps es <;> simp_all [Part.segment, Segment.frame]

def Strings.laid : Strings where
  allows ps := Laid (ps.map Part.segment)
  refill es h := h.congr (frames_refill _ es)

section Printed

variable {ps : List Part} (h : Strings.laid.allows ps)
  (hholes : ∀ e f, .hole e f ∈ ps → Closes (e.source ++ f.getD "").toList)

include h hholes

theorem regions_printParts (ys : List Char) :
    Lexer.regions ((printParts StructuralId.placeholder ps).toList ++ '"' :: ys) =
      some ((ps.map Part.segment).map Segment.region, ys) := by
  rw [toList_printParts]
  refine regions_of_laid h (fun chars hchars => ?_) ys
  rw [List.map_map] at hchars
  obtain ⟨p, hp, heq⟩ := List.mem_map.1 hchars
  cases p with
  | text s => cases heq
  | hole e f =>
      have hclose := hholes e f hp
      cases heq
      cases f <;> simpa [String.toList_append] using hclose

/-- The printed parts are one token. -/
theorem valid_printParts :
    (Token.interpolated (printParts StructuralId.placeholder ps)).Valid := by
  intro behind
  rw [interpolated_zero, regions_printParts h hholes, Option.map_some, ← toList_printParts]

/-- The printed parts are split into as many segments, each of the text of its part. -/
theorem segments_printParts :
    segments (printParts StructuralId.placeholder ps).toList =
      ps.map fun p => Segment.ofRegion p.segment.region := by
  have hsplit := segments_spread (regions_printParts h hholes [])
  rw [← toList_printParts, List.map_map, List.map_map] at hsplit
  exact hsplit

end Printed

end Projection
