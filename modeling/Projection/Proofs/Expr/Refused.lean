import Projection.Proofs.Grammar.Faults
import Projection.Proofs.Interpolation.Holes
import Projection.Proofs.Token.Reached

/-!
Where the errors of reading point. An error is made for the text that is read, which is the source
or, inside of an interpolated string, the expression of a hole; its position counts from the start
of that text.
-/

namespace Projection

open Lexer Interpolation Text Scan

theorem error_of_tryCatch {ε α : Type} {x : Except ε α} {e : ε}
    (h : ((x.map fun _ => none).tryCatch fun e => .ok (some e)).toOption = some (some e)) :
    x = .error e := by
  cases x with
  | error _ => exact congrArg Except.error (Option.some.inj (Option.some.inj h))
  | ok _ => cases h

/-- The error tells what begins with the character `c` in front of `rest`: a character that no token
begins with, a literal without an end, or a token. -/
inductive SyntaxError.Describes (c : Char) (rest : List Char) : SyntaxError → Prop
  | stray {p : Position} (stray : lexeme c rest = .error (.stray c)) :
      Describes c rest (.unexpectedChar c p)
  | literal {opening : List Char} {p : Position} (kind : opening ∈ literalOpenings)
      (opens : opening <+: c :: rest) (unending : lexeme c rest = .error .openLiteral) :
      Describes c rest (.unterminatedLiteral p)
  | token {l : Lexeme} {what : String} {p : Position} (token : lexeme c rest = .ok l) :
      Describes c rest (.unexpected what l.token.describe p)

/-- What the error describes begins at its position in the text, and tokens with gaps between them
lead there. -/
def SyntaxError.PointsInto (e : SyntaxError) (text : List Char) : Prop :=
  ∃ place c rest, e.position? = some place ∧ ReachedAt [] text place (c :: rest) ∧
    e.Describes c rest

namespace Expr

/-- The expression of a hole in an interpolated string among the tokens of a text, and what stands
in front of it. -/
inductive HoleAt (text : List Char) : List Char → List Char → Prop
  | hole {s : Scan} {before : List Char} {raw : String} {ss more : List Segment}
      {source : List Char} {format : Option (List Char)} {behind : List Char}
      (scan : Scan.ofChars text = .ok s)
      (string : ⟨.interpolated raw, .behind before⟩ ∈ s.tokens)
      (place : text = before ++ '$' :: '"' :: (raw.toList ++ '"' :: behind))
      (segment : segments raw.toList = ss ++ .hole source format :: more) :
      HoleAt text (before ++ '$' :: '"' :: (spread (ss.map Segment.region) ++ ['{'])) source

/-- The texts that are read along with a source, each with what stands in front of it: the source
itself and, at every depth, the expressions in its holes. -/
inductive ReadIn (source : List Char) : List Char → List Char → Prop
  | whole : ReadIn source [] source
  | hole {before text front hole : List Char} (outer : ReadIn source before text)
      (inner : HoleAt text front hole) : ReadIn source (before ++ front) hole

theorem pointsInto_of_scan_error {text : List Char} {e : SyntaxError}
    (h : Scan.ofChars text = .error e) : e.PointsInto text := by
  have hrun : run (.behind []) text = .error e := h
  obtain ⟨place, c, rest, fault, hreached, hl, rfl⟩ := exists_reachedAt_of_error hrun
  rcases lexeme_fault_cases hl with rfl | ⟨rfl, opening, hkind, hopens⟩
  · exact ⟨place, c, rest, rfl, hreached, .stray hl⟩
  · exact ⟨place, c, rest, rfl, hreached, .literal hkind hopens hl⟩

section Scanned

variable {text : List Char} {s : Scan}

theorem exists_lexeme_of_mem (h : Scan.ofChars text = .ok s) {p : Placed} (hp : p ∈ s.tokens) :
    ∃ c rest l, ReachedAt [] text p.position (c :: rest) ∧ lexeme c rest = .ok l ∧
      l.token = p.token :=
  exists_reachedAt_of_mem (show run (.behind []) text = .ok s from h) hp

/-- A fault at a token points to a token; at the end of the text there is nothing to point to. -/
theorem pointsInto_resolve (h : Scan.ofChars text = .ok s) {what : String} {left : Nat}
    (hp : ((Grammar.Fault.expected what left).resolve s).position?.isSome = true) :
    ((Grammar.Fault.expected what left).resolve s).PointsInto text := by
  unfold Grammar.Fault.resolve at hp ⊢
  dsimp only at hp ⊢
  split at hp
  · cases hp
  · rename_i found more hdrop
    have hmem : found ∈ s.tokens := List.mem_of_mem_drop (hdrop ▸ List.mem_cons_self)
    obtain ⟨c, rest, l, hreached, hl, htoken⟩ := exists_lexeme_of_mem h hmem
    exact ⟨_, c, rest, rfl, hreached, htoken ▸ .token hl⟩

variable {raw : String}

/-- An interpolated string stands at its place, and its segments are all there is between its
quotes. -/
theorem exists_place_of_interpolated (h : Scan.ofChars text = .ok s) {p : Placed}
    (hp : p ∈ s.tokens) (hraw : p.token = .interpolated raw) :
    ∃ before behind, p.position = .behind before ∧
      text = before ++ '$' :: '"' :: (raw.toList ++ '"' :: behind) ∧
      spread ((segments raw.toList).map Segment.region) = raw.toList := by
  obtain ⟨c, rest, l, ⟨ps, last, hreached, hplace⟩, hl, htoken⟩ := exists_lexeme_of_mem h hp
  obtain ⟨rfl, more, behind, rfl, hmore⟩ := interpolated_of_lexeme hl (htoken.trans hraw)
  obtain ⟨rs, hrs, hspread⟩ : ∃ rs, regions more = some (rs, behind) ∧ spread rs = raw.toList :=
    exists_regions hmore
  have hsplits : Splits (spread rs) rs := splits_of_regions hrs
  refine ⟨Piece.join ps ++ last, behind, hplace, ?_, ?_⟩
  · rw [hreached.text, List.append_assoc, ← interpolated_split hmore]
  · rw [← hspread, hsplits.regions]

theorem exists_holeAt (h : Scan.ofChars text = .ok s) (hraw : .interpolated raw ∈ s.words)
    {source : List Char} {format : Option (List Char)}
    (hsegment : .hole source format ∈ segments raw.toList) : ∃ front, HoleAt text front source := by
  obtain ⟨p, hp, htoken⟩ := List.mem_map.1 hraw
  obtain ⟨before, behind, hplace, htext, -⟩ := exists_place_of_interpolated h hp htoken
  obtain ⟨ss, more, hsegments⟩ := List.append_of_mem hsegment
  refine ⟨_, .hole h ?_ htext hsegments⟩
  rw [← hplace, ← htoken]
  exact hp

end Scanned

theorem HoleAt.split {text front hole : List Char} (h : HoleAt text front hole) :
    ∃ behind, text = front ++ (hole ++ behind) := by
  obtain ⟨scan, string, place, segment⟩ := h
  rename_i s before raw ss more format behind
  obtain ⟨-, -, -, -, hspread⟩ := exists_place_of_interpolated scan string rfl
  refine ⟨format.getD [] ++ '}' :: (spread (more.map Segment.region) ++ '"' :: behind), ?_⟩
  rw [place, ← hspread, segment]
  simp [spread, Segment.region, Region.chars]

theorem HoleAt.length_lt {text front hole : List Char} (h : HoleAt text front hole) :
    hole.length < text.length := by
  obtain ⟨behind, htext⟩ := h.split
  have hfront : 0 < front.length := by
    cases h
    simp only [List.length_append, List.length_cons]
    omega
  rw [htext]
  simp only [List.length_append]
  omega

theorem ReadIn.split {source before text : List Char} (h : ReadIn source before text) :
    ∃ behind, source = before ++ (text ++ behind) := by
  induction h with
  | whole => exact ⟨[], by simp⟩
  | hole _ inner ih =>
      obtain ⟨behind, hsource⟩ := ih
      obtain ⟨behind', htext⟩ := inner.split
      refine ⟨behind' ++ behind, ?_⟩
      rw [hsource, htext]
      simp only [List.append_assoc]

theorem ReadIn.inside {source front hole before text : List Char} (h : HoleAt source front hole)
    (hread : ReadIn hole before text) : ReadIn source (front ++ before) text := by
  induction hread with
  | whole =>
      rw [List.append_nil]
      exact .hole .whole h
  | hole _ inner ih =>
      rw [← List.append_assoc]
      exact .hole ih inner

/-- A text is refused at a place of its own, or because of a hole in it. -/
theorem parseChars_error_cases {text : List Char} {e : SyntaxError}
    (h : parseChars text = .error e) (hp : e.position?.isSome = true) :
    e.PointsInto text ∨ ∃ front hole, HoleAt text front hole ∧ parseChars hole = .error e := by
  unfold parseChars at h
  split at h
  · rename_i hs
    cases h
    exact .inl (pointsInto_of_scan_error hs)
  · rename_i s hs
    split at h
    · rename_i f hf
      cases f with
      | expected what left =>
          cases h
          exact .inl (pointsInto_resolve hs hp)
      | hole e' =>
          cases h
          obtain ⟨raw, hraw, hholes⟩ := Grammar.expression_blames hf e' rfl
          obtain ⟨source, format, _, hsegment, he, hparse⟩ :=
            Grammar.exists_hole_of_holes_error hholes
          cases he
          obtain ⟨front, hhole⟩ := exists_holeAt hs hraw hsegment
          exact .inr ⟨front, source, hhole, hparse⟩
    · split at h
      · cases h
      · cases h
        exact .inl (pointsInto_resolve hs hp)

/-- Going down into the holes that are to blame ends at a text that is refused at a place of its
own. -/
theorem exists_readIn_of_error {source : List Char} {e : SyntaxError}
    (h : parseChars source = .error e) (hp : e.position?.isSome = true) :
    ∃ before text, ReadIn source before text ∧ parseChars text = .error e ∧ e.PointsInto text ∧
      (before = [] ∧ text = source ∨
        ∃ front hole, HoleAt source front hole ∧ parseChars hole = .error e) := by
  rcases parseChars_error_cases h hp with hpoints | ⟨front, hole, hhole, herror⟩
  · exact ⟨[], source, .whole, h, hpoints, .inl ⟨rfl, rfl⟩⟩
  · obtain ⟨before, text, hread, htext, hpoints, -⟩ := exists_readIn_of_error herror hp
    exact ⟨front ++ before, text, .inside hhole hread, htext, hpoints,
      .inr ⟨front, hole, hhole, herror⟩⟩
termination_by source.length
decreasing_by exact hhole.length_lt

/-- An error with a position points into a text that is read along with the source, and that is
refused with this error. It is the source itself if all holes of the source can be read. -/
theorem exists_pointsInto_of_parse_error {source : String} {e : SyntaxError}
    (h : parse source = .error e) (hp : e.position?.isSome = true) :
    ∃ before text behind, source.toList = before ++ (text ++ behind) ∧
      ReadIn source.toList before text ∧ parseChars text = .error e ∧ e.PointsInto text ∧
      ((∀ front hole, HoleAt source.toList front hole → ∃ t, parseChars hole = .ok t) →
        before = [] ∧ text = source.toList) := by
  obtain ⟨before, text, hread, htext, hpoints, hwhole⟩ := exists_readIn_of_error h hp
  obtain ⟨behind, hsource⟩ := hread.split
  refine ⟨before, text, behind, hsource, hread, htext, hpoints, fun hholes => ?_⟩
  rcases hwhole with hwhole | ⟨front, hole, hhole, herror⟩
  · exact hwhole
  · obtain ⟨t, ht⟩ := hholes front hole hhole
    rw [herror] at ht
    cases ht

theorem exists_pointsInto_of_parse_error_hole :
    let source := "x + $\"\x7ba b\x7d\""
    let e : SyntaxError := .unexpected "end of input" "b" ⟨1, 3⟩
    let own := "$\"\x7ba\x7d\" b"
    let e' : SyntaxError := .unexpected "end of input" "b" ⟨1, 8⟩
    parse source = .error e ∧ e.position?.isSome = true ∧
      (∃ before text behind, source.toList = before ++ (text ++ behind) ∧
        ReadIn source.toList before text ∧ parseChars text = .error e ∧ e.PointsInto text ∧
        ((∀ front hole, HoleAt source.toList front hole → ∃ t, parseChars hole = .ok t) →
          before = [] ∧ text = source.toList)) ∧
      parse own = .error e' ∧ (∃ front, HoleAt own.toList front ['a']) ∧
      (∀ front hole, HoleAt own.toList front hole → ∃ t, parseChars hole = .ok t) ∧
      e'.PointsInto own.toList := by
  intro source e own e'
  have h : parse source = .error e := error_of_tryCatch (by decide +kernel)
  have h' : parse own = .error e' := error_of_tryCatch (by decide +kernel)
  have hscan : Scan.ofChars own.toList =
      .ok ⟨[⟨.interpolated "\x7ba\x7d", ⟨1, 1⟩⟩, ⟨.ident "b", ⟨1, 8⟩⟩], ⟨1, 9⟩⟩ :=
    ok_of_toOption (by decide +kernel)
  have hsegments : segments "\x7ba\x7d".toList = [.hole ['a'] none] := by decide +kernel
  have hholes : ∀ front hole, HoleAt own.toList front hole → ∃ t, parseChars hole = .ok t := by
    rintro front hole ⟨scan, string, place, segment⟩
    cases hscan.symm.trans scan
    simp only [List.mem_cons, Placed.mk.injEq, Token.interpolated.injEq, List.not_mem_nil,
      reduceCtorEq, false_and, or_false] at string
    rw [string.1, hsegments] at segment
    obtain ⟨_, hone⟩ | ⟨_, hone⟩ := List.singleton_eq_append_iff.1 segment
    · cases hone
      exact ⟨.ident "a", ok_of_toOption (by decide +kernel)⟩
    · cases hone
  obtain ⟨before, _, behind, _, _, _, hpoints, hwhole⟩ := exists_pointsInto_of_parse_error h' rfl
  refine ⟨h, rfl, exists_pointsInto_of_parse_error h rfl, h', ?_, hholes, ?_⟩
  · exact exists_holeAt hscan List.mem_cons_self (hsegments ▸ List.mem_cons_self)
  · exact (hwhole hholes).2 ▸ hpoints
theorem parse_error_off_source :
    let source := "$\"\x7ba b\x7d\""
    let s : Scan := ⟨[⟨.interpolated "\x7ba b\x7d", ⟨1, 1⟩⟩], ⟨1, 9⟩⟩
    parse source = .error (.unexpected "end of input" "b" ⟨1, 3⟩) ∧ Scan.ofString source = .ok s ∧
      ∀ p ∈ s.tokens, p.position ≠ ⟨1, 3⟩ ∧ p.token.describe ≠ "b" := by
  intro source s
  exact ⟨error_of_tryCatch (by decide +kernel), ok_of_toOption (by decide +kernel), by decide⟩

end Expr

end Projection
