import Projection.Proofs.Grammar.Filled

/-!
Reading printed strings back. Main statement: where the holes of a tree end at their own braces, the
tree is read back from its source if and only if each hole, of a string or of one inside a hole, is
split where its format begins.
-/

namespace Projection

open Projection.Expr Interpolation Lexer

structure Hole where
  expr : Expr
  format : Option String

namespace Hole

def chars (o : Hole) : List Char := (o.expr.source ++ o.format.getD "").toList

/-- The brace behind the hole is the one that ends it. -/
def Ends (o : Hole) : Prop := holeText 0 (o.chars ++ ['}']) = some (o.chars, [])

/-- The text is split where the format begins. -/
def Splits (o : Hole) : Prop :=
  cutFormat 0 none o.chars = (o.expr.source.toList, (o.format.getD "").toList)

instance (o : Hole) : Decidable o.Ends := inferInstanceAs (Decidable (holeText _ _ = _))

instance (o : Hole) : Decidable o.Splits := inferInstanceAs (Decidable (cutFormat _ _ _ = _))

end Hole

def Part.hole? : Part → Option Hole
  | text _ => none
  | hole e f => some ⟨e, f⟩

theorem Part.hole?_eq_some_iff {p : Part} {o : Hole} :
    p.hole? = some o ↔ p = hole o.expr o.format := by
  obtain ⟨e, f⟩ := o
  cases p <;> simp [hole?]

namespace Expr

def ownHoles : Expr → List Hole
  | interpolated ps => ps.filterMap Part.hole?
  | _ => []

def holes (e : Expr) : List Hole := e.nodes.flatMap ownHoles

variable {e : Expr}

theorem ownHoles_eq_nil (h : e.isInterpolated = false) : e.ownHoles = [] := by
  cases e with
  | interpolated ps => cases h
  | _ => rfl

theorem holes_eq (e : Expr) : e.holes = e.ownHoles ++ e.children.flatMap holes := by
  rw [holes, nodes_eq, List.flatMap_cons, List.flatMap_assoc]
  rfl

variable {o : Hole}

theorem mem_holes_of_mem_children {c : Expr} (hc : c ∈ e.children) (ho : o ∈ c.holes) :
    o ∈ e.holes := by
  rw [holes_eq]
  exact List.mem_append_right _ (List.mem_flatMap.2 ⟨c, hc, ho⟩)

theorem mem_holes_of_mem_ownHoles (ho : o ∈ e.ownHoles) : o ∈ e.holes := by
  rw [holes_eq]
  exact List.mem_append_left _ ho

theorem mem_children_of_mem_ownHoles (ho : o ∈ e.ownHoles) : o.expr ∈ e.children := by
  cases e with
  | interpolated ps =>
      obtain ⟨p, hp, heq⟩ := List.mem_filterMap.1 ho
      rw [Part.hole?_eq_some_iff] at heq
      exact List.mem_filterMap.2 ⟨p, hp, heq ▸ rfl⟩
  | _ => cases ho

/-- A hole is one of a string of the tree, or stands in one. -/
theorem mem_holes_iff : o ∈ e.holes ↔
    ∃ ps ∈ e.strings, ∃ outer ∈ ps.filterMap Part.hole?, o = outer ∨ o ∈ outer.expr.holes := by
  induction e using childInduction with
  | h e ih =>
      rw [holes_eq, List.mem_append, List.mem_flatMap]
      rcases e.eq_interpolated_or with ⟨ps, rfl⟩ | hi
      · have hchildren : (interpolated ps).children = (interpolated ps).ownHoles.map Hole.expr := by
          rw [children, ownHoles, List.map_filterMap]
          exact congrArg (List.filterMap · ps) (funext fun p => by cases p <;> rfl)
        rw [hchildren, strings_interpolated]
        simp only [List.mem_singleton, exists_eq_left, List.mem_map, exists_exists_and_eq_and]
        constructor
        · rintro (hown | ⟨outer, houter, hin⟩)
          · exact ⟨o, hown, .inl rfl⟩
          · exact ⟨outer, houter, .inr hin⟩
        · rintro ⟨outer, houter, rfl | hin⟩
          · exact .inl houter
          · exact .inr ⟨outer, houter, hin⟩
      · rw [ownHoles_eq_nil hi, strings_eq hi]
        simp only [List.not_mem_nil, false_or, List.mem_flatMap]
        constructor
        · rintro ⟨c, hc, ho⟩
          obtain ⟨ps, hps, houter⟩ := (ih c hc).1 ho
          exact ⟨ps, ⟨c, hc, hps⟩, houter⟩
        · rintro ⟨ps, ⟨c, hc, hps⟩, houter⟩
          exact ⟨c, hc, (ih c hc).2 ⟨ps, hps, houter⟩⟩

theorem sizeOf_lt_of_mem_holes (ho : o ∈ e.holes) : sizeOf o.expr < sizeOf e := by
  induction e using childInduction with
  | h e ih =>
      rw [holes_eq, List.mem_append, List.mem_flatMap] at ho
      rcases ho with hown | ⟨c, hc, ho⟩
      · exact sizeOf_lt_of_mem_children (mem_children_of_mem_ownHoles hown)
      · exact (ih c hc ho).trans (sizeOf_lt_of_mem_children hc)

theorem mem_nodes_of_mem_holes (ho : o ∈ e.holes) : o.expr ∈ e.nodes := by
  obtain ⟨n, hn, hown⟩ := List.mem_flatMap.1 ho
  exact nodes_subset hn
    (mem_nodes_of_mem_children (mem_children_of_mem_ownHoles hown) (self_mem_nodes _))

theorem holes_subset_of_mem_nodes {n : Expr} (hn : n ∈ e.nodes) : n.holes ⊆ e.holes := by
  intro o ho
  obtain ⟨m, hm, hown⟩ := List.mem_flatMap.1 ho
  exact List.mem_flatMap.2 ⟨m, nodes_subset hn hm, hown⟩

theorem closes_of_scans (hscans : Scans o.expr.source o.expr.tokens) (hends : o.Ends) :
    Closes o.chars where
  brace more heq := by
    obtain ⟨c, cs, hsource, -, hbrace⟩ := hscans.leads
    rw [Hole.chars, String.toList_append, hsource] at heq
    exact hbrace (List.cons.inj heq).1
  ends := hends

theorem every_scannable (h : e.Every (Sayable .laid)) (hends : ∀ o ∈ e.holes, o.Ends) :
    e.Every Scannable := by
  induction e using childInduction with
  | h e ih =>
      replace ih := fun c hc => ih c hc (h.child hc) fun o ho =>
        hends o (mem_holes_of_mem_children hc ho)
      refine every_iff.2 ⟨h.self.legible.scannable ?_, ih⟩
      rintro ps rfl
      refine valid_printParts h.self.legible.plain fun c f hc => ?_
      have hown : Hole.mk c f ∈ (interpolated ps).ownHoles := List.mem_filterMap.2 ⟨_, hc, rfl⟩
      have hscans := scans_of_scannable c (ih c (mem_children_of_mem_ownHoles hown))
      exact closes_of_scans (o := ⟨c, f⟩) hscans (hends _ (mem_holes_of_mem_ownHoles hown))

end Expr

namespace Grammar

variable {ss : List Segment} {qs : List Part}

theorem holes_text_eq_ok_iff {chars : List Char} : holes (.text chars :: ss) = .ok qs ↔
    ∃ ps, holes ss = .ok ps ∧ qs = .text (String.ofList chars) :: ps := by
  rw [holes]
  cases holes ss <;> simp [eq_comm]

theorem holes_hole_eq_ok_iff {source : List Char} {format : Option (List Char)} :
    holes (.hole source format :: ss) = .ok qs ↔ ∃ e ps, parse (String.ofList source) = .ok e ∧
      holes ss = .ok ps ∧ qs = .hole e (format.map String.ofList) :: ps := by
  constructor
  · intro h
    rw [holes] at h
    split at h
    · cases h
    · rename_i s hs
      split at h
      · cases h
      · rename_i e behind hle he
        split at h
        · rename_i hbehind
          cases List.isEmpty_iff.1 hbehind
          split at h
          · cases h
          · rename_i ps hps
            cases h
            refine ⟨e, ps, parse_eq_ok_iff.2 ⟨s, ?_, hle, he⟩, hps, rfl⟩
            rwa [String.toList_ofList]
        · cases h
  · rintro ⟨e, ps, he, hps, rfl⟩
    obtain ⟨s, hs, hread⟩ := parse_eq_ok_iff.1 he
    rw [String.toList_ofList] at hs
    exact reads_kept.hole hs hread hps

end Grammar

theorem Hole.chars_eq (o : Hole) :
    o.chars = o.expr.source.toList ++ (o.format.map String.toList).getD [] := by
  rw [chars, String.toList_append]
  cases o.format <;> rfl

theorem Hole.splits_iff {o : Hole} (hformat : o.format.map String.toList ≠ some []) :
    o.Splits ↔
      holeSegment o.chars = .hole o.expr.source.toList (o.format.map String.toList) := by
  have hcut := @holeSegment_eq_iff o.expr.source.toList _ hformat
  rw [← o.chars_eq] at hcut
  rw [hcut, Splits]
  cases o.format <;> rfl

theorem Grammar.returns_text_iff {ss : List Segment} {ps : List Part} (s : String) :
    Returns (.text s.toList :: ss) (.text s :: ps) ↔ Returns ss ps := by
  simp only [Returns, holes_text_eq_ok_iff, String.ofList_toList]
  constructor
  · rintro ⟨_, ⟨qs, hqs, rfl⟩, hbare⟩
    exact ⟨qs, hqs, (List.cons.inj hbare).2⟩
  · rintro ⟨qs, hqs, hbare⟩
    exact ⟨_, ⟨qs, hqs, rfl⟩, congrArg (Part.text s :: ·) hbare⟩

/-- A hole gives back its expression and its format if and only if it is split between them and the
expression is read back. -/
theorem Grammar.returns_hole_iff {o : Hole} {ss : List Segment} {ps : List Part}
    (hformat : o.format.map String.toList ≠ some []) :
    Returns (holeSegment o.chars :: ss) (.hole o.expr o.format :: ps) ↔
      (o.Splits ∧ o.expr.ReadsBack) ∧ Returns ss ps := by
  rw [Hole.splits_iff hformat]
  constructor
  · rintro ⟨_, hqs, hbare⟩
    obtain ⟨source, format, hsegment⟩ :
      ∃ source format, holeSegment o.chars = .hole source format := ⟨_, _, rfl⟩
    have hregion := region_holeSegment o.chars
    rw [hsegment, o.chars_eq] at hregion
    rw [hsegment, holes_hole_eq_ok_iff] at hqs
    obtain ⟨e, qs, he, hqs, rfl⟩ := hqs
    obtain ⟨hpart, hmore⟩ := List.cons.inj hbare
    obtain ⟨hexpr, hf⟩ := Part.hole.inj hpart
    have hf : format = o.format.map String.toList := by
      rw [← hf, Option.map_map]
      cases format <;> simp
    subst hf
    have hsource : source = o.expr.source.toList :=
      List.append_cancel_right (Region.hole.inj hregion)
    subst hsource
    rw [String.ofList_toList] at he
    exact ⟨⟨hsegment, e, he, hexpr⟩, qs, hqs, hmore⟩
  · rintro ⟨⟨hsegment, e, he, hexpr⟩, qs, hqs, hbare⟩
    rw [hsegment]
    refine ⟨_, holes_hole_eq_ok_iff.2 ⟨e, qs, by rwa [String.ofList_toList], hqs, rfl⟩, ?_⟩
    rw [Option.map_map, List.map_cons, List.map_cons, Part.bare, Part.bare, hexpr, hbare]
    cases o.format <;> simp

theorem Grammar.returns_parts_iff {ps : List Part} (h : Strings.laid.allows ps) :
    Returns (ps.map fun p => Segment.ofRegion p.segment.region) ps ↔
      ∀ o ∈ ps.filterMap Part.hole?, o.Splits ∧ o.expr.ReadsBack := by
  induction ps with
  | nil => exact iff_of_true ⟨[], reads_kept.noSegments, rfl⟩ nofun
  | cons p ps ih =>
      cases p with
      | text s =>
          cases h with
          | text _ _ _ h => exact (returns_text_iff s).trans (ih h)
      | hole e f =>
          cases h with
          | hole hformat h =>
              have hcons : (Part.hole e f :: ps).filterMap Part.hole? =
                  ⟨e, f⟩ :: ps.filterMap Part.hole? := rfl
              rw [hcons, List.forall_mem_cons, ← ih h, ← returns_hole_iff (o := ⟨e, f⟩) hformat,
                Hole.chars_eq]
              rfl

namespace Expr

section

variable {e : Expr} (h : e.Every (Sayable .laid)) (hends : ∀ o ∈ e.holes, o.Ends)

include h hends

theorem closes_of_mem_holes {o : Hole} (ho : o ∈ e.holes) : Closes o.chars := by
  have hscannable := every_scannable h hends
  exact closes_of_scans (scans_of_scannable o.expr fun n hn =>
    hscannable n (nodes_subset (mem_nodes_of_mem_holes ho) hn)) (hends o ho)

/-- A tree is read back if and only if the holes of its strings are split right and read back. -/
theorem readsBack_iff_outer (hclear : Grammar.Clear e.inked.printed []) :
    e.ReadsBack ↔
      ∀ ps ∈ e.strings, ∀ o ∈ ps.filterMap Part.hole?, o.Splits ∧ o.expr.ReadsBack := by
  have hscannable := every_scannable h hends
  refine (readsBack_iff_returns h (fun ps hps => (hscannable _ hps).strings ps rfl) hclear).trans
    (forall₂_congr fun ps hps => ?_)
  have hlaid : Strings.laid.allows ps :=
    (h _ (interpolated_mem_nodes_of_mem_strings hps)).legible.plain
  have hsegments := segments_printParts hlaid fun c f hc =>
    closes_of_mem_holes h hends (o := ⟨c, f⟩)
      (mem_holes_iff.2 ⟨ps, hps, _, List.mem_filterMap.2 ⟨_, hc, rfl⟩, .inl rfl⟩)
  rw [hsegments]
  exact Grammar.returns_parts_iff hlaid

end

/-- A tree is read back if and only if each of its holes is split where its format begins. -/
theorem readsBack_iff {e : Expr} (h : e.Every (Sayable .laid)) (hends : ∀ o ∈ e.holes, o.Ends)
    (hclear : Grammar.Clear e.inked.printed [])
    (hholes : ∀ o ∈ e.holes, Grammar.Clear o.expr.inked.printed []) :
    e.ReadsBack ↔ ∀ o ∈ e.holes, o.Splits := by
  induction hn : sizeOf e using Nat.strong_induction_on generalizing e with
  | h n ih =>
      have hinner : ∀ o ∈ e.holes, (o.expr.ReadsBack ↔ ∀ o' ∈ o.expr.holes, o'.Splits) := by
        intro o ho
        have hnode := mem_nodes_of_mem_holes ho
        have hsub := holes_subset_of_mem_nodes hnode
        exact ih _ (hn ▸ sizeOf_lt_of_mem_holes ho) (fun n hn => h n (nodes_subset hnode hn))
          (fun o' ho' => hends o' (hsub ho')) (hholes o ho) (fun o' ho' => hholes o' (hsub ho')) rfl
      have hmem {ps : List Part} {o : Hole} (hps : ps ∈ e.strings)
          (ho : o ∈ ps.filterMap Part.hole?) : o ∈ e.holes :=
        mem_holes_iff.2 ⟨ps, hps, o, ho, .inl rfl⟩
      rw [readsBack_iff_outer h hends hclear]
      constructor
      · intro hback o ho
        obtain ⟨ps, hps, outer, houter, heq | ho⟩ := mem_holes_iff.1 ho
        · exact heq ▸ (hback ps hps outer houter).1
        · exact (hinner outer (hmem hps houter)).1 (hback ps hps outer houter).2 o ho
      · intro hsplits ps hps o ho
        refine ⟨hsplits o (hmem hps ho), (hinner o (hmem hps ho)).2 fun o' ho' => ?_⟩
        exact hsplits o' (mem_holes_iff.2 ⟨ps, hps, o, ho, .inr ho'⟩)

end Expr

end Projection
