import Projection.Proofs.Expr.Strings
import Projection.Proofs.Grammar.Textual

/-!
A printed tree is read in two steps: with each string as one text, which the rules for strings never
open, and then with the parts that are read from each text. Main statement: a tree is read back from
its source if and only if each of its strings is.
-/

namespace Projection

open Projection.Expr Interpolation

namespace Grammar

/-- The relations between tokens and what `g` makes of a tree. -/
def Relation.along (R : Relation) (g : Expr → Expr) : Relation where
  expression ts e rest := R.expression ts (g e) rest
  binary least ts e rest := R.binary least ts (g e) rest
  binaryRest least left ts e rest := R.binaryRest least (g left) ts (g e) rest
  unary ts e rest := R.unary ts (g e) rest
  trailers e ts e' rest := R.trailers (g e) ts (g e') rest
  items close ts es rest := R.items close ts (es.map g) rest
  someItems close ts es rest := R.someItems close ts (es.map g) rest
  memberTrailer e optional ts e' rest := R.memberTrailer (g e) optional ts (g e') rest
  genericCall e ts e' rest := R.genericCall (g e) ts (g e') rest
  primary ts e rest := R.primary ts (g e) rest
  holes ss parts := R.holes ss parts
  creation ts e rest := R.creation ts (g e) rest
  initializers ts ms rest := R.initializers ts (ms.map fun m => ⟨m.name, g m.value⟩) rest
  moreInitializers ts ms rest := R.moreInitializers ts (ms.map fun m => ⟨m.name, g m.value⟩) rest

theorem isIdent_mapStrings (g : List Part → List Part) (e : Expr) :
    isIdent (e.mapStrings g) = isIdent e := by
  cases e with
  | creation t as i => cases i <;> simp [isIdent]
  | _ => simp [isIdent]

/-- The rules outside strings are the same whatever stands in the strings. -/
theorem Relation.KeptOutside.along {R : Relation} (rules : R.KeptOutside)
    (g : List Part → List Part) : (R.along (mapStrings g)).KeptOutside where
  lambda hl hb h := by
    simpa only [Relation.along, mapStrings_lambda] using rules.lambda hl hb h
  conditional hl hc ht hf := by
    simpa only [Relation.along, mapStrings_conditional] using rules.conditional hl hc ht hf
  noConditional hl h hrest := rules.noConditional hl h hrest
  operands h h' := rules.operands h h'
  noOperator h := rules.noOperator h
  operator hop hleast hright hrest := by
    refine rules.operator hop hleast hright ?_
    simpa only [Relation.along, mapStrings_binary] using hrest
  prefixed hop h := by
    simpa only [Relation.along, mapStrings_unary] using rules.prefixed hop h
  cast ht h := by
    simpa only [Relation.along, mapStrings_cast] using rules.cast ht h
  name hop hcast h hident hcall htrailers :=
    rules.name hop hcast h ((isIdent_mapStrings g _).trans hident) hcall htrailers
  value hop hcast h hident htrailers :=
    rules.value hop hcast h ((isIdent_mapStrings g _).trans hident) htrailers
  access h := rules.access h
  call hargs h := by
    refine rules.call hargs ?_
    simpa only [Relation.along, Expr.call, mapStrings_invoke] using h
  index hargs h := by
    refine rules.index hargs ?_
    simpa only [Relation.along, mapStrings_index] using h
  noTrailer h := rules.noTrailer h
  member hcall h := by
    refine rules.member ?_ h
    simpa only [Relation.along, mapStrings_member] using hcall
  noTypeArgs h := rules.noTypeArgs h
  typeArgs hts h := by
    simpa only [Relation.along, mapStrings_invoke] using rules.typeArgs hts h
  noItems := rules.noItems
  items hclose h := rules.items hclose h
  lastItem h := rules.lastItem h
  nextItem hclose h h' := rules.nextItem hclose h h'
  literal value := by
    simp only [Relation.along, mapStrings_literal]
    exact rules.literal value
  receiver := by
    simp only [Relation.along, mapStrings_this]
    exact rules.receiver
  creation h := rules.creation h
  typedDefault h := by
    simpa only [Relation.along, mapStrings_default] using rules.typedDefault h
  default h := by
    simpa only [Relation.along, mapStrings_default] using rules.default h
  ident hw hnew hdefault := by
    simpa only [Relation.along, mapStrings_ident] using rules.ident hw hnew hdefault
  paren h := by
    simpa only [Relation.along, mapStrings_paren] using rules.paren h
  anonymous h := by
    simpa only [Relation.along, mapStrings_anonymous] using rules.anonymous h
  constructed ht hargs hrest := by
    simpa only [Relation.along, mapStrings_creation_none] using rules.constructed ht hargs hrest
  constructedWith ht hargs h := by
    simpa only [Relation.along, mapStrings_creation_some] using rules.constructedWith ht hargs h
  initialized ht h := by
    simpa only [Relation.along, mapStrings_creation_some, List.map_nil] using
      rules.initialized ht h
  noInitializers := rules.noInitializers
  named h h' := rules.named h h'
  bare hbrace hname h h' := rules.bare hbrace hname h h'
  comma h := rules.comma h
  endInitializers := rules.endInitializers

/-- The parts that are read from a string, none where a hole cannot be read. -/
def readParts (raw : String) : List Part := (holes (segments raw.toList)).toOption.getD []

def fill : List Part → List Part
  | [.text raw] => readParts raw
  | ps => ps

def CanRead (raw : String) : Prop := ∃ ps, holes (segments raw.toList) = .ok ps

/-- The parts that are read from the segments are `ps`, up to parentheses, notes and names that are
made up. -/
def Returns (ss : List Segment) (ps : List Part) : Prop :=
  ∃ qs, holes ss = .ok qs ∧ qs.map Part.bare = ps.map Part.bare

theorem CanRead.holes_eq {raw : String} (h : CanRead raw) :
    holes (segments raw.toList) = .ok (readParts raw) := by
  obtain ⟨ps, hps⟩ := h
  rw [readParts, hps]
  rfl

theorem readsStrings_fill : (reads.along (mapStrings fill)).ReadsStrings (.sealed CanRead) := by
  rintro _ rest ⟨raw, rfl, hraw⟩
  have hread : reads.primary (.interpolated raw :: rest) (.interpolated (readParts raw)) rest :=
    reads_kept.interpolated hraw.holes_eq
  have hprinted : printParts StructuralId.placeholder [.text raw] = raw := by
    rw [printParts, printParts, String.append_empty]
  change reads.primary (.interpolated (printParts _ _) :: rest) (mapStrings fill _) rest
  rwa [hprinted, mapStrings_interpolated]

end Grammar

namespace Expr

variable {S : Strings} {e : Expr}

theorem solid_strings (hS : S.Solid) (h : e.Every (Legible S)) :
    ∀ ps ∈ e.strings, ps.filterMap Part.expr? = [] := by
  intro ps hps
  exact hS ps (h _ (interpolated_mem_nodes_of_mem_strings hps)).plain

def filled (e : Expr) : Expr := e.inked.printed.mapStrings Grammar.fill

section

variable (h : e.Every (Sayable S))
  (hread : ∀ ps ∈ e.strings, Grammar.CanRead (printParts StructuralId.placeholder ps))

include h hread

theorem reads_filled (hc : Grammar.Clear e.inked.printed []) :
    Grammar.reads.expression e.tokens e.filled [] := by
  have hinked := every_sayable_inked h hread
  have hreads := reads_printed (Grammar.reads_kept.toKeptOutside.along Grammar.fill)
    Grammar.readsStrings_fill (Strings.solid_sealed _) hinked hc
  rwa [tokens_inked] at hreads

theorem bare_filled : e.filled.bare =
    (e.mapStrings fun ps => Grammar.readParts (printParts StructuralId.placeholder ps)).bare := by
  have hsolid := Strings.solid_sealed Grammar.CanRead
  have hinked := every_sayable_inked h hread
  have hprinted : e.inked.printed.Every (Printable (.sealed Grammar.CanRead)) :=
    every_printable_bracketed hsolid (every_formed_spelled hinked)
  rw [filled, bare_mapStrings Grammar.fill
      (solid_strings hsolid (hprinted.mono fun _ hn => hn.spellable.legible)),
    bare_printed hsolid hinked, ← bare_mapStrings Grammar.fill
      (solid_strings hsolid (hinked.mono fun _ hn => hn.legible)), inked, mapStrings_mapStrings]
  rfl

end

/-- The tree is read from its source, up to parentheses, notes and names that are made up. -/
def ReadsBack (e : Expr) : Prop := ∃ e', parse e.source = .ok e' ∧ e'.bare = e.bare

/-- A tree is read back from its source if and only if each of its strings is. -/
theorem readsBack_iff_returns (h : e.Every (Sayable S))
    (hvalid : ∀ ps, interpolated ps ∈ e.nodes →
      (Token.interpolated (printParts StructuralId.placeholder ps)).Valid)
    (hc : Grammar.Clear e.inked.printed []) :
    e.ReadsBack ↔ ∀ ps ∈ e.strings,
      Grammar.Returns (segments (printParts StructuralId.placeholder ps).toList) ps := by
  have hscannable : e.Every Scannable := fun n hn => (h n hn).legible.scannable (by
    rintro ps rfl
    exact hvalid ps hn)
  obtain ⟨s, hs, hwords⟩ := exists_words_of_scans (scans_of_scannable e hscannable)
  constructor
  · rintro ⟨e', hparse, hbare⟩
    obtain ⟨s', hs', hread⟩ := parse_eq_ok_iff.1 hparse
    cases hs.symm.trans hs'
    obtain ⟨w, hw, hstrings⟩ := (Grammar.taking_kept.expression hread).takes
    rw [List.append_nil, hwords] at hw
    have hcan : ∀ ps ∈ e.strings, Grammar.CanRead (printParts StructuralId.placeholder ps) :=
      fun ps hps => hstrings _ (hw ▸ mem_tokens_of_mem_strings hps)
    have hfilled : e' = e.filled :=
      (hread.unique (hwords ▸ reads_filled h hcan hc)).1
    rw [hfilled, bare_filled h hcan, bare_mapStrings_eq_iff] at hbare
    exact fun ps hps => ⟨_, (hcan ps hps).holes_eq, hbare ps hps⟩
  · intro hstrings
    have hcan : ∀ ps ∈ e.strings, Grammar.CanRead (printParts StructuralId.placeholder ps) :=
      fun ps hps => (hstrings ps hps).imp fun _ hqs => hqs.1
    refine ⟨e.filled, parse_eq_ok_iff.2 ⟨s, hs, hwords ▸ reads_filled h hcan hc⟩, ?_⟩
    rw [bare_filled h hcan, bare_mapStrings_eq_iff]
    intro ps hps
    obtain ⟨qs, hqs, hbare⟩ := hstrings ps hps
    rw [Grammar.readParts, hqs]
    exact hbare

end Expr

end Projection
