import Projection.Proofs.Grammar.Shaped
import Projection.Proofs.Interpolation.Printed

/-!
What is read from source text, with the strings in it. Reading passes over no string whose holes it
cannot read, and the tree can be spelled again, strings and their holes included.
-/

namespace Projection

open Interpolation

namespace Expr

def Textual (e : Expr) : Prop := e.Every (Spellable .laid)

theorem textual_of {e : Expr} (hchildren : ∀ c ∈ e.children, c.Textual)
    (hown : ∀ t ∈ e.ownTokens, t.Valid) (htypes : ∀ t ∈ e.types, t.Readable)
    (hplain : Strings.laid.Admits e ∧ e.isMarked = false) : e.Textual :=
  every_iff.2 ⟨⟨hown, htypes, hplain⟩, hchildren⟩

/-- A node that brings no names and types of its own. -/
theorem textual_of_children {e : Expr} (hchildren : ∀ c ∈ e.children, c.Textual)
    (hnone : e.ownTokens = [] ∧ e.types = [])
    (hplain : Strings.laid.Admits e ∧ e.isMarked = false) : e.Textual :=
  textual_of hchildren (by simp [hnone.1]) (by simp [hnone.2]) hplain

end Expr

namespace Grammar

open Projection.Expr Text

/-- `rest` ends `ts`, and the holes of each string in front of it can be read. -/
def Takes (ts rest : List Token) : Prop :=
  ∃ w, ts = w ++ rest ∧
    ∀ raw, .interpolated raw ∈ w → ∃ ps, Grammar.holes (segments raw.toList) = .ok ps

namespace Takes

variable {ts more rest : List Token}

theorem refl (ts : List Token) : Takes ts ts := ⟨[], rfl, nofun⟩

theorem trans (h : Takes ts more) (h' : Takes more rest) : Takes ts rest := by
  obtain ⟨w, rfl, hw⟩ := h
  obtain ⟨v, rfl, hv⟩ := h'
  refine ⟨w ++ v, by simp, fun raw hraw => ?_⟩
  exact (List.mem_append.1 hraw).elim (hw raw) (hv raw)

theorem cons {t : Token} (ht : ∀ raw, t ≠ .interpolated raw) (h : Takes ts rest) :
    Takes (t :: ts) rest := by
  obtain ⟨w, rfl, hw⟩ := h
  refine ⟨t :: w, rfl, fun raw hraw => ?_⟩
  rcases List.mem_cons.1 hraw with rfl | hraw
  · exact absurd rfl (ht raw)
  · exact hw raw hraw

theorem punct (p : Punct) (h : Takes ts rest) : Takes (.punct p :: ts) rest := h.cons (by simp)

theorem ident (word : String) (h : Takes ts rest) : Takes (.ident word :: ts) rest :=
  h.cons (by simp)

/-- A mark that stands between two readings. -/
theorem across {p : Punct} (h : Takes ts (.punct p :: more)) (h' : Takes more rest) :
    Takes ts rest :=
  h.trans (h'.punct p)

theorem valid (h : Takes ts rest) (hv : AllValid ts) : AllValid rest := by
  obtain ⟨w, rfl, -⟩ := h
  exact fun t ht => hv t (List.mem_append_right w ht)

end Takes

theorem takes_of_word {closed : Int} {ts w rest : List Token} (hts : ts = w ++ rest)
    (hw : TypeWord closed w) : Takes ts rest := by
  refine ⟨w, hts, fun raw hraw => ?_⟩
  cases hw.tokens _ hraw

theorem takes_type {ts : List Token} {t : TypeExpr} {rest : List Token} (h : (type ts).Is t rest) :
    Takes ts rest := by
  obtain ⟨w, hts, hw⟩ := exists_word_of_type h
  exact takes_of_word hts hw

theorem takes_castType? {ts : List Token} {t : TypeExpr} {rest : List Token}
    (h : Found (castType? ts) t rest) : Takes ts rest :=
  (takes_type (found_castType?_iff.1 h).1).across (.refl rest)

theorem takes_callTypeArgs? {ts : List Token} {us : List TypeExpr} {rest : List Token}
    (h : Found (callTypeArgs? ts) us rest) : Takes ts rest := by
  obtain ⟨more, rfl, hlist⟩ := found_callTypeArgs?_iff.1 h
  obtain ⟨n, w, hts, hw⟩ := wordTypes_kept.all.2 more us _ hlist
  exact ((takes_of_word hts hw).across (.refl rest)).punct .less

theorem takes_lambdaParams {done : List String} {current : Option String} {ts : List Token}
    {r : List String × List Token} (h : lambdaParams done current ts = some r) : Takes ts r.2 := by
  fun_induction lambdaParams done current ts with
  | case1 done current name rest ih => exact (ih h).ident name
  | case2 done rest name ih => exact (ih h).punct .comma
  | case4 rest name done =>
      cases h
      exact ((Takes.refl rest).punct .arrow).punct .closeParen
  | case5 rest =>
      cases h
      exact ((Takes.refl rest).punct .arrow).punct .closeParen
  | case3 | case6 | case7 => cases h

theorem takes_lambdaHeader {ts : List Token} {r : List String × List Token}
    (h : lambdaHeader ts = some r) : Takes ts r.2 := by
  revert h
  fun_cases lambdaHeader ts with
  | case1 name rest =>
      rintro ⟨⟩
      exact ((Takes.refl rest).punct .arrow).ident name
  | case2 rest => exact fun h => (takes_lambdaParams h).punct .openParen
  | case3 => simp

/-- Reading takes `ts` up to `rest`, and what it makes of valid tokens is as it should be. -/
structure Took (read : Prop) (ts : List Token) (made : Prop) (rest : List Token) : Prop where
  read : read
  takes : Takes ts rest
  made : AllValid ts → made

theorem Took.valid {read : Prop} {ts : List Token} {made : Prop} {rest : List Token}
    (h : Took read ts made rest) (hv : AllValid ts) : AllValid rest :=
  h.takes.valid hv

def taking : Relation where
  expression ts e rest := Took (reads.expression ts e rest) ts e.Textual rest
  binary least ts e rest := Took (reads.binary least ts e rest) ts e.Textual rest
  binaryRest least left ts e rest :=
    Took (reads.binaryRest least left ts e rest) ts (left.Textual → e.Textual) rest
  unary ts e rest := Took (reads.unary ts e rest) ts e.Textual rest
  trailers e ts e' rest := Took (reads.trailers e ts e' rest) ts (e.Textual → e'.Textual) rest
  items close ts es rest := Took (reads.items close ts es rest) ts (∀ e ∈ es, e.Textual) rest
  someItems close ts es rest :=
    Took (reads.someItems close ts es rest) ts (∀ e ∈ es, e.Textual) rest
  memberTrailer e optional ts e' rest :=
    Took (reads.memberTrailer e optional ts e' rest) ts (e.Textual → e'.Textual) rest
  genericCall e ts e' rest :=
    Took (reads.genericCall e ts e' rest) ts (e.Textual → e'.Textual) rest
  primary ts e rest := Took (reads.primary ts e rest) ts e.Textual rest
  holes ss parts := reads.holes ss parts ∧
    (∀ e ∈ parts.filterMap Part.expr?, e.Textual) ∧
      (parts.map Part.segment).map Segment.frame = ss.map Segment.frame
  creation ts e rest := Took (reads.creation ts e rest) ts e.Textual rest
  initializers ts ms rest := Took (reads.initializers ts ms rest) ts
    ((∀ e ∈ ms.map (·.value), e.Textual) ∧ ∀ m ∈ ms, ∀ n ∈ m.name, IsName n) rest
  moreInitializers ts ms rest := Took (reads.moreInitializers ts ms rest) ts
    ((∀ e ∈ ms.map (·.value), e.Textual) ∧ ∀ m ∈ ms, ∀ n ∈ m.name, IsName n) rest

theorem readable_of_type {ts : List Token} {t : TypeExpr} {rest : List Token}
    (h : (type ts).Is t rest) (hv : AllValid ts) : t.Readable :=
  (printedTypes_kept.all.1 _ _ _ h hv).1

theorem readable_of_callTypeArgs? {ts : List Token} {us : List TypeExpr} {rest : List Token}
    (h : Found (callTypeArgs? ts) us rest) (hv : AllValid ts) : ∀ u ∈ us, u.Readable := by
  obtain ⟨more, rfl, hlist⟩ := found_callTypeArgs?_iff.1 h
  exact (printedTypes_kept.all.2 _ _ _ hlist hv.tail).1

/-- A token that is an expression by itself. -/
theorem taking_leaf {t : Token} {e : Expr} {ts : List Token} (hread : reads.primary (t :: ts) e ts)
    (ht : ∀ raw, t ≠ .interpolated raw) (hchildren : e.children = []) (htypes : e.types = [])
    (hown : ∀ u ∈ e.ownTokens, u = t) (hplain : e.isInterpolated = false ∧ e.isMarked = false) :
    taking.primary (t :: ts) e ts where
  read := hread
  takes := (Takes.refl ts).cons ht
  made hv := by
    refine textual_of (by simp [hchildren]) (fun u hu => ?_) (by simp [htypes])
      ⟨Strings.laid.admits_of_isInterpolated hplain.1, hplain.2⟩
    rw [hown u hu]
    exact hv t List.mem_cons_self

theorem taking_interpolated {raw : String} {parts : List Part} {ts : List Token}
    (h : taking.holes (segments raw.toList) parts) :
    taking.primary (.interpolated raw :: ts) (.interpolated parts) ts where
  read := reads_kept.interpolated h.1
  takes := ⟨[.interpolated raw], rfl, fun _ hraw => by
    cases List.mem_singleton.1 hraw
    exact ⟨parts, h.1⟩⟩
  made hv := by
    have hlaid : Laid (segments raw.toList) := laid_segments (hv _ List.mem_cons_self)
    exact textual_of_children h.2.1 ⟨rfl, rfl⟩ ⟨hlaid.congr h.2.2, rfl⟩

theorem valid_names {ms : List Initializer} (h : ∀ m ∈ ms, ∀ n ∈ m.name, IsName n) :
    ∀ t ∈ ms.filterMap fun m => m.name.map Token.ident, t.Valid := by
  intro t ht
  obtain ⟨m, hm, ht⟩ := List.mem_filterMap.1 ht
  obtain ⟨n, hn, rfl⟩ := Option.map_eq_some_iff.1 ht
  exact h m hm n hn

theorem taking_kept : taking.Kept where
  lambda hl hb h := by
    refine ⟨reads_kept.lambda hl hb h.read, (takes_lambdaHeader hl).trans h.takes, fun hv => ?_⟩
    obtain ⟨hnames, hv'⟩ := hv.lambdaHeader hl
    exact textual_of (List.forall_mem_singleton.2 (h.made hv')) (List.forall_mem_map.2 hnames)
      (List.forall_mem_nil _) ⟨trivial, rfl⟩
  conditional hl hc ht hf := by
    refine ⟨reads_kept.conditional hl hc.read ht.read hf.read,
      hc.takes.across (ht.takes.across hf.takes), fun hv => ?_⟩
    have hvt := (hc.valid hv).tail
    refine textual_of_children ?_ ⟨rfl, rfl⟩ ⟨trivial, rfl⟩
    exact List.forall_mem_cons.2 ⟨hc.made hv, List.forall_mem_cons.2 ⟨ht.made hvt,
      List.forall_mem_singleton.2 (hf.made (ht.valid hvt).tail)⟩⟩
  noConditional hl h hq := ⟨reads_kept.noConditional hl h.read hq, h.takes, h.made⟩
  operands hl he := ⟨reads_kept.operands hl.read he.read, hl.takes.trans he.takes,
    fun hv => he.made (hl.valid hv) (hl.made hv)⟩
  noOperator hop := ⟨reads_kept.noOperator hop, .refl _, fun _ h => h⟩
  operator ho hp hr he := by
    have hpunct := binaryOp?_eq_some_iff.1 ho
    refine ⟨reads_kept.operator ho hp hr.read he.read,
      (hr.takes.trans he.takes).cons (by simp [hpunct]), fun hv hl => ?_⟩
    refine he.made (hr.valid hv.tail) (textual_of_children ?_ ⟨rfl, rfl⟩ ⟨trivial, rfl⟩)
    exact List.forall_mem_cons.2 ⟨hl, List.forall_mem_singleton.2 (hr.made hv.tail)⟩
  prefixed ho h := by
    have hpunct := unaryOp?_eq_some_iff.1 ho
    refine ⟨reads_kept.prefixed ho h.read, h.takes.cons (by simp [hpunct]), fun hv => ?_⟩
    exact textual_of_children (List.forall_mem_singleton.2 (h.made hv.tail)) ⟨rfl, rfl⟩
      ⟨trivial, rfl⟩
  cast hc h := by
    refine ⟨reads_kept.cast hc h.read, ((takes_castType? hc).trans h.takes).punct .openParen,
      fun hv => ?_⟩
    have hreadable := readable_of_type (found_castType?_iff.1 hc).1 hv.tail
    exact textual_of (List.forall_mem_singleton.2 (h.made ((takes_castType? hc).valid hv.tail)))
      (List.forall_mem_nil _) (List.forall_mem_singleton.2 hreadable) ⟨trivial, rfl⟩
  name ho hp he hi hg ht := ⟨reads_kept.name ho hp he.read hi hg.read ht.read,
    he.takes.trans (hg.takes.trans ht.takes), fun hv =>
      ht.made (hg.valid (he.valid hv)) (hg.made (he.valid hv) (he.made hv))⟩
  value ho hp he hi ht := ⟨reads_kept.value ho hp he.read hi ht.read, he.takes.trans ht.takes,
    fun hv => ht.made (he.valid hv) (he.made hv)⟩
  access h := ⟨reads_kept.access h.read, h.takes.punct _, fun hv => h.made hv.tail⟩
  call ha ht := by
    refine ⟨reads_kept.call ha.read ht.read, (ha.takes.trans ht.takes).punct .openParen,
      fun hv he => ht.made (ha.valid hv.tail) ?_⟩
    exact textual_of_children (List.forall_mem_cons.2 ⟨he, ha.made hv.tail⟩) ⟨rfl, rfl⟩
      ⟨trivial, rfl⟩
  index ha ht := by
    refine ⟨reads_kept.index ha.read ht.read, (ha.takes.trans ht.takes).punct _,
      fun hv he => ht.made (ha.valid hv.tail) ?_⟩
    exact textual_of_children (List.forall_mem_cons.2 ⟨he, ha.made hv.tail⟩) ⟨rfl, rfl⟩
      ⟨trivial, rfl⟩
  noTrailer hts := ⟨reads_kept.noTrailer hts, .refl _, fun _ h => h⟩
  member hg ht := by
    refine ⟨reads_kept.member hg.read ht.read, (hg.takes.trans ht.takes).ident _,
      fun hv he => ht.made (hg.valid hv.tail) (hg.made hv.tail ?_)⟩
    exact textual_of (List.forall_mem_singleton.2 he)
      (List.forall_mem_singleton.2 (hv _ List.mem_cons_self)) (List.forall_mem_nil _) ⟨trivial, rfl⟩
  noTypeArgs h := ⟨reads_kept.noTypeArgs h, .refl _, fun _ h => h⟩
  typeArgs ht ha := by
    refine ⟨reads_kept.typeArgs ht ha.read, (takes_callTypeArgs? ht).trans ha.takes,
      fun hv he => ?_⟩
    exact textual_of
      (List.forall_mem_cons.2 ⟨he, ha.made ((takes_callTypeArgs? ht).valid hv)⟩)
      (List.forall_mem_nil _) (readable_of_callTypeArgs? ht hv) ⟨trivial, rfl⟩
  noItems := ⟨reads_kept.noItems, (Takes.refl _).punct _, fun _ => List.forall_mem_nil _⟩
  items hc h := ⟨reads_kept.items hc h.read, h.takes, h.made⟩
  lastItem h := ⟨reads_kept.lastItem h.read, h.takes.across (.refl _),
    fun hv => List.forall_mem_singleton.2 (h.made hv)⟩
  nextItem hc h hs := ⟨reads_kept.nextItem hc h.read hs.read, h.takes.across hs.takes,
    fun hv => List.forall_mem_cons.2 ⟨h.made hv, hs.made (h.valid hv).tail⟩⟩
  literal value := taking_leaf (reads_kept.literal value) value.token_ne.2 rfl rfl
    (by simp [ownTokens]) ⟨rfl, rfl⟩
  receiver := taking_leaf reads_kept.receiver (by simp) rfl rfl (by simp [ownTokens]) ⟨rfl, rfl⟩
  creation h := ⟨reads_kept.creation h.read, h.takes.ident _, fun hv => h.made hv.tail⟩
  typedDefault h := by
    refine ⟨reads_kept.typedDefault h,
      (((takes_type h).across (.refl _)).punct .openParen).ident _, fun hv => ?_⟩
    exact textual_of (List.forall_mem_nil _) (List.forall_mem_nil _)
      (List.forall_mem_singleton.2 (readable_of_type h hv.tail.tail)) ⟨trivial, rfl⟩
  default hts :=
    taking_leaf (reads_kept.default hts) (by simp) rfl rfl (by simp [ownTokens]) ⟨rfl, rfl⟩
  ident hw hn hd :=
    taking_leaf (reads_kept.ident hw hn hd) (by simp) rfl rfl (by simp [ownTokens]) ⟨rfl, rfl⟩
  interpolated h := taking_interpolated h
  paren h := by
    refine ⟨reads_kept.paren h.read, (h.takes.across (.refl _)).punct .openParen, fun hv => ?_⟩
    exact textual_of_children (List.forall_mem_singleton.2 (h.made hv.tail)) ⟨rfl, rfl⟩
      ⟨trivial, rfl⟩
  noSegments := ⟨reads_kept.noSegments, List.forall_mem_nil _, rfl⟩
  text h := ⟨reads_kept.text h.1, h.2.1, by simp [Part.segment, Segment.frame, h.2.2]⟩
  hole {_ format _ _ _ _} hs he h := by
    refine ⟨reads_kept.hole hs he.read h.1, ?_, ?_⟩
    · exact List.forall_mem_cons.2 ⟨he.made (Scan.valid_run hs), h.2.1⟩
    · cases format <;> simp [Part.segment, Segment.frame, h.2.2]
  anonymous h := by
    refine ⟨reads_kept.anonymous h.read, h.takes.punct .openBrace, fun hv => ?_⟩
    obtain ⟨hvalues, hnames⟩ := h.made hv.tail
    exact textual_of hvalues (valid_names hnames) (List.forall_mem_nil _) ⟨trivial, rfl⟩
  constructed ht ha hb := by
    refine ⟨reads_kept.constructed ht ha.read hb, (takes_type ht).across ha.takes, fun hv => ?_⟩
    exact textual_of (ha.made ((takes_type ht).valid hv).tail) (List.forall_mem_nil _)
      (List.forall_mem_singleton.2 (readable_of_type ht hv)) ⟨trivial, rfl⟩
  constructedWith ht ha hm := by
    refine ⟨reads_kept.constructedWith ht ha.read hm.read,
      (takes_type ht).across (ha.takes.across hm.takes), fun hv => ?_⟩
    have hva := ((takes_type ht).valid hv).tail
    obtain ⟨hvalues, hnames⟩ := hm.made (ha.valid hva).tail
    exact textual_of (List.forall_mem_append.2 ⟨ha.made hva, hvalues⟩) (valid_names hnames)
      (List.forall_mem_singleton.2 (readable_of_type ht hv)) ⟨trivial, rfl⟩
  initialized ht hm := by
    refine ⟨reads_kept.initialized ht hm.read, (takes_type ht).across hm.takes, fun hv => ?_⟩
    obtain ⟨hvalues, hnames⟩ := hm.made ((takes_type ht).valid hv).tail
    exact textual_of hvalues (valid_names hnames)
      (List.forall_mem_singleton.2 (readable_of_type ht hv)) ⟨trivial, rfl⟩
  noInitializers := ⟨reads_kept.noInitializers, (Takes.refl _).punct _,
    fun _ => ⟨List.forall_mem_nil _, List.forall_mem_nil _⟩⟩
  named h hm := by
    refine ⟨reads_kept.named h.read hm.read,
      ((h.takes.trans hm.takes).punct .assign).ident _, fun hv => ?_⟩
    have hvalue := h.made hv.tail.tail
    obtain ⟨hvalues, hnames⟩ := hm.made (h.valid hv.tail.tail)
    refine ⟨List.forall_mem_cons.2 ⟨hvalue, hvalues⟩, List.forall_mem_cons.2 ⟨?_, hnames⟩⟩
    rintro _ ⟨⟩
    exact hv _ List.mem_cons_self
  bare hc hn h hm := by
    refine ⟨reads_kept.bare hc hn h.read hm.read, h.takes.trans hm.takes, fun hv => ?_⟩
    obtain ⟨hvalues, hnames⟩ := hm.made (h.valid hv)
    refine ⟨List.forall_mem_cons.2 ⟨h.made hv, hvalues⟩, List.forall_mem_cons.2 ⟨?_, hnames⟩⟩
    rintro _ ⟨⟩
  comma h := ⟨reads_kept.comma h.read, h.takes.punct .comma, fun hv => h.made hv.tail⟩
  endInitializers := ⟨reads_kept.endInitializers, (Takes.refl _).punct _,
    fun _ => ⟨List.forall_mem_nil _, List.forall_mem_nil _⟩⟩

end Grammar

/-- What is read has forms that are read again as they are printed. -/
theorem Expr.every_formed_laid {source : String} {e : Expr} (h : parse source = .ok e) :
    e.Every (Formed .laid) := by
  obtain ⟨s, hs, hread⟩ := parse_eq_ok_iff.1 h
  have htextual : e.Textual := (Grammar.taking_kept.expression hread).made (Scan.valid_run hs)
  have hshaped := (Grammar.shaping_kept.expression hread).1
  exact fun n hn => ⟨htextual n hn, hshaped n hn⟩

end Projection
