import Projection.Proofs.Cursor.Reads
import Projection.Proofs.Grammar.Faults

/-!
The grammar with a cursor follows the grammar of tokens. Each rule and each loop gives what the
reader finds in the tokens at the cursor, as soon as calls may nest deeper than the measure by which
the reader ends.
-/

namespace Projection

open Grammar Reading Interpolation

namespace Rules

/-- Below the measure `m`, rules and loops give what the reader finds. A loop that collects puts
what the reader finds behind what it has. -/
structure Follows (s : Scan) (r : Rules) (m : Nat) : Prop where
  ask : ∀ {raw source format}, .interpolated raw ∈ s.words →
    .hole source format ∈ segments raw.toList → r.ask source = some (Expr.parseChars source)
  type : ∀ {ts}, weight ts * 16 < m → Gives s r.type ts id (Grammar.type ts)
  nameFrom : ∀ {name ts}, weight ts * 16 < m →
    Reads s (r.nameFrom name) ts (dotted name ts).1 (dotted name ts).2
  marksFrom : ∀ {t ts}, weight ts * 16 < m →
    Reads s (r.marksFrom t) ts (typeMarks t ts).1 (typeMarks t ts).2
  nextTypes : ∀ {ts more}, weight (.punct .comma :: more) * 16 < m →
    Gives s (r.closeTypes ts) (.punct .comma :: more) (ts ++ ·) (typeList more)
  lastType : ∀ {ts more}, weight (.punct .greater :: more) * 16 < m →
    Reads s (r.closeTypes ts) (.punct .greater :: more) ts more
  noTypes : ∀ {ts rest}, weight rest * 16 < m → (∀ more, rest ≠ .punct .comma :: more) →
    (∀ more, rest ≠ .punct .greater :: more) →
    Fails s (r.closeTypes ts) rest (.expected "'>'" rest.length)
  closeHeader : ∀ {offset done current ts}, weight (ts.drop offset) * 16 < m →
    FindsHeader s (r.closeHeader ⟨offset, done, current⟩) ts
      (lambdaParams done current (ts.drop offset))
  expression : ∀ {ts}, weight ts * 16 + 6 < m →
    Gives s r.expression ts id (Grammar.expression ts)
  binary : ∀ {least ts}, weight ts * 16 + 5 < m →
    Gives s (r.binary least) ts id (Grammar.binary least ts)
  operandsFrom : ∀ {least left ts}, weight ts * 16 < m →
    Gives s (r.operandsFrom least left) ts id (binaryRest least left ts)
  unary : ∀ {ts}, weight ts * 16 + 4 < m → Gives s r.unary ts id (Grammar.unary ts)
  trailersFrom : ∀ {e ts}, weight ts * 16 + 2 < m →
    Gives s (r.trailersFrom e) ts id (trailers e ts)
  itemsFrom : ∀ {close items ts}, weight ts * 16 + 7 < m →
    Gives s (r.itemsFrom close items) ts (items ++ ·) (someItems close ts)
  initializersFrom : ∀ {members ts}, weight ts * 16 + 7 < m →
    Gives s (r.initializersFrom members) ts (members ++ ·) (Grammar.initializers ts)

attribute [local grind =] weight_cons Token.weight

theorem exists_of_first {ts : List Token} {t : Token} (ht : ts[0]? = some t) :
    ∃ rest, ts = t :: rest := by
  cases ts with
  | nil => cases ht
  | cons u rest =>
      cases ht
      exact ⟨rest, rfl⟩

theorem exists_of_front {ts : List Token} {t u : Token} (ht : ts[0]? = some t)
    (hu : ts[1]? = some u) : ∃ rest, ts = t :: u :: rest := by
  obtain ⟨more, rfl⟩ := exists_of_first ht
  obtain ⟨rest, rfl⟩ := exists_of_first (show more[0]? = some u from hu)
  exact ⟨rest, rfl⟩

/-- The tokens behind a rule are none that a match on them looks for. -/
theorem ne_front {limit : Nat} {rest : List Token} {hb : weight rest < limit}
    {front : List Token → List Token}
    (h : ∀ more (hb' : weight (front more) < limit), rest = front more → hb ≍ hb' → False)
    (more : List Token) : rest ≠ front more := by
  rintro rfl
  exact h more hb rfl HEq.rfl

section Turns

variable {s : Scan} {ts : List Token}

theorem reads_nameTurn {name next : String} {rest : List Token} :
    Reads s (nameTurn name) (.punct .dot :: .ident next :: rest) (.again (name ++ "." ++ next))
      rest :=
  (reads_peekAt 0).bind ((reads_peekAt 1).bind ((reads_skip 2).bind (reads_pure _)))

theorem reads_nameTurn_stop {name : String}
    (h : ∀ next rest, ts ≠ .punct .dot :: .ident next :: rest) :
    Reads s (nameTurn name) ts (.stop name) ts := by
  refine (reads_peekAt 0).bind ((reads_peekAt 1).bind ?_)
  split
  · rename_i hdot hname
    obtain ⟨rest, rfl⟩ := exists_of_front hdot hname
    exact absurd rfl (h _ rest)
  · exact reads_pure _

theorem reads_markTurn_stop {t : TypeExpr} (hquestion : ∀ rest, ts ≠ .punct .question :: rest)
    (hoptional : ∀ rest, ts ≠ .punct .questionBracket :: .punct .closeBracket :: rest)
    (harray : ∀ rest, ts ≠ .punct .openBracket :: .punct .closeBracket :: rest) :
    Reads s (markTurn t) ts (.stop t) ts := by
  refine (reads_peekAt 0).bind ((reads_peekAt 1).bind ?_)
  split
  · rename_i hmark
    obtain ⟨rest, rfl⟩ := exists_of_first hmark
    exact absurd rfl (hquestion rest)
  · rename_i hopen hclose
    obtain ⟨rest, rfl⟩ := exists_of_front hopen hclose
    exact absurd rfl (hoptional rest)
  · rename_i hopen hclose
    obtain ⟨rest, rfl⟩ := exists_of_front hopen hclose
    exact absurd rfl (harray rest)
  · exact reads_pure _

end Turns

section Types

variable {s : Scan} {r : Rules} {m : Nat}

theorem Follows.nameFrom_unfold (h : r.Follows s m) {name : String} {ts : List Token}
    (hm : weight ts * 16 < m + 1) :
    Reads s (r.unfold.nameFrom name) ts (dotted name ts).1 (dotted name ts).2 := by
  unfold dotted
  split
  · exact reads_nameTurn.bind (h.nameFrom (by grind))
  · rename_i hstop
    exact (reads_nameTurn_stop hstop).bind (reads_pure name)

theorem Follows.marksFrom_unfold (h : r.Follows s m) {t : TypeExpr} {ts : List Token}
    (hm : weight ts * 16 < m + 1) :
    Reads s (r.unfold.marksFrom t) ts (typeMarks t ts).1 (typeMarks t ts).2 := by
  unfold typeMarks
  split
  · exact Reads.bind ((reads_peekAt 0).bind ((reads_peekAt 1).bind (reads_advance.bind
      (reads_pure _)))) (h.marksFrom (by grind))
  · exact Reads.bind ((reads_peekAt 0).bind ((reads_peekAt 1).bind ((reads_skip 2).bind
      (reads_pure _)))) (h.marksFrom (by grind))
  · exact Reads.bind ((reads_peekAt 0).bind ((reads_peekAt 1).bind ((reads_skip 2).bind
      (reads_pure _)))) (h.marksFrom (by grind))
  · rename_i hquestion hoptional harray
    exact (reads_markTurn_stop hquestion hoptional harray).bind (reads_pure t)

theorem reads_typesFrom_stop {ts : List TypeExpr} {rest : List Token}
    (h : ∀ more, rest ≠ .punct .comma :: more) : Reads s (r.unfold.typesFrom ts) rest ts rest := by
  have hturn : Reads s (r.typesTurn ts) rest (.stop ts) rest :=
    (reads_eat_false h).bind (reads_pure _)
  exact hturn.bind (reads_pure ts)

theorem reads_closeTypes_unfold {ts : List TypeExpr} {more : List Token} :
    Reads s (r.unfold.closeTypes ts) (.punct .greater :: more) ts more := by
  refine (reads_typesFrom_stop ?_).bind (reads_expect.bind (reads_pure ts))
  rintro _ ⟨⟩

theorem fails_closeTypes_unfold {ts : List TypeExpr} {rest : List Token}
    (hcomma : ∀ more, rest ≠ .punct .comma :: more)
    (hgreater : ∀ more, rest ≠ .punct .greater :: more) :
    Fails s (r.unfold.closeTypes ts) rest (.expected "'>'" rest.length) :=
  (reads_typesFrom_stop hcomma).bind_fails (fails_expect (by decide) hgreater).bind

theorem closeTypes_unfold (ts : List TypeExpr) : r.unfold.closeTypes ts =
    eat .comma >>= fun more => if more then r.type >>= fun t => r.closeTypes (ts ++ [t])
      else expect .greater >>= fun _ => pure ts := by
  simp only [closeTypes, unfold, typesTurn, bind_assoc]
  congr 1
  funext more
  cases more <;> simp [follow]

/-- A type and those behind it, up to the closing bracket. -/
theorem Follows.types_give (h : r.Follows s m) {ts : List TypeExpr} {more : List Token}
    (hm : weight more * 16 < m) :
    Gives s (r.type >>= fun t => r.closeTypes (ts ++ [t])) more (ts ++ ·) (typeList more) := by
  have htype : Gives s r.type more id (Grammar.type more) := h.type hm
  unfold typeList
  split
  · rename_i ht
    exact (htype.fails ht).bind
  · rename_i t rest hb ht
    refine (htype.reads ht).bind_gives ?_
    split
    · rename_i more' _
      have hnext : Gives s (r.closeTypes (ts ++ [t])) (.punct .comma :: more')
          (fun us => ts ++ t :: us) (typeList more') :=
        (h.nextTypes (by grind)).congr fun us => (List.append_cons ts t us).symm
      split
      · rename_i hl
        exact hnext.fails hl
      · rename_i hl
        exact hnext.reads hl
    · exact h.lastType (by grind)
    · rename_i hcomma hgreater
      exact h.noTypes (by grind) (ne_front hcomma) (ne_front hgreater)

theorem Follows.typeArgs_give (h : r.Follows s m) {more : List Token} (hm : weight more * 16 < m) :
    Gives s r.typeArgs (.punct .less :: more) id (typeList more) := by
  have htypes : Gives s (r.type >>= fun t => r.closeTypes ([] ++ [t])) more ([] ++ ·)
      (typeList more) := h.types_give hm
  exact reads_expect.bind_gives htypes

theorem Follows.nextTypes_unfold (h : r.Follows s m) {ts : List TypeExpr} {more : List Token}
    (hm : weight (.punct .comma :: more) * 16 < m + 1) :
    Gives s (r.unfold.closeTypes ts) (.punct .comma :: more) (ts ++ ·) (typeList more) := by
  rw [closeTypes_unfold]
  exact gives_eat (h.types_give (by grind))

theorem Follows.readType_gives (h : r.Follows s m) {ts : List Token} (hm : weight ts * 16 < m + 1) :
    Gives s r.readType ts id (Grammar.type ts) := by
  unfold Grammar.type
  split
  · rename_i first rest
    have hw := weight_dotted_le first rest
    have hname : Reads s (r.nameFrom first) rest (dotted first rest).1 (dotted first rest).2 :=
      h.nameFrom (by grind)
    refine reads_expectName.bind_gives ?_
    split
    · rename_i more hd
      rw [hd] at hw hname
      refine hname.bind_gives (gives_isAt ?_)
      have hargs : Gives s r.typeArgs (.punct .less :: more) id (typeList more) :=
        h.typeArgs_give (by grind)
      split
      · rename_i hl
        exact (hargs.fails hl).bind
      · rename_i hl
        exact (hargs.reads hl).bind_gives (h.marksFrom (by grind))
    · rename_i hless
      exact hname.bind_gives (gives_isAt_false hless (h.marksFrom (by grind)))
  · rename_i hno
    exact (fails_expectName hno).bind

end Types

section Headers

variable {s : Scan} {r : Rules} {m : Nat} {ts : List Token} {offset : Nat}

theorem getElem?_of_drop {t : Token} {rest : List Token} (h : ts.drop offset = t :: rest) :
    ts[offset]? = some t := by
  rw [← List.head?_drop, h]
  rfl

theorem drop_of_drop {t : Token} {rest : List Token} (h : ts.drop offset = t :: rest) :
    ts.drop (offset + 1) = rest := by
  rw [← List.drop_drop, h]
  rfl

theorem reads_endHeader {params : List String} (h : ts[offset + 1]? = some (.punct .arrow)) :
    Reads s (endHeader (some (offset, params))) ts (some params) (ts.drop (offset + 2)) := by
  refine (reads_peekAt (offset + 1)).bind ?_
  rw [if_pos h]
  exact (reads_skip _).bind (reads_pure _)

theorem reads_endHeader_none {params : List String} (h : ts[offset + 1]? ≠ some (.punct .arrow)) :
    Reads s (endHeader (some (offset, params))) ts none ts := by
  refine (reads_peekAt (offset + 1)).bind ?_
  rw [if_neg h]
  exact reads_pure _

theorem closeHeader_unfold (header : Header) : r.unfold.closeHeader header =
    headerTurn header >>= fun turn => follow r.headerFrom turn >>= endHeader :=
  bind_assoc ..

theorem drop_of_getElem? {t : Token} (h : ts[offset]? = some t) :
    ts.drop offset = t :: ts.drop (offset + 1) := by
  obtain ⟨hlt, rfl⟩ := List.getElem?_eq_some_iff.1 h
  exact List.drop_eq_getElem_cons hlt

theorem reads_headerTurn_name {done : List String} {current : Option String} {name : String}
    (ht : ts[offset]? = some (.ident name)) :
    Reads s (headerTurn ⟨offset, done, current⟩) ts (.again ⟨offset + 1, done, some name⟩) ts := by
  refine (reads_peekAt offset).bind ?_
  rw [ht]
  exact reads_pure _

theorem reads_headerTurn_comma {done : List String} {name : String}
    (ht : ts[offset]? = some (.punct .comma)) :
    Reads s (headerTurn ⟨offset, done, some name⟩) ts
      (.again ⟨offset + 1, done ++ [name], none⟩) ts := by
  refine (reads_peekAt offset).bind ?_
  rw [ht]
  exact reads_pure _

theorem reads_headerTurn_noName {done : List String} (ht : ts[offset]? = some (.punct .comma)) :
    Reads s (headerTurn ⟨offset, done, none⟩) ts (.stop none) ts := by
  refine (reads_peekAt offset).bind ?_
  rw [ht]
  exact reads_pure _

theorem reads_headerTurn_close {header : Header}
    (ht : ts[header.offset]? = some (.punct .closeParen)) :
    Reads s (headerTurn header) ts (.stop header.closed) ts := by
  refine (reads_peekAt header.offset).bind ?_
  rw [ht]
  exact reads_pure _

theorem reads_headerTurn_stop {header : Header}
    (hident : ∀ name, ts[header.offset]? ≠ some (.ident name))
    (hcomma : ts[header.offset]? ≠ some (.punct .comma))
    (hclose : ts[header.offset]? ≠ some (.punct .closeParen)) :
    Reads s (headerTurn header) ts (.stop none) ts := by
  refine (reads_peekAt header.offset).bind ?_
  split
  · exact absurd ‹_› (hident _)
  · exact absurd ‹_› hcomma
  · exact absurd ‹_› hclose
  · exact reads_pure _

theorem reads_endHeader_closed_none {done : List String} {current : Option String}
    (h : ts[offset + 1]? ≠ some (.punct .arrow)) :
    Reads s (endHeader (Header.closed ⟨offset, done, current⟩)) ts none ts := by
  cases current with
  | some name => exact reads_endHeader_none h
  | none =>
      cases done with
      | nil => exact reads_endHeader_none h
      | cons => exact reads_pure none

theorem Follows.closeHeader_unfold (h : r.Follows s m) {done : List String}
    {current : Option String} (hm : weight (ts.drop offset) * 16 < m + 1) :
    FindsHeader s (r.unfold.closeHeader ⟨offset, done, current⟩) ts
      (lambdaParams done current (ts.drop offset)) := by
  rw [Rules.closeHeader_unfold]
  unfold lambdaParams
  split
  · rename_i name rest hd
    have hnext : FindsHeader s (r.closeHeader ⟨offset + 1, done, some name⟩) ts
        (lambdaParams done (some name) (ts.drop (offset + 1))) :=
      h.closeHeader (by rw [drop_of_drop hd]; grind)
    rw [drop_of_drop hd] at hnext
    exact (reads_headerTurn_name (getElem?_of_drop hd)).bind_findsHeader hnext
  · rename_i rest hd
    cases current with
    | some name =>
        have hnext : FindsHeader s (r.closeHeader ⟨offset + 1, done ++ [name], none⟩) ts
            (lambdaParams (done ++ [name]) none (ts.drop (offset + 1))) :=
          h.closeHeader (by rw [drop_of_drop hd]; grind)
        rw [drop_of_drop hd] at hnext
        exact (reads_headerTurn_comma (getElem?_of_drop hd)).bind_findsHeader hnext
    | none => exact (reads_headerTurn_noName (getElem?_of_drop hd)).bind (reads_pure none)
  · rename_i rest hd
    have harrow := drop_of_drop hd
    have hend (params : List String) :
        Reads s (endHeader (some (offset, params))) ts (some params) rest := by
      rw [← drop_of_drop harrow]
      exact reads_endHeader (getElem?_of_drop harrow)
    have hturn : Reads s (headerTurn ⟨offset, done, current⟩) ts
        (.stop (Header.closed ⟨offset, done, current⟩)) ts :=
      reads_headerTurn_close (getElem?_of_drop hd)
    refine hturn.bind_findsHeader ((reads_pure _).bind_findsHeader ?_)
    cases current with
    | some name => exact hend (done ++ [name])
    | none =>
        cases done with
        | nil => exact hend []
        | cons => exact reads_pure none
  · rename_i hident hcomma hclose
    by_cases hp : ts[offset]? = some (.punct .closeParen)
    · refine (reads_headerTurn_close hp).bind ((reads_pure _).bind ?_)
      refine reads_endHeader_closed_none fun ha => hclose (ts.drop (offset + 2)) ?_
      rw [drop_of_getElem? hp, drop_of_getElem? ha]
    · have hstop : Reads s (headerTurn ⟨offset, done, current⟩) ts (.stop none) ts :=
        reads_headerTurn_stop (fun name hn => hident name _ (drop_of_getElem? hn))
          (fun hc => hcomma _ (drop_of_getElem? hc)) hp
      exact hstop.bind (reads_pure none)

end Headers

end Rules

end Projection
