import Projection.Proofs.Grammar.Rules
import Projection.Proofs.TypeExpr.Tokens

/-!
What trial readings see. The reader tries casts, generic arguments and lambda headers before it
reads anything else, so tokens that are printed in place of others must not let a trial succeed that
failed on those. `Near` says how the two may differ, and every trial that succeeds on what is
printed is shown to succeed on what was read.
-/

namespace Projection.Grammar

def isTypeToken : Token → Bool
  | .ident _ => true
  | .punct p => [.dot, .less, .greater, .comma, .question, .openBracket, .closeBracket,
      .questionBracket].contains p
  | _ => false

/-- Tokens that end every trial. -/
def Dead (ts : List Token) : Prop :=
  ∀ t ∈ ts.head?, isTypeToken t = false ∧ t ≠ .punct .openParen ∧ t ≠ .punct .closeParen

/-- The printed tokens `p` start as `s` does, or with a mark that ends an expression. -/
def SameHead (s p : List Token) : Prop :=
  s.head? = p.head? ∨ s.head? = some (.punct .comma) ∧ p.head? = some (.punct .closeBrace) ∨
    p.head? = some (.punct .closeParen)

def isQuestion (p : Punct) : Bool := p == .question || p == .questionBracket

/-- The tokens `p` are printed where `s` was read, as far as a trial can see. The flag is set where
a parenthesis that was not read may close what is printed. -/
inductive Near : Bool → List Token → List Token → Prop
  | dead {k s p} : Dead p → (s.head? = p.head? ∨ p.head? = some (.punct .openBrace) ∨
      p.head? = some (.punct .closeBrace)) → Near k s p
  | same {k t s p} : isTypeToken t = true → Near k s p → Near k (t :: s) (t :: p)
  | opened {k s p} : ((lambdaHeader (.punct .openParen :: p)).isSome →
      (lambdaHeader (.punct .openParen :: s)).isSome) →
      Near k (.punct .openParen :: s) (.punct .openParen :: p)
  | closed {k s p} : SameHead s p → Near k (.punct .closeParen :: s) (.punct .closeParen :: p)
  | shut {s p} : Near true s (.punct .closeParen :: p)
  | header {k s x p} : (lambdaHeader s).isSome → Near k s (.ident x :: .punct .arrow :: p)
  | wrapped {k s p} : Near k (.punct .question :: s) (.punct .question :: .punct .openParen :: p)
  | twice {k q s q' p} : isQuestion q = true → isQuestion q' = true →
      Near k (.punct q :: s) (.punct q' :: p) →
      Near k (.punct .question :: .punct q :: s) (.punct q' :: p)
  | joined {k s p} : Near k s p →
      Near k (.punct .question :: .punct .openBracket :: .punct .closeBracket :: s)
        (.punct .questionBracket :: .punct .closeBracket :: p)

/-- What can be printed behind an expression that `s` stood behind. -/
def Agree (k : Bool) (s p : List Token) : Prop := Near k s p ∧ SameHead s p

theorem Near.punct {k : Bool} {s p : List Token} {q : Punct} (h : Near k s (.punct q :: p))
    (hq : isTypeToken (.punct q) = true) (hmark : isQuestion q = false) :
    ∃ s', s = .punct q :: s' ∧ Near k s' p := by
  cases h with
  | dead hd _ => rw [(hd _ rfl).1] at hq; cases hq
  | same _ h => exact ⟨_, rfl, h⟩
  | opened | closed | shut => cases hq
  | wrapped | joined => cases hmark
  | twice _ hq' _ => rw [hmark] at hq'; cases hq'

theorem Near.ident {k : Bool} {s p : List Token} {x : String} (h : Near k s (.ident x :: p)) :
    (∃ s', s = .ident x :: s' ∧ Near k s' p) ∨
      (lambdaHeader s).isSome ∧ p.head? = some (.punct .arrow) := by
  cases h with
  | dead hd _ => cases (hd _ rfl).1
  | same _ h => exact .inl ⟨_, rfl, h⟩
  | header h => exact .inr ⟨h, rfl⟩

theorem Near.openParen {k : Bool} {s p : List Token} (h : Near k s (.punct .openParen :: p)) :
    ∃ s', s = .punct .openParen :: s' ∧ ((lambdaHeader (.punct .openParen :: p)).isSome →
      (lambdaHeader s).isSome) := by
  cases h with
  | dead hd _ => exact absurd rfl (hd _ rfl).2.1
  | same ht _ => cases ht
  | opened h => exact ⟨_, rfl, h⟩
  | twice _ hq _ => cases hq

theorem Near.closeParen {s p : List Token} (h : Near false s (.punct .closeParen :: p)) :
    ∃ s', s = .punct .closeParen :: s' ∧ SameHead s' p := by
  cases h with
  | dead hd _ => exact absurd rfl (hd _ rfl).2.2
  | same ht _ => cases ht
  | closed h => exact ⟨_, rfl, h⟩
  | twice _ hq _ => cases hq

def endsType (k : Bool) : Punct → Bool
  | .comma | .greater => true
  | .closeParen => !k
  | _ => false

def carriesType (k : Bool) : Punct → Bool
  | .less | .question | .questionBracket | .openBracket => true
  | q => endsType k q

def Ends (k : Bool) (p : List Token) : Prop := ∃ q more, p = .punct q :: more ∧ endsType k q = true

def Live (k : Bool) (p : List Token) : Prop :=
  ∃ q more, p = .punct q :: more ∧ carriesType k q = true

theorem carriesType_of_endsType {k : Bool} {q : Punct} (h : endsType k q = true) :
    carriesType k q = true := by
  cases q with
  | less | question | questionBracket | openBracket => rfl
  | _ => exact h

theorem isTypeToken_of_carriesType {k : Bool} {q : Punct} (h : carriesType k q = true)
    (hq : q ≠ .closeParen) : isTypeToken (.punct q) = true := by
  cases q with
  | closeParen => exact absurd rfl hq
  | less | question | questionBracket | openBracket | comma | greater => rfl
  | _ => cases h

theorem live_of_ends {k : Bool} {t : TypeExpr} {p : List Token}
    (h : Ends k (typeMarks t p).2) : Live k p := by
  revert h
  fun_cases typeMarks t p with
  | case1 rest | case2 rest | case3 rest => exact fun _ => ⟨_, _, rfl, rfl⟩
  | case4 =>
      rintro ⟨q, more, rfl, hq⟩
      exact ⟨q, more, rfl, carriesType_of_endsType hq⟩

/-- What stands in the source where a type is still read. -/
theorem Near.live {k : Bool} {s p : List Token} (h : Near k s p) (hp : Live k p) :
    ∃ q s', s = .punct q :: s' ∧ q ≠ .dot ∧ (q = .less → p.head? = some (.punct .less)) := by
  obtain ⟨q, more, rfl, hq⟩ := hp
  cases h with
  | dead hd _ =>
      obtain ⟨htype, _, hclose⟩ := hd _ rfl
      rw [isTypeToken_of_carriesType hq fun h => hclose (h ▸ rfl)] at htype
      cases htype
  | same _ h =>
      refine ⟨q, _, rfl, ?_, fun h => h ▸ rfl⟩
      rintro rfl
      cases hq
  | opened | shut => cases hq
  | closed | wrapped | joined | twice => exact ⟨_, _, rfl, by decide, (by simp)⟩

theorem dotted_eq_of_ne_dot {q : Punct} (hq : q ≠ .dot) (name : String) (ts : List Token) :
    dotted name (.punct q :: ts) = (name, .punct q :: ts) := by
  rw [dotted]
  rintro _ _ ⟨⟩
  exact hq rfl

theorem dotted_near {k : Bool} {s p : List Token} (h : Near k s p) (name : String)
    (hp : Live k (dotted name p).2) :
    (dotted name s).1 = (dotted name p).1 ∧ Near k (dotted name s).2 (dotted name p).2 := by
  fun_induction dotted name p generalizing s with
  | case1 name next rest ih =>
      obtain ⟨s, rfl, hname⟩ := h.punct rfl rfl
      rcases hname.ident with ⟨s, rfl, hrest⟩ | ⟨-, harrow⟩
      · rw [dotted]
        exact ih hrest hp
      · obtain ⟨rest, rfl⟩ := List.head?_eq_some_iff.1 harrow
        obtain ⟨q, more, hq, hlive⟩ := hp
        cases hq
        cases hlive
  | case2 name p _ =>
      obtain ⟨q, s, rfl, hdot, -⟩ := h.live hp
      rw [dotted_eq_of_ne_dot hdot]
      exact ⟨rfl, h⟩

theorem isSurelyType_asNullable (t : TypeExpr) : isSurelyType t.asNullable = true := by
  cases t <;> rfl

theorem typeMarks_stop {q : Punct} (h : q ∉ [.question, .questionBracket, .openBracket])
    (t : TypeExpr) (ts : List Token) : typeMarks t (.punct q :: ts) = (t, .punct q :: ts) := by
  simp only [List.mem_cons, List.not_mem_nil, or_false, not_or] at h
  unfold typeMarks
  split <;> simp_all

theorem typeMarks_unclosed {q : Punct} (h : q = .questionBracket ∨ q = .openBracket)
    {ts : List Token} (hts : ∀ more, ts ≠ .punct .closeBracket :: more) (t : TypeExpr) :
    typeMarks t (.punct q :: ts) = (t, .punct q :: ts) := by
  unfold typeMarks
  split
  · simp_all
  · simp_all
  · simp_all
  · rfl

/-- Behind a mark `?` a type is surely one, whatever it was before. -/
def Alike (t t' : TypeExpr) (p : List Token) : Prop :=
  isSurelyType t = isSurelyType t' ∨ ∃ q more, p = .punct q :: more ∧ isQuestion q = true

/-- Marks that a trial reads behind a printed type are read in the source as well. -/
def MarksNear (k : Bool) (s p : List Token) : Prop :=
  ∀ t t', Alike t t' p → Ends k (typeMarks t' p).2 →
    Near k (typeMarks t s).2 (typeMarks t' p).2 ∧
      isSurelyType (typeMarks t s).1 = isSurelyType (typeMarks t' p).1

theorem marksNear_of_not_live {k : Bool} {s p : List Token} (h : ¬Live k p) : MarksNear k s p :=
  fun _ _ _ hends => absurd (live_of_ends hends) h

/-- Brackets behind a type, with what is known behind the closing one. -/
theorem marksNear_bracket {k : Bool} {s p : List Token} {q : Punct}
    (hq : q = .questionBracket ∨ q = .openBracket)
    (hclose : ∀ p', p = .punct .closeBracket :: p' →
      ∃ s', s = .punct .closeBracket :: s' ∧ MarksNear k s' p') :
    MarksNear k (.punct q :: s) (.punct q :: p) := by
  intro t t' _ hends
  by_cases hp : ∃ p', p = .punct .closeBracket :: p'
  · obtain ⟨p', rfl⟩ := hp
    obtain ⟨s', rfl, hmore⟩ := hclose p' rfl
    rcases hq with rfl | rfl
    · exact hmore (.array t.asNullable) (.array t'.asNullable) (.inl rfl) hends
    · exact hmore (.array t) (.array t') (.inl rfl) hends
  · rw [typeMarks_unclosed hq (fun more h => hp ⟨more, h⟩)] at hends
    obtain ⟨_, _, ⟨⟩, hq'⟩ := hends
    rcases hq with rfl | rfl <;> cases hq'

theorem marksNear_same {k : Bool} {t : Token} {s p : List Token} (ht : isTypeToken t = true)
    (h : Near k s p) (hmarks : MarksNear k s p)
    (hclose : ∀ p', p = .punct .closeBracket :: p' →
      ∃ s', s = .punct .closeBracket :: s' ∧ MarksNear k s' p') :
    MarksNear k (t :: s) (t :: p) := by
  cases t with
  | ident x =>
      refine marksNear_of_not_live ?_
      rintro ⟨_, _, ⟨⟩, -⟩
  | punct q =>
      cases q with
      | comma | greater =>
          intro t t' halike hends
          rw [typeMarks_stop (by decide), typeMarks_stop (by decide)]
          refine ⟨.same rfl h, ?_⟩
          rcases halike with halike | ⟨_, _, ⟨⟩, hq⟩
          · exact halike
          · cases hq
      | less =>
          intro t t' _ hends
          rw [typeMarks_stop (by decide)] at hends
          obtain ⟨_, _, ⟨⟩, hq⟩ := hends
          cases hq
      | question =>
          intro t t' _ hends
          refine hmarks t.asNullable t'.asNullable (.inl ?_) hends
          rw [isSurelyType_asNullable, isSurelyType_asNullable]
      | questionBracket => exact marksNear_bracket (.inl rfl) hclose
      | openBracket => exact marksNear_bracket (.inr rfl) hclose
      | dot | closeBracket =>
          refine marksNear_of_not_live ?_
          rintro ⟨_, _, ⟨⟩, hq⟩
          cases hq
      | _ => cases ht
  | _ => cases ht

theorem marksNear_of_near {k : Bool} {s p : List Token} (h : Near k s p) : MarksNear k s p := by
  suffices hboth : MarksNear k s p ∧ ∀ p', p = .punct .closeBracket :: p' →
      ∃ s', s = .punct .closeBracket :: s' ∧ MarksNear k s' p' from hboth.1
  induction h with
  | @dead k s p hd _ =>
      constructor
      · refine marksNear_of_not_live ?_
        rintro ⟨q, more, rfl, hq⟩
        obtain ⟨htype, _, hclose⟩ := hd _ rfl
        rw [isTypeToken_of_carriesType hq fun h => hclose (h ▸ rfl)] at htype
        cases htype
      · rintro p' rfl
        cases (hd _ rfl).1
  | same ht h ih =>
      refine ⟨marksNear_same ht h ih.1 ih.2, ?_⟩
      rintro p' ⟨⟩
      exact ⟨_, rfl, ih.1⟩
  | opened | shut =>
      refine ⟨marksNear_of_not_live ?_, (by simp)⟩
      rintro ⟨_, _, ⟨⟩, hq⟩
      cases hq
  | header =>
      refine ⟨marksNear_of_not_live ?_, (by simp)⟩
      rintro ⟨_, _, ⟨⟩, -⟩
  | closed h =>
      refine ⟨?_, (by simp)⟩
      intro t t' halike hends
      rw [typeMarks_stop (by decide), typeMarks_stop (by decide)]
      refine ⟨.closed h, ?_⟩
      rcases halike with halike | ⟨_, _, ⟨⟩, hq⟩
      · exact halike
      · cases hq
  | wrapped =>
      refine ⟨?_, (by simp)⟩
      intro t t' _ hends
      rw [typeMarks, typeMarks_stop (by decide)] at hends
      obtain ⟨_, _, ⟨⟩, hq⟩ := hends
      cases hq
  | @twice k q s q' p hq hq' h ih =>
      refine ⟨?_, ?_⟩
      · intro t t' _ hends
        exact ih.1 t.asNullable t' (.inr ⟨q', p, rfl, hq'⟩) hends
      · rintro p' ⟨⟩
        cases hq'
  | joined h ih =>
      refine ⟨?_, (by simp)⟩
      intro t t' _ hends
      exact ih.1 (.array t.asNullable) (.array t'.asNullable) (.inl rfl) hends

/-- Where a type or a list of types is read in what is printed, one is read in the source. -/
def nearTypes : TypeRelation where
  type p t' r' := ∀ k s, Near k s p → Ends k r' →
    ∃ t r, (type s).Is t r ∧ Near k r r' ∧ isSurelyType t = isSurelyType t'
  list p ts' r' := ts' ≠ [] ∧ ∀ k s, Near k s p →
    ∃ ts r, (typeList s).Is ts r ∧ Near k r r' ∧ ts ≠ []

theorem isSurelyType_generic {name : String} {args : List TypeExpr} (h : args ≠ []) :
    isSurelyType (.named name args) = true := by
  cases args with
  | nil => exact absurd rfl h
  | cons => rfl

theorem nearTypes_kept : nearTypes.Kept where
  generic := by
    rintro first ts more args rest hd ⟨hargs, hlist⟩ k s h hends
    rcases h.ident with ⟨s, rfl, hs⟩ | ⟨-, harrow⟩
    · obtain ⟨hname, hdotted⟩ := dotted_near hs first (by rw [hd]; exact ⟨_, _, rfl, rfl⟩)
      rw [hd] at hdotted
      obtain ⟨s', hd', hs'⟩ := hdotted.punct rfl rfl
      obtain ⟨args', rest', hread, hrest, hargs'⟩ := hlist k s' hs'
      have halike : Alike (.named (dotted first s).1 args') (.named (dotted first ts).1 args)
          rest := by
        left
        rw [isSurelyType_generic hargs, isSurelyType_generic hargs']
      obtain ⟨hnear, hsure⟩ := marksNear_of_near hrest _ _ halike hends
      exact ⟨_, _, readsType_kept.generic hd' hread, hnear, hsure⟩
    · obtain ⟨ts, rfl⟩ := List.head?_eq_some_iff.1 harrow
      cases hd
  simple := by
    intro first ts hless k s h hends
    rcases h.ident with ⟨s, rfl, hs⟩ | ⟨-, harrow⟩
    · have hlive := live_of_ends hends
      obtain ⟨hname, hdotted⟩ := dotted_near hs first hlive
      have hless' : ∀ more, (dotted first s).2 ≠ .punct .less :: more := by
        intro more hs
        obtain ⟨q, s', heq, -, hq⟩ := hdotted.live hlive
        rw [hs] at heq
        cases heq
        obtain ⟨ts', hts'⟩ := List.head?_eq_some_iff.1 (hq rfl)
        exact hless _ hts'
      have halike : Alike (.simple (dotted first s).1) (.simple (dotted first ts).1)
          (dotted first ts).2 := .inl (by rw [hname])
      obtain ⟨hnear, hsure⟩ := marksNear_of_near hdotted _ _ halike hends
      exact ⟨_, _, readsType_kept.simple hless', hnear, hsure⟩
    · obtain ⟨ts, rfl⟩ := List.head?_eq_some_iff.1 harrow
      obtain ⟨q, more, hq, hlive⟩ := live_of_ends hends
      cases hq
      cases hlive
  next := by
    rintro ts t more us rest ht ⟨-, hlist⟩
    refine ⟨(by simp), fun k s h => ?_⟩
    obtain ⟨t', r, hread, hr, -⟩ := ht k s h ⟨_, _, rfl, rfl⟩
    obtain ⟨r, rfl, hmore⟩ := hr.punct rfl rfl
    obtain ⟨us', r', hread', hr', -⟩ := hlist k r hmore
    exact ⟨_, _, readsType_kept.next hread hread', hr', (by simp)⟩
  last := by
    intro ts t rest ht
    refine ⟨(by simp), fun k s h => ?_⟩
    obtain ⟨t', r, hread, hr, -⟩ := ht k s h ⟨_, _, rfl, rfl⟩
    obtain ⟨r, rfl, hmore⟩ := hr.punct rfl rfl
    exact ⟨_, _, readsType_kept.last hread, hmore, (by simp)⟩

theorem callTypeArgs?_eq_none_of_near {k : Bool} {s p : List Token} (h : Near k s p)
    (hs : callTypeArgs? s = none) : callTypeArgs? p = none := by
  refine eq_none_of_not_found fun args rest hfound => ?_
  obtain ⟨more, rfl, hread⟩ := found_callTypeArgs?_iff.1 hfound
  obtain ⟨s, rfl, hmore⟩ := h.punct rfl rfl
  obtain ⟨-, hlist⟩ := nearTypes_kept.all.2 _ _ _ hread
  obtain ⟨args', r, hread', hr, -⟩ := hlist k s hmore
  obtain ⟨r, rfl, -⟩ := hr.openParen
  exact not_found_none hs (found_callTypeArgs?_iff.2 ⟨s, rfl, hread'⟩)

theorem castMayPrecede_of_sameHead {t t' : TypeExpr} (ht : isSurelyType t = isSurelyType t')
    {s p : List Token} (h : SameHead s p) (hp : castMayPrecede t' p = true) :
    castMayPrecede t s = true := by
  rcases h with hhead | ⟨-, hclose⟩ | hclose
  · cases p with
    | nil => cases hp
    | cons tok p =>
        obtain ⟨s, rfl⟩ := List.head?_eq_some_iff.1 hhead
        cases tok with
        | punct q =>
            cases q with
            | minus | plus => exact ht.trans hp
            | openParen | bang | tilde => rfl
            | _ => cases hp
        | _ => rfl
  · obtain ⟨p, rfl⟩ := List.head?_eq_some_iff.1 hclose
    cases hp
  · obtain ⟨p, rfl⟩ := List.head?_eq_some_iff.1 hclose
    cases hp

theorem castType?_eq_none_of_near {s p : List Token} (h : Near false s p)
    (hs : castType? s = none) : castType? p = none := by
  refine eq_none_of_not_found fun t' rest hfound => ?_
  obtain ⟨hread, hcast⟩ := found_castType?_iff.1 hfound
  obtain ⟨t, r, hread', hr, ht⟩ := nearTypes_kept.all.1 _ _ _ hread false s h ⟨_, _, rfl, rfl⟩
  obtain ⟨r, rfl, hhead⟩ := hr.closeParen
  exact not_found_none hs
    (found_castType?_iff.2 ⟨hread', castMayPrecede_of_sameHead ht hhead hcast⟩)

theorem SameHead.eq {s p : List Token} (h : SameHead s p) {t : Token} (hp : p.head? = some t)
    (hbrace : t ≠ .punct .closeBrace) (hparen : t ≠ .punct .closeParen) : s.head? = some t := by
  rcases h with h | ⟨-, h⟩ | h
  · rw [h, hp]
  · rw [hp] at h
    cases h
    exact absurd rfl hbrace
  · rw [hp] at h
    cases h
    exact absurd rfl hparen

/-- An arrow or a sign `=` in what is printed stands in the source as well. -/
theorem Near.head_of_dead {k : Bool} {s p : List Token} {q : Punct} (h : Near k s (.punct q :: p))
    (hq : q = .arrow ∨ q = .assign) : s.head? = some (.punct q) := by
  cases h with
  | dead _ hhead =>
      rcases hhead with h | h | h
      · exact h
      · rcases hq with rfl | rfl <;> cases h
      · rcases hq with rfl | rfl <;> cases h
  | same ht _ => rcases hq with rfl | rfl <;> cases ht
  | opened | closed | shut | wrapped | joined => rcases hq with hq | hq <;> cases hq
  | twice _ hmark _ => rcases hq with rfl | rfl <;> cases hmark

theorem lambdaParams_of_near {s p : List Token} (h : Near false s p) {done : List String}
    {current : Option String} (hp : (lambdaParams done current p).isSome) :
    (lambdaParams done current s).isSome := by
  fun_induction lambdaParams done current p generalizing s with
  | case1 done current name rest ih =>
      rcases h.ident with ⟨s, rfl, hrest⟩ | ⟨-, harrow⟩
      · rw [lambdaParams]
        exact ih hrest hp
      · obtain ⟨rest, rfl⟩ := List.head?_eq_some_iff.1 harrow
        cases hp
  | case2 done rest name ih =>
      obtain ⟨s, rfl, hrest⟩ := h.punct rfl rfl
      exact ih hrest hp
  | case4 | case5 =>
      obtain ⟨s, rfl, hhead⟩ := h.closeParen
      obtain ⟨s, rfl⟩ := List.head?_eq_some_iff.1 (hhead.eq rfl (by decide) (by decide))
      rfl
  | case3 | case6 | case7 => cases hp

theorem lambdaHeader_eq_none_of_near {k : Bool} {s p : List Token} (h : Near k s p)
    (hs : lambdaHeader s = none) : lambdaHeader p = none := by
  fun_cases lambdaHeader p with
  | case1 name rest =>
      rcases h.ident with ⟨s, rfl, hrest⟩ | ⟨hsome, -⟩
      · obtain ⟨s, rfl⟩ := List.head?_eq_some_iff.1 (hrest.head_of_dead (.inl rfl))
        cases hs
      · rw [hs] at hsome
        cases hsome
  | case2 rest =>
      obtain ⟨s, rfl, hheader⟩ := h.openParen
      rw [hs] at hheader
      exact Option.not_isSome_iff_eq_none.1 fun hsome => absurd (hheader hsome) (by decide)
  | case3 => rfl

theorem Near.assign {k : Bool} {s p : List Token} {x : String}
    (h : Near k s (.ident x :: .punct .assign :: p)) :
    ∃ s', s = .ident x :: .punct .assign :: s' := by
  rcases h.ident with ⟨s, rfl, hrest⟩ | ⟨-, harrow⟩
  · obtain ⟨s, rfl⟩ := List.head?_eq_some_iff.1 (hrest.head_of_dead (.inr rfl))
    exact ⟨s, rfl⟩
  · cases harrow

open TypeExpr Text

theorem near_pointed {k : Bool} {s p : List Token} (h : Near k s p) (names : List String) :
    Near k (pointed names ++ s) (pointed names ++ p) := by
  induction names with
  | nil => exact h
  | cons n names ih => exact .same rfl (.same rfl ih)

theorem near_typeMarks {k : Bool} {t : TypeExpr} {ts p : List Token}
    (h : Near k (typeMarks t ts).2 p) :
    (t.isNullable = false → ∃ w, (typeMarks t ts).1.tokens = t.tokens ++ w ∧ Near k ts (w ++ p)) ∧
    ∀ u, t = .nullable u → ∃ q w, isQuestion q = true ∧
      (typeMarks t ts).1.tokens = u.tokens ++ .punct q :: w ∧
      Near k (.punct .question :: ts) (.punct q :: (w ++ p)) := by
  fun_induction typeMarks t ts with
  | case1 t rest ih =>
      constructor
      · intro ht
        obtain ⟨q, w, -, hw, hnear⟩ := (ih h).2 t (asNullable_eq ht)
        exact ⟨_, hw, hnear⟩
      · rintro u rfl
        obtain ⟨q, w, hq, hw, hnear⟩ := (ih h).2 u rfl
        exact ⟨q, w, hq, hw, .twice rfl hq hnear⟩
  | case2 t rest ih =>
      obtain ⟨w, hw, hnear⟩ := (ih h).1 rfl
      constructor
      · intro ht
        rw [asNullable_eq ht, tokens, List.append_assoc] at hw
        rw [asNullable_eq ht]
        exact ⟨_, hw, .same rfl (.same rfl hnear)⟩
      · rintro u rfl
        rw [asNullable, tokens, List.append_assoc] at hw
        exact ⟨_, _, rfl, hw, .twice rfl rfl (.same rfl (.same rfl hnear))⟩
  | case3 t rest ih =>
      obtain ⟨w, hw, hnear⟩ := (ih h).1 rfl
      constructor
      · intro ht
        rw [tokens_array ht, List.append_assoc] at hw
        exact ⟨_, hw, .same rfl (.same rfl hnear)⟩
      · rintro u rfl
        rw [tokens, List.append_assoc] at hw
        exact ⟨_, _, rfl, hw, .joined hnear⟩
  | case4 t ts =>
      constructor
      · exact fun _ => ⟨[], (List.append_nil _).symm, h⟩
      · rintro u rfl
        exact ⟨.question, [], rfl, by rw [tokens], .same rfl h⟩

def AllValid (ts : List Token) : Prop := ∀ t ∈ ts, t.Valid

theorem AllValid.tail {t : Token} {ts : List Token} (h : AllValid (t :: ts)) : AllValid ts :=
  fun u hu => h u (List.mem_cons_of_mem t hu)

theorem readable_typeMarks {t : TypeExpr} {ts : List Token} (ht : t.Readable) :
    (typeMarks t ts).1.Readable := by
  have hnull : ∀ {t : TypeExpr}, t.Readable → t.asNullable.Readable := by
    intro t ht
    cases ht with
    | nullable ht hn => exact .nullable ht hn
    | named hn ha => exact .nullable (.named hn ha) rfl
    | array ht => exact .nullable (.array ht) rfl
  fun_induction typeMarks t ts with
  | case1 t rest ih => exact ih (hnull ht)
  | case2 t rest ih => exact ih (.array (hnull ht))
  | case3 t rest ih => exact ih (.array ht)
  | case4 => exact ht

theorem AllValid.typeMarks {t : TypeExpr} {ts : List Token} (h : AllValid ts) :
    AllValid (typeMarks t ts).2 := by
  fun_induction Grammar.typeMarks t ts with
  | case1 t rest ih => exact ih h.tail
  | case2 t rest ih | case3 t rest ih => exact ih h.tail.tail
  | case4 => exact h

def printedTypes : TypeRelation where
  type ts t rest := AllValid ts → t.Readable ∧ AllValid rest ∧
    ∀ k p, Near k rest p → Near k ts (t.tokens ++ p)
  list ts us rest := AllValid ts → (∀ u ∈ us, u.Readable) ∧ AllValid rest ∧ us ≠ [] ∧
    ∀ k p, Near k rest p → Near k ts (listTokens us ++ p)

/-- A dotted name of a source, its tokens and what stands behind them. -/
theorem exists_dottedName {first : String} {ts : List Token} (h : AllValid (.ident first :: ts)) :
    ∃ names, (dotted first ts).1 = dottedName first names ∧
      (∀ n ∈ first :: names, IsName n) ∧ AllValid (dotted first ts).2 ∧
      ∀ k p, Near k (dotted first ts).2 p → Near k (.ident first :: ts)
        (nameTokens (dotted first ts).1 ++ p) := by
  obtain ⟨names, hname, hts⟩ := dotted_split first ts
  have hnames : ∀ n ∈ first :: names, IsName n := by
    refine List.forall_mem_cons.2 ⟨h _ List.mem_cons_self, fun n hn => h (.ident n) ?_⟩
    rw [hts]
    refine List.mem_cons_of_mem _ (List.mem_append_left _ (List.mem_flatMap.2 ⟨n, hn, ?_⟩))
    exact List.mem_cons_of_mem _ List.mem_cons_self
  refine ⟨names, hname, hnames, fun t ht => h t ?_, fun k p hp => ?_⟩
  · rw [hts]
    exact List.mem_cons_of_mem _ (List.mem_append_right _ ht)
  · rw [hname, nameTokens_dottedName hnames, List.cons_append]
    refine .same rfl ?_
    conv => arg 2; rw [hts]
    exact near_pointed hp names

theorem printedTypes_kept : printedTypes.Kept where
  generic := by
    intro first ts more args rest hd hlist hv
    obtain ⟨names, hname, hnames, hvalid, hnear⟩ := exists_dottedName hv
    rw [hd] at hvalid hnear
    obtain ⟨hargs, hrest, hne, hmore⟩ := hlist hvalid.tail
    refine ⟨readable_typeMarks ?_, hrest.typeMarks, fun k p hp => ?_⟩
    · rw [hname]
      exact .named hnames hargs
    · obtain ⟨w, hw, hmarks⟩ := (near_typeMarks hp).1 rfl
      cases args with
      | nil => exact absurd rfl hne
      | cons a as =>
          rw [hw, tokens, List.append_assoc, List.append_assoc, List.cons_append]
          exact hnear k _ (.same rfl (hmore k _ hmarks))
  simple := by
    intro first ts _ hv
    obtain ⟨names, hname, hnames, hvalid, hnear⟩ := exists_dottedName hv
    refine ⟨readable_typeMarks ?_, hvalid.typeMarks, fun k p hp => ?_⟩
    · rw [hname]
      exact .named hnames (List.forall_mem_nil _)
    · obtain ⟨w, hw, hmarks⟩ := (near_typeMarks hp).1 rfl
      rw [hw, List.append_assoc]
      exact hnear k _ hmarks
  next := by
    intro ts t more us rest ht hlist hv
    obtain ⟨htr, hv', hnear⟩ := ht hv
    obtain ⟨hur, hrest, hne, hmore⟩ := hlist hv'.tail
    refine ⟨List.forall_mem_cons.2 ⟨htr, hur⟩, hrest, (by simp), fun k p hp => ?_⟩
    cases us with
    | nil => exact absurd rfl hne
    | cons u us =>
        rw [listTokens, List.append_assoc, moreTokens]
        exact hnear k _ (.same rfl (hmore k p hp))
  last := by
    intro ts t rest ht hv
    obtain ⟨htr, hv', hnear⟩ := ht hv
    refine ⟨List.forall_mem_singleton.2 htr, hv'.tail, (by simp), fun k p hp => ?_⟩
    rw [listTokens, List.append_assoc, moreTokens]
    exact hnear k _ (.same rfl hp)

end Projection.Grammar
