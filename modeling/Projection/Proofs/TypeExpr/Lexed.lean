import Projection.Expr.Printer
import Projection.Proofs.TypeExpr.Tokens

/-!
The source text of a type is scanned as its tokens.
-/

namespace Projection

open Text Lexer Scan

namespace Lexer

theorem breaks_point {cs : List Char} (h : startsWithDigit cs = false) : Breaks ('.' :: cs) := by
  rintro _ _ ⟨⟩
  exact ⟨by decide, by decide, by decide, fun _ => h⟩

theorem startsWithDigit_of_isName {name : String} (h : IsName name) (cs : List Char) :
    startsWithDigit (name.toList ++ cs) = false := by
  obtain ⟨c, rest, hname, hc, -⟩ := h
  rw [hname]
  change c.isDigit = false
  refine Bool.eq_false_iff.2 fun hd => ?_
  rw [(number_front (.inl hd)).1] at hc
  cases hc

end Lexer

theorem lexed_ident {name : String} (hname : IsName name) {cs : List Char} (hb : Breaks cs)
    {ts : List Token} (h : Lexed cs ts) : Lexed (name.toList ++ cs) (.ident name :: ts) :=
  Lexed.token (t := .ident name) hname hb h

theorem lexed_punct (p : Punct) {cs : List Char} (hp : p.Stands cs) {ts : List Token}
    (h : Lexed cs ts) : Lexed (p.spelling.toList ++ cs) (.punct p :: ts) :=
  Lexed.token (t := .punct p) trivial hp h

theorem lexed_dottedName {first : String} {names : List String}
    (hnames : ∀ n ∈ first :: names, IsName n) {cs : List Char} (hb : Breaks cs) {ts : List Token}
    (h : Lexed cs ts) :
    Lexed ((dottedName first names).toList ++ cs) (nameTokens (dottedName first names) ++ ts) := by
  rw [nameTokens_dottedName hnames, toList_dottedName, List.append_assoc]
  suffices hmore : Breaks ((names.flatMap fun n => '.' :: n.toList) ++ cs) ∧
      Lexed ((names.flatMap fun n => '.' :: n.toList) ++ cs) (pointed names ++ ts) from
    lexed_ident (hnames first List.mem_cons_self) hmore.1 hmore.2
  replace hnames := fun n hn => hnames n (List.mem_cons_of_mem first hn)
  induction names with
  | nil => exact ⟨hb, h⟩
  | cons n names ih =>
      obtain ⟨hbreaks, hlexed⟩ := ih fun m hm => hnames m (List.mem_cons_of_mem n hm)
      have hn := hnames n List.mem_cons_self
      have hdigit := startsWithDigit_of_isName hn
        ((names.flatMap fun n => '.' :: n.toList) ++ cs)
      simp only [List.flatMap_cons, List.cons_append, List.append_assoc]
      refine ⟨breaks_point hdigit, ?_⟩
      exact lexed_punct .dot hdigit (lexed_ident hn hbreaks hlexed)

namespace TypeExpr

/-- Text in front of which the type ends: nothing that carries its last mark on. -/
structure Ends (t : TypeExpr) (cs : List Char) : Prop where
  breaks : Breaks cs
  equal : ∀ c ∈ cs.head?, c ≠ '='
  question : t.isNullable = true → ∀ c ∈ cs.head?, c ≠ '.' ∧ c ≠ '[' ∧ c ≠ '?'

theorem ends_cons (t : TypeExpr) {c : Char} (hname : isNamePart c = false)
    (hc : c ∉ ['+', '-', '.', '=', '[', '?']) (cs : List Char) : t.Ends (c :: cs) := by
  simp only [List.mem_cons, List.not_mem_nil, or_false, not_or] at hc
  refine ⟨breaks_cons ⟨hname, hc.1, hc.2.1, hc.2.2.1⟩ cs, ?_, fun _ => ?_⟩
  · rintro _ ⟨⟩
    exact hc.2.2.2.1
  · rintro _ ⟨⟩
    exact ⟨hc.2.2.1, hc.2.2.2.2.1, hc.2.2.2.2.2⟩

theorem ends_mark {t : TypeExpr} (ht : t.isNullable = false) {c : Char} (hc : c = '?' ∨ c = '[')
    (cs : List Char) : t.Ends (c :: cs) := by
  refine ⟨breaks_cons ?_ cs, ?_, fun h => ?_⟩
  · rcases hc with rfl | rfl <;> decide
  · rintro _ ⟨⟩
    rcases hc with rfl | rfl <;> decide
  · rw [ht] at h
    cases h

structure Written (t : TypeExpr) : Prop where
  front : ∃ c cs, t.source.toList = c :: cs ∧ isNameStart c = true
  lexed : ∀ {cs ts}, t.Ends cs → Lexed cs ts → Lexed (t.source.toList ++ cs) (t.tokens ++ ts)

theorem lexed_listTokens {t : TypeExpr} {us : List TypeExpr} (h : ∀ u ∈ t :: us, u.Written)
    {cs : List Char} (hcs : ∀ c ∈ cs.head?, c ≠ '=') {ts : List Token} (hts : Lexed cs ts) :
    Lexed ((join ", " ((t :: us).map source)).toList ++ '>' :: cs)
      (listTokens (t :: us) ++ ts) := by
  induction us generalizing t with
  | nil =>
      have hclose : Lexed ('>' :: cs) (.punct .greater :: ts) := lexed_punct .greater hcs hts
      have ht := (h t List.mem_cons_self).lexed (ends_cons t (by decide) (by decide) cs) hclose
      simpa [listTokens, moreTokens] using ht
  | cons u us ih =>
      have hmore := ih fun v hv => h v (List.mem_cons_of_mem t hv)
      have hcomma : Lexed (',' :: ' ' :: _) _ := lexed_punct .comma trivial hmore.blank
      have ht := (h t List.mem_cons_self).lexed (ends_cons t (by decide) (by decide) _) hcomma
      rw [List.map_cons, List.map_cons, join_cons_cons]
      simpa [listTokens, moreTokens, String.toList_append] using ht

theorem exists_join_eq {separator text : String} {c : Char} {cs : List Char}
    (h : text.toList = c :: cs) (more : List String) :
    ∃ cs', (join separator (text :: more)).toList = c :: cs' := by
  cases more with
  | nil => exact ⟨cs, h⟩
  | cons next more =>
      rw [join_cons_cons, String.toList_append, String.toList_append, h]
      exact ⟨_, rfl⟩

/-- Types in angle brackets. -/
theorem lexed_angles {t : TypeExpr} {us : List TypeExpr} (h : ∀ u ∈ t :: us, u.Written)
    {cs : List Char} (hcs : ∀ c ∈ cs.head?, c ≠ '=') {ts : List Token} (hts : Lexed cs ts) :
    Lexed ('<' :: ((join ", " ((t :: us).map source)).toList ++ '>' :: cs))
      (.punct .less :: (listTokens (t :: us) ++ ts)) := by
  refine lexed_punct .less ?_ (lexed_listTokens h hcs hts)
  obtain ⟨d, ds, hd, hstart⟩ := (h t List.mem_cons_self).front
  obtain ⟨more, hjoin⟩ := exists_join_eq hd (us.map source)
  rw [List.map_cons, hjoin]
  rintro _ ⟨⟩ rfl
  cases hstart

theorem written_named {first : String} {names : List String} {args : List TypeExpr}
    (hn : ∀ n ∈ first :: names, IsName n) (ha : ∀ a ∈ args, a.Written) :
    (named (dottedName first names) args).Written := by
  obtain ⟨c, rest, hfirst, hc, -⟩ := hn first List.mem_cons_self
  have hfront : (dottedName first names).toList =
      c :: (rest ++ names.flatMap fun n => '.' :: n.toList) := by
    rw [toList_dottedName, hfirst]
    rfl
  cases args with
  | nil => exact ⟨⟨c, _, hfront, hc⟩, fun hcs hts => lexed_dottedName hn hcs.breaks hts⟩
  | cons a as =>
      have hsource : (named (dottedName first names) (a :: as)).source.toList =
          (dottedName first names).toList ++ '<' :: ((join ", " ((a :: as).map source)).toList ++
            ['>']) := by
        change (dottedName first names ++ "<" ++ join ", " (print _ a :: printAll _ as) ++
          ">").toList = _
        rw [printAll_eq_map]
        simp [String.toList_append]
        rfl
      refine ⟨⟨c, _, by rw [hsource, hfront]; rfl, hc⟩, fun {cs ts} hcs hts => ?_⟩
      have hangles := lexed_angles ha hcs.equal hts
      have hname := lexed_dottedName hn (breaks_cons (by decide) _) hangles
      rw [hsource, tokens]
      simpa [listTokens] using hname

theorem written_of_readable {t : TypeExpr} (h : t.Readable) : t.Written := by
  suffices hboth : t.Written ∧ ∀ u, t = nullable u → u.Written from hboth.1
  induction h with
  | named hn _ ih =>
      refine ⟨written_named hn fun a ha => (ih a ha).1, ?_⟩
      rintro u ⟨⟩
  | @array t h ih =>
      have hsource : t.array.source.toList = t.source.toList ++ ['[', ']'] :=
        String.toList_append
      refine ⟨⟨?_, fun {cs ts} _ hts => ?_⟩, by rintro u ⟨⟩⟩
      · obtain ⟨c, rest, ht, hc⟩ := ih.1.front
        exact ⟨c, _, by rw [hsource, ht]; rfl, hc⟩
      · have hclose : Lexed (']' :: cs) _ := lexed_punct .closeBracket trivial hts
        rw [hsource, List.append_assoc]
        cases h with
        | @nullable u _ hn =>
            have hopen : Lexed ('?' :: '[' :: ']' :: cs) _ :=
              lexed_punct .questionBracket trivial hclose
            have hu := (ih.2 u rfl).lexed (ends_mark hn (.inl rfl) _) hopen
            have hquestion : u.nullable.source.toList = u.source.toList ++ ['?'] :=
              String.toList_append
            rw [tokens, hquestion]
            simpa using hu
        | named | array =>
            have hopen : Lexed ('[' :: ']' :: cs) _ := lexed_punct .openBracket trivial hclose
            have ht := ih.1.lexed (ends_mark rfl (.inr rfl) _) hopen
            rw [tokens_array rfl]
            simpa using ht
  | @nullable t _ hn ih =>
      have hsource : t.nullable.source.toList = t.source.toList ++ ['?'] := String.toList_append
      refine ⟨⟨?_, fun {cs ts} hcs hts => ?_⟩, fun u hu => ?_⟩
      · obtain ⟨c, rest, ht, hc⟩ := ih.1.front
        exact ⟨c, _, by rw [hsource, ht]; rfl, hc⟩
      · have hmark : Lexed ('?' :: cs) _ := lexed_punct .question (hcs.question rfl) hts
        have ht := ih.1.lexed (ends_mark hn (.inl rfl) _) hmark
        rw [hsource, tokens]
        simpa using ht
      · cases hu
        exact ih.1

end TypeExpr

end Projection
