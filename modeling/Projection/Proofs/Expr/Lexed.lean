import Projection.Proofs.Expr.Tokens
import Projection.Proofs.TypeExpr.Lexed

/-!
The source text of an expression is scanned as its tokens. Each form is a few texts with marks and
blanks between them, so it is enough that no mark runs into the text behind it.
-/

namespace Projection

open Text Lexer Scan

theorem BinaryOp.spelling_punct (op : BinaryOp) : op.punct.spelling = op.spelling := by
  cases op <;> rfl

theorem UnaryOp.spelling_punct (op : UnaryOp) : op.punct.spelling = op.spelling := by
  cases op <;> rfl

def Leads (text : String) : Prop := ∃ c cs, text.toList = c :: cs ∧ c ≠ '=' ∧ c ≠ '{'

theorem Leads.append {text : String} (h : Leads text) (more : String) : Leads (text ++ more) := by
  obtain ⟨c, cs, htext, hc⟩ := h
  exact ⟨c, cs ++ more.toList, by rw [String.toList_append, htext]; rfl, hc⟩

theorem UnaryOp.leads_spelling (op : UnaryOp) : Leads op.spelling := by
  cases op
  all_goals exact ⟨_, [], rfl, by decide⟩

theorem UnaryOp.stands_punct (op : UnaryOp) {text : String} (h : Leads text) (cs : List Char) :
    op.punct.Stands (text.toList ++ cs) := by
  cases op with
  | not =>
      obtain ⟨c, rest, htext, hc⟩ := h
      rw [htext]
      rintro _ ⟨⟩
      exact hc.1
  | neg | plus | bitNot => trivial

/-- The text is scanned as the tokens, in front of any text that breaks it off. -/
structure Scans (text : String) (w : List Token) : Prop where
  leads : Leads text
  lexed : ∀ {cs ts}, Breaks cs → Lexed cs ts → Lexed (text.toList ++ cs) (w ++ ts)

theorem scans_ident {name : String} (h : IsName name) : Scans name [.ident name] := by
  refine ⟨?_, fun hb hts => lexed_ident h hb hts⟩
  obtain ⟨c, cs, hname, hc, -⟩ := h
  refine ⟨c, cs, hname, ?_, ?_⟩
  all_goals
    rintro rfl
    cases hc

theorem isName_this : IsName "this" := ⟨_, _, rfl, by decide, List.all_eq_true.1 (by decide)⟩

theorem isName_new : IsName "new" := ⟨_, _, rfl, by decide, List.all_eq_true.1 (by decide)⟩

theorem isName_default : IsName "default" := ⟨_, _, rfl, by decide, List.all_eq_true.1 (by decide)⟩

theorem scans_number {t : Token} {text : String} (hd : t.describe = text)
    (h : IsNumber t text.toList) (hv : t.Valid) (hs : ∀ {cs}, Breaks cs → t.Stands cs) :
    Scans text [t] := by
  refine ⟨?_, fun hb hts => hd ▸ Lexed.token hv (hs hb) hts⟩
  obtain ⟨⟨c, cs, htext, hc⟩, -⟩ := h
  refine ⟨c, cs, htext, ?_, ?_⟩
  all_goals
    rintro rfl
    rcases hc with hc | ⟨hc, -⟩ <;> cases hc

theorem scans_literal {value : Literal} (h : value.token.Valid) :
    Scans value.print [value.token] := by
  cases value with
  | null => exact scans_ident h
  | bool b => cases b <;> exact scans_ident h
  | int text | float text => exact scans_number rfl h h id
  | string text =>
      have hquote : Leads "\"" := ⟨'"', [], rfl, by decide⟩
      exact ⟨(hquote.append text).append _, fun _ hts => Lexed.token h trivial hts⟩
  | char text =>
      have hquote : Leads "'" := ⟨'\'', [], rfl, by decide⟩
      exact ⟨(hquote.append text).append _, fun _ hts => Lexed.token h trivial hts⟩

theorem scans_interpolated {raw : String} (h : (Token.interpolated raw).Valid) :
    Scans ("$\"" ++ raw ++ "\"") [.interpolated raw] := by
  have hmark : Leads "$\"" := ⟨'$', ['"'], rfl, by decide⟩
  refine ⟨(hmark.append raw).append _, fun {cs ts} _ hts => ?_⟩
  have hall : Lexed ((Token.interpolated raw).describe.toList ++ cs) _ := Lexed.token h trivial hts
  exact hall

theorem leads_openParen : Leads "(" := ⟨'(', [], rfl, by decide⟩

theorem leads_new : Leads "new " := ⟨'n', ['e', 'w', ' '], rfl, by decide⟩

/-- Text in parentheses. -/
theorem lexed_parens {text : String} {w : List Token}
    (h : ∀ {cs ts}, Breaks cs → Lexed cs ts → Lexed (text.toList ++ cs) (w ++ ts))
    {cs : List Char} {ts : List Token} (hts : Lexed cs ts) :
    Lexed ('(' :: (text.toList ++ ')' :: cs))
      (.punct .openParen :: (w ++ .punct .closeParen :: ts)) := by
  have hclose : Lexed (')' :: cs) _ := lexed_punct .closeParen trivial hts
  exact lexed_punct .openParen trivial (h (breaks_cons (by decide) cs) hclose)

theorem Scans.wrap {text : String} {w : List Token} (h : Scans text w) (needed : Bool) :
    Scans (Expr.wrapIf needed text) (wrapTokens needed w) := by
  cases needed with
  | false => exact h
  | true =>
      refine ⟨(leads_openParen.append text).append _, fun {cs ts} _ hts => ?_⟩
      simpa [Expr.wrapIf, wrapTokens, String.toList_append] using lexed_parens h.lexed hts

/-- Texts with commas between them. -/
theorem lexed_join {items : List (String × List Token)} (h : ∀ i ∈ items, Scans i.1 i.2)
    {cs : List Char} {ts : List Token} (hb : Breaks cs) (hts : Lexed cs ts) :
    Lexed ((join ", " (items.map Prod.fst)).toList ++ cs)
      (commaList (items.map Prod.snd) ++ ts) := by
  induction items with
  | nil => exact hts
  | cons i items ih =>
      have hi := h i List.mem_cons_self
      cases items with
      | nil => simpa [commaList, commaTail] using hi.lexed hb hts
      | cons j items =>
          have hmore := ih fun k hk => h k (List.mem_cons_of_mem i hk)
          have hcomma : Lexed (',' :: ' ' :: _) _ := lexed_punct .comma trivial hmore.blank
          have hfirst := hi.lexed (breaks_cons (by decide) _) hcomma
          rw [List.map_cons, List.map_cons, join_cons_cons]
          simpa [commaList, commaTail, String.toList_append] using hfirst

namespace Expr

theorem lexed_printAll {es : List Expr} (h : ∀ e ∈ es, Scans e.source e.tokens)
    {cs : List Char} {ts : List Token} (hb : Breaks cs) (hts : Lexed cs ts) :
    Lexed ((join ", " (printAll StructuralId.placeholder es)).toList ++ cs)
      (commaList (es.map tokens) ++ ts) := by
  have hitems : ∀ i ∈ es.map fun e => (e.source, e.tokens), Scans i.1 i.2 := by
    intro i hi
    obtain ⟨e, he, rfl⟩ := List.mem_map.1 hi
    exact h e he
  have hjoin := lexed_join hitems hb hts
  rw [List.map_map, List.map_map] at hjoin
  rw [printAll_eq_map]
  exact hjoin

theorem scans_params {ps : List String} (h : ∀ p ∈ ps, IsName p) :
    Scans (printParams ps) (paramTokens ps) := by
  by_cases hps : ∃ p, ps = [p]
  · obtain ⟨p, rfl⟩ := hps
    exact scans_ident (h p List.mem_cons_self)
  · have hitems : ∀ i ∈ ps.map fun p => (p, [Token.ident p]), Scans i.1 i.2 := by
      intro i hi
      obtain ⟨p, hp, rfl⟩ := List.mem_map.1 hi
      exact scans_ident (h p hp)
    rw [printParams, paramTokens]
    · refine ⟨(leads_openParen.append _).append _, fun {cs ts} _ hts => ?_⟩
      have hparens := lexed_parens (fun hb hts => lexed_join hitems hb hts) hts
      simpa [String.toList_append, List.map_map, Function.comp_def] using hparens
    · exact fun p hp => hps ⟨p, hp⟩
    · exact fun p hp => hps ⟨p, hp⟩

theorem lexed_typeArgs {us : List TypeExpr} (h : ∀ u ∈ us, u.Written) {cs : List Char}
    {ts : List Token} (hts : Lexed ('(' :: cs) ts) :
    Breaks ((printTypeArgs StructuralId.placeholder us).toList ++ '(' :: cs) ∧
      Lexed ((printTypeArgs StructuralId.placeholder us).toList ++ '(' :: cs)
        (typeArgTokens us ++ ts) := by
  cases us with
  | nil => exact ⟨breaks_cons (by decide) cs, hts⟩
  | cons u us =>
      have hangles := TypeExpr.lexed_angles h (by rintro _ ⟨⟩; decide) hts
      have htext : (printTypeArgs StructuralId.placeholder (u :: us)).toList =
          '<' :: ((join ", " ((u :: us).map TypeExpr.source)).toList ++ ['>']) := by
        change ("<" ++ join ", " ((u :: us).map TypeExpr.source) ++ ">").toList = _
        simp [String.toList_append]
      rw [htext]
      refine ⟨breaks_cons (by decide) _, ?_⟩
      simpa [typeArgTokens] using hangles

def valueText (m : Initializer) : String :=
  match m.name with
  | none => m.value.source
  | some n => n ++ " = " ++ m.value.source

theorem printInitializers_eq_map (ms : List Initializer) :
    printInitializers StructuralId.placeholder ms = ms.map valueText := by
  induction ms with
  | nil => rfl
  | cons m ms ih =>
      obtain ⟨name, e⟩ := m
      cases name with
      | none => exact congrArg (List.cons _) ih
      | some n => exact congrArg (List.cons _) ih

theorem scans_valueText {m : Initializer} (hname : ∀ n ∈ m.name, IsName n)
    (hvalue : Scans m.value.source m.value.tokens) :
    Scans (valueText m) (valueTokens m.name m.value.tokens) := by
  obtain ⟨name, e⟩ := m
  cases name with
  | none => exact hvalue
  | some n =>
      have hn := scans_ident (hname n rfl)
      refine ⟨(hn.leads.append _).append _, fun {cs ts} hb hts => ?_⟩
      have hassign : Lexed ('=' :: ' ' :: _) _ :=
        lexed_punct .assign (by rintro _ ⟨⟩; decide) (hvalue.lexed hb hts).blank
      have hfirst := hn.lexed (breaks_cons (by decide) _) hassign.blank
      simpa [valueText, valueTokens, String.toList_append] using hfirst

theorem lexed_members {ms : List Initializer}
    (hnames : ∀ t ∈ ms.filterMap fun m => m.name.map Token.ident, t.Valid)
    (hvalues : ∀ e ∈ ms.map (·.value), Scans e.source e.tokens) {cs : List Char}
    {ts : List Token} (hts : Lexed cs ts) :
    Lexed ((bracketMembers (printInitializers StructuralId.placeholder ms)).toList ++ cs)
      (.punct .openBrace :: (commaList (ms.map fun m => valueTokens m.name m.value.tokens) ++
        .punct .closeBrace :: ts)) := by
  have hclose : Lexed ('}' :: cs) _ := lexed_punct .closeBrace trivial hts
  have hitems : ∀ i ∈ ms.map fun m => (valueText m, valueTokens m.name m.value.tokens),
      Scans i.1 i.2 := by
    intro i hi
    obtain ⟨m, hm, rfl⟩ := List.mem_map.1 hi
    refine scans_valueText (fun n hn => ?_) (hvalues m.value (List.mem_map_of_mem hm))
    exact hnames (.ident n) (List.mem_filterMap.2 ⟨m, hm, by rw [Option.mem_def.1 hn]; rfl⟩)
  rw [printInitializers_eq_map]
  cases ms with
  | nil => exact lexed_punct .openBrace trivial hclose.blank
  | cons m ms =>
      have hjoin := lexed_join hitems (breaks_cons (by decide) _) hclose.blank
      have hopen : Lexed ('{' :: ' ' :: _) _ := lexed_punct .openBrace trivial hjoin.blank
      simpa [bracketMembers, String.toList_append, Function.comp_def] using hopen

theorem lexed_new {cs : List Char} {ts : List Token} (h : Lexed cs ts) :
    Lexed ("new ".toList ++ cs) (.ident "new" :: ts) :=
  lexed_ident isName_new (breaks_cons (by decide) cs) h.blank

theorem scans_creation {t : TypeExpr} {as : List Expr} {i : Option (List Initializer)}
    (ht : t.Written) (hown : ∀ u ∈ (creation t as i).ownTokens, u.Valid)
    (ih : ∀ e ∈ (creation t as i).children, Scans e.source e.tokens) :
    Scans (creation t as i).source (creation t as i).tokens := by
  cases i with
  | none =>
      refine ⟨(((leads_new.append _).append _).append _).append _, fun {cs ts} _ hts => ?_⟩
      have has : ∀ e ∈ as, Scans e.source e.tokens := ih
      have hargs := lexed_parens (fun hb hts => lexed_printAll has hb hts) hts
      have hall := lexed_new (ht.lexed (t.ends_cons (by decide) (by decide) _) hargs)
      rw [tokens]
      change Lexed (("new " ++ t.source ++ "(" ++ join ", " (printAll _ as) ++ ")").toList ++ cs) _
      simpa [String.toList_append] using hall
  | some ms =>
      have has : ∀ e ∈ as, Scans e.source e.tokens := fun e he => ih e (List.mem_append_left _ he)
      have hms : ∀ e ∈ ms.map (·.value), Scans e.source e.tokens := fun e he =>
        ih e (List.mem_append_right _ he)
      cases as with
      | nil =>
          refine ⟨((leads_new.append _).append _).append _, fun {cs ts} _ hts => ?_⟩
          have hmembers := (lexed_members hown hms hts).blank
          have hall := lexed_new (ht.lexed (t.ends_cons (by decide) (by decide) _) hmembers)
          rw [tokens]
          change Lexed (("new " ++ t.source ++ " " ++
            bracketMembers (printInitializers _ ms)).toList ++ cs) _
          simpa [String.toList_append] using hall
      | cons a as =>
          refine ⟨((((leads_new.append _).append _).append _).append _).append _,
            fun {cs ts} _ hts => ?_⟩
          have hmembers := (lexed_members hown hms hts).blank
          have hargs := lexed_parens (fun hb hts => lexed_printAll has hb hts) hmembers
          have hall := lexed_new (ht.lexed (t.ends_cons (by decide) (by decide) _) hargs)
          rw [tokens]
          change Lexed (("new " ++ t.source ++ "(" ++ join ", " (printAll _ (a :: as)) ++ ") " ++
            bracketMembers (printInitializers _ ms)).toList ++ cs) _
          simpa [String.toList_append] using hall

theorem head?_escapeNote (note : List Char) : (escapeNote note).head? = note.head? := by
  fun_cases escapeNote note <;> rfl

/-- A note does not close the comment that it stands in. -/
theorem blockComment_escapeNote (note cs : List Char) :
    (blockComment (escapeNote note ++ ' ' :: cs)).2 = (blockComment cs).2 := by
  fun_induction escapeNote note with
  | case1 rest ih => simpa [blockComment] using ih
  | case2 c rest hend ih =>
      rw [List.cons_append, blockComment]
      · exact ih
      · rintro more rfl hmore
        have hhead := head?_escapeNote rest
        cases hrest : escapeNote rest with
        | nil =>
            rw [hrest] at hmore
            cases hmore
        | cons d ds =>
            rw [hrest] at hmore hhead
            cases hmore
            obtain ⟨tail, rfl⟩ := List.head?_eq_some_iff.1 hhead.symm
            exact hend tail rfl rfl
  | case3 =>
      rw [List.nil_append, blockComment]
      nofun

theorem scans_marked {e : Expr} (note : String) (h : Scans e.source e.tokens) :
    Scans (marked note e).source (marked note e).tokens := by
  refine ⟨?_, fun {cs ts} hb hts => ?_⟩
  · have hslash : Leads "/* shapegen: conversion failed: " := ⟨'/', _, rfl, by decide⟩
    exact ((hslash.append _).append _).append _
  · have hclosed : (blockComment (" shapegen: conversion failed: ".toList ++
        (escapeNote note.toList ++ ' ' :: '*' :: '/' :: ' ' :: (e.source.toList ++ cs)))).2 =
        ' ' :: (e.source.toList ++ cs) :=
      blockComment_escapeNote note.toList ('*' :: '/' :: ' ' :: (e.source.toList ++ cs))
    have hall := Lexed.comment (hclosed ▸ (h.lexed hb hts).blank)
    rw [tokens]
    change Lexed (("/* shapegen: conversion failed: " ++ String.ofList (escapeNote note.toList) ++
      " */ " ++ e.source).toList ++ cs) _
    simpa [String.toList_append] using hall

/-- The node is printed as tokens: its names, literals and types are, and it is one token itself if
it is an interpolated string. -/
structure Scannable (n : Expr) : Prop where
  own : ∀ t ∈ n.ownTokens, t.Valid
  types : ∀ t ∈ n.types, t.Written
  strings : ∀ ps, n = interpolated ps →
    (Token.interpolated (printParts StructuralId.placeholder ps)).Valid

theorem scans_of_scannable (e : Expr) (h : e.Every Scannable) : Scans e.source e.tokens := by
  induction e using childInduction with
  | h e ih =>
      replace ih := fun c hc => ih c hc (h.child hc)
      obtain ⟨hown, htypes, hstrings⟩ := h.self
      cases e with
      | ident name =>
          rw [tokens]
          exact scans_ident (hown _ List.mem_cons_self)
      | this =>
          rw [tokens]
          exact scans_ident isName_this
      | literal value =>
          rw [tokens]
          exact scans_literal (hown _ List.mem_cons_self)
      | member t n o =>
          have ht := (ih t (by simp [children])).wrap (t.power < primaryPower)
          have hn : IsName n := hown _ List.mem_cons_self
          refine ⟨(ht.leads.append _).append _, fun {cs ts} hb hts => ?_⟩
          have hname := lexed_ident hn hb hts
          have hdigit := startsWithDigit_of_isName hn cs
          rw [tokens]
          cases o with
          | false =>
              have hdot : Lexed ('.' :: _) _ := lexed_punct .dot hdigit hname
              have hall := ht.lexed (breaks_point hdigit) hdot
              change Lexed ((wrapIf _ t.source ++ "." ++ n).toList ++ cs) _
              simpa [String.toList_append] using hall
          | true =>
              have hdot : Lexed ('?' :: '.' :: _) _ := lexed_punct .questionDot hdigit hname
              have hall := ht.lexed (breaks_cons (by decide) _) hdot
              change Lexed ((wrapIf _ t.source ++ "?." ++ n).toList ++ cs) _
              simpa [String.toList_append] using hall
      | index t as o =>
          have ht := (ih t (by simp [children])).wrap (t.power < primaryPower)
          refine ⟨((ht.leads.append _).append _).append _, fun {cs ts} _ hts => ?_⟩
          have hclose : Lexed (']' :: cs) _ := lexed_punct .closeBracket trivial hts
          have has := lexed_printAll (fun e he => ih e (List.mem_cons_of_mem t he))
            (breaks_cons (by decide) cs) hclose
          rw [tokens]
          cases o with
          | false =>
              have hopen : Lexed ('[' :: _) _ := lexed_punct .openBracket trivial has
              have hall := ht.lexed (breaks_cons (by decide) _) hopen
              change Lexed ((wrapIf _ t.source ++ "[" ++ join ", " (printAll _ as) ++ "]").toList ++
                cs) _
              simpa [String.toList_append] using hall
          | true =>
              have hopen : Lexed ('?' :: '[' :: _) _ := lexed_punct .questionBracket trivial has
              have hall := ht.lexed (breaks_cons (by decide) _) hopen
              change Lexed ((wrapIf _ t.source ++ "?[" ++ join ", " (printAll _ as) ++
                "]").toList ++ cs) _
              simpa [String.toList_append] using hall
      | invoke t us as =>
          have ht := (ih t (by simp [children])).wrap (t.power < primaryPower)
          refine ⟨(((ht.leads.append _).append _).append _).append _, fun {cs ts} _ hts => ?_⟩
          have has := lexed_parens (fun hb hts =>
            lexed_printAll (fun e he => ih e (List.mem_cons_of_mem t he)) hb hts) hts
          have hus : ∀ u ∈ us, u.Written := htypes
          obtain ⟨hbreaks, hargs⟩ := lexed_typeArgs hus has
          have hall := ht.lexed hbreaks hargs
          rw [tokens]
          change Lexed ((wrapIf _ t.source ++ printTypeArgs _ us ++ "(" ++
            join ", " (printAll _ as) ++ ")").toList ++ cs) _
          simpa [String.toList_append] using hall
      | lambda ps b =>
          have hps : ∀ p ∈ ps, IsName p := fun p hp => hown (.ident p) (List.mem_map_of_mem hp)
          have hparams := scans_params hps
          refine ⟨(hparams.leads.append _).append _, fun {cs ts} hb hts => ?_⟩
          have hbody := (ih b (by simp [children])).lexed hb hts
          have harrow : Lexed ('=' :: '>' :: ' ' :: _) _ :=
            lexed_punct .arrow trivial hbody.blank
          have hall := hparams.lexed (breaks_cons (by decide) _) harrow.blank
          rw [tokens]
          change Lexed ((printParams ps ++ " => " ++ b.source).toList ++ cs) _
          simpa [String.toList_append] using hall
      | anonymous ms =>
          refine ⟨leads_new.append _, fun {cs ts} _ hts => ?_⟩
          have hall := lexed_new (lexed_members hown ih hts)
          rw [tokens]
          change Lexed (("new " ++ bracketMembers (printInitializers _ ms)).toList ++ cs) _
          simpa [String.toList_append] using hall
      | creation t as i =>
          exact scans_creation (htypes t List.mem_cons_self) hown ih
      | conditional c t f =>
          have hc := (ih c (by simp [children])).wrap (c.power < 1)
          have ht := (ih t (by simp [children])).wrap t.isLambda
          have hf := (ih f (by simp [children])).wrap f.isLambda
          refine ⟨(((hc.leads.append _).append _).append _).append _, fun {cs ts} hb hts => ?_⟩
          have hcolon : Lexed (':' :: ' ' :: _) _ :=
            lexed_punct .colon trivial (hf.lexed hb hts).blank
          have hquestion : Lexed ('?' :: ' ' :: _) _ :=
            lexed_punct .question (Punct.stands_blank _ _)
              (ht.lexed (breaks_cons (by decide) _) hcolon.blank).blank
          have hall := hc.lexed (breaks_cons (by decide) _) hquestion.blank
          rw [tokens]
          change Lexed ((wrapIf _ c.source ++ " ? " ++ wrapIf _ t.source ++ " : " ++
            wrapIf _ f.source).toList ++ cs) _
          simpa [String.toList_append] using hall
      | binary op l r =>
          have hl := (ih l (by simp [children])).wrap
            (l.power < if op.groupsRight then op.precedence + 1 else op.precedence)
          have hr := (ih r (by simp [children])).wrap
            (r.power < if op.groupsRight then op.precedence else op.precedence + 1)
          refine ⟨(((hl.leads.append _).append _).append _).append _, fun {cs ts} hb hts => ?_⟩
          have hop := lexed_punct op.punct (Punct.stands_blank _ _) (hr.lexed hb hts).blank
          have hall := hl.lexed (breaks_cons (by decide) _) hop.blank
          rw [tokens]
          change Lexed ((wrapIf _ l.source ++ " " ++ op.spelling ++ " " ++
            wrapIf _ r.source).toList ++ cs) _
          rw [BinaryOp.spelling_punct] at hall
          simpa [String.toList_append] using hall
      | unary op e =>
          have he := (ih e (by simp [children])).wrap (repeatsSign op e || e.power < unaryPower)
          refine ⟨op.leads_spelling.append _, fun {cs ts} hb hts => ?_⟩
          have hall := lexed_punct op.punct (op.stands_punct he.leads cs) (he.lexed hb hts)
          rw [tokens]
          change Lexed ((op.spelling ++ wrapIf _ e.source).toList ++ cs) _
          rw [UnaryOp.spelling_punct] at hall
          simpa [String.toList_append] using hall
      | cast t e =>
          have ht := htypes t List.mem_cons_self
          have he := (ih e (by simp [children])).wrap (e.power < unaryPower)
          refine ⟨((leads_openParen.append _).append _).append _, fun {cs ts} hb hts => ?_⟩
          have hclose : Lexed (')' :: _) _ := lexed_punct .closeParen trivial (he.lexed hb hts)
          have htype := ht.lexed (t.ends_cons (by decide) (by decide) _) hclose
          have hall : Lexed ('(' :: _) _ := lexed_punct .openParen trivial htype
          rw [tokens]
          change Lexed (("(" ++ t.source ++ ")" ++ wrapIf _ e.source).toList ++ cs) _
          simpa [String.toList_append] using hall
      | defaultValue t =>
          cases t with
          | none =>
              rw [tokens]
              exact scans_ident isName_default
          | some t =>
              have ht := htypes t List.mem_cons_self
              have hword := scans_ident isName_default
              refine ⟨((hword.leads.append "(").append t.source).append ")",
                fun {cs ts} _ hts => ?_⟩
              have hclose : Lexed (')' :: cs) _ := lexed_punct .closeParen trivial hts
              have htype := ht.lexed (t.ends_cons (by decide) (by decide) cs) hclose
              have hopen : Lexed ('(' :: _) _ := lexed_punct .openParen trivial htype
              have hall := hword.lexed (breaks_cons (by decide) _) hopen
              rw [tokens]
              change Lexed (("default(" ++ t.source ++ ")").toList ++ cs) _
              simpa [String.toList_append] using hall
      | paren e =>
          refine ⟨(leads_openParen.append _).append _, fun {cs ts} _ hts => ?_⟩
          have hall := lexed_parens (ih e (by simp [children])).lexed hts
          rw [tokens]
          change Lexed (("(" ++ e.source ++ ")").toList ++ cs) _
          simpa [String.toList_append] using hall
      | interpolated ps =>
          rw [tokens]
          exact scans_interpolated (hstrings ps rfl)
      | marked note e => exact scans_marked note (ih e (by simp [children]))

theorem scans_of_lexical (e : Expr) (h : e.Every (Spellable .none)) : Scans e.source e.tokens :=
  scans_of_scannable e (h.mono fun _ hn =>
    ⟨hn.own, fun t ht => TypeExpr.written_of_readable (hn.types t ht), by
      rintro ps rfl
      exact hn.plain.1.elim⟩)

end Expr

end Projection
