import Projection.Proofs.TypeRef.Declared

/-!
Resolved types and the texts that stand for them. What resolving gives has one form of each type: no
name of a type with a keyword, no mark `?` twice, and no `Nullable` around a type. So nothing about
a resolved type is lost when it is written out, and its display text is that text.
-/

namespace Projection

open Text Scan

namespace TypeExpr

/-- A type that can be spelled is read from its source text. -/
theorem parse_source_of_readable {t : TypeExpr} (h : t.Readable) : parse t.source = .ok t := by
  have hends : t.Ends [] := ⟨Lexer.breaks_nil, by simp, by simp⟩
  obtain ⟨s, hs, hwords⟩ := (written_of_readable h).lexed hends Lexed.nil .start
  rw [List.append_nil] at hs hwords
  have hmarks : Grammar.typeMarks t [] = (t, []) := rfl
  have hread := Grammar.readsBack_of_readable h [] (by simp [Grammar.Closes])
  rw [List.append_nil, hmarks, ← hwords] at hread
  obtain ⟨_, hread⟩ := hread
  have hwhole : Grammar.wholeType s.words = .ok t := by
    simp only [Grammar.wholeType, hread]
    rfl
  rw [parse, ofString, ofChars, hs]
  simp only [hwhole]

end TypeExpr

namespace TypeRef

/-- Types as resolving gives them. A type that has a keyword has no other name, and a nullable type
no other form than its mark; what the model says of a name is the same everywhere. -/
inductive Resolved (m : Model) : TypeRef → Prop where
  | primitive {p : Primitive} {n : Bool} : Resolved m ⟨.primitive p, n⟩
  | named {name : String} {args : List TypeRef} {n : Bool} (dotted : IsDotted name)
      (keyword : args = [] → Primitive.ofName? name = none)
      (mark : lastPiece '.' name = "Nullable" → args.length ≠ 1) :
      (∀ a ∈ args, Resolved m a) → Resolved m ⟨.named name args (namedValueType m name), n⟩
  | array {element : TypeRef} {n : Bool} : Resolved m element → Resolved m ⟨.array element, n⟩

variable {m : Model}

theorem Resolved.withNullable {t : TypeRef} (h : t.Resolved m) (n : Bool) :
    (t.withNullable n).Resolved m := by
  cases h with
  | primitive => exact .primitive
  | named hd hk hm h => exact .named hd hk hm h
  | array h => exact .array h

theorem resolved_ofExpr {e : TypeExpr} (h : e.Readable) : (ofExpr m e).Resolved m := by
  induction h with
  | @named first names args hnames _ ih =>
      have hdotted : IsDotted (dottedName first names) := ⟨first, names, hnames, rfl⟩
      cases args with
      | nil =>
          rw [ofExpr]
          split
          · exact .primitive
          · rename_i hkeyword
            exact .named hdotted (fun _ => hkeyword) (fun _ => by simp) (List.forall_mem_nil _)
      | cons a as =>
          rw [ofExpr]
          split
          · exact (ih a List.mem_cons_self).withNullable true
          · rename_i hmark
            refine .named hdotted (by simp) ?_ ?_
            · intro hname hlength
              exact hmark ⟨hname, by simpa using hlength⟩
            · rw [ofExprs_eq_map, ← List.map_cons, List.forall_mem_map]
              exact ih
  | array _ ih => exact .array ih
  | nullable _ _ ih => exact ih.withNullable true

variable (m) in
/-- The expression is how the type is written: the type is resolved from it, and its text is the
display text of the type. -/
structure Writes (t : TypeRef) (e : TypeExpr) : Prop where
  expr? : t.expr? = some e
  readable : e.Readable
  ofExpr : TypeRef.ofExpr m e = t
  print : ∀ names, e.print names = t.display

/-- A kind that is written without the mark is written with it when it is nullable. -/
theorem Writes.mark {kind : TypeKind} {e : TypeExpr} (h : Writes m ⟨kind, false⟩ e)
    (he : e.isNullable = false) : Writes m ⟨kind, true⟩ (.nullable e) where
  expr? := by
    have hkind : kindExpr? kind = some e := h.expr?
    rw [TypeRef.expr?, hkind, Option.map_some, TypeExpr.asNullable_eq he]
  readable := .nullable h.readable he
  ofExpr := by
    rw [TypeRef.ofExpr, h.ofExpr]
    rfl
  print names := congrArg (· ++ "?") (h.print names)

theorem Writes.exists {kind : TypeKind} {e : TypeExpr} (h : Writes m ⟨kind, false⟩ e)
    (he : e.isNullable = false) (n : Bool) : ∃ e', Writes m ⟨kind, n⟩ e' := by
  cases n with
  | false => exact ⟨e, h⟩
  | true => exact ⟨.nullable e, h.mark he⟩

theorem exists_exprs? {ts : List TypeRef} (h : ∀ t ∈ ts, ∃ e, Writes m t e) :
    ∃ es, exprs? ts = some es ∧ (∀ e ∈ es, e.Readable) ∧ es.map (ofExpr m) = ts ∧
      ∀ names, es.map (TypeExpr.print names) = displayAll ts := by
  induction ts with
  | nil => exact ⟨[], rfl, List.forall_mem_nil _, rfl, fun _ => rfl⟩
  | cons t ts ih =>
      obtain ⟨⟨e, he⟩, hts⟩ := List.forall_mem_cons.1 h
      obtain ⟨es, hes, hreadable, hof, hprint⟩ := ih hts
      refine ⟨e :: es, ?_, List.forall_mem_cons.2 ⟨he.readable, hreadable⟩, ?_, fun names => ?_⟩
      · simp only [exprs?, he.expr?, hes]
      · rw [List.map_cons, he.ofExpr, hof]
      · rw [List.map_cons, he.print, hprint, displayAll]

theorem exists_writes {t : TypeRef} (h : t.Resolved m) : ∃ e, Writes m t e := by
  induction h with
  | @primitive p n =>
      refine Writes.exists (e := .simple p.keyword) ⟨rfl, ?_, ?_, ?_⟩ rfl n
      · exact TypeExpr.readable_simple p.isName_keyword
      · rw [TypeExpr.simple, ofExpr, p.ofName?_keyword]
        rfl
      · exact fun _ => rfl
  | @named name args n hd hkeyword hmark _ ih =>
      obtain ⟨first, names, hnames, rfl⟩ := hd
      obtain ⟨es, hes, hreadable, hof, hprint⟩ := exists_exprs? ih
      refine Writes.exists (e := .named _ es) ⟨?_, .named hnames hreadable, ?_, ?_⟩ rfl n
      · rw [TypeRef.expr?, kindExpr?, hes, Option.map_some]
      · cases es with
        | nil =>
            cases hof
            rw [ofExpr, hkeyword rfl]
            rfl
        | cons e es =>
            subst hof
            rw [ofExpr, if_neg, ofExprs_eq_map]
            · rfl
            · rintro ⟨hname, rfl⟩
              exact hmark hname rfl
      · intro names
        cases es with
        | nil =>
            cases hof
            rfl
        | cons e es =>
            subst hof
            rw [TypeExpr.print, TypeExpr.printAll_eq_map, ← List.map_cons, hprint]
            rfl
  | @array element n _ ih =>
      obtain ⟨e, he⟩ := ih
      refine Writes.exists (e := .array e) ⟨?_, .array he.readable, ?_, ?_⟩ rfl n
      · rw [TypeRef.expr?, kindExpr?, he.expr?, Option.map_some]
      · rw [ofExpr, he.ofExpr]
        rfl
      · exact fun names => congrArg (· ++ "[]") (he.print names)

/-- The text of a resolved type says all that there is to it. -/
theorem parse?_display_of_parse? {text : String} {t : TypeRef} (h : parse? m text = some t) :
    ∃ e, t.expr? = some e ∧ (∀ names, e.print names = t.display) ∧ ofExpr m e = t ∧
      parse? m t.display = some t := by
  obtain ⟨read, hread, rfl⟩ := parse?_eq_some_iff.1 h
  obtain ⟨e, he⟩ := exists_writes (resolved_ofExpr (TypeExpr.readable_of_parse hread))
  refine ⟨e, he.expr?, he.print, he.ofExpr, ?_⟩
  rw [← he.print StructuralId.placeholder]
  exact parse?_eq_some_iff.2 ⟨e, TypeExpr.parse_source_of_readable he.readable, he.ofExpr⟩

theorem parse?_display_of_parse?_nested :
    let m := Model.ofTypes [⟨"Line", some "Shop", .struct, []⟩]
    let line : TypeRef := ⟨.named "Line" [] true, true⟩
    let t : TypeRef := ⟨.array ⟨.named "Shop.Map" [.string, .array line] false, true⟩, false⟩
    parse? m "System.Nullable<Shop.Map<System.String, Line ? [ ]>>[]" = some t ∧
      t.display = "Shop.Map<string, Line?[]>?[]" ∧
      ∃ e, t.expr? = some e ∧ (∀ names, e.print names = t.display) ∧ ofExpr m e = t ∧
        parse? m t.display = some t := by
  intro m line t
  have h : parse? m "System.Nullable<Shop.Map<System.String, Line ? [ ]>>[]" = some t := by
    decide +kernel
  exact ⟨h, by decide, parse?_display_of_parse? h⟩

end TypeRef

end Projection
