import Projection.Proofs.Expr.Bare
import Projection.Proofs.TypeRef.Inferred

/-!
Types that can be read back where they are written. Source text, and a model whose types have names
as in source text, give rise to no others.
-/

namespace Projection

open Text

/-- Names with points between them, as source text has them for types. -/
def Text.IsDotted (name : String) : Prop :=
  ∃ first names, (∀ n ∈ first :: names, IsName n) ∧ name = dottedName first names

theorem Text.IsName.isDotted {name : String} (h : IsName name) : IsDotted name :=
  ⟨name, [], List.forall_mem_singleton.2 h, rfl⟩

namespace TypeExpr

theorem readable_of_parse {source : String} {t : TypeExpr} (h : parse source = .ok t) :
    t.Readable := by
  obtain ⟨s, rest, hs, hread⟩ := exists_words_of_parse h
  exact (Grammar.printedTypes_kept.all.1 s.words t rest hread (Scan.valid_run hs)).1

theorem Readable.over {t : TypeExpr} (h : t.Readable) : t.Over IsDotted := by
  induction h with
  | named hn _ ih => exact .named ⟨_, _, hn, rfl⟩ ih
  | array _ ih => exact .array ih
  | nullable _ _ ih => exact .nullable ih

end TypeExpr

namespace Expr

@[simp] theorem clearOptional_clearOptional (e : Expr) :
    e.clearOptional.clearOptional = e.clearOptional := by
  fun_cases clearOptional e with
  | case1 | case2 => rfl
  | case3 e hm hi => rw [clearOptional] <;> assumption

theorem withoutOptional_withoutOptional (e : Expr) :
    e.withoutOptional.withoutOptional = e.withoutOptional := by
  induction e using childInduction with
  | h e ih =>
      have hchildren : e.withoutOptional.children.map withoutOptional =
          e.withoutOptional.children := by
        rw [children_withoutOptional, List.map_map]
        exact List.map_congr_left ih
      rw [withoutOptional_eq e.withoutOptional, hchildren, withChildren_children,
        withoutOptional_eq, clearOptional_clearOptional]

theorem ownTokens_withChildren {e : Expr} {cs : List Expr} (h : cs.length = e.children.length) :
    (e.withChildren cs).ownTokens = e.ownTokens := by
  have hnames {ms : List Initializer} {vs : List Expr} (hl : vs.length = ms.length) :
      (renew ms vs).filterMap (fun m => m.name.map Token.ident) =
        ms.filterMap fun m => m.name.map Token.ident := by
    have hfilter (ns : List Initializer) : ns.filterMap (fun m => m.name.map Token.ident) =
        (ns.map (·.name)).filterMap (·.map Token.ident) := by
      rw [List.filterMap_map]
      rfl
    rw [hfilter, hfilter, names_renew ms vs hl]
  fun_cases withChildren e cs with
  | case5 ms => exact hnames (by simpa [children] using h)
  | case7 t as ms => exact hnames (by simp [children] at h; simp; omega)
  | _ => rfl

theorem ownTokens_clearOptional (e : Expr) : e.clearOptional.ownTokens = e.ownTokens := by
  fun_cases clearOptional e <;> rfl

variable {S : Strings}

theorem Spellable.withoutOptional {e : Expr} (h : e.Spellable S) :
    e.withoutOptional.Spellable S := by
  obtain ⟨hown, htypes, hplain⟩ := h
  rw [withoutOptional_eq]
  refine ⟨?_, by simpa using htypes, ?_⟩
  · rwa [ownTokens_clearOptional, ownTokens_withChildren (by simp)]
  · cases e with
    | creation t as i => cases i <;> exact hplain
    | interpolated ps => exact ⟨S.refill _ hplain.1, rfl⟩
    | _ => exact hplain

/-- Formed throughout, and so without its optional access: the type of an element is inferred from
that copy. -/
def Steady (S : Strings) (e : Expr) : Prop :=
  e.Every (Formed S) ∧ e.withoutOptional.Every (Formed S)

theorem steady_of_shaped {e : Expr} (h : e.Every (Formed S))
    (hs : e.withoutOptional.Every Shaped) : e.Steady S := by
  refine ⟨h, ?_⟩
  induction e using childInduction with
  | h e ih =>
      refine every_iff.2 ⟨⟨h.self.spellable.withoutOptional, hs.self⟩, ?_⟩
      have hchild := (every_iff.1 hs).2
      rw [children_withoutOptional, List.forall_mem_map] at hchild ⊢
      exact fun c hc => ih c hc (h.child hc) (hchild c hc)

theorem Steady.child {c e : Expr} (h : e.Steady S) (hc : c ∈ e.children) :
    c.Steady S := by
  refine ⟨h.1.child hc, h.2.child ?_⟩
  rw [children_withoutOptional]
  exact List.mem_map_of_mem hc

theorem Steady.withoutOptional {e : Expr} (h : e.Steady S) : e.withoutOptional.Steady S :=
  ⟨h.2, (withoutOptional_withoutOptional e).symm ▸ h.2⟩

end Expr

theorem Initializer.isName_effectiveName? {S : Strings} {ms : List Initializer} {m : Initializer}
    {name : String} (h : (Expr.anonymous ms).Every (Expr.Formed S)) (hm : m ∈ ms)
    (hn : m.effectiveName? = some name) :
    IsName name := by
  have hvalue : m.value.Every (Expr.Formed S) := h.child (List.mem_map.2 ⟨m, hm, rfl⟩)
  rw [effectiveName?, Option.orElse_eq_orElse, Option.orElse_eq_or] at hn
  rcases Option.or_eq_some_iff.1 hn with hn | ⟨-, hn⟩
  · exact h.self.spellable.own (.ident name) (List.mem_filterMap.2 ⟨m, hm, by rw [hn]; rfl⟩)
  · have hown := hvalue.unparen.self.spellable.own
    unfold Expr.impliedName? at hn
    split at hn
    · rename_i heq
      cases hn
      rw [heq] at hown
      exact hown _ List.mem_cons_self
    · rename_i heq
      cases hn
      rw [heq] at hown
      exact hown _ List.mem_cons_self
    · cases hn

def Vocabulary.readableWith (S : Strings) : Vocabulary where
  name := IsDotted
  source := Expr.Steady S
  label := IsName
  plain := IsName.isDotted
  parsed h := (TypeExpr.readable_of_parse h).over
  types h t ht := (h.1.self.spellable.types t ht).over
  child := Expr.Steady.child
  withoutOptional := Expr.Steady.withoutOptional
  labels h := Initializer.isName_effectiveName? h.1

abbrev Vocabulary.readable : Vocabulary := readableWith .none

theorem Primitive.isName_keyword (p : Primitive) : IsName p.keyword := by
  cases p <;> decide

namespace TypeRef

/-- What can be written of the type is read back. A type without a name cannot be written. -/
inductive Declared : TypeRef → Prop where
  | primitive {p : Primitive} {n : Bool} : Declared ⟨.primitive p, n⟩
  | named {name : String} {args : List TypeRef} {v n : Bool} : IsDotted name →
      (∀ a ∈ args, Declared a) → Declared ⟨.named name args v, n⟩
  | array {element : TypeRef} {n : Bool} : Declared element → Declared ⟨.array element, n⟩
  | anonymous {type : AnonymousType} {n : Bool} : Declared ⟨.anonymous type, n⟩
  | generated {id : StructuralId} {n : Bool} : IsName id.placeholder → Declared ⟨.generated id, n⟩

theorem Written.declared_of_names {V : Vocabulary} (hV : ∀ {n}, V.name n → IsDotted n)
    {t : TypeRef} (h : t.Written V) : t.Declared := by
  induction h with
  | primitive => exact .primitive
  | named hn _ ih => exact .named (hV hn) ih
  | array _ ih => exact .array ih

theorem Written.declared {t : TypeRef} (h : t.Written .readable) : t.Declared :=
  h.declared_of_names id

theorem Inferred.declared {S : Strings} {t : TypeRef} (h : t.Inferred (.readableWith S)) :
    t.Declared := by
  induction h with
  | written h => exact h.declared_of_names id
  | sequence hn _ ih => exact .named hn (List.forall_mem_singleton.2 ih)
  | array _ ih => exact .array ih
  | anonymous => exact .anonymous

namespace Declared

variable {t u : TypeRef}

theorem nonNullable (h : t.Declared) : t.nonNullable.Declared := by
  cases h with
  | primitive => exact .primitive
  | named hn ha => exact .named hn ha
  | array h => exact .array h
  | anonymous => exact .anonymous
  | generated h => exact .generated h

theorem element? (h : t.Declared) (hu : t.element? = some u) : u.Declared := by
  unfold TypeRef.element? at hu
  cases h with
  | array h =>
      cases hu
      exact h
  | named _ ha =>
      dsimp only at hu
      split at hu
      · rename_i hk
        cases hk
      · rename_i hk
        cases hk
        split at hu
        · cases hu
          exact ha u List.mem_cons_self
        · cases hu
      · cases hu
  | primitive | anonymous | generated _ => cases hu

end Declared

theorem legible_asNullable {t : TypeExpr} (h : t.Legible) : t.asNullable.Legible := by
  cases t with
  | nullable t => exact h
  | named _ _ | array _ | generated _ => exact .nullable h rfl

mutual

theorem Declared.legible {t : TypeRef} {e : TypeExpr} (h : t.Declared) (he : t.expr? = some e) :
    e.Legible := by
  match t with
  | ⟨kind, true⟩ =>
      obtain ⟨f, hf, rfl⟩ := Option.map_eq_some_iff.1 he
      exact legible_asNullable (legible_of_kindExpr? h hf)
  | ⟨kind, false⟩ => exact legible_of_kindExpr? h he

theorem legible_of_kindExpr? {kind : TypeKind} {n : Bool} {e : TypeExpr}
    (h : Declared ⟨kind, n⟩) (he : kindExpr? kind = some e) : e.Legible := by
  match kind with
  | .primitive p =>
      cases he
      exact (TypeExpr.readable_simple p.isName_keyword).legible
  | .named name args v =>
      cases h with
      | named hn ha =>
          obtain ⟨es, hes, rfl⟩ := Option.map_eq_some_iff.1 he
          obtain ⟨first, names, hnames, rfl⟩ := hn
          exact .named hnames (legible_of_exprs? ha hes)
  | .array element =>
      cases h with
      | array h =>
          obtain ⟨f, hf, rfl⟩ := Option.map_eq_some_iff.1 he
          exact .array (h.legible hf)
  | .anonymous _ => cases he
  | .generated id =>
      cases h with
      | generated h =>
          cases he
          exact .generated h

theorem legible_of_exprs? {ts : List TypeRef} {es : List TypeExpr} (h : ∀ t ∈ ts, t.Declared)
    (hes : exprs? ts = some es) : ∀ e ∈ es, e.Legible := by
  match ts with
  | [] =>
      cases hes
      nofun
  | t :: ts =>
      obtain ⟨ht, hts⟩ := List.forall_mem_cons.1 h
      rw [exprs?] at hes
      split at hes
      · rename_i he hes'
        cases hes
        exact List.forall_mem_cons.2 ⟨ht.legible he, legible_of_exprs? hts hes'⟩
      · cases hes

end

end TypeRef

end Projection
