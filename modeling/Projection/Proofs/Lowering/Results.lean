import Projection.Proofs.Lowering.Rules
import Projection.Proofs.Structure.Sound

/-!
What lowered values can be. A property that drops the `?` of its sequence asks for a value that is
never `null`; lowering passes that on to every part of the value except what stands behind a cast
or `??`.
-/

namespace Projection

namespace Expr

def results : Expr → List Expr
  | paren inner => results inner
  | cast _ operand => results operand
  | conditional _ t f => results t ++ results f
  | binary .coalesce _ right => results right
  | marked _ _ => []
  | e => [e]

/-- The results behind a cast or `??`. A type that is asked for does not reach them. -/
def openResults : Expr → List Expr
  | paren inner => openResults inner
  | cast _ operand => results operand
  | conditional _ t f => openResults t ++ openResults f
  | binary .coalesce _ right => results right
  | _ => []

theorem isMarked_eq_false_of_mem_results {e r : Expr} (h : r ∈ e.results) :
    e.isMarked = false := by
  cases e with
  | marked => cases h
  | _ => rfl

theorem results_binary {op : BinaryOp} (h : op ≠ .coalesce) (l r : Expr) :
    (binary op l r).results = [binary op l r] ∧ (binary op l r).openResults = [] := by
  cases op with
  | coalesce => exact absurd rfl h
  | _ => exact ⟨rfl, rfl⟩

theorem results_of_chainOptional {e : Expr} (h : e.chainOptional = true) :
    e.results = [e] ∧ e.openResults = [] ∧ e ≠ null := by
  cases e with
  | member | index | invoke => exact ⟨rfl, rfl, fun h => by cases h⟩
  | _ => cases h

end Expr

namespace TypeRef

def Expressible (t : TypeRef) : Prop := (kindExpr? t.kind).isSome = true

theorem isSome_expr?_iff {t : TypeRef} : t.expr?.isSome = true ↔ t.Expressible := by
  obtain ⟨kind, nullable⟩ := t
  cases nullable <;> simp [expr?, Expressible]

theorem Expressible.element? {t element : TypeRef} (h : t.Expressible)
    (he : t.element? = some element) : element.Expressible := by
  obtain ⟨kind, nullable⟩ := t
  unfold TypeRef.element? at he
  split at he
  · rename_i heq
    cases heq
    cases he
    simpa [Expressible, kindExpr?, isSome_expr?_iff] using h
  · rename_i heq
    cases heq
    split at he
    · cases he
      rw [Expressible, kindExpr?, Option.isSome_map, exprs?, exprs?] at h
      refine isSome_expr?_iff.1 ?_
      cases hx : element.expr? with
      | none =>
          rw [hx] at h
          cases h
      | some e => rfl
    · cases he
  · cases he

end TypeRef

namespace Structure

variable {settings : Settings}

mutual

/-- Nothing in a materialized type lacks a name. -/
theorem expressible_materialize (type : TypeRef) :
    (materialize settings type).1.Expressible := by
  match type with
  | ⟨.array element, nullable⟩ =>
      have h := expressible_materialize element
      simpa [materialize, TypeRef.Expressible, TypeRef.kindExpr?, TypeRef.isSome_expr?_iff] using h
  | ⟨.named name args valueType, nullable⟩ =>
      have h := isSome_exprs?_materializeAll args
      simpa [materialize, TypeRef.Expressible, TypeRef.kindExpr?] using h
  | ⟨.anonymous type, nullable⟩ => rfl
  | ⟨.primitive p, nullable⟩ => rfl
  | ⟨.generated id, nullable⟩ => rfl

theorem isSome_exprs?_materializeAll (types : List TypeRef) :
    (TypeRef.exprs? (materializeAll settings types).1).isSome = true := by
  match types with
  | [] => rfl
  | t :: ts =>
      have h := TypeRef.isSome_expr?_iff.2 (expressible_materialize t)
      obtain ⟨first, hfirst⟩ := Option.isSome_iff_exists.1 h
      obtain ⟨rest, hrest⟩ := Option.isSome_iff_exists.1 (isSome_exprs?_materializeAll ts)
      simp [materializeAll, TypeRef.exprs?, hfirst, hrest]

end

theorem propertyOf_mem_properties {t : AnonymousType} {name : String} {e : Expr} {type : TypeRef}
    {chainOnly : Bool} (h : ⟨name, e, some type, chainOnly⟩ ∈ t.members) :
    propertyOf settings name e chainOnly (materialize settings type) ∈
      (ofType settings t).properties := by
  obtain ⟨sourceType, members⟩ := t
  change _ ∈ propertiesOf settings members
  rw [propertiesOf_eq]
  exact List.mem_filterMap.2 ⟨_, h, rfl⟩

end Structure

namespace Lowering

open Typing Projection.Expr

theorem results_emptySequence? {type : TypeRef} {e : Expr} (h : emptySequence? type = some e) :
    e.results = [e] ∧ e ≠ .null := by
  refine emptySequence?_cases (P := fun e => e.results = [e] ∧ e ≠ .null) h ?_ ?_ ?_ ?_
  · exact fun _ _ => ⟨rfl, fun h => by cases h⟩
  · exact fun _ _ => ⟨rfl, fun h => by cases h⟩
  · exact fun _ => ⟨rfl, fun h => by cases h⟩
  · exact fun _ _ _ => ⟨rfl, fun h => by cases h⟩

theorem results_absentValue (type : Option TypeRef) :
    (absentValue type).results = [absentValue type] :=
  absentValue_cases (P := fun e => e.results = [e]) rfl (fun _ _ => rfl) fun _ _ _ he =>
    (results_emptySequence? he).1

theorem isSome_emptySequence? {type : TypeRef} (hs : type.isSequence = true)
    (he : type.Expressible) : (emptySequence? type).isSome = true := by
  obtain ⟨element, helement⟩ := Option.isSome_iff_exists.1 hs
  obtain ⟨t, ht⟩ := Option.isSome_iff_exists.1
    (TypeRef.isSome_expr?_iff.2 (he.element? helement))
  have hwhole : type.nonNullable.expr?.isSome = true := TypeRef.isSome_expr?_iff.2 he
  rw [emptySequence?, helement, Option.bind_some, ht]
  dsimp only
  split
  · rfl
  · split
    · rw [Option.isSome_map]
      exact hwhole
    · split <;> rfl

/-- An absent sequence is empty. -/
theorem absentValue_ne_null {type : TypeRef} (hn : type.nullable = false)
    (hs : type.isSequence = true) (he : type.Expressible) : absentValue (some type) ≠ .null := by
  obtain ⟨empty, hempty⟩ := Option.isSome_iff_exists.1 (isSome_emptySequence? hs he)
  rw [absentValue, hn, if_neg Bool.false_ne_true, hempty]
  exact (results_emptySequence? hempty).2

theorem results_castTo (type : Option TypeRef) (e : Expr) :
    (castTo type e).results = e.results :=
  castTo_cases (P := fun x => x.results = e.results) rfl fun _ _ _ _ => rfl

/-- A chain that is absent as `null` where no type is asked for. -/
def AbsentAsNull (Γ : Context) (e : Expr) : Prop :=
  e.chainOptional = true ∧ absentValue (infer? Γ e) = .null

instance (Γ : Context) (e : Expr) : Decidable (AbsentAsNull Γ e) :=
  inferInstanceAs (Decidable (_ ∧ _))

def unasked (declared : Option TypeRef) (e : Expr) : List Expr :=
  match declared with
  | none => e.results
  | some _ => e.openResults

/-- An expression that is lowered for `declared` to something that can be `null`. -/
def EndsNull (Γ : Context) (declared : Option TypeRef) (e : Expr) : Prop :=
  .null ∈ e.results ∨ ∃ r ∈ unasked declared e, AbsentAsNull Γ r

variable {Γ : Context} {declared : Option TypeRef}

theorem endsNull_paren {e : Expr} : EndsNull Γ declared (.paren e) ↔ EndsNull Γ declared e := by
  cases declared <;> rfl

theorem endsNull_cast {type : TypeExpr} {e : Expr} :
    EndsNull Γ declared (.cast type e) ↔ EndsNull Γ none e := by
  cases declared <;> rfl

theorem endsNull_coalesce {l r : Expr} :
    EndsNull Γ declared (.binary .coalesce l r) ↔ EndsNull Γ none r := by
  cases declared <;> rfl

theorem endsNull_conditional {c t f : Expr} : EndsNull Γ declared (.conditional c t f) ↔
    EndsNull Γ declared t ∨ EndsNull Γ declared f := by
  have hresults : (Expr.conditional c t f).results = t.results ++ f.results := by rw [results]
  have hunasked : unasked declared (.conditional c t f) =
      unasked declared t ++ unasked declared f := by
    cases declared
    · exact hresults
    · simp only [unasked, openResults]
  rw [EndsNull, EndsNull, EndsNull, hresults, hunasked]
  simp only [List.mem_append, or_and_right, exists_or]
  exact or_or_or_comm

/-- What is no chain ends in `null` only if it is `null`. -/
theorem endsNull_of_no_chain {e : Expr} (hresults : e.results = [e]) (hopen : e.openResults = [])
    (hchain : e.chainOptional = false) : EndsNull Γ declared e ↔ .null = e := by
  have hnone : ¬ ∃ r ∈ unasked declared e, AbsentAsNull Γ r := by
    rintro ⟨r, hr, hoptional, -⟩
    cases declared with
    | none =>
        rw [unasked, hresults, List.mem_singleton] at hr
        rw [hr, hchain] at hoptional
        cases hoptional
    | some type =>
        rw [unasked, hopen] at hr
        cases hr
  rw [EndsNull, hresults, List.mem_singleton, or_iff_left hnone]

theorem endsNull_of_chain {e : Expr} (hchain : e.chainOptional = true)
    (hasked : ∀ type ∈ declared, absentValue (some type) ≠ .null) :
    EndsNull Γ declared e ↔ absentValue (declared.or (infer? Γ e)) = .null := by
  obtain ⟨hresults, hopen, hnull⟩ := results_of_chainOptional hchain
  cases declared with
  | none =>
      rw [EndsNull, unasked, hresults]
      simp [Ne.symm hnull, AbsentAsNull, hchain]
  | some type =>
      rw [EndsNull, unasked, hresults, hopen]
      simp [Ne.symm hnull, hasked]

/-- The part of a source that is lowered for the type of the whole: of a selection what stands in
for it. -/
def standIn (e : Expr) : Option Expr :=
  match SelectionForm.ofExpr e with
  | .other => some e
  | .refused _ => none
  | .selection sel => sel.fallback

def remainder : Source → Option Expr
  | .collection _ _ _ e => standIn e
  | .object _ _ => none
  | source => some source.expr

/-- Lowered for a type that is not absent as `null`, a value can be `null` exactly if the
expression ends so. -/
def nullResults : Relation where
  expr Γ e declared x := (∀ type ∈ declared, absentValue (some type) ≠ .null) →
    (.null ∈ x.value.results ↔ EndsNull Γ declared e)
  node Γ e declared x := e.chainOptional = false →
    (∀ type ∈ declared, absentValue (some type) ≠ .null) →
    (.null ∈ x.value.results ↔ EndsNull Γ declared e)
  creation _ _ x := .null ∉ x.value.results
  property Γ p x := absentValue (some p.declaredType) ≠ .null →
    (.null ∈ x.value.results ↔ x.value.isMarked = false ∧
      ∃ e ∈ remainder p.source, EndsNull Γ (some p.declaredType) e)
  collection Γ e declared _ x := absentValue (some declared) ≠ .null →
    (.null ∈ x.value.results ↔ x.value.isMarked = false ∧
      ∃ d ∈ standIn e, EndsNull Γ (some declared) d)
  spine _ e s := e.chainOptional = true →
    s.value.guards ≠ [] ∧ .null ∉ s.value.expr.results
  argument _ _ _ _ := True

theorem null_mem_results_closeChain {e : Expr} {s : Spine} (hchain : e.chainOptional = true)
    (hguards : s.guards ≠ []) (hs : .null ∉ s.expr.results)
    (hasked : ∀ type ∈ declared, absentValue (some type) ≠ .null) :
    .null ∈ (closeChain Γ e declared s).results ↔ EndsNull Γ declared e := by
  rw [endsNull_of_chain hchain hasked]
  unfold closeChain
  split
  · rename_i hall
    cases hg : s.guards with
    | nil => exact absurd hg hguards
    | cons g gs =>
        rw [hg] at hall
        cases hall
  · rw [results, results_castTo, results_absentValue, List.mem_append, or_iff_right hs,
      List.mem_singleton]
    exact eq_comm

theorem null_mem_results_guardSelection {type : TypeRef} {guards : List Expr} {result : Expr}
    {fallback : Option Expr} (hresult : .null ∉ result.results)
    (hasked : absentValue (some type) ≠ .null) :
    .null ∈ (guardSelection type guards result fallback).results ↔
      ∃ f ∈ fallback, .null ∈ f.results := by
  unfold guardSelection
  split
  · simp [results, hresult]
  · simp [results, hresult, results_absentValue, Ne.symm hasked]
  · simp [results]
  · simp [hresult]

theorem null_not_mem_results_rebuild (sel : Selection) (receiver body : Expr) :
    .null ∉ (sel.rebuild receiver body).results :=
  rebuild_cases (P := fun e => .null ∉ e.results) rfl (fun h => by cases List.mem_singleton.1 h)
    fun _ _ h => by cases List.mem_singleton.1 h

theorem null_mem_results_finishSelection {type : TypeRef} {sel : Selection} {r : Lowered Spine}
    {b : Lowered Expr} {f : Expr → Lowered Expr} (hasked : absentValue (some type) ≠ .null) :
    .null ∈ (finishSelection Γ type sel r b f).value.results ↔
      ∃ d ∈ sel.fallback, .null ∈ (f d).value.results := by
  rw [value_finishSelection,
    null_mem_results_guardSelection (null_not_mem_results_rebuild _ _ _) hasked]
  cases sel.fallback <;> simp

theorem asked_some {type : TypeRef} (h : absentValue (some type) ≠ .null) :
    ∀ t ∈ some type, absentValue (some t) ≠ .null := by
  rintro _ ⟨⟩
  exact h

/-- A lowered value that can be `null` is no note. -/
theorem null_mem_results_iff_and_not_isMarked {x : Expr} {P : Prop}
    (h : .null ∈ x.results ↔ P) : .null ∈ x.results ↔ x.isMarked = false ∧ P :=
  ⟨fun hx => ⟨isMarked_eq_false_of_mem_results hx, h.1 hx⟩, fun hx => h.2 hx.2⟩

/-- A property whose whole source is lowered for its type. -/
theorem null_mem_results_of_whole {e : Expr} {type : TypeRef} {x : Lowered Expr}
    (hasked : absentValue (some type) ≠ .null) (hx : nullResults.expr Γ e (some type) x) :
    .null ∈ x.value.results ↔
      x.value.isMarked = false ∧ ∃ d ∈ some e, EndsNull Γ (some type) d := by
  refine null_mem_results_iff_and_not_isMarked ((hx (asked_some hasked)).trans ?_)
  simp

theorem nullResults_finishSelection {e : Expr} {type : TypeRef} {sel : Selection}
    {r : Lowered Spine} {b : Lowered Expr} {f : Expr → Lowered Expr}
    (hform : SelectionForm.ofExpr e = .selection sel)
    (hf : ∀ d, nullResults.expr Γ d (some type) (f d)) (nested : Option Structure) :
    nullResults.collection Γ e type nested (finishSelection Γ type sel r b f) := by
  intro hasked
  refine null_mem_results_iff_and_not_isMarked ?_
  have hstandIn : standIn e = sel.fallback := by rw [standIn, hform]
  rw [null_mem_results_finishSelection hasked, hstandIn]
  exact exists_congr fun d => and_congr_right fun _ => hf d (asked_some hasked)

/-- Behind a mark there is a test. -/
theorem guards_present_ne_nil {target : Expr} {optional : Bool} {s : Spine}
    (h : optional = true ∨ s.guards ≠ []) : (present Γ target optional s).guards ≠ [] := by
  unfold present
  split
  · exact List.append_ne_nil_of_right_ne_nil _ (List.cons_ne_nil _ _)
  · rename_i hoptional
    exact h.resolve_left hoptional

theorem nullResults_kept (settings : Settings) : nullResults.Kept settings where
  chain hchain hs hasked := by
    obtain ⟨hguards, hexpr⟩ := hs hchain
    exact null_mem_results_closeChain hchain hguards hexpr hasked
  noChain hchain hn hasked := hn hchain hasked
  call _ _ hchain _ := by
    rw [endsNull_of_no_chain rfl rfl hchain]
    exact ⟨fun h => (by cases List.mem_singleton.1 h), fun h => (by cases h)⟩
  untypedObject _ hchain _ := by
    rw [endsNull_of_no_chain rfl rfl hchain]
    exact ⟨fun h => (by cases h), fun h => (by cases h)⟩
  deepObject hchain _ := by
    rw [endsNull_of_no_chain rfl rfl hchain]
    exact ⟨fun h => (by cases h), fun h => (by cases h)⟩
  object _ hx hchain _ := by
    rw [endsNull_of_no_chain rfl rfl hchain]
    exact ⟨fun h => absurd h hx, fun h => (by cases h)⟩
  conditional _ ht hf _ hasked := by
    rw [endsNull_conditional, Lowered.value_map, results, List.mem_append]
    exact or_congr (ht hasked) (hf hasked)
  paren hx _ hasked := by
    rw [endsNull_paren, Lowered.value_map, results]
    exact hx hasked
  other {_ e declared f} hinvoke hanonymous hconditional hparen hchildren hchain _ := by
    rw [Lowered.value_map, Lowered.value_all, List.map_map]
    cases e with
    | cast type operand =>
        rw [endsNull_cast]
        exact hchildren operand (List.mem_singleton_self _) (fun _ h => (by cases h))
    | binary op l r =>
        by_cases hop : op = .coalesce
        · subst hop
          rw [endsNull_coalesce]
          exact hchildren r (List.mem_cons_of_mem _ (List.mem_singleton_self _))
            (fun _ h => (by cases h))
        · obtain ⟨hresults, hopen⟩ := results_binary hop l r
          rw [endsNull_of_no_chain hresults hopen hchain]
          refine ⟨fun h => ?_, fun h => (by cases h)⟩
          change .null ∈ (Expr.binary op (f l).value (f r).value).results at h
          rw [(results_binary hop _ _).1] at h
          cases List.mem_singleton.1 h
    | marked note inner =>
        refine ⟨fun h => (by cases h), fun h => ?_⟩
        obtain h | ⟨r, h, -⟩ := h
        · cases h
        · cases declared <;> cases h
    | invoke target typeArgs args => exact absurd rfl (hinvoke target typeArgs args)
    | anonymous members => exact absurd rfl (hanonymous members)
    | conditional c t f => exact absurd rfl (hconditional c t f)
    | paren inner => exact absurd rfl (hparen inner)
    | creation type args initializers =>
        rw [endsNull_of_no_chain rfl rfl hchain]
        cases initializers <;>
          exact ⟨fun h => (by cases List.mem_singleton.1 h), fun h => (by cases h)⟩
    | ident | this | literal | defaultValue =>
        rw [endsNull_of_no_chain rfl rfl hchain]
        exact List.mem_singleton
    | member | index | lambda | unary | interpolated =>
        rw [endsNull_of_no_chain rfl rfl hchain]
        exact ⟨fun h => (by cases List.mem_singleton.1 h), fun h => (by cases h)⟩
  create _ := fun h => (by cases List.mem_singleton.1 h)
  collectionProperty hx := hx
  objectProperty hx _ :=
    ⟨fun h => absurd h hx, fun h => (by obtain ⟨-, _, h, -⟩ := h; cases h)⟩
  openProperty _ := ⟨fun h => (by cases h), fun h => (by cases h.1)⟩
  valueProperty {_ p _} hc ho hx hasked := by
    have hremainder : remainder p.source = some p.source.expr := by
      cases hsource : p.source with
      | collection base parameter element e => exact absurd hsource (hc base parameter element e)
      | object members e => exact absurd hsource (ho members e)
      | _ => rfl
    rw [hremainder]
    exact null_mem_results_of_whole hasked hx
  noSelection {_ e _ _ _} hform hx hasked := by
    have hstandIn : standIn e = some e := by rw [standIn, hform]
    rw [hstandIn]
    exact null_mem_results_of_whole hasked hx
  refused _ _ := ⟨fun h => (by cases h), fun h => (by cases h.1)⟩
  refusedBody _ _ _ _ := ⟨fun h => (by cases h), fun h => (by cases h.1)⟩
  selectObjects hform _ _ _ hf _ := nullResults_finishSelection hform hf _
  select hform _ _ _ hf _ := nullResults_finishSelection hform hf _
  memberSpine hs hchain := by
    refine ⟨guards_present_ne_nil ?_, fun h => (by cases List.mem_singleton.1 h)⟩
    exact (Bool.or_eq_true_iff.1 hchain).imp_right fun h => (hs h).1
  indexSpine hs _ hchain := by
    refine ⟨guards_present_ne_nil ?_, fun h => (by cases List.mem_singleton.1 h)⟩
    exact (Bool.or_eq_true_iff.1 hchain).imp_right fun h => (hs h).1
  callSpine hs _ hchain :=
    ⟨(hs hchain).1, fun h => (by cases List.mem_singleton.1 h)⟩
  startSpine hchain _ hoptional := by
    rw [hchain] at hoptional
    cases hoptional
  lambdaArgument _ _ := trivial
  valueArgument _ := trivial

variable {settings : Settings} {depth : Nat}

theorem absentValue_propertyOf_ne_null (name : String) {e : Expr} {chainOnly : Bool}
    {type : TypeRef} (h : Structure.dropsNullability settings e
      (Structure.materialize settings type).1 chainOnly = true) :
    absentValue (some (Structure.propertyOf settings name e chainOnly
      (Structure.materialize settings type)).declaredType) ≠ .null := by
  have hdeclared : (Structure.propertyOf settings name e chainOnly
      (Structure.materialize settings type)).declaredType =
        (Structure.materialize settings type).1.nonNullable := if_pos h
  have hsequence : (Structure.materialize settings type).1.isSequence = true := by
    simp only [Structure.dropsNullability, Bool.and_eq_true] at h
    exact h.1.1.1.1.2
  rw [hdeclared]
  exact absentValue_ne_null rfl hsequence (Structure.expressible_materialize type)

/-- A property that drops the `?` of its sequence can still be `null`: exactly if what stands in
for its selection, or the whole source where that is no selection, ends in `null` itself, or
behind a cast or `??` in a chain that is absent as `null`. -/
theorem null_mem_results_of_dropsNullability {t : AnonymousType} {name : String} {e : Expr}
    {type : TypeRef} {chainOnly : Bool} (hmember : ⟨name, e, some type, chainOnly⟩ ∈ t.members)
    (hdrops : Structure.dropsNullability settings e (Structure.materialize settings type).1
      chainOnly = true) (depth : Nat) (Γ : Context) :
    ∃ p ∈ (Structure.ofType settings t).properties,
      p = Structure.propertyOf settings name e chainOnly (Structure.materialize settings type) ∧
      p.source.expr = e ∧ p.nullable = false ∧
      (.null ∈ (property settings depth Γ p).value.results ↔
        (property settings depth Γ p).value.isMarked = false ∧
        ∃ d ∈ remainder p.source, .null ∈ d.results ∨ ∃ r ∈ d.openResults, AbsentAsNull Γ r) := by
  have hnullable : (Structure.declaredType settings e (Structure.materialize settings type).1
      chainOnly).nullable = false := congrArg TypeRef.nullable (if_pos hdrops)
  refine ⟨_, Structure.propertyOf_mem_properties hmember, rfl, Source.expr_classify e, hnullable,
    ?_⟩
  exact (nullResults_kept settings).property depth Γ _
    (absentValue_propertyOf_ne_null name hdrops)

def lineModel : Model :=
  .ofTypes [⟨"Order", none, .class,
      [⟨"Lines", .property, "List<Line>?", false, false, .public⟩,
        ⟨"Old", .property, "List<Line>?", false, false, .public⟩]⟩,
    ⟨"Line", none, .class, [⟨"Name", .property, "string", false, false, .public⟩]⟩]

def lineContext : Context := ⟨lineModel, .empty, [("x", ⟨.named "Order" [] false, false⟩)]⟩

def lineName : Expr := .dot (.ident "l") "Name"

/-- `x.M?.Select(l => new { Name = l.Name })` -/
def selectLineNames (m : String) : Expr :=
  .call (.member (.dot (.ident "x") m) "Select" true)
    [.lambda ["l"] (.anonymous [.named "Name" lineName])]

/-- `x.M?.Where(l => l.Name != "")` -/
def whereNamed (m : String) : Expr :=
  .call (.member (.dot (.ident "x") m) "Where" true)
    [.lambda ["l"] (.binary .ne lineName (.literal (.string "")))]

/-- The type of `x.M?.Select(l => new { Name = l.Name })`. -/
def nameSequence : TypeRef :=
  ⟨.named "IEnumerable" [⟨.anonymous ⟨"Line", [⟨"Name", lineName, some .string, false⟩]⟩, false⟩]
    false, true⟩

def lineSequence : TypeRef :=
  ⟨.named "IEnumerable" [⟨.named "Line" [] false, false⟩] false, true⟩

theorem anonymousType_lineContext {name : String} {e : Expr} {type : TypeRef}
    (h : TypeRef.mk (.anonymous (anonymousType lineContext [.named name e])) false =
      ⟨.anonymous ⟨"Order", [⟨name, e, some type, true⟩]⟩, false⟩) :
    ⟨name, e, some type, true⟩ ∈ (anonymousType lineContext [.named name e]).members := by
  injection h with hkind
  injection hkind with hmembers
  rw [hmembers]
  exact List.mem_singleton_self _

theorem null_mem_results_of_dropsNullability_either :
    let e : Expr := .binary .coalesce (selectLineNames "Lines") (selectLineNames "Old")
    let t := anonymousType lineContext [.named "Names" e]
    ⟨"Names", e, some nameSequence, true⟩ ∈ t.members ∧
      Structure.dropsNullability {} e (Structure.materialize {} nameSequence).1 true = true ∧
      ∃ p ∈ (Structure.ofType {} t).properties, p.nullable = false ∧
        .null ∉ (lowerProperty {} lineContext p).value.results := by
  intro e t
  have hmember : ⟨"Names", e, some nameSequence, true⟩ ∈ t.members :=
    anonymousType_lineContext (by decide +kernel)
  have hdrops : Structure.dropsNullability {} e (Structure.materialize {} nameSequence).1 true =
      true := by decide +kernel
  obtain ⟨p, hp, rfl, -, hnullable, hnull⟩ :=
    null_mem_results_of_dropsNullability hmember hdrops _ lineContext
  refine ⟨hmember, hdrops, _, hp, hnullable, fun h => ?_⟩
  obtain ⟨-, d, hd, hends⟩ := hnull.1 h
  have hremainder : remainder (Source.classify e) = some (selectLineNames "Old") := by
    decide +kernel
  cases hd.symm.trans hremainder
  rcases hends with hends | ⟨r, hr, -⟩
  · cases List.mem_singleton.1 hends
  · cases hr

/-- A selection that creates objects can be `null` if what stands in for it can. -/
theorem null_mem_results_of_selection {p : Property} {e : Expr} (sel : Selection)
    {element : TypeRef} {nested : Structure} (hexpr : p.source.expr = e)
    (hsource : remainder p.source ≠ none ∧ remainder p.source ≠ some e)
    (hform : SelectionForm.ofExpr e = .selection sel) (hbody : sel.bodyForm = .literal)
    (helement : elementType? Γ sel.base = some element) (hnested : p.nested = some nested)
    (hasked : absentValue (some p.declaredType) ≠ .null) :
    .null ∈ (property settings depth Γ p).value.results ↔
      ∃ d ∈ sel.fallback, EndsNull Γ (some p.declaredType) d := by
  obtain ⟨_, declared, _, _, source⟩ := p
  cases hnested
  cases hexpr
  cases source with
  | collection base parameter members e =>
      change SelectionForm.ofExpr e = .selection sel at hform
      rw [property, collection_objects declared hform helement hbody]
      refine (null_mem_results_finishSelection hasked).trans ?_
      exact exists_congr fun d => and_congr_right fun _ =>
        (nullResults_kept settings).expr depth Γ d (some declared) (asked_some hasked)
  | object => exact absurd rfl hsource.1
  | _ => exact absurd rfl hsource.2

/-- A source that is no selection can be `null` if it ends so. -/
theorem null_mem_results_of_other {p : Property} {e : Expr} (hexpr : p.source.expr = e)
    (hsource : remainder p.source = some e) (hform : SelectionForm.ofExpr e = .other)
    (hasked : absentValue (some p.declaredType) ≠ .null) :
    .null ∈ (property settings depth Γ p).value.results ↔
      EndsNull Γ (some p.declaredType) e := by
  subst hexpr
  have hobject (members : List SourceMember) (e : Expr) : p.source ≠ .object members e := by
    intro h
    rw [h] at hsource
    cases hsource
  rw [property_other hobject hform]
  exact (nullResults_kept settings).expr depth Γ p.source.expr (some p.declaredType)
    (asked_some hasked)

theorem null_of_dropped_nullability :
    (∃ p ∈ (Structure.ofType {} (anonymousType lineContext
        [.named "Names" (.binary .coalesce (selectLineNames "Lines") .null)])).properties,
      p.nullable = false ∧ .null ∈ (lowerProperty {} lineContext p).value.results) ∧
    ∃ p ∈ (Structure.ofType {} (anonymousType lineContext
        [.named "Named" (.binary .coalesce (whereNamed "Lines") (whereNamed "Old"))])).properties,
      p.nullable = false ∧ .null ∈ (lowerProperty {} lineContext p).value.results := by
  constructor
  · let e : Expr := .binary .coalesce (selectLineNames "Lines") .null
    have hmember : ⟨"Names", e, some nameSequence, true⟩ ∈
        (anonymousType lineContext [.named "Names" e]).members :=
      anonymousType_lineContext (by decide +kernel)
    have hdrops : Structure.dropsNullability {} e (Structure.materialize {} nameSequence).1 true =
        true := by decide +kernel
    have hasked := absentValue_propertyOf_ne_null "Names" hdrops
    have hsource : remainder (Source.classify e) ≠ none ∧
        remainder (Source.classify e) ≠ some e := by decide +kernel
    obtain ⟨nested, hnested⟩ : ∃ s, (Structure.materialize {} nameSequence).2 = some s :=
      Option.isSome_iff_exists.1 (by decide +kernel)
    let sel : Selection := ⟨.dot (.ident "x") "Lines", true, "Select", [], "l",
      .anonymous [.named "Name" lineName], none, some .null⟩
    obtain ⟨element, helement⟩ : ∃ t, elementType? lineContext sel.base = some t :=
      Option.isSome_iff_exists.1 (by decide +kernel)
    refine ⟨_, Structure.propertyOf_mem_properties hmember,
      congrArg TypeRef.nullable (if_pos hdrops), ?_⟩
    rw [lowerProperty, null_mem_results_of_selection sel (Source.expr_classify e) hsource rfl rfl
      helement hnested hasked]
    exact ⟨.null, rfl, .inl (List.mem_singleton_self _)⟩
  · let e : Expr := .binary .coalesce (whereNamed "Lines") (whereNamed "Old")
    have hmember : ⟨"Named", e, some lineSequence, true⟩ ∈
        (anonymousType lineContext [.named "Named" e]).members :=
      anonymousType_lineContext (by decide +kernel)
    have hdrops : Structure.dropsNullability {} e (Structure.materialize {} lineSequence).1 true =
        true := by decide +kernel
    have hasked := absentValue_propertyOf_ne_null "Named" hdrops
    have hsource : remainder (Source.classify e) = some e := by decide +kernel
    have habsent : AbsentAsNull lineContext (whereNamed "Old") := by decide +kernel
    refine ⟨_, Structure.propertyOf_mem_properties hmember,
      congrArg TypeRef.nullable (if_pos hdrops), ?_⟩
    rw [lowerProperty, null_mem_results_of_other (Source.expr_classify e) hsource rfl hasked]
    exact .inr ⟨whereNamed "Old", List.mem_singleton_self _, habsent⟩

end Lowering

end Projection
