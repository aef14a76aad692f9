import Projection.Proofs.Expr.Replaced
import Projection.Proofs.Lowering.Invariant
import Projection.Proofs.Structure.Readable

/-!
What lowering gives can be read back. A lowered tree can stand where the tree before it stood, tests
and objects are forms of their own, and all names come from source text.
-/

namespace Projection.Lowering

open Typing Projection.Expr Text

variable {S : Strings}

theorem every_sayable_binary {op : BinaryOp} {l r : Expr} (hop : ¬(op = .add ∨ op = .sub))
    (hl : l.Every (Sayable S)) (hr : r.Every (Sayable S)) :
    (Expr.binary op l r).Every (Sayable S) :=
  every_iff.2 ⟨sayable_binary hop, List.forall_mem_cons.2 ⟨hl, List.forall_mem_singleton.2 hr⟩⟩

theorem every_sayable_all {gs : List Expr} {g : Expr} (h : Expr.all gs = some g)
    (hg : ∀ x ∈ gs, x.Every (Sayable S)) : g.Every (Sayable S) :=
  forall_all (every_sayable_binary (by decide)) h hg

theorem valid_null : (Literal.token .null).Valid := (by decide : IsName "null")

theorem every_sayable_dot {t : Expr} {name : String} (h : t.Every (Sayable S)) (hn : IsName name) :
    (t.dot name).Every (Sayable S) :=
  every_iff.2 ⟨sayable_dot t hn, List.forall_mem_singleton.2 h⟩

theorem every_sayable_qualified (first : String) (names : List String)
    (h : ∀ n ∈ first :: names, IsName n) (hr : isReserved first = false) :
    (qualified (dottedName first names)).Every (Sayable S) := by
  obtain ⟨hfirst, hnames⟩ := List.forall_mem_cons.1 h
  unfold qualified
  rw [splitAt_dottedName fun n hn => (h n hn).point_not_mem]
  refine List.foldlRecOn names _ ?_ fun _ he n hn => every_sayable_dot he (hnames n hn)
  exact every_iff.2 ⟨sayable_ident hfirst hr, nofun⟩

theorem every_sayable_emptyOf {owner : String} {element : TypeExpr}
    (ho : (qualified owner).Every (Sayable S)) (h : element.Legible) :
    (emptyOf owner element).Every (Sayable S) := by
  refine every_iff.2 ⟨sayable_invoke (List.forall_mem_singleton.2 h) nofun fun _ => ?_, ?_⟩
  · rw [dot, spelled_member]
    rfl
  · exact List.forall_mem_singleton.2 (every_sayable_dot ho (by decide))

theorem every_sayable_emptySequence? {type : TypeRef} {e : Expr} (ht : type.Declared)
    (h : emptySequence? type = some e) : e.Every (Sayable S) ∧ e.isMarked = false := by
  have helement {element : TypeExpr} (he : type.element?.bind TypeRef.expr? = some element) :
      element.Legible := by
    obtain ⟨u, hu, he⟩ := Option.bind_eq_some_iff.1 he
    exact (ht.element? hu).legible he
  refine emptySequence?_cases (P := fun e => e.Every (Sayable S) ∧ e.isMarked = false) h ?_ ?_ ?_ ?_
  · intro element he
    have harray := every_sayable_qualified (S := S) "System" ["Array"] (by decide) (by decide)
    exact ⟨every_sayable_emptyOf harray (helement he), rfl⟩
  · intro element he
    have hlinq := every_sayable_qualified (S := S) "System" ["Linq", "Enumerable"] (by decide)
      (by decide)
    exact ⟨every_sayable_emptyOf hlinq (helement he), rfl⟩
  · intro empty hempty
    have hqueryable := every_sayable_qualified (S := S) "System" ["Linq", "Queryable"] (by decide)
      (by decide)
    refine ⟨every_iff.2 ⟨sayable_invoke (by simp) (fun _ => ?_) (by simp), ?_⟩, rfl⟩
    · rw [dot, spelled_member]
      rfl
    · exact List.forall_mem_cons.2 ⟨every_sayable_dot hqueryable (by decide),
        List.forall_mem_singleton.2 hempty.1⟩
  · intro t _ ht'
    exact ⟨every_iff.2 ⟨sayable_empty (ht.nonNullable.legible ht'), by simp [children]⟩, rfl⟩

theorem every_sayable_absentValue {type : Option TypeRef} (h : ∀ t ∈ type, t.Declared) :
    (absentValue type).Every (Sayable S) ∧ (absentValue type).isMarked = false := by
  refine absentValue_cases (P := fun e => e.Every (Sayable S) ∧ e.isMarked = false)
    ⟨every_iff.2 ⟨sayable_default, nofun⟩, rfl⟩ (fun l hl => ?_)
    fun t ht _ he => every_sayable_emptySequence? (h t ht) he
  have hvalid : l.token.Valid := by
    simp only [List.mem_cons, List.not_mem_nil, or_false] at hl
    rcases hl with rfl | rfl | rfl | rfl
    · exact valid_null
    · exact fun _ => rfl
    · exact (by decide : IsName "false")
    · exact fun _ => rfl
  exact ⟨every_iff.2 ⟨sayable_literal hvalid, nofun⟩, rfl⟩

theorem every_sayable_castTo {type : Option TypeRef} {e : Expr} (h : ∀ t ∈ type, t.Declared)
    (he : e.Every (Sayable S)) (hm : e.isMarked = false) (hs : e.spelled.isSigned = false) :
    (castTo type e).Every (Sayable S) ∧ (castTo type e).isMarked = false :=
  castTo_cases (P := fun e => e.Every (Sayable S) ∧ e.isMarked = false) ⟨he, hm⟩ fun u hu _ ht =>
    ⟨every_iff.2 ⟨sayable_cast ((h u hu).legible ht) hs, List.forall_mem_singleton.2 he⟩, rfl⟩

structure Spine.Follows (S : Strings) (s : Spine) (e : Expr) : Prop where
  expr : s.expr.Every (Sayable S)
  guards : ∀ g ∈ s.guards, g.Every (Sayable S)
  guarded : e.chainOptional = true → s.guards ≠ []
  plain : e.chainOptional = true → s.expr.isMarked = false ∧ s.expr.spelled.isSigned = false
  callable : e.isCallable = true → s.expr.spelled.isCallable = true
  name : e.isName = true → s.expr.spelled.isName = true

theorem Spine.Follows.present {s : Spine} {target : Expr} (h : s.Follows S target) (Γ : Context)
    (optional : Bool) :
    (present Γ target optional s).expr.Every (Sayable S) ∧
      (∀ g ∈ (Lowering.present Γ target optional s).guards, g.Every (Sayable S)) ∧
      ((optional || target.chainOptional) = true →
        (Lowering.present Γ target optional s).guards ≠ []) := by
  unfold Lowering.present
  split
  · refine ⟨?_, ?_, fun _ => by simp⟩
    · dsimp only
      split
      · exact every_sayable_dot h.expr (by decide)
      · exact h.expr
    · refine List.forall_mem_append.2 ⟨h.guards, List.forall_mem_singleton.2 ?_⟩
      exact every_sayable_binary (by decide) h.expr
        (every_iff.2 ⟨sayable_literal valid_null, nofun⟩)
  · rename_i ho
    refine ⟨h.expr, h.guards, fun hc => h.guarded ?_⟩
    simpa [ho] using hc

/-- A call that keeps its type arguments and takes the place of one in source text. -/
theorem every_sayable_call {target x : Expr} {typeArgs : List TypeExpr} {args as : List Expr}
    (he : (Expr.invoke target typeArgs args).Steady S) (hx : x.Every (Sayable S))
    (hcallable : target.isCallable = true → x.spelled.isCallable = true)
    (hname : target.isName = true → x.spelled.isName = true)
    (has : ∀ a ∈ as, a.Every (Sayable S)) : (Expr.invoke x typeArgs as).Every (Sayable S) := by
  have hshaped := he.1.self.shaped
  refine every_iff.2 ⟨sayable_invoke ?_ ?_ ?_, List.forall_mem_cons.2 ⟨hx, has⟩⟩
  · exact fun u hu => (he.1.self.spellable.types u hu).legible
  · rintro rfl
    exact hcallable hshaped
  · intro hne
    cases typeArgs with
    | nil => exact absurd rfl hne
    | cons => exact hname hshaped

theorem Spine.Follows.member {s : Spine} {target : Expr} (h : s.Follows S target) (Γ : Context)
    {name : String} (hn : IsName name) (optional : Bool) :
    ((Lowering.present Γ target optional s).mapExpr (·.dot name)).Follows S
      (.member target name optional) := by
  obtain ⟨hexpr, hguards, hguarded⟩ := h.present Γ optional
  exact {
    expr := every_sayable_dot hexpr hn
    guards := hguards
    guarded := hguarded
    plain := fun _ => by simp [Spine.mapExpr, dot, isMarked, isSigned]
    callable := fun _ => by simp [Spine.mapExpr, dot, isCallable]
    name := fun _ => by simp [Spine.mapExpr, dot, isName] }

theorem Spine.Follows.index {s : Spine} {target : Expr} (h : s.Follows S target) (Γ : Context)
    {args as : List Expr} (has : ∀ a ∈ as, a.Every (Sayable S)) (optional : Bool) :
    ((Lowering.present Γ target optional s).mapExpr (.index · as false)).Follows S
      (.index target args optional) := by
  obtain ⟨hexpr, hguards, hguarded⟩ := h.present Γ optional
  exact {
    expr := every_iff.2 ⟨sayable_index _ _, List.forall_mem_cons.2 ⟨hexpr, has⟩⟩
    guards := hguards
    guarded := hguarded
    plain := fun _ => by simp [Spine.mapExpr, isMarked, isSigned]
    callable := fun _ => by simp [Spine.mapExpr, isCallable]
    name := by rintro ⟨⟩ }

theorem Spine.Follows.invoke {s : Spine} {target : Expr} (h : s.Follows S target)
    {typeArgs : List TypeExpr} {args as : List Expr}
    (he : (Expr.invoke target typeArgs args).Steady S) (has : ∀ a ∈ as, a.Every (Sayable S)) :
    (s.mapExpr (.invoke · typeArgs as)).Follows S (.invoke target typeArgs args) where
  expr := every_sayable_call he h.expr h.callable h.name has
  guards := h.guards
  guarded := h.guarded
  plain _ := by simp [Spine.mapExpr, isMarked, isSigned]
  callable _ := by simp [Spine.mapExpr, isCallable]
  name := by rintro ⟨⟩

theorem follows_plain {x e : Expr} (ho : e.chainOptional = false) (hx : x.Every (Sayable S))
    (hr : x.Replaces e) : (Spine.plain x).Follows S e := by
  have hchain {P : Prop} (hc : e.chainOptional = true) : P := by
    rw [ho] at hc
    cases hc
  exact {
    expr := hx
    guards := by rintro _ ⟨⟩
    guarded := hchain
    plain := hchain
    callable := hr.callable
    name := hr.name ho }

theorem sayable_closeChain {Γ : Context} {e : Expr} {declared : Option TypeRef} {s : Spine}
    (ho : e.chainOptional = true) (ht : ∀ t ∈ declared.or (infer? Γ e), t.Declared)
    (h : s.Follows S e) :
    (closeChain Γ e declared s).Every (Sayable S) ∧ (closeChain Γ e declared s).Replaces e := by
  obtain ⟨hm, hs⟩ := h.plain ho
  obtain ⟨hcast, hcm⟩ := every_sayable_castTo ht h.expr hm hs
  obtain ⟨habsent, ham⟩ := every_sayable_absentValue ht
  cases hg : Expr.all s.guards with
  | none =>
      cases hl : s.guards with
      | nil => exact absurd hl (h.guarded ho)
      | cons g gs =>
          rw [hl] at hg
          cases hg
  | some guard =>
      rw [closeChain, hg]
      refine ⟨every_iff.2 ⟨?_, ?_⟩, .conditional (fun _ => ho) _ _ _⟩
      · exact sayable_conditional (shown_of_isMarked hcm) (shown_of_isMarked ham)
      · exact List.forall_mem_cons.2 ⟨every_sayable_all hg h.guards,
          List.forall_mem_cons.2 ⟨hcast, List.forall_mem_singleton.2 habsent⟩⟩

theorem every_sayable_guardSelection {declared : TypeRef} {guards : List Expr} {result : Expr}
    {fallback : Option Expr} (ht : declared.Declared) (hg : ∀ g ∈ guards, g.Every (Sayable S))
    (hr : result.Every (Sayable S)) (hs : result.Shown)
    (hf : ∀ f ∈ fallback, f.Every (Sayable S) ∧ f.Shown) :
    (guardSelection declared guards result fallback).Every (Sayable S) := by
  refine guardSelection_cases hr (fun guard f h hcase => ?_) fun f h =>
    every_sayable_binary (by decide) hr (hf f h).1
  have hstand : f.Every (Sayable S) ∧ f.Shown := by
    rcases hcase with hfallback | rfl
    · exact hf f hfallback
    · have hdeclared : ∀ t ∈ some declared, t.Declared := by
        rintro _ ⟨⟩
        exact ht
      obtain ⟨ha, hm⟩ := every_sayable_absentValue hdeclared
      exact ⟨ha, shown_of_isMarked hm⟩
  exact every_iff.2 ⟨sayable_conditional hs hstand.2, List.forall_mem_cons.2
    ⟨every_sayable_all h hg, List.forall_mem_cons.2 ⟨hr, List.forall_mem_singleton.2 hstand.1⟩⟩⟩

/-- The parts of a selection from source text. -/
structure Selection.Legible (S : Strings) (sel : Selection) : Prop where
  base : sel.base.Steady S
  body : sel.body.Steady S
  fallback : ∀ f ∈ sel.fallback, f.Steady S
  typeArgs : ∀ u ∈ sel.typeArgs, u.Legible
  transform : IsName sel.transform
  parameter : IsName sel.parameter
  terminal : ∀ name ∈ sel.terminal, IsName name

theorem legible_selection {e : Expr} {sel : Selection} (h : e.Steady S)
    (hs : SelectionForm.ofExpr e = .selection sel) : sel.Legible S := by
  have hsel := within_of_selection hs
  have hnode : e.Every (Steady S) := every_of_inherited Steady.child h
  have hown {n : Expr} (hn : n ∈ e.nodes) : n.Spellable S := (h.1 n hn).spellable
  obtain ⟨target, args, hcall⟩ := hsel.call
  exact {
    base := (hnode _ hsel.access).child (by simp [children])
    body := (hnode _ hsel.function).child (by simp [children])
    fallback := fun f hf => hnode f (hsel.fallback f hf)
    typeArgs := fun u hu => ((hown hcall).types u hu).legible
    transform := (hown hsel.access).own _ List.mem_cons_self
    parameter := (hown hsel.function).own _ List.mem_cons_self
    terminal := by
      intro name hname
      obtain ⟨t, o, hmember⟩ := hsel.terminal name hname
      exact (hown hmember).own _ List.mem_cons_self }

theorem every_sayable_rebuild {sel : Selection} {receiver body : Expr} (h : sel.Legible S)
    (hr : receiver.Every (Sayable S)) (hb : body.Every (Sayable S)) :
    (sel.rebuild receiver body).Every (Sayable S) ∧
      (sel.rebuild receiver body).isMarked = false := by
  have hdot {t : Expr} {name : String} :
      (t.dot name).spelled.isCallable = true ∧ (t.dot name).spelled.isName = true := by
    rw [dot, spelled_member]
    exact ⟨rfl, rfl⟩
  have hcall : (Expr.invoke (receiver.dot sel.transform) sel.typeArgs
      [.lambda [sel.parameter] body]).Every (Sayable S) := by
    refine every_iff.2 ⟨sayable_invoke h.typeArgs (fun _ => hdot.1) (fun _ => hdot.2), ?_⟩
    refine List.forall_mem_cons.2 ⟨every_sayable_dot hr h.transform, ?_⟩
    refine List.forall_mem_singleton.2 (every_iff.2 ⟨sayable_lambda ?_, ?_⟩)
    · exact List.forall_mem_singleton.2 h.parameter
    · exact List.forall_mem_singleton.2 hb
  refine rebuild_cases (P := fun e => e.Every (Sayable S) ∧ e.isMarked = false) rfl ⟨hcall, rfl⟩
    fun name hname => ⟨every_iff.2 ⟨sayable_invoke (by simp) (fun _ => hdot.1) (by simp), ?_⟩, rfl⟩
  exact List.forall_mem_singleton.2 (every_sayable_dot hcall (h.terminal name hname))

theorem every_sayable_finishSelection {Γ : Context} {declared : TypeRef} {sel : Selection}
    {r : Lowered Spine} {b : Lowered Expr} {f : Expr → Lowered Expr} (h : sel.Legible S)
    (hd : declared.Declared) (hr : r.value.Follows S sel.base) (hb : b.value.Every (Sayable S))
    (hf : ∀ d ∈ sel.fallback, (f d).value.Every (Sayable S) ∧ (f d).value.Shown) :
    (finishSelection Γ declared sel r b f).value.Every (Sayable S) := by
  obtain ⟨hexpr, hguards, -⟩ := hr.present Γ sel.optional
  obtain ⟨hrebuild, hm⟩ := every_sayable_rebuild h hexpr hb
  rw [value_finishSelection]
  refine every_sayable_guardSelection hd hguards hrebuild (shown_of_isMarked hm) ?_
  intro x hx
  obtain ⟨d, hd, rfl⟩ := Option.map_eq_some_iff.1 hx
  exact hf d hd

/-- A function among the arguments of a call is entered with elements of an inferred type. -/
theorem inferred_enter {V : Vocabulary} {Γ : Context} {target : Expr} (hΓ : Γ.Inferred V)
    (h : V.source target) (params : List String) :
    (enter Γ params (argumentElement? Γ target)).Inferred V := by
  refine enter_argument hΓ fun receiver name optional t hu ht => ?_
  have haccess := V.unparen h
  rw [hu] at haccess
  have helement := infers_elementType? hΓ (V.child haccess (by simp [children])) t ht
  exact hΓ.bindAll (List.forall_mem_cons.2
    ⟨helement, List.forall_mem_singleton.2 (.written .primitive)⟩)

def sayingRelation (S : Strings) : Relation where
  expr Γ e declared x := Γ.Inferred (.readableWith S) → e.Steady S → (∀ t ∈ declared, t.Declared) →
    x.value.Every (Sayable S) ∧ x.value.Replaces e
  node Γ e declared x := e.chainOptional = false → Γ.Inferred (.readableWith S) → e.Steady S →
    (∀ t ∈ declared, t.Declared) → x.value.Every (Sayable S) ∧ x.value.Replaces e
  creation Γ s x := Γ.Inferred (.readableWith S) → s.Readable S →
    x.value.Every (Sayable S) ∧ ∃ t ms, x.value = .creation t [] (some ms)
  property Γ p x := Γ.Inferred (.readableWith S) → p.Readable S → (∀ n ∈ p.nested, n.Readable S) →
    x.value.Every (Sayable S)
  collection Γ e declared nested x :=
    Γ.Inferred (.readableWith S) → e.Steady S → declared.Declared →
    (∀ n ∈ nested, n.Readable S) → x.value.Every (Sayable S)
  spine Γ e x := Γ.Inferred (.readableWith S) → e.Steady S → x.value.Follows S e
  argument Γ arg element x := (∀ params, (enter Γ params element).Inferred (.readableWith S)) →
    Γ.Inferred (.readableWith S) → arg.Steady S → x.value.Every (Sayable S)

theorem every_sayable_marked {e : Expr} (h : e.Steady S) (note : String) :
    (Expr.marked note e).Every (Sayable S) :=
  every_iff.2 ⟨sayable_marked note e, List.forall_mem_singleton.2 (every_sayable_of_formed h.1)⟩

theorem every_sayable_select {Γ : Context} {e : Expr} {declared element : TypeRef} {sel : Selection}
    {r : Lowered Spine} {b : Lowered Expr} {f : Expr → Lowered Expr}
    (hsel : SelectionForm.ofExpr e = .selection sel)
    (helement : elementType? Γ sel.base = some element)
    (hr : (sayingRelation S).spine Γ sel.base r)
    (hf : ∀ d, (sayingRelation S).expr Γ d (some declared) (f d))
    (hΓ : Γ.Inferred (.readableWith S)) (he : e.Steady S) (ht : declared.Declared)
    (hb : (Γ.bind sel.parameter element).Inferred (.readableWith S) → sel.body.Steady S →
      b.value.Every (Sayable S)) :
    (finishSelection Γ declared sel r b f).value.Every (Sayable S) := by
  have hlegible := legible_selection he hsel
  have hinner := infers_elementType? hΓ hlegible.base element helement
  refine every_sayable_finishSelection hlegible ht (hr hΓ hlegible.base)
    (hb (hΓ.bind hinner) hlegible.body) fun d hd => ?_
  have hd := hf d hΓ (hlegible.fallback d hd) (by rintro _ ⟨⟩; exact ht)
  exact ⟨hd.1, hd.2.shown⟩

theorem sayingRelation_kept (S : Strings) (settings : Settings) :
    (sayingRelation S).Kept settings where
  chain := by
    intro Γ e declared s ho h hΓ he hd
    refine sayable_closeChain ho ?_ (h hΓ he)
    intro t ht
    cases declared with
    | none => exact (infers_infer? hΓ he t ht).declared
    | some d => exact hd t ht
  noChain ho h := h ho
  call := by
    intro Γ target typeArgs args declared t f ht ha ho hΓ he hd
    have htarget : target.Steady S := he.child (by simp [children])
    obtain ⟨htree, hreplaces⟩ := ht hΓ htarget (by simp)
    refine ⟨every_sayable_call he htree hreplaces.callable (hreplaces.name ho) ?_,
      .invoke target _ _ _ _⟩
    exact Lowered.forall_value_all fun a hm =>
      ha a hm (inferred_enter hΓ htarget) hΓ (he.child (by simp [children, hm]))
  untypedObject _ _ _ he _ := ⟨every_sayable_marked he _, .object _ _⟩
  deepObject _ _ he _ := ⟨every_sayable_marked he _, .object _ _⟩
  object := by
    intro Γ members declared x _ hx _ hΓ he _
    obtain ⟨htree, t, ms, heq⟩ := hx hΓ (Structure.readable_ofType (inferred_anonymousType hΓ he))
    refine ⟨htree, ?_⟩
    rw [Lowered.value_followed, heq]
    exact .creation t [] ms members
  conditional := by
    intro Γ c t f declared x y z hc ht hf _ hΓ he hd
    obtain ⟨hx, -⟩ := hc hΓ (he.child (by simp [children])) (by simp)
    obtain ⟨hy, hys⟩ := ht hΓ (he.child (by simp [children])) hd
    obtain ⟨hz, hzs⟩ := hf hΓ (he.child (by simp [children])) hd
    refine ⟨every_iff.2 ⟨sayable_conditional hys.shown hzs.shown, ?_⟩,
      .conditional (by rintro ⟨⟩) _ _ _⟩
    exact List.forall_mem_cons.2 ⟨hx, List.forall_mem_cons.2 ⟨hy, List.forall_mem_singleton.2 hz⟩⟩
  paren := by
    intro Γ inner declared x h _ hΓ he hd
    obtain ⟨htree, hreplaces⟩ := h hΓ (he.child (by simp [children])) hd
    exact ⟨every_iff.2 ⟨sayable_paren _, List.forall_mem_singleton.2 htree⟩, hreplaces.paren⟩
  other := by
    intro Γ e declared f hi ho _ _ hc _ hΓ he _
    have hchild : ∀ c ∈ e.children, (f c).value.Every (Sayable S) ∧ (f c).value.Replaces c :=
      fun c hm => hc c hm hΓ (he.child hm) (by simp)
    have hreplaces := fun c hm => (hchild c hm).2
    rw [Lowered.value_map, Lowered.value_all, List.map_map]
    refine ⟨every_withChildren (sayable_withChildren he.1.self hi hreplaces) (by simp) ?_, ?_⟩
    · exact List.forall_mem_map.2 fun c hm => (hchild c hm).1
    · exact .withChildren he.1.self.spellable ho hreplaces
  create := by
    intro Γ s f h hΓ hs
    obtain ⟨hid, hp⟩ := hs s (Structure.self_mem_all s)
    refine ⟨every_iff.2 ⟨sayable_creation (.generated hid) ?_, ?_⟩, _, _, rfl⟩
    · refine Lowered.forall_value_all fun p hm n hn => ?_
      cases hn
      exact (hp p hm).name
    · refine List.forall_mem_map.2 (Lowered.forall_value_all fun p hm => ?_)
      exact h p hm hΓ (hp p hm) fun n hn => hs.nested hm hn
  collectionProperty h hΓ hp hn := h hΓ hp.source hp.type hn
  objectProperty h hΓ _ hn := (h hΓ (hn _ rfl)).1
  openProperty _ hp _ := every_sayable_marked hp.source _
  valueProperty := by
    intro Γ p x _ _ h hΓ hp _
    refine (h hΓ hp.source ?_).1
    rintro _ ⟨⟩
    exact hp.type
  noSelection := by
    intro Γ e declared nested x _ h hΓ he ht _
    refine (h hΓ he ?_).1
    rintro _ ⟨⟩
    exact ht
  refused reason _ he _ _ := every_sayable_marked he reason
  refusedBody reason _ _ _ he _ _ := every_sayable_marked he reason
  selectObjects hsel helement _ hr hf hb hΓ he ht hn :=
    every_sayable_select hsel helement hr hf hΓ he ht fun hinner _ => (hb hinner (hn _ rfl)).1
  select hsel helement _ hr hf hb hΓ he ht _ :=
    every_sayable_select hsel helement hr hf hΓ he ht fun hinner hbody =>
      (hb hinner hbody (by simp)).1
  memberSpine h hΓ he :=
    (h hΓ (he.child (by simp [children]))).member _ (he.1.self.spellable.own _ List.mem_cons_self) _
  indexSpine := by
    intro Γ target args optional s f h ha hΓ he
    refine (h hΓ (he.child (by simp [children]))).index Γ ?_ optional
    exact Lowered.forall_value_all fun a hm =>
      (ha a hm hΓ (he.child (by simp [children, hm])) (by simp)).1
  callSpine := by
    intro Γ target typeArgs args s f h ha hΓ he
    have htarget : target.Steady S := he.child (by simp [children])
    refine (h hΓ htarget).invoke he (Lowered.forall_value_all fun a hm => ?_)
    exact ha a hm (inferred_enter hΓ htarget) hΓ (he.child (by simp [children, hm]))
  startSpine ho h hΓ he :=
    follows_plain ho (h ho hΓ he (by simp)).1 (h ho hΓ he (by simp)).2
  lambdaArgument := by
    intro Γ arg element params body x hu h hΓ' hΓ he
    have hlambda : (Expr.lambda params body).Steady S := hu ▸ (Vocabulary.readableWith S).unparen he
    have hbody := (h (hΓ' params) (hlambda.child (by simp [children])) (by simp)).1
    refine every_iff.2 ⟨sayable_lambda fun p hp => ?_, List.forall_mem_singleton.2 hbody⟩
    exact hlambda.1.self.spellable.own (.ident p) (List.mem_map_of_mem hp)
  valueArgument h _ hΓ he := (h hΓ he (by simp)).1

end Projection.Lowering
