import Projection.Proofs.Expr.Nodes
import Projection.Proofs.Lowering.Rules
import Projection.Proofs.Structure.Nested
import Projection.Proofs.TypeRef.Generated

/-!
Properties of lowered trees. One that is kept by each way in which lowering builds a tree holds of
all that lowering gives, as long as the structures that are created and mentioned are known.
-/

namespace Projection.Lowering

open Typing Projection.Expr

theorem splitFallback_mem_nodes (e : Expr) :
    (splitFallback e).1 ∈ e.nodes ∧ ∀ f ∈ (splitFallback e).2, f ∈ e.nodes := by
  have hu := unparen_mem_nodes e
  unfold splitFallback
  split
  · rename_i l r heq
    rw [heq] at hu
    refine ⟨nodes_subset hu (mem_nodes_of_mem_children ?_ (unparen_mem_nodes l)), ?_⟩
    · simp [children]
    · rintro _ ⟨⟩
      exact nodes_subset hu (mem_nodes_of_mem_children (by simp [children]) (self_mem_nodes r))
  · exact ⟨hu, by simp⟩

theorem splitTerminal_mem_nodes (e : Expr) :
    (splitTerminal e).1 ∈ e.nodes ∧
      ∀ name ∈ (splitTerminal e).2, ∃ t o, Expr.member t name o ∈ e.nodes := by
  unfold splitTerminal
  split
  · rename_i target
    have htarget : target.unparen ∈ (Expr.invoke target [] []).nodes :=
      mem_nodes_of_mem_children (by simp [children]) (unparen_mem_nodes target)
    split
    · rename_i inner name optional heq
      rw [heq] at htarget
      split
      · refine ⟨nodes_subset htarget (mem_nodes_of_mem_children ?_ (unparen_mem_nodes inner)), ?_⟩
        · simp [children]
        · rintro _ ⟨⟩
          exact ⟨inner, optional, htarget⟩
      · exact ⟨self_mem_nodes _, by simp⟩
    · exact ⟨self_mem_nodes _, by simp⟩
  · exact ⟨self_mem_nodes _, by simp⟩

structure Selection.Within (sel : Selection) (e : Expr) : Prop where
  access : Expr.member sel.base sel.transform sel.optional ∈ e.nodes
  call : ∃ target args, Expr.invoke target sel.typeArgs args ∈ e.nodes
  function : Expr.lambda [sel.parameter] sel.body ∈ e.nodes
  terminal : ∀ name ∈ sel.terminal, ∃ t o, Expr.member t name o ∈ e.nodes
  fallback : ∀ f ∈ sel.fallback, f ∈ e.nodes

theorem within_of_selection {e : Expr} {sel : Selection}
    (h : SelectionForm.ofExpr e = .selection sel) : sel.Within e := by
  obtain ⟨hcore, hfallback⟩ := splitFallback_mem_nodes e
  obtain ⟨hcall, hterminal⟩ := splitTerminal_mem_nodes (splitFallback e).1
  have hinvoke := nodes_subset hcore hcall
  unfold SelectionForm.ofExpr at h
  split at h
  · rename_i target typeArgs args heq
    rw [heq] at hinvoke
    have htarget := nodes_subset hinvoke (mem_nodes_of_mem_children
      (show target ∈ (Expr.invoke target typeArgs args).children by simp [children])
      (unparen_mem_nodes target))
    split at h
    · rename_i hm
      rw [hm] at htarget
      split at h
      · split at h
        · cases h
        · rename_i parameter body hsel
          cases h
          refine ⟨htarget, ⟨target, args, hinvoke⟩, ?_, fun name hname => ?_, hfallback⟩
          · unfold selector at hsel
            split at hsel
            · rename_i arg
              have harg := nodes_subset hinvoke (mem_nodes_of_mem_children
                (show arg ∈ (Expr.invoke target typeArgs [arg]).children by simp [children])
                (unparen_mem_nodes arg))
              split at hsel
              · rename_i hl
                cases hsel
                rwa [hl] at harg
              · cases hsel
              · cases hsel
            · cases hsel
          · obtain ⟨t, o, ht⟩ := hterminal name hname
            exact ⟨t, o, nodes_subset hcore ht⟩
      · cases h
    · cases h
  · cases h

structure Invariant where
  /-- Of what comes out. -/
  tree : Expr → Prop
  /-- Of what goes in. -/
  source : Expr → Prop
  context : Context → Prop
  /-- Of structures that may be mentioned and created. -/
  known : Structure → Prop
  /-- Of structures that are made for object literals on the way. -/
  made : Structure → Prop

namespace Invariant

def Names (V : Invariant) (id : StructuralId) : Prop := ∃ s, V.known s ∧ s.id = id

def Writes (V : Invariant) (t : TypeExpr) : Prop := ∀ id ∈ t.generatedIds, V.Names id

def Writable (V : Invariant) (t : TypeRef) : Prop := ∀ id ∈ t.generatedIds, V.Names id

def Sourced (V : Invariant) (s : Structure) : Prop :=
  ∀ q ∈ s.all, ∀ p ∈ q.properties, V.source p.source.expr

def Known (V : Invariant) (s : Structure) : Prop :=
  ∀ q ∈ s.all, V.known q ∧ ∀ p ∈ q.properties, V.Writable p.declaredType

structure Kept (V : Invariant) (settings : Settings) : Prop where
  ident : ∀ {name}, V.tree (.ident name)
  literal : ∀ {l}, V.tree (.literal l)
  defaultValue : V.tree (.defaultValue none)
  dot : ∀ {t name}, V.tree t → V.tree (t.dot name)
  index : ∀ {t as}, V.tree t → (∀ a ∈ as, V.tree a) → V.tree (.index t as false)
  invoke : ∀ {t ts as}, V.tree t → (∀ u ∈ ts, V.Writes u) → (∀ a ∈ as, V.tree a) →
    V.tree (.invoke t ts as)
  lambda : ∀ {params body}, V.tree body → V.tree (.lambda params body)
  conditional : ∀ {c t f}, V.tree c → V.tree t → V.tree f → V.tree (.conditional c t f)
  binary : ∀ {op l r}, V.tree l → V.tree r → V.tree (.binary op l r)
  cast : ∀ {t e}, V.Writes t → V.tree e → V.tree (.cast t e)
  paren : ∀ {e}, V.tree e → V.tree (.paren e)
  marked : ∀ {note e}, V.source e → V.tree (.marked note e)
  empty : ∀ {t}, V.Writes t → (∀ id, t ≠ .generated id) → V.tree (.creation t [] none)
  create : ∀ {s} {f : Property → Expr}, V.known s → (∀ p ∈ s.properties, V.tree (f p)) →
    V.tree (.creation (.generated s.id) []
      (some (s.properties.map fun p => .named p.name (f p))))
  copy : ∀ {e cs}, V.source e → e.isSurface = false → cs.length = e.children.length →
    (∀ c ∈ cs, V.tree c) → V.tree (e.withChildren cs)
  child : ∀ {c e}, V.source e → c ∈ e.children → V.source c
  typeArgs : ∀ {t ts as}, V.source (.invoke t ts as) → ∀ u ∈ ts, V.Writes u
  inferred : ∀ {Γ e t}, V.context Γ → V.source e → infer? Γ e = some t → V.Writable t
  bind : ∀ {Γ e t name}, V.context Γ → V.source e → elementType? Γ e = some t →
    V.context (Γ.bind name t)
  enter : ∀ {Γ e t params}, V.context Γ → V.source e → elementType? Γ e = some t →
    V.context (Γ.bindAll params [t, .int])
  object : ∀ {Γ members}, V.context Γ → V.source (.anonymous members) →
    V.made (Structure.ofType settings (anonymousType Γ members))
  sourced : ∀ {s}, V.made s → V.Sourced s

variable {V : Invariant} {settings : Settings}

theorem Writable.expr? {t : TypeRef} {e : TypeExpr} (h : V.Writable t) (he : t.expr? = some e) :
    V.Writes e := by
  intro id hid
  rw [TypeRef.generatedIds_of_expr? he] at hid
  exact h id hid

theorem Writable.nonNullable {t : TypeRef} (h : V.Writable t) : V.Writable t.nonNullable := by
  intro id hid
  rw [TypeRef.nonNullable, TypeRef.generatedIds_withNullable] at hid
  exact h id hid

theorem Writable.element? {t u : TypeRef} (h : V.Writable t) (hu : t.element? = some u) :
    V.Writable u :=
  fun id hid => h id (TypeRef.generatedIds_element?_subset hu hid)

theorem Known.nested {s n : Structure} {p : Property} (h : V.Known s) (hp : p ∈ s.properties)
    (hn : p.nested = some n) : V.Known n :=
  fun q hq => h q (Structure.mem_all_of_mem_inner (Structure.mem_inner_of_nested hp hn hq))

theorem Sourced.nested {s n : Structure} {p : Property} (h : V.Sourced s) (hp : p ∈ s.properties)
    (hn : p.nested = some n) : V.Sourced n :=
  fun q hq => h q (Structure.mem_all_of_mem_inner (Structure.mem_inner_of_nested hp hn hq))

theorem not_generated_of_isNamed {type : TypeRef} {t : TypeExpr}
    (h : type.isNamed "List" = true ∨ type.isNamed "HashSet" = true)
    (ht : type.nonNullable.expr? = some t) (id : StructuralId) : t ≠ .generated id := by
  obtain ⟨kind, n⟩ := type
  cases kind with
  | named name args v =>
      obtain ⟨es, _, rfl⟩ := Option.map_eq_some_iff.1 ht
      exact TypeExpr.noConfusion
  | primitive _ | array _ | anonymous _ | generated _ => simp [TypeRef.isNamed] at h

namespace Kept

theorem qualified (rules : V.Kept settings) (path : String) : V.tree (Expr.qualified path) := by
  unfold Expr.qualified
  split
  · exact rules.ident
  · exact List.foldlRecOn _ _ rules.ident fun _ he _ _ => rules.dot he

theorem emptyOf (rules : V.Kept settings) (owner : String) {element : TypeExpr}
    (h : V.Writes element) : V.tree (Lowering.emptyOf owner element) :=
  rules.invoke (rules.dot (rules.qualified owner)) (List.forall_mem_singleton.2 h) (by simp)

theorem emptySequence? (rules : V.Kept settings) {type : TypeRef} {e : Expr}
    (ht : V.Writable type) (h : Lowering.emptySequence? type = some e) : V.tree e := by
  have helement {element : TypeExpr} (he : type.element?.bind TypeRef.expr? = some element) :
      V.Writes element := by
    obtain ⟨u, hu, he⟩ := Option.bind_eq_some_iff.1 he
    exact (ht.element? hu).expr? he
  refine emptySequence?_cases h ?_ ?_ ?_ ?_
  · exact fun _ he => rules.emptyOf _ (helement he)
  · exact fun _ he => rules.emptyOf _ (helement he)
  · exact fun hempty => rules.invoke (rules.dot (rules.qualified _)) (by simp)
      (List.forall_mem_singleton.2 hempty)
  · exact fun t hn ht' => rules.empty (ht.nonNullable.expr? ht') (not_generated_of_isNamed hn ht')

theorem absentValue (rules : V.Kept settings) {type : Option TypeRef}
    (h : ∀ t ∈ type, V.Writable t) : V.tree (Lowering.absentValue type) :=
  absentValue_cases rules.defaultValue (fun _ _ => rules.literal) fun t ht _ he =>
    rules.emptySequence? (h t ht) he

theorem castTo (rules : V.Kept settings) {type : Option TypeRef} {e : Expr}
    (h : ∀ t ∈ type, V.Writable t) (he : V.tree e) : V.tree (Lowering.castTo type e) :=
  castTo_cases he fun u hu _ ht => rules.cast ((h u hu).expr? ht) he

theorem present (rules : V.Kept settings) (Γ : Context) (target : Expr) (optional : Bool)
    {s : Spine} (h : V.tree s.expr ∧ ∀ g ∈ s.guards, V.tree g) :
    V.tree (Lowering.present Γ target optional s).expr ∧
      ∀ g ∈ (Lowering.present Γ target optional s).guards, V.tree g := by
  unfold Lowering.present
  split
  · refine ⟨?_, ?_⟩
    · dsimp only
      split
      · exact rules.dot h.1
      · exact h.1
    · refine List.forall_mem_append.2 ⟨h.2, ?_⟩
      exact List.forall_mem_singleton.2 (rules.binary h.1 rules.literal)
  · exact h

theorem closeChain (rules : V.Kept settings) {Γ : Context} {e : Expr} {declared : Option TypeRef}
    {s : Spine} (ht : ∀ t ∈ declared.or (infer? Γ e), V.Writable t)
    (h : V.tree s.expr ∧ ∀ g ∈ s.guards, V.tree g) :
    V.tree (Lowering.closeChain Γ e declared s) := by
  unfold Lowering.closeChain
  split
  · exact h.1
  · rename_i guard hg
    have hguard : V.tree guard := forall_all rules.binary hg h.2
    exact rules.conditional hguard (rules.castTo ht h.1) (rules.absentValue ht)

theorem guardSelection (rules : V.Kept settings) {declared : TypeRef} {guards : List Expr}
    {result : Expr} {fallback : Option Expr} (ht : V.Writable declared)
    (hg : ∀ g ∈ guards, V.tree g) (hr : V.tree result) (hf : ∀ f ∈ fallback, V.tree f) :
    V.tree (Lowering.guardSelection declared guards result fallback) := by
  refine guardSelection_cases hr (fun guard f h hcase => ?_) fun f h => rules.binary hr (hf f h)
  refine rules.conditional (forall_all rules.binary h hg) hr ?_
  rcases hcase with hfallback | rfl
  · exact hf f hfallback
  · refine rules.absentValue ?_
    rintro _ ⟨⟩
    exact ht

theorem rebuild (rules : V.Kept settings) {sel : Selection} {receiver body : Expr}
    (ht : ∀ u ∈ sel.typeArgs, V.Writes u) (hr : V.tree receiver) (hb : V.tree body) :
    V.tree (sel.rebuild receiver body) := by
  have hcall : V.tree (.invoke (receiver.dot sel.transform) sel.typeArgs
      [.lambda [sel.parameter] body]) :=
    rules.invoke (rules.dot hr) ht (List.forall_mem_singleton.2 (rules.lambda hb))
  exact rebuild_cases rfl hcall fun _ _ => rules.invoke (rules.dot hcall) (by simp) (by simp)

theorem finishSelection (rules : V.Kept settings) {Γ : Context} {declared : TypeRef}
    {sel : Selection} {r : Lowered Spine} {b : Lowered Expr} {f : Expr → Lowered Expr}
    (hd : V.Writable declared) (ht : ∀ u ∈ sel.typeArgs, V.Writes u)
    (hr : V.tree r.value.expr ∧ ∀ g ∈ r.value.guards, V.tree g) (hb : V.tree b.value)
    (hf : ∀ d ∈ sel.fallback, V.tree (f d).value) :
    V.tree (Lowering.finishSelection Γ declared sel r b f).value := by
  have hs := rules.present Γ sel.base sel.optional hr
  rw [value_finishSelection]
  refine rules.guardSelection hd hs.2 (rules.rebuild ht hs.1 hb) ?_
  intro x hx
  obtain ⟨d, hd, rfl⟩ := Option.map_eq_some_iff.1 hx
  exact hf d hd

theorem mem_nodes (rules : V.Kept settings) {n e : Expr} (h : V.source e) (hn : n ∈ e.nodes) :
    V.source n :=
  every_of_inherited rules.child h n hn

theorem unparen (rules : V.Kept settings) {e : Expr} (h : V.source e) : V.source e.unparen :=
  rules.mem_nodes h (unparen_mem_nodes e)

/-- The parts of a selection go in when the whole does. -/
theorem selection (rules : V.Kept settings) {e : Expr} {sel : Selection} (h : V.source e)
    (hs : SelectionForm.ofExpr e = .selection sel) :
    V.source sel.base ∧ V.source sel.body ∧ (∀ f ∈ sel.fallback, V.source f) ∧
      ∀ u ∈ sel.typeArgs, V.Writes u := by
  have hsel := within_of_selection hs
  obtain ⟨target, args, hcall⟩ := hsel.call
  refine ⟨?_, ?_, fun f hf => rules.mem_nodes h (hsel.fallback f hf),
    rules.typeArgs (rules.mem_nodes h hcall)⟩
  · exact rules.child (rules.mem_nodes h hsel.access) (by simp [children])
  · exact rules.child (rules.mem_nodes h hsel.function) (by simp [children])

/-- A function among the arguments of a call is entered with a context as good as that of the
call. -/
theorem enterArgument (rules : V.Kept settings) {Γ : Context} {target : Expr} (hΓ : V.context Γ)
    (h : V.source target) (params : List String) :
    V.context (Lowering.enter Γ params (argumentElement? Γ target)) := by
  refine enter_argument hΓ fun receiver name optional t hu ht => ?_
  have haccess := rules.unparen h
  rw [hu] at haccess
  exact rules.enter hΓ (rules.child haccess (by simp [children])) ht

end Kept

/-- What is proved of trees along with lowering. A node may be copied as it stands only where it
ends no optional chain. -/
def treeRelation (V : Invariant) : Relation where
  expr Γ e declared x := V.context Γ → V.source e → (∀ t ∈ declared, V.Writable t) →
    (∀ s ∈ x.structures, V.Known s) → V.tree x.value
  node Γ e declared x := e.chainOptional = false → V.context Γ → V.source e →
    (∀ t ∈ declared, V.Writable t) → (∀ s ∈ x.structures, V.Known s) → V.tree x.value
  creation Γ s x := V.context Γ → V.Sourced s → V.Known s → (∀ s ∈ x.structures, V.Known s) →
    V.tree x.value
  property Γ p x := V.context Γ → V.source p.source.expr → V.Writable p.declaredType →
    (∀ n ∈ p.nested, V.Sourced n ∧ V.Known n) → (∀ s ∈ x.structures, V.Known s) → V.tree x.value
  collection Γ e declared nested x := V.context Γ → V.source e → V.Writable declared →
    (∀ n ∈ nested, V.Sourced n ∧ V.Known n) → (∀ s ∈ x.structures, V.Known s) → V.tree x.value
  spine Γ e x := V.context Γ → V.source e → (∀ s ∈ x.structures, V.Known s) →
    V.tree x.value.expr ∧ ∀ g ∈ x.value.guards, V.tree g
  argument Γ arg element x := (∀ params, V.context (Lowering.enter Γ params element)) →
    V.context Γ → V.source arg → (∀ s ∈ x.structures, V.Known s) → V.tree x.value

theorem Kept.treeRelation_kept (rules : V.Kept settings) : (treeRelation V).Kept settings where
  chain := by
    intro Γ e declared s _ h hΓ he hd hs
    refine rules.closeChain ?_ (h hΓ he hs)
    intro t ht
    cases declared with
    | none => exact rules.inferred hΓ he ht
    | some d => exact hd t ht
  noChain h hn := hn h
  call := by
    intro Γ target typeArgs args declared t f ht ha _ hΓ he hd hs
    rw [Lowered.structures_map, Lowered.structures_both, List.forall_mem_append,
      Lowered.forall_structures_all] at hs
    have htarget := rules.child he (show target ∈ _ by simp [children])
    refine rules.invoke (ht hΓ htarget (by simp) hs.1) (rules.typeArgs he) ?_
    refine Lowered.forall_value_all fun a hm => ?_
    exact ha a hm (rules.enterArgument hΓ htarget) hΓ (rules.child he (by simp [children, hm]))
      (hs.2 a hm)
  untypedObject _ _ _ he _ _ := rules.marked he
  deepObject _ _ he _ _ := rules.marked he
  object := by
    intro Γ members declared x _ hx _ hΓ he _ hs
    rw [Lowered.structures_followed, List.forall_mem_append, List.forall_mem_singleton] at hs
    exact hx hΓ (rules.sourced (rules.object hΓ he)) hs.2 hs.1
  conditional := by
    intro Γ c t f declared x y z hc ht hf _ hΓ he hd hs
    simp only [Lowered.structures_map, Lowered.structures_both, List.forall_mem_append] at hs
    exact rules.conditional
      (hc hΓ (rules.child he (by simp [children])) (by simp) hs.1)
      (ht hΓ (rules.child he (by simp [children])) hd hs.2.1)
      (hf hΓ (rules.child he (by simp [children])) hd hs.2.2)
  paren := by
    intro Γ inner declared x h _ hΓ he hd hs
    exact rules.paren (h hΓ (rules.child he (by simp [children])) hd hs)
  other := by
    intro Γ e declared f _ ho _ _ hc h hΓ he _ hs
    rw [Lowered.structures_map, Lowered.forall_structures_all] at hs
    refine rules.copy he (isSurface_of_not_chainOptional h ho) (by simp) ?_
    exact Lowered.forall_value_all fun c hm =>
      hc c hm hΓ (rules.child he hm) (by simp) (hs c hm)
  create := by
    intro Γ s f h hΓ hsourced hknown hs
    rw [Lowered.structures_map, Lowered.forall_structures_all] at hs
    have hself := Structure.self_mem_all s
    have hcreate := rules.create (f := fun p => (f p).value) (hknown s hself).1 fun p hp =>
      h p hp hΓ (hsourced s hself p hp) ((hknown s hself).2 p hp)
        (fun n hn => ⟨hsourced.nested hp hn, hknown.nested hp hn⟩) (hs p hp)
    simpa [Lowered.map, Function.comp_def] using hcreate
  collectionProperty h := h
  objectProperty := by
    intro Γ name type nullable members e s x h hΓ he ht hn hs
    obtain ⟨hsourced, hknown⟩ := hn s rfl
    exact h hΓ hsourced hknown hs
  openProperty _ he _ _ _ := rules.marked he
  valueProperty := by
    intro Γ p x _ _ h hΓ he ht _ hs
    refine h hΓ he ?_ hs
    rintro _ ⟨⟩
    exact ht
  noSelection := by
    intro Γ e declared nested x _ h hΓ he ht _ hs
    refine h hΓ he ?_ hs
    rintro _ ⟨⟩
    exact ht
  refused _ _ he _ _ _ := rules.marked he
  refusedBody _ _ _ _ he _ _ _ := rules.marked he
  selectObjects := by
    intro Γ e declared sel element s r b f hsel helement _ hr hf hb hΓ he ht hn hs
    rw [forall_structures_finishSelection] at hs
    obtain ⟨hbase, _, hfallback, hargs⟩ := rules.selection he hsel
    obtain ⟨hsourced, hknown⟩ := hn s rfl
    refine rules.finishSelection ht hargs (hr hΓ hbase hs.1)
      (hb (rules.bind hΓ hbase helement) hsourced hknown hs.2.1) ?_
    intro d hd
    refine hf d hΓ (hfallback d hd) ?_ (hs.2.2 d hd)
    rintro _ ⟨⟩
    exact ht
  select := by
    intro Γ e declared nested sel element r b f hsel helement _ hr hf hb hΓ he ht _ hs
    rw [forall_structures_finishSelection] at hs
    obtain ⟨hbase, hbody, hfallback, hargs⟩ := rules.selection he hsel
    refine rules.finishSelection ht hargs (hr hΓ hbase hs.1)
      (hb (rules.bind hΓ hbase helement) hbody (by simp) hs.2.1) ?_
    intro d hd
    refine hf d hΓ (hfallback d hd) ?_ (hs.2.2 d hd)
    rintro _ ⟨⟩
    exact ht
  memberSpine := by
    intro Γ target name optional s h hΓ he hs
    have hp := rules.present Γ target optional (h hΓ (rules.child he (by simp [children])) hs)
    exact ⟨rules.dot hp.1, hp.2⟩
  indexSpine := by
    intro Γ target args optional s f h ha hΓ he hs
    rw [Lowered.structures_map, Lowered.structures_both, List.forall_mem_append,
      Lowered.forall_structures_all] at hs
    have hp := rules.present Γ target optional
      (h hΓ (rules.child he (by simp [children])) hs.1)
    refine ⟨rules.index hp.1 ?_, hp.2⟩
    exact Lowered.forall_value_all fun a hm =>
      ha a hm hΓ (rules.child he (by simp [children, hm])) (by simp) (hs.2 a hm)
  callSpine := by
    intro Γ target typeArgs args s f h ha hΓ he hs
    rw [Lowered.structures_map, Lowered.structures_both, List.forall_mem_append,
      Lowered.forall_structures_all] at hs
    have htarget := rules.child he (show target ∈ _ by simp [children])
    have hp := h hΓ htarget hs.1
    refine ⟨rules.invoke hp.1 (rules.typeArgs he) ?_, hp.2⟩
    refine Lowered.forall_value_all fun a hm => ?_
    exact ha a hm (rules.enterArgument hΓ htarget) hΓ (rules.child he (by simp [children, hm]))
      (hs.2 a hm)
  startSpine := by
    intro Γ e x h hn hΓ he hs
    exact ⟨hn h hΓ he (by simp) hs, by simp [Spine.plain]⟩
  lambdaArgument := by
    intro Γ arg element params body x hu h henter hΓ he hs
    have hbody := rules.unparen he
    rw [hu] at hbody
    exact rules.lambda
      (h (henter params) (rules.child hbody (by simp [children])) (by simp) hs)
  valueArgument := by
    intro Γ arg element x h henter hΓ he hs
    exact h hΓ he (by simp) hs

def structureRelation (V : Invariant) : Relation where
  expr Γ e _ x := V.context Γ → V.source e → ∀ s ∈ x.structures, V.made s
  node Γ e _ x := V.context Γ → V.source e → ∀ s ∈ x.structures, V.made s
  creation Γ s x := V.context Γ → V.Sourced s → ∀ s ∈ x.structures, V.made s
  property Γ p x := V.context Γ → V.source p.source.expr → (∀ n ∈ p.nested, V.Sourced n) →
    ∀ s ∈ x.structures, V.made s
  collection Γ e _ nested x := V.context Γ → V.source e → (∀ n ∈ nested, V.Sourced n) →
    ∀ s ∈ x.structures, V.made s
  spine Γ e x := V.context Γ → V.source e → ∀ s ∈ x.structures, V.made s
  argument Γ arg element x := (∀ params, V.context (Lowering.enter Γ params element)) →
    V.context Γ → V.source arg → ∀ s ∈ x.structures, V.made s

theorem Kept.structureRelation_kept (rules : V.Kept settings) :
    (structureRelation V).Kept settings where
  chain _ h := h
  noChain _ h := h
  call := by
    intro Γ target typeArgs args declared t f ht ha hΓ he
    have htarget := rules.child he (show target ∈ _ by simp [children])
    rw [Lowered.structures_map, Lowered.structures_both, List.forall_mem_append,
      Lowered.forall_structures_all]
    refine ⟨ht hΓ htarget, fun a hm => ?_⟩
    exact ha a hm (rules.enterArgument hΓ htarget) hΓ (rules.child he (by simp [children, hm]))
  untypedObject _ _ _ := by simp
  deepObject _ _ := by simp
  object := by
    intro Γ members declared x _ hx hΓ he
    have hmade := rules.object hΓ he
    rw [Lowered.structures_followed, List.forall_mem_append, List.forall_mem_singleton]
    exact ⟨hx hΓ (rules.sourced hmade), hmade⟩
  conditional := by
    intro Γ c t f declared x y z hc ht hf hΓ he
    simp only [Lowered.structures_map, Lowered.structures_both, List.forall_mem_append]
    exact ⟨hc hΓ (rules.child he (by simp [children])), ht hΓ (rules.child he (by simp [children])),
      hf hΓ (rules.child he (by simp [children]))⟩
  paren h hΓ he := h hΓ (rules.child he (by simp [children]))
  other := by
    intro Γ e declared f _ _ _ _ hc hΓ he
    rw [Lowered.structures_map, Lowered.forall_structures_all]
    exact fun c hm => hc c hm hΓ (rules.child he hm)
  create := by
    intro Γ s f h hΓ hsourced
    have hself := Structure.self_mem_all s
    rw [Lowered.structures_map, Lowered.forall_structures_all]
    exact fun p hp => h p hp hΓ (hsourced s hself p hp) fun n hn => hsourced.nested hp hn
  collectionProperty h := h
  objectProperty h hΓ _ hn := h hΓ (hn _ rfl)
  openProperty _ _ _ := by simp
  valueProperty _ _ h hΓ he _ := h hΓ he
  noSelection _ h hΓ he _ := h hΓ he
  refused _ _ _ _ := by simp
  refusedBody _ hsel hr hΓ he _ := hr hΓ (rules.selection he hsel).1
  selectObjects := by
    intro Γ e declared sel element s r b f hsel helement _ hr hf hb hΓ he hn
    obtain ⟨hbase, _, hfallback, _⟩ := rules.selection he hsel
    rw [forall_structures_finishSelection]
    exact ⟨hr hΓ hbase, hb (rules.bind hΓ hbase helement) (hn s rfl),
      fun d hd => hf d hΓ (hfallback d hd)⟩
  select := by
    intro Γ e declared nested sel element r b f hsel helement _ hr hf hb hΓ he _
    obtain ⟨hbase, hbody, hfallback, _⟩ := rules.selection he hsel
    rw [forall_structures_finishSelection]
    exact ⟨hr hΓ hbase, hb (rules.bind hΓ hbase helement) hbody,
      fun d hd => hf d hΓ (hfallback d hd)⟩
  memberSpine h hΓ he := h hΓ (rules.child he (by simp [children]))
  indexSpine := by
    intro Γ target args optional s f h ha hΓ he
    rw [Lowered.structures_map, Lowered.structures_both, List.forall_mem_append,
      Lowered.forall_structures_all]
    exact ⟨h hΓ (rules.child he (by simp [children])),
      fun a hm => ha a hm hΓ (rules.child he (by simp [children, hm]))⟩
  callSpine := by
    intro Γ target typeArgs args s f h ha hΓ he
    have htarget := rules.child he (show target ∈ _ by simp [children])
    rw [Lowered.structures_map, Lowered.structures_both, List.forall_mem_append,
      Lowered.forall_structures_all]
    refine ⟨h hΓ htarget, fun a hm => ?_⟩
    exact ha a hm (rules.enterArgument hΓ htarget) hΓ (rules.child he (by simp [children, hm]))
  startSpine _ h := h
  lambdaArgument := by
    intro Γ arg element params body x hu h henter _ he
    have hbody := rules.unparen he
    rw [hu] at hbody
    exact h (henter params) (rules.child hbody (by simp [children]))
  valueArgument h _ := h

structure Admits (V : Invariant) (shape : Shape) (s : Structure) : Prop where
  body : V.source shape.body
  args : ∀ a ∈ shape.constructorArgs, V.source a
  sourced : V.Sourced s

theorem Admits.initializer {shape : Shape} {s : Structure} {t : TypeExpr} {as : List Expr}
    {is : List Initializer} (h : V.Admits shape s) (rules : V.Kept settings)
    (hb : shape.body = .creation t as (some is)) {i : Initializer} (hi : i ∈ is) :
    V.source i.value := by
  have hbody := h.body
  rw [hb] at hbody
  exact rules.child hbody (List.mem_append_right _ (List.mem_map.2 ⟨i, hi, rfl⟩))

structure Covers (V : Invariant) (shape : Shape) (s : Structure) : Prop where
  type : ∀ type, shape.kind = .named type → ∀ args initializers, (∀ a ∈ args, V.tree a) →
    (∀ is ∈ initializers, ∀ i ∈ is, V.tree i.value) → V.tree (.creation type args initializers)
  root : (∀ type, shape.kind ≠ .named type) → V.Known s
  property : ∀ p ∈ s.properties, V.Writable p.declaredType ∧ ∀ n ∈ p.nested, V.Known n

namespace Kept

theorem made_initializer (rules : V.Kept settings) {depth : Nat} {Γ : Context} {s : Structure}
    {i : Initializer} (hΓ : V.context Γ) (hi : V.source i.value) (hs : V.Sourced s) :
    ∀ q ∈ (initializer settings depth Γ s i).structures, V.made q := by
  unfold initializer
  rw [Lowered.structures_map]
  split
  · rename_i p hp
    obtain ⟨name, _, hp⟩ := Option.bind_eq_some_iff.1 hp
    have hp := List.mem_of_find?_eq_some hp
    exact rules.structureRelation_kept.property depth Γ p hΓ
      (hs s (Structure.self_mem_all s) p hp) fun n hn => hs.nested hp hn
  · exact rules.structureRelation_kept.expr depth Γ i.value none hΓ hi

theorem tree_initializer (rules : V.Kept settings) {depth : Nat} {Γ : Context} {s : Structure}
    {i : Initializer} (hΓ : V.context Γ) (hi : V.source i.value) (hs : V.Sourced s)
    (hp : ∀ p ∈ s.properties, V.Writable p.declaredType ∧ ∀ n ∈ p.nested, V.Known n)
    (hk : ∀ q ∈ (initializer settings depth Γ s i).structures, V.Known q) :
    V.tree (initializer settings depth Γ s i).value.value := by
  unfold initializer at hk ⊢
  rw [Lowered.structures_map] at hk
  rw [Lowered.value_map]
  split at hk
  · rename_i p hfound
    obtain ⟨name, _, hfound⟩ := Option.bind_eq_some_iff.1 hfound
    have hm := List.mem_of_find?_eq_some hfound
    exact rules.treeRelation_kept.property depth Γ p hΓ
      (hs s (Structure.self_mem_all s) p hm) (hp p hm).1
      (fun n hn => ⟨hs.nested hm hn, (hp p hm).2 n hn⟩) hk
  · exact rules.treeRelation_kept.expr depth Γ i.value none hΓ hi (by simp) hk

theorem made_body (rules : V.Kept settings) {depth : Nat} {Γ : Context} {shape : Shape}
    {s : Structure} (hΓ : V.context Γ) (h : V.Admits shape s) :
    ∀ q ∈ (body settings depth Γ shape s).structures, V.made q := by
  unfold body
  split
  · exact rules.structureRelation_kept.creation depth Γ s hΓ h.sourced
  · exact rules.structureRelation_kept.creation depth Γ s hΓ h.sourced
  · rw [Lowered.structures_map, Lowered.structures_both, List.forall_mem_append,
      Lowered.forall_structures_all]
    refine ⟨fun a ha => ?_, ?_⟩
    · exact rules.structureRelation_kept.expr depth Γ a none hΓ (h.args a ha)
    · split
      · rename_i hb
        rw [Lowered.structures_map, Lowered.forall_structures_all]
        exact fun i hi => rules.made_initializer hΓ (h.initializer rules hb hi) h.sourced
      · simp

theorem tree_body (rules : V.Kept settings) {depth : Nat} {Γ : Context} {shape : Shape}
    {s : Structure} (hΓ : V.context Γ) (h : V.Admits shape s) (hc : V.Covers shape s)
    (hk : ∀ q ∈ (body settings depth Γ shape s).structures, V.Known q) :
    V.tree (body settings depth Γ shape s).value := by
  unfold body at hk ⊢
  split at hk
  · rename_i hkind
    exact rules.treeRelation_kept.creation depth Γ s hΓ h.sourced (hc.root (by simp [hkind])) hk
  · rename_i hkind
    exact rules.treeRelation_kept.creation depth Γ s hΓ h.sourced (hc.root (by simp [hkind])) hk
  · rename_i type hkind
    rw [Lowered.structures_map, Lowered.structures_both, List.forall_mem_append,
      Lowered.forall_structures_all] at hk
    refine hc.type type hkind _ _ ?_ ?_
    · exact Lowered.forall_value_all fun a ha =>
        rules.treeRelation_kept.expr depth Γ a none hΓ (h.args a ha) (by simp) (hk.1 a ha)
    · have hk := hk.2
      split at hk
      · rename_i hb
        rw [Lowered.structures_map, Lowered.forall_structures_all] at hk
        rintro _ ⟨⟩
        exact Lowered.forall_value_all fun i hi =>
          rules.tree_initializer hΓ (h.initializer rules hb hi) h.sourced hc.property (hk i hi)
      · rintro _ ⟨⟩

end Kept

end Invariant

end Projection.Lowering
