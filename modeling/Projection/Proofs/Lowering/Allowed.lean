import Projection.Proofs.Capture.Allowed

/-!
Lowering and the names in a tree. What comes out has only names that are allowed or bound where
they stand, provided that this holds of what goes in and that no structure has values that were
written under other lambdas than those it is created under.
-/

namespace Projection

open Typing Projection.Expr Capture

namespace Lowering

/-- The forms behind the parts of a selection. -/
theorem eq_of_selection {e : Expr} {sel : Selection}
    (h : SelectionForm.ofExpr e = .selection sel) :
    ∃ target arg, (splitTerminal (splitFallback e).1).1 = .invoke target sel.typeArgs [arg] ∧
      target.unparen = .member sel.base sel.transform sel.optional ∧
      arg.unparen = .lambda [sel.parameter] sel.body ∧
      sel.terminal = (splitTerminal (splitFallback e).1).2 ∧
      sel.fallback = (splitFallback e).2 := by
  unfold SelectionForm.ofExpr at h
  split at h
  · rename_i target typeArgs args heq
    split at h
    · rename_i base transform optional hu
      split at h
      · split at h
        · cases h
        · rename_i parameter body hsel
          cases h
          unfold selector at hsel
          split at hsel
          · rename_i arg
            split at hsel
            · rename_i hl
              cases hsel
              exact ⟨target, arg, heq, hu, hl, rfl, rfl⟩
            · cases hsel
            · cases hsel
          · cases hsel
      · cases h
    · cases h
  · cases h

/-- A collecting call is taken off, or the expression stays. -/
theorem splitTerminal_cases (e : Expr) : (splitTerminal e).1 = e ∨
    ∃ target inner name optional, e = .invoke target [] [] ∧
      target.unparen = .member inner name optional ∧ name ∈ terminals ∧
      (splitTerminal e).1 = inner.unparen := by
  unfold splitTerminal
  split
  · rename_i target
    split
    · rename_i inner name optional htarget
      split
      · rename_i hn
        exact .inr ⟨target, inner, name, optional, rfl, htarget, by simpa using hn, rfl⟩
      · exact .inl rfl
    · exact .inl rfl
  · exact .inl rfl

section Parts

variable {Q : Expr → Prop} (hchild : ∀ {c e}, Q e → c ∈ e.children → e.ownParameters = [] → Q c)
include hchild

theorem unparen_inherits {e : Expr} (h : Q e) : Q e.unparen := by
  fun_induction unparen e with
  | case1 e ih => exact ih (hchild h (by simp [children]) rfl)
  | case2 => exact h

theorem splitFallback_inherits {e : Expr} (h : Q e) :
    Q (splitFallback e).1 ∧ ∀ f ∈ (splitFallback e).2, Q f := by
  have hu := unparen_inherits hchild h
  unfold splitFallback
  split
  · rename_i l r heq
    rw [heq] at hu
    refine ⟨unparen_inherits hchild (hchild hu (by simp [children]) rfl), ?_⟩
    intro f hf
    cases Option.some.inj hf
    exact hchild hu (by simp [children]) rfl
  · exact ⟨hu, by simp⟩

theorem splitTerminal_inherits {e : Expr} (h : Q e) : Q (splitTerminal e).1 := by
  rcases splitTerminal_cases e with
    hsame | ⟨target, inner, name, optional, rfl, htarget, -, hinner⟩
  · rw [hsame]
    exact h
  · have haccess := unparen_inherits hchild (hchild h (show target ∈ _ by simp [children]) rfl)
    rw [htarget] at haccess
    rw [hinner]
    exact unparen_inherits hchild (hchild haccess (by simp [children]) rfl)

theorem selection_inherits {e : Expr} {sel : Selection} (he : Q e)
    (h : SelectionForm.ofExpr e = .selection sel) :
    Q (.member sel.base sel.transform sel.optional) ∧ Q (.lambda [sel.parameter] sel.body) ∧
      ∀ f ∈ sel.fallback, Q f := by
  obtain ⟨target, arg, hcall, htarget, harg, -, hfallback⟩ := eq_of_selection h
  obtain ⟨hcore, hf⟩ := splitFallback_inherits hchild he
  have hinvoke := splitTerminal_inherits hchild hcore
  rw [hcall] at hinvoke
  refine ⟨?_, ?_, hfallback ▸ hf⟩
  · rw [← htarget]
    exact unparen_inherits hchild (hchild hinvoke (by simp [children]) rfl)
  · rw [← harg]
    exact unparen_inherits hchild (hchild hinvoke (by simp [children]) rfl)

end Parts

/-- The parameters that come to stand around what is nested in a value of this form. -/
def entered? : Source → Option (List String)
  | .object _ _ => some []
  | .collection _ _ _ e =>
      match SelectionForm.ofExpr e with
      | .selection sel =>
          match sel.bodyForm with
          | .literal => some [sel.parameter]
          | _ => none
      | _ => none
  | _ => none

/-- The values of the structure, and of what is nested in it, may go in where they are created. -/
inductive Drawn (source : List String → Expr → Prop) : List String → Structure → Prop
  | values {bound : List String} {s : Structure} :
      (∀ p ∈ s.properties, source bound p.source.expr) →
      (∀ p ∈ s.properties, ∀ params n, entered? p.source = some params → p.nested = some n →
        Drawn source (bound ++ params) n) →
      Drawn source bound s

/-- What may go in under which lambdas, and in which contexts. -/
structure Scoping where
  source : List String → Expr → Prop
  context : Context → Prop

namespace Scoping

structure Kept (S : Scoping) (A : Allowed) (settings : Settings) : Prop where
  node : ∀ {bound e}, S.source bound e → A.Node bound e
  child : ∀ {bound c e}, S.source bound e → c ∈ e.children →
    S.source (bound ++ e.ownParameters) c
  bind : ∀ {Γ bound e t name}, S.context Γ → S.source bound e → elementType? Γ e = some t →
    S.context (Γ.bind name t)
  enter : ∀ {Γ bound e t params}, S.context Γ → S.source bound e → elementType? Γ e = some t →
    S.context (Γ.bindAll params [t, .int])
  object : ∀ {Γ bound members}, S.context Γ → S.source bound (.anonymous members) →
    Drawn S.source bound (Structure.ofType settings (anonymousType Γ members))
  /-- Initializers of an object whose type exists count as those of a literal. -/
  literal : ∀ {bound t as ms ms'}, S.source bound (.creation t as (some ms)) → ms' ⊆ ms →
    S.source bound (.anonymous ms')
  /-- Empty sequences are named in full. -/
  system : A.free "System"

variable {S : Scoping} {A : Allowed} {settings : Settings} {bound : List String}

/-- A lowered tree is a name or `this` only where the tree before it was. -/
structure Follows (e x : Expr) : Prop where
  name : ∀ n, x.unparen = .ident n → e.unparen = .ident n
  this : isThis x = true → isThis e = true

def isAtom : Expr → Bool
  | .ident _ | .this => true
  | _ => false

theorem follows_of_not_atom {e x : Expr} (h : isAtom x.unparen = false) : Follows e x where
  name n hn := by
    rw [hn] at h
    cases h
  this ht := by
    rw [isThis.eq_def] at ht
    split at ht
    · rename_i hu
      rw [hu] at h
      cases h
    · cases ht

theorem tree_literal (l : Literal) : A.Tree bound (.literal l) :=
  Allowed.tree_of_isInert rfl rfl (by simp [children])

theorem tree_default : A.Tree bound (.defaultValue none) :=
  Allowed.tree_of_isInert rfl rfl (by simp [children])

theorem tree_marked {note : String} {e : Expr} (h : A.Tree bound e) :
    A.Tree bound (.marked note e) :=
  Allowed.tree_of_isInert rfl rfl (List.forall_mem_singleton.2 h)

theorem tree_binary {op : BinaryOp} {l r : Expr} (hl : A.Tree bound l) (hr : A.Tree bound r) :
    A.Tree bound (.binary op l r) :=
  Allowed.tree_of_isInert rfl rfl
    (List.forall_mem_cons.2 ⟨hl, List.forall_mem_singleton.2 hr⟩)

theorem tree_conditional {c t f : Expr} (hc : A.Tree bound c) (ht : A.Tree bound t)
    (hf : A.Tree bound f) : A.Tree bound (.conditional c t f) :=
  Allowed.tree_of_isInert rfl rfl
    (List.forall_mem_cons.2 ⟨hc, List.forall_mem_cons.2 ⟨ht, List.forall_mem_singleton.2 hf⟩⟩)

theorem tree_creation {t : TypeExpr} {as : List Expr} {initializers : Option (List Initializer)}
    (ha : ∀ a ∈ as, A.Tree bound a) (hi : ∀ is ∈ initializers, ∀ i ∈ is, A.Tree bound i.value) :
    A.Tree bound (.creation t as initializers) := by
  cases initializers with
  | none => exact Allowed.tree_of_isInert rfl rfl ha
  | some is =>
      exact Allowed.tree_of_isInert rfl rfl
        (List.forall_mem_append.2 ⟨ha, List.forall_mem_map.2 (hi is rfl)⟩)

theorem tree_dot {e : Expr} (name : String) (h : A.Tree bound e ∧ isThis e = false) :
    A.Tree bound (e.dot name) ∧ isThis (e.dot name) = false :=
  ⟨Allowed.tree_member h.1 (absurd · (ne_true_of_eq_false h.2)), rfl⟩

theorem tree_qualified (bound : List String) (hs : A.free "System") (names : List String)
    (h : ∀ n ∈ "System" :: names, '.' ∉ n.toList) :
    A.Tree bound (qualified (Text.dottedName "System" names)) ∧
      isThis (qualified (Text.dottedName "System" names)) = false := by
  rw [qualified.eq_def, Text.splitAt_dottedName h]
  exact List.foldlRecOn names _ (motive := fun e => A.Tree bound e ∧ isThis e = false)
    ⟨Allowed.tree_ident (.inr hs), rfl⟩ fun e he name _ => tree_dot name he

theorem tree_emptyOf {owner : String} (element : TypeExpr)
    (h : A.Tree bound (qualified owner) ∧ isThis (qualified owner) = false) :
    A.Tree bound (emptyOf owner element) :=
  Allowed.tree_invoke (tree_dot "Empty" h).1 nofun nofun

theorem tree_emptySequence? (hs : A.free "System") {type : TypeRef} {e : Expr}
    (h : emptySequence? type = some e) : A.Tree bound e := by
  refine emptySequence?_cases h ?_ ?_ ?_ ?_
  · exact fun _ _ => tree_emptyOf _ (tree_qualified bound hs ["Array"] (by decide))
  · exact fun _ _ => tree_emptyOf _ (tree_qualified bound hs ["Linq", "Enumerable"] (by decide))
  · intro empty hempty
    have hqueryable := tree_qualified bound hs ["Linq", "Queryable"] (by decide)
    exact Allowed.tree_invoke (tree_dot "AsQueryable" hqueryable).1 (fun n hn => by cases hn)
      (List.forall_mem_singleton.2 hempty)
  · exact fun _ _ _ => Allowed.tree_of_isInert rfl rfl (by simp [children])

theorem tree_absentValue (hs : A.free "System") (type : Option TypeRef) :
    A.Tree bound (absentValue type) :=
  absentValue_cases tree_default (fun l _ => tree_literal l) fun _ _ _ he =>
    tree_emptySequence? hs he

theorem tree_castTo {type : Option TypeRef} {e : Expr} (h : A.Tree bound e) :
    A.Tree bound (castTo type e) :=
  castTo_cases h fun _ _ _ _ => Allowed.tree_of_isInert rfl rfl (List.forall_mem_singleton.2 h)

structure Chain (A : Allowed) (bound : List String) (e : Expr) (s : Spine) : Prop where
  expr : A.Tree bound s.expr
  guards : ∀ g ∈ s.guards, A.Tree bound g
  follows : Follows e s.expr

/-- What `this` stands for is never absent. -/
theorem not_nullable_of_isThis {Γ : Context} {e : Expr} (h : isThis e = true) :
    (infer? Γ e.withoutOptional).any TypeRef.isNullableValue = false := by
  rw [isThis.eq_def] at h
  split at h
  · rename_i hu
    have hthis : operand? Γ e.withoutOptional = (thisType? Γ).map .value := by
      rw [← operand?_unparen, unparen_withoutOptional, hu, withoutOptional_eq]
      exact operand?.eq_2 Γ
    rw [infer?, hthis, thisType?]
    cases Γ.model.enclosing? Γ.scope <;> rfl
  · cases h

theorem Chain.present {Γ : Context} {target : Expr} {s : Spine} (h : Chain A bound target s)
    (optional : Bool) :
    A.Tree bound (Lowering.present Γ target optional s).expr ∧
      (∀ g ∈ (Lowering.present Γ target optional s).guards, A.Tree bound g) ∧
      (isThis (Lowering.present Γ target optional s).expr = true → isThis target = true) := by
  unfold Lowering.present
  split
  · dsimp only
    refine ⟨?_, ?_, ?_⟩
    · split
      · rename_i hn
        refine Allowed.tree_member h.expr fun ht => ?_
        rw [not_nullable_of_isThis (h.follows.this ht)] at hn
        cases hn
      · exact h.expr
    · exact List.forall_mem_append.2 ⟨h.guards,
        List.forall_mem_singleton.2 (tree_binary h.expr (tree_literal _))⟩
    · split
      · exact nofun
      · exact h.follows.this
  · exact ⟨h.expr, h.guards, h.follows.this⟩

theorem Chain.close (hs : A.free "System") {Γ : Context} {e : Expr} {s : Spine}
    (declared : Option TypeRef) (h : Chain A bound e s) :
    A.Tree bound (closeChain Γ e declared s) ∧ Follows e (closeChain Γ e declared s) := by
  unfold closeChain
  split
  · exact ⟨h.expr, h.follows⟩
  · rename_i guard hg
    have hguard : A.Tree bound guard := forall_all tree_binary hg h.guards
    exact ⟨tree_conditional hguard (tree_castTo h.expr) (tree_absentValue hs _),
      follows_of_not_atom rfl⟩

theorem tree_guardSelection (hs : A.free "System") {declared : TypeRef} {guards : List Expr}
    {result : Expr} {fallback : Option Expr} (hg : ∀ g ∈ guards, A.Tree bound g)
    (hr : A.Tree bound result) (hf : ∀ f ∈ fallback, A.Tree bound f) :
    A.Tree bound (guardSelection declared guards result fallback) := by
  refine guardSelection_cases hr (fun guard f h hcase => ?_) fun f h => tree_binary hr (hf f h)
  refine tree_conditional (forall_all tree_binary h hg) hr ?_
  rcases hcase with hfallback | rfl
  · exact hf f hfallback
  · exact tree_absentValue hs _

theorem tree_rebuild {sel : Selection} {receiver body : Expr} (hr : A.Tree bound receiver)
    (ht : isThis receiver = true → sel.transform ∈ bound ∨ A.own sel.transform)
    (hb : A.Tree (bound ++ [sel.parameter]) body) : A.Tree bound (sel.rebuild receiver body) := by
  have hcall : A.Tree bound (.invoke (receiver.dot sel.transform) sel.typeArgs
      [.lambda [sel.parameter] body]) :=
    Allowed.tree_invoke (Allowed.tree_member hr ht) nofun
      (List.forall_mem_singleton.2 (Allowed.tree_lambda hb))
  exact rebuild_cases rfl hcall fun name _ =>
    Allowed.tree_invoke (Allowed.tree_member hcall nofun) nofun nofun

/-- A node with other children. Only what it is a member of can change what is asked of it. -/
theorem node_withChildren {e : Expr} {cs : List Expr} (h : A.Node bound e)
    (hc : ∀ target typeArgs args, e ≠ .invoke target typeArgs args)
    (hm : ∀ target name optional, e = .member target name optional → ∀ t ∈ cs.head?,
      isThis t = true → isThis target = true) : A.Node bound (e.withChildren cs) := by
  cases e with
  | ident n => exact h
  | member target name optional =>
      cases cs with
      | nil => exact h
      | cons t cs =>
          refine ⟨nofun, nofun, fun _ _ _ he ht => ?_⟩
          cases he
          exact h.own _ _ _ rfl (hm _ _ _ rfl t rfl ht)
  | invoke target typeArgs args => exact absurd rfl (hc _ _ _)
  | creation t as i => cases i <;> exact Allowed.node_of_isInert rfl
  | _ =>
      rcases cs with _ | ⟨a, _ | ⟨b, _ | ⟨c, cs⟩⟩⟩ <;> exact Allowed.node_of_isInert rfl

theorem follows_withChildren {e : Expr} (hp : ∀ inner, e ≠ .paren inner) (cs : List Expr) :
    Follows e (e.withChildren cs) := by
  cases e with
  | ident n | this => exact ⟨fun _ => id, id⟩
  | paren inner => exact absurd rfl (hp inner)
  | creation t as i => cases i <;> exact follows_of_not_atom rfl
  | _ =>
      rcases cs with _ | ⟨a, _ | ⟨b, _ | ⟨c, cs⟩⟩⟩ <;> exact follows_of_not_atom rfl

namespace Kept

variable {Γ : Context} {c e : Expr}

theorem part (rules : S.Kept A settings) (h : S.source bound e) (hc : c ∈ e.children)
    (hp : e.ownParameters = []) : S.source bound c := by
  have hchild := rules.child h hc
  rwa [hp, List.append_nil] at hchild

theorem tree (rules : S.Kept A settings) (h : S.source bound e) : A.Tree bound e := by
  induction e using childInduction generalizing bound with
  | h e ih => exact .node (rules.node h) fun c hc => ih c hc (rules.child h hc)

theorem unparen (rules : S.Kept A settings) (h : S.source bound e) : S.source bound e.unparen :=
  unparen_inherits (fun h hc hp => rules.part h hc hp) h

theorem enterArgument (rules : S.Kept A settings) {target : Expr} (hΓ : S.context Γ)
    (h : S.source bound target) (params : List String) :
    S.context (Lowering.enter Γ params (argumentElement? Γ target)) := by
  refine enter_argument hΓ fun receiver name optional t hu ht => ?_
  have haccess := rules.unparen h
  rw [hu] at haccess
  exact rules.enter hΓ (rules.part haccess (by simp [children]) rfl) ht

/-- The parts of a selection go in when the whole does. -/
theorem selection (rules : S.Kept A settings) {sel : Selection} (h : S.source bound e)
    (hs : SelectionForm.ofExpr e = .selection sel) :
    S.source bound (.member sel.base sel.transform sel.optional) ∧ S.source bound sel.base ∧
      S.source (bound ++ [sel.parameter]) sel.body ∧ ∀ f ∈ sel.fallback, S.source bound f := by
  obtain ⟨haccess, hfunction, hfallback⟩ :=
    selection_inherits (fun h hc hp => rules.part h hc hp) h hs
  exact ⟨haccess, rules.part haccess (by simp [children]) rfl,
    rules.child hfunction (by simp [children]), hfallback⟩

theorem finishSelection (rules : S.Kept A settings) {declared : TypeRef} {sel : Selection}
    {r : Lowered Spine} {b : Lowered Expr} {f : Expr → Lowered Expr}
    (ha : S.source bound (.member sel.base sel.transform sel.optional))
    (hr : Chain A bound sel.base r.value) (hb : A.Tree (bound ++ [sel.parameter]) b.value)
    (hf : ∀ d ∈ sel.fallback, A.Tree bound (f d).value) :
    A.Tree bound (Lowering.finishSelection Γ declared sel r b f).value := by
  obtain ⟨hexpr, hguards, hthis⟩ := hr.present (Γ := Γ) sel.optional
  rw [value_finishSelection]
  refine tree_guardSelection rules.system hguards (tree_rebuild hexpr ?_ hb) ?_
  · exact fun ht => (rules.node ha).own _ _ _ rfl (hthis ht)
  · intro x hx
    obtain ⟨d, hd, rfl⟩ := Option.map_eq_some_iff.1 hx
    exact hf d hd

end Kept

def relation (S : Scoping) (A : Allowed) : Relation where
  expr Γ e _ x := S.context Γ → ∀ bound, S.source bound e →
    A.Tree bound x.value ∧ Follows e x.value
  node Γ e _ x := S.context Γ → ∀ bound, S.source bound e →
    A.Tree bound x.value ∧ Follows e x.value
  creation Γ s x := S.context Γ → ∀ bound, Drawn S.source bound s →
    A.Tree bound x.value ∧ ∀ e, Follows e x.value
  property Γ p x := S.context Γ → ∀ bound, S.source bound p.source.expr →
    (∀ params n, entered? p.source = some params → p.nested = some n →
      Drawn S.source (bound ++ params) n) → A.Tree bound x.value
  collection Γ e _ nested x := S.context Γ → ∀ bound, S.source bound e →
    (∀ sel n, SelectionForm.ofExpr e = .selection sel → sel.bodyForm = .literal →
      nested = some n → Drawn S.source (bound ++ [sel.parameter]) n) → A.Tree bound x.value
  spine Γ e x := S.context Γ → ∀ bound, S.source bound e → Chain A bound e x.value
  argument Γ arg element x := (∀ params, S.context (Lowering.enter Γ params element)) →
    S.context Γ → ∀ bound, S.source bound arg → A.Tree bound x.value

theorem Kept.relation_kept (rules : S.Kept A settings) : (relation S A).Kept settings where
  chain _ h hΓ bound he := (h hΓ bound he).close rules.system _
  noChain _ h := h
  call := by
    intro Γ target typeArgs args declared t f ht ha hΓ bound he
    have htarget := rules.part he (show target ∈ _ by simp [children]) rfl
    obtain ⟨htree, hfollows⟩ := ht hΓ bound htarget
    refine ⟨Allowed.tree_invoke htree ?_ ?_, follows_of_not_atom rfl⟩
    · exact fun n hn => (rules.node he).called _ _ _ n rfl (hfollows.name n hn)
    · exact Lowered.forall_value_all fun a hm =>
        ha a hm (rules.enterArgument hΓ htarget) hΓ bound
          (rules.part he (by simp [children, hm]) rfl)
  untypedObject _ _ _ he := ⟨tree_marked (rules.tree he), follows_of_not_atom rfl⟩
  deepObject _ _ he := ⟨tree_marked (rules.tree he), follows_of_not_atom rfl⟩
  object := by
    intro Γ members declared x _ hx hΓ bound he
    obtain ⟨htree, hfollows⟩ := hx hΓ bound (rules.object hΓ he)
    exact ⟨htree, hfollows _⟩
  conditional := by
    intro Γ c t f declared x y z hc ht hf hΓ bound he
    exact ⟨tree_conditional (hc hΓ bound (rules.part he (by simp [children]) rfl)).1
      (ht hΓ bound (rules.part he (by simp [children]) rfl)).1
      (hf hΓ bound (rules.part he (by simp [children]) rfl)).1, follows_of_not_atom rfl⟩
  paren := by
    intro Γ inner declared x h hΓ bound he
    obtain ⟨htree, hfollows⟩ := h hΓ bound (rules.part he (by simp [children]) rfl)
    exact ⟨Allowed.tree_paren htree, hfollows.name, hfollows.this⟩
  other := by
    intro Γ e declared f hc _ _ hp h hΓ bound he
    have hchildren := fun c hm => h c hm hΓ _ (rules.child he hm)
    rw [Lowered.value_map]
    refine ⟨.node (node_withChildren (rules.node he) hc ?_) ?_, follows_withChildren hp _⟩
    · intro target name optional heq t ht
      subst heq
      cases Option.some.inj ht
      exact (hchildren target (by simp [children])).2.this
    · rw [children_withChildren _ _ (by simp), ownParameters_withChildren]
      exact Lowered.forall_value_all fun c hm => (hchildren c hm).1
  create := by
    intro Γ s f h hΓ bound hs
    cases hs with
    | values hsource hnested =>
        refine ⟨tree_creation (by simp) ?_, fun e => follows_of_not_atom rfl⟩
        intro is his
        cases Option.some.inj his
        refine Lowered.forall_value_all fun p hp => ?_
        exact h p hp hΓ bound (hsource p hp) (hnested p hp)
  collectionProperty := by
    intro Γ name type nullable nested base parameter element e x h hΓ bound he hn
    refine h hΓ bound he fun sel n hsel hbody => hn [sel.parameter] n ?_
    change entered? (.collection base parameter element e) = _
    rw [entered?, hsel]
    dsimp only
    rw [hbody]
  objectProperty := by
    intro Γ name type nullable members e s x h hΓ bound _ hn
    have hdrawn := hn [] s rfl rfl
    rw [List.append_nil] at hdrawn
    exact (h hΓ bound hdrawn).1
  openProperty _ _ he _ := tree_marked (rules.tree he)
  valueProperty _ _ h hΓ bound he _ := (h hΓ bound he).1
  noSelection _ h hΓ bound he _ := (h hΓ bound he).1
  refused _ _ _ he _ := tree_marked (rules.tree he)
  refusedBody _ _ _ _ _ he _ := tree_marked (rules.tree he)
  selectObjects := by
    intro Γ e declared sel element s r b f hsel helement hbody hr hf hb hΓ bound he hn
    obtain ⟨haccess, hbase, _, hfallback⟩ := rules.selection he hsel
    refine rules.finishSelection haccess (hr hΓ bound hbase) ?_ ?_
    · exact (hb (rules.bind hΓ hbase helement) _ (hn sel s hsel hbody rfl)).1
    · exact fun d hd => (hf d hΓ bound (hfallback d hd)).1
  select := by
    intro Γ e declared nested sel element r b f hsel helement _ hr hf hb hΓ bound he _
    obtain ⟨haccess, hbase, hbody, hfallback⟩ := rules.selection he hsel
    refine rules.finishSelection haccess (hr hΓ bound hbase) ?_ ?_
    · exact (hb (rules.bind hΓ hbase helement) _ hbody).1
    · exact fun d hd => (hf d hΓ bound (hfallback d hd)).1
  memberSpine := by
    intro Γ target name optional s h hΓ bound he
    have htarget := rules.part he (show target ∈ _ by simp [children]) rfl
    obtain ⟨hexpr, hguards, hthis⟩ := (h hΓ bound htarget).present (Γ := Γ) optional
    refine ⟨Allowed.tree_member hexpr ?_, hguards, follows_of_not_atom rfl⟩
    exact fun ht => (rules.node he).own _ _ _ rfl (hthis ht)
  indexSpine := by
    intro Γ target args optional s f h ha hΓ bound he
    have htarget := rules.part he (show target ∈ _ by simp [children]) rfl
    obtain ⟨hexpr, hguards, -⟩ := (h hΓ bound htarget).present (Γ := Γ) optional
    refine ⟨Allowed.tree_of_isInert rfl rfl (List.forall_mem_cons.2 ⟨hexpr, ?_⟩), hguards,
      follows_of_not_atom rfl⟩
    exact Lowered.forall_value_all fun a hm =>
      (ha a hm hΓ bound (rules.part he (by simp [children, hm]) rfl)).1
  callSpine := by
    intro Γ target typeArgs args s f h ha hΓ bound he
    have htarget := rules.part he (show target ∈ _ by simp [children]) rfl
    obtain ⟨hexpr, hguards, hfollows⟩ := h hΓ bound htarget
    refine ⟨Allowed.tree_invoke hexpr ?_ ?_, hguards, follows_of_not_atom rfl⟩
    · exact fun n hn => (rules.node he).called _ _ _ n rfl (hfollows.name n hn)
    · exact Lowered.forall_value_all fun a hm =>
        ha a hm (rules.enterArgument hΓ htarget) hΓ bound
          (rules.part he (by simp [children, hm]) rfl)
  startSpine _ h hΓ bound he := ⟨(h hΓ bound he).1, by simp [Spine.plain], (h hΓ bound he).2⟩
  lambdaArgument := by
    intro Γ arg element params body x hu h henter hΓ bound he
    have hbody := rules.unparen he
    rw [hu] at hbody
    exact Allowed.tree_lambda
      (h (henter params) _ (rules.child hbody (by simp [children]))).1
  valueArgument h _ hΓ bound he := (h hΓ bound he).1

namespace Kept

variable {Γ : Context} {s : Structure} {shape : Shape} {depth : Nat}

theorem tree_initializer (rules : S.Kept A settings) (hΓ : S.context Γ) {i : Initializer}
    (hs : Drawn S.source bound s) (hi : S.source bound i.value) :
    A.Tree bound (initializer settings depth Γ s i).value.value := by
  unfold initializer
  rw [Lowered.value_map]
  split
  · rename_i p hp
    obtain ⟨name, -, hp⟩ := Option.bind_eq_some_iff.1 hp
    have hp := List.mem_of_find?_eq_some hp
    cases hs with
    | values hsource hnested =>
        exact rules.relation_kept.property depth Γ p hΓ bound (hsource p hp) (hnested p hp)
  · exact (rules.relation_kept.expr depth Γ i.value none hΓ bound hi).1

/-- The body of a projection has only names that are allowed or bound. -/
theorem tree_body (rules : S.Kept A settings) (hΓ : S.context Γ) (hs : Drawn S.source bound s)
    (hb : S.source bound shape.body) (ha : ∀ a ∈ shape.constructorArgs, S.source bound a) :
    A.Tree bound (body settings depth Γ shape s).value := by
  unfold body
  split
  · exact (rules.relation_kept.creation depth Γ s hΓ bound hs).1
  · exact (rules.relation_kept.creation depth Γ s hΓ bound hs).1
  · have hargs := Lowered.forall_value_all fun a hm =>
      (rules.relation_kept.expr depth Γ a none hΓ bound (ha a hm)).1
    refine tree_creation hargs ?_
    split
    · rename_i is hcreation
      rintro _ ⟨⟩
      refine Lowered.forall_value_all fun i hi => ?_
      rw [hcreation] at hb
      exact rules.tree_initializer hΓ hs
        (rules.part hb (List.mem_append_right _ (List.mem_map.2 ⟨i, hi, rfl⟩)) rfl)
    · exact nofun

end Kept

end Scoping

end Lowering

end Projection
