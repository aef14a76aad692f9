import Projection.Lowering

/-!
What lowering can do, rule by rule. A relation between what is lowered and what comes out holds
of all that lowering gives as soon as it is kept by each rule; no proof about lowering has to open
its definition.
-/

namespace Projection

theorem Lowered.forall_value_all {α β : Type} {P : β → Prop} {xs : List α} {f : α → Lowered β}
    (h : ∀ x ∈ xs, P (f x).value) : ∀ y ∈ (Lowered.all (xs.map f)).value, P y := by
  intro y hy
  simp only [Lowered.value_all, List.map_map, List.mem_map] at hy
  obtain ⟨x, hx, rfl⟩ := hy
  exact h x hx

theorem Lowered.forall_structures_all {α β : Type} {P : Structure → Prop} {xs : List α}
    {f : α → Lowered β} : (∀ s ∈ (Lowered.all (xs.map f)).structures, P s) ↔
      ∀ x ∈ xs, ∀ s ∈ (f x).structures, P s := by
  simp only [Lowered.structures_all, List.mem_flatMap, List.mem_map]
  constructor
  · intro h x hx s hs
    exact h s ⟨f x, ⟨x, hx, rfl⟩, hs⟩
  · rintro h s ⟨_, ⟨x, hx, rfl⟩, hs⟩
    exact h x hx s hs

namespace Lowering

open Typing

/-- A selection put together from its lowered parts. -/
def finishSelection (Γ : Context) (declared : TypeRef) (sel : Selection) (receiver : Lowered Spine)
    (body : Lowered Expr) (fallback : Expr → Lowered Expr) : Lowered Expr :=
  ((receiver.map (present Γ sel.base sel.optional)).both (body.both
    (match sel.fallback with
      | some f => (fallback f).map some
      | none => .pure none))).map fun (s, body, fallback) =>
        guardSelection declared s.guards (sel.rebuild s.expr body) fallback

theorem value_finishSelection (Γ : Context) (declared : TypeRef) (sel : Selection)
    (r : Lowered Spine) (b : Lowered Expr) (f : Expr → Lowered Expr) :
    (finishSelection Γ declared sel r b f).value =
      guardSelection declared (present Γ sel.base sel.optional r.value).guards
        (sel.rebuild (present Γ sel.base sel.optional r.value).expr b.value)
        (sel.fallback.map fun d => (f d).value) := by
  rw [finishSelection]
  cases sel.fallback <;> rfl

theorem forall_structures_finishSelection {P : Structure → Prop} {Γ : Context} {declared : TypeRef}
    {sel : Selection} {r : Lowered Spine} {b : Lowered Expr} {f : Expr → Lowered Expr} :
    (∀ s ∈ (finishSelection Γ declared sel r b f).structures, P s) ↔
      (∀ s ∈ r.structures, P s) ∧ (∀ s ∈ b.structures, P s) ∧
        ∀ d ∈ sel.fallback, ∀ s ∈ (f d).structures, P s := by
  simp only [finishSelection, Lowered.structures_map, Lowered.structures_both,
    List.forall_mem_append]
  cases sel.fallback <;> simp

section Added

variable {P : Expr → Prop}

theorem forall_all (hand : ∀ {a b}, P a → P b → P (.binary .and a b)) {guards : List Expr}
    {guard : Expr} (h : Expr.all guards = some guard) (hg : ∀ g ∈ guards, P g) : P guard := by
  cases guards with
  | nil => cases h
  | cons c rest =>
      cases h
      obtain ⟨hc, hrest⟩ := List.forall_mem_cons.1 hg
      exact List.foldlRecOn rest _ hc fun _ ha b hb => hand ha (hrest b hb)

theorem emptySequence?_cases {type : TypeRef} {e : Expr} (h : emptySequence? type = some e)
    (harray : ∀ element, type.element?.bind TypeRef.expr? = some element →
      P (emptyOf "System.Array" element))
    (hsequence : ∀ element, type.element?.bind TypeRef.expr? = some element →
      P (emptyOf "System.Linq.Enumerable" element))
    (hqueryable : ∀ {empty}, P empty →
      P (((Expr.qualified "System.Linq.Queryable").dot "AsQueryable").call [empty]))
    (hnew : ∀ t, type.isNamed "List" = true ∨ type.isNamed "HashSet" = true →
      type.nonNullable.expr? = some t → P (.creation t [] none)) : P e := by
  unfold emptySequence? at h
  split at h
  · cases h
  · rename_i element helement
    split at h
    · cases h
      exact harray element helement
    · split at h
      · rename_i hnamed
        obtain ⟨t, ht, rfl⟩ := Option.map_eq_some_iff.1 h
        exact hnew t hnamed ht
      · split at h
        · cases h
          exact hqueryable (hsequence element helement)
        · cases h
          exact hsequence element helement

theorem absentValue_cases {type : Option TypeRef} (hdefault : P (.defaultValue none))
    (hliteral : ∀ l ∈ [Literal.null, .string "", .bool false, .char "\\0"], P (.literal l))
    (hempty : ∀ t ∈ type, ∀ e, emptySequence? t = some e → P e) : P (absentValue type) := by
  have hnull : P .null := hliteral .null List.mem_cons_self
  unfold absentValue
  split
  · exact hdefault
  · split
    · exact hnull
    · split
      · rename_i he
        exact hempty _ rfl _ he
      · split
        · exact hliteral _ (by simp)
        · exact hliteral _ (by simp)
        · exact hliteral _ (by simp)
        · split
          · exact hdefault
          · exact hnull

theorem castTo_cases {type : Option TypeRef} {e : Expr} (he : P e)
    (hcast : ∀ u ∈ type, ∀ t, u.expr? = some t → P (.cast t e)) : P (castTo type e) := by
  unfold castTo
  split
  · rename_i t ht
    obtain ⟨u, hu, ht⟩ := Option.bind_eq_some_iff.1 ht
    exact hcast u (Option.eq_some_of_filter_eq_some hu) t ht
  · exact he

theorem guardSelection_cases {declared : TypeRef} {guards : List Expr} {result : Expr}
    {fallback : Option Expr} (hresult : P result)
    (hguarded : ∀ guard f, Expr.all guards = some guard →
      f ∈ fallback ∨ f = absentValue (some declared) → P (.conditional guard result f))
    (hcoalesced : ∀ f ∈ fallback, P (.binary .coalesce result f)) :
    P (guardSelection declared guards result fallback) := by
  unfold guardSelection
  split
  · rename_i guard f h
    exact hguarded guard f h (.inl rfl)
  · rename_i guard h
    exact hguarded guard _ h (.inr rfl)
  · exact hcoalesced _ rfl
  · exact hresult

theorem rebuild_cases {sel : Selection} {receiver body call : Expr}
    (hcall : call =
      .invoke (receiver.dot sel.transform) sel.typeArgs [.lambda [sel.parameter] body])
    (h : P call) (hterminal : ∀ name ∈ sel.terminal, P ((call.dot name).call [])) :
    P (sel.rebuild receiver body) := by
  subst hcall
  unfold Selection.rebuild
  dsimp only
  split
  · rename_i name hname
    exact hterminal name hname
  · exact h

end Added

section Equations

variable {settings : Settings} {depth : Nat} {Γ : Context}

section Objects

variable {members : List Initializer} (declared : Option TypeRef)

theorem node_untypedObject
    (h : (Structure.ofType settings (anonymousType Γ members)).isDegenerate = true) :
    node settings depth Γ (.anonymous members) declared =
      .pure (.marked "anonymous object has no resolvable members" (.anonymous members)) := by
  unfold node
  dsimp only
  rw [if_pos h]

theorem node_deepObject
    (h : (Structure.ofType settings (anonymousType Γ members)).isDegenerate = false) :
    node settings 0 Γ (.anonymous members) declared =
      .pure (.marked "anonymous objects are nested too deeply" (.anonymous members)) := by
  unfold node
  dsimp only
  rw [if_neg (Bool.eq_false_iff.1 h)]

theorem node_object
    (h : (Structure.ofType settings (anonymousType Γ members)).isDegenerate = false) :
    node settings (depth + 1) Γ (.anonymous members) declared =
      (creation settings depth Γ (Structure.ofType settings (anonymousType Γ members))).followed
        (Structure.ofType settings (anonymousType Γ members)) := by
  unfold node
  dsimp only
  rw [if_neg (Bool.eq_false_iff.1 h)]

end Objects

theorem argument_lambda {arg body : Expr} {params : List String} (element : Option TypeRef)
    (h : arg.unparen = .lambda params body) : argument settings depth Γ arg element =
      (expr settings depth (enter Γ params element) body none).map (.lambda params) := by
  unfold argument
  split
  · rename_i hu
    cases h.symm.trans hu
    rfl
  · rename_i hu
    exact absurd h (hu _ _)

theorem argument_value {arg : Expr} (element : Option TypeRef)
    (h : ∀ params body, arg.unparen ≠ .lambda params body) :
    argument settings depth Γ arg element = expr settings depth Γ arg none := by
  unfold argument
  split
  · rename_i hu
    exact absurd hu (h _ _)
  · rfl

/-- A function among the arguments of a call ranges over the elements of the receiver, or its
parameters stay unbound. -/
theorem enter_argument {P : Context → Prop} {target : Expr} {params : List String} (hΓ : P Γ)
    (h : ∀ receiver name optional t, target.unparen = .member receiver name optional →
      elementType? Γ receiver = some t → P (Γ.bindAll params [t, .int])) :
    P (enter Γ params (argumentElement? Γ target)) := by
  cases ht : argumentElement? Γ target with
  | none => exact hΓ
  | some t =>
      unfold argumentElement? at ht
      split at ht
      · rename_i hu
        exact h _ _ _ t hu ht
      · cases ht

/-- A value that is neither an object literal nor a selection at its core. -/
theorem property_other {p : Property} (hsource : ∀ members e, p.source ≠ .object members e)
    (hform : SelectionForm.ofExpr p.source.expr = .other) :
    property settings depth Γ p =
      expr settings depth Γ p.source.expr (some p.declaredType) := by
  obtain ⟨_, declared, _, nested, source⟩ := p
  cases source with
  | collection base parameter element e =>
      rw [property, collection, show SelectionForm.ofExpr e = .other from hform]
      rfl
  | object members e => exact absurd rfl (hsource members e)
  | _ => rw [property] <;> simp

variable {e : Expr} {sel : Selection} {element : TypeRef} (declared : TypeRef)

theorem collection_objects (hform : SelectionForm.ofExpr e = .selection sel)
    (helement : elementType? Γ sel.base = some element) (hbody : sel.bodyForm = .literal)
    (s : Structure) : collection settings depth Γ e declared (some s) =
      finishSelection Γ declared sel (spine settings depth Γ sel.base)
        (creation settings depth (Γ.bind sel.parameter element) s)
        (expr settings depth Γ · (some declared)) := by
  rw [collection, hform]
  dsimp only
  rw [helement]
  dsimp only
  rw [hbody]
  rfl

theorem collection_openObjects (hform : SelectionForm.ofExpr e = .selection sel)
    (helement : elementType? Γ sel.base = some element) (hbody : sel.bodyForm = .literal) :
    collection settings depth Γ e declared none =
      ((spine settings depth Γ sel.base).map (present Γ sel.base sel.optional)).map fun _ =>
        .marked "nested element shape could not be resolved" e := by
  rw [collection, hform]
  dsimp only
  rw [helement]
  dsimp only
  rw [hbody]

theorem collection_values (hform : SelectionForm.ofExpr e = .selection sel)
    (helement : elementType? Γ sel.base = some element) (hbody : sel.bodyForm = .expression)
    (nested : Option Structure) : collection settings depth Γ e declared nested =
      finishSelection Γ declared sel (spine settings depth Γ sel.base)
        (expr settings depth (Γ.bind sel.parameter element) sel.body none)
        (expr settings depth Γ · (some declared)) := by
  rw [collection, hform]
  dsimp only
  rw [helement]
  dsimp only
  rw [hbody]
  rfl

theorem collection_refused {reason : String} (hform : SelectionForm.ofExpr e = .selection sel)
    (helement : elementType? Γ sel.base = some element) (hbody : sel.bodyForm = .refused reason)
    (nested : Option Structure) : collection settings depth Γ e declared nested =
      ((spine settings depth Γ sel.base).map (present Γ sel.base sel.optional)).map fun _ =>
        .marked reason e := by
  rw [collection, hform]
  dsimp only
  rw [helement]
  dsimp only
  rw [hbody]

end Equations

/-- Relations between what is lowered and what comes out, one for each function of lowering. -/
structure Relation where
  expr : Context → Expr → Option TypeRef → Lowered Expr → Prop
  node : Context → Expr → Option TypeRef → Lowered Expr → Prop
  creation : Context → Structure → Lowered Expr → Prop
  property : Context → Property → Lowered Expr → Prop
  collection : Context → Expr → TypeRef → Option Structure → Lowered Expr → Prop
  spine : Context → Expr → Lowered Spine → Prop
  argument : Context → Expr → Option TypeRef → Lowered Expr → Prop

namespace Relation

variable {R : Relation} {settings : Settings}

/-- Every rule of lowering carries the relations from the parts to the whole. -/
structure Kept (R : Relation) (settings : Settings) : Prop where
  chain : ∀ {Γ e declared s}, e.chainOptional = true → R.spine Γ e s →
    R.expr Γ e declared (s.map (closeChain Γ e declared))
  noChain : ∀ {Γ e declared x}, e.chainOptional = false → R.node Γ e declared x →
    R.expr Γ e declared x
  call : ∀ {Γ target typeArgs args declared t} {f : Expr → Lowered Expr},
    R.expr Γ target none t →
    (∀ a ∈ args, R.argument Γ a (argumentElement? Γ target) (f a)) →
    R.node Γ (.invoke target typeArgs args) declared
      ((t.both (.all (args.map f))).map fun (t, as) => .invoke t typeArgs as)
  untypedObject : ∀ {Γ members declared},
    (Structure.ofType settings (anonymousType Γ members)).isDegenerate = true →
    R.node Γ (.anonymous members) declared
      (.pure (.marked "anonymous object has no resolvable members" (.anonymous members)))
  deepObject : ∀ {Γ members declared},
    R.node Γ (.anonymous members) declared
      (.pure (.marked "anonymous objects are nested too deeply" (.anonymous members)))
  object : ∀ {Γ members declared x},
    (Structure.ofType settings (anonymousType Γ members)).isDegenerate = false →
    R.creation Γ (Structure.ofType settings (anonymousType Γ members)) x →
    R.node Γ (.anonymous members) declared
      (x.followed (Structure.ofType settings (anonymousType Γ members)))
  conditional : ∀ {Γ c t f declared x y z}, R.expr Γ c none x → R.expr Γ t declared y →
    R.expr Γ f declared z →
    R.node Γ (.conditional c t f) declared
      ((x.both (y.both z)).map fun (c, t, f) => .conditional c t f)
  paren : ∀ {Γ inner declared x}, R.expr Γ inner declared x →
    R.node Γ (.paren inner) declared (x.map .paren)
  other : ∀ {Γ e declared} {f : Expr → Lowered Expr},
    (∀ target typeArgs args, e ≠ .invoke target typeArgs args) →
    (∀ members, e ≠ .anonymous members) → (∀ c t f, e ≠ .conditional c t f) →
    (∀ inner, e ≠ .paren inner) → (∀ c ∈ e.children, R.expr Γ c none (f c)) →
    R.node Γ e declared ((Lowered.all (e.children.map f)).map e.withChildren)
  create : ∀ {Γ s} {f : Property → Lowered Expr},
    (∀ p ∈ s.properties, R.property Γ p (f p)) →
    R.creation Γ s ((Lowered.all (s.properties.map fun p =>
      (f p).map (Initializer.named p.name))).map fun initializers =>
        .creation (.generated s.id) [] (some initializers))
  collectionProperty : ∀ {Γ name type nullable nested base parameter element e x},
    R.collection Γ e type nested x →
    R.property Γ ⟨name, type, nullable, nested, .collection base parameter element e⟩ x
  objectProperty : ∀ {Γ name type nullable members e s x}, R.creation Γ s x →
    R.property Γ ⟨name, type, nullable, some s, .object members e⟩ x
  openProperty : ∀ {Γ name type nullable members e},
    R.property Γ ⟨name, type, nullable, none, .object members e⟩
      (.pure (.marked "nested object shape could not be resolved" e))
  valueProperty : ∀ {Γ p x},
    (∀ base parameter element e, p.source ≠ .collection base parameter element e) →
    (∀ members e, p.source ≠ .object members e) →
    R.expr Γ p.source.expr (some p.declaredType) x → R.property Γ p x
  noSelection : ∀ {Γ e declared nested x}, SelectionForm.ofExpr e = .other →
    R.expr Γ e (some declared) x →
    R.collection Γ e declared nested x
  refused : ∀ {Γ e declared nested} (reason : String),
    R.collection Γ e declared nested (.pure (.marked reason e))
  refusedBody : ∀ {Γ e declared nested sel r} (reason : String),
    SelectionForm.ofExpr e = .selection sel → R.spine Γ sel.base r →
    R.collection Γ e declared nested
      ((r.map (present Γ sel.base sel.optional)).map fun _ => .marked reason e)
  selectObjects : ∀ {Γ e declared sel element s r b} {f : Expr → Lowered Expr},
    SelectionForm.ofExpr e = .selection sel → elementType? Γ sel.base = some element →
    sel.bodyForm = .literal → R.spine Γ sel.base r → (∀ d, R.expr Γ d (some declared) (f d)) →
    R.creation (Γ.bind sel.parameter element) s b →
    R.collection Γ e declared (some s) (finishSelection Γ declared sel r b f)
  select : ∀ {Γ e declared nested sel element r b} {f : Expr → Lowered Expr},
    SelectionForm.ofExpr e = .selection sel → elementType? Γ sel.base = some element →
    sel.bodyForm = .expression → R.spine Γ sel.base r →
    (∀ d, R.expr Γ d (some declared) (f d)) →
    R.expr (Γ.bind sel.parameter element) sel.body none b →
    R.collection Γ e declared nested (finishSelection Γ declared sel r b f)
  memberSpine : ∀ {Γ target name optional s}, R.spine Γ target s →
    R.spine Γ (.member target name optional)
      (s.map fun s => (present Γ target optional s).mapExpr (·.dot name))
  indexSpine : ∀ {Γ target args optional s} {f : Expr → Lowered Expr}, R.spine Γ target s →
    (∀ a ∈ args, R.expr Γ a none (f a)) →
    R.spine Γ (.index target args optional)
      ((s.both (.all (args.map f))).map fun (s, as) =>
        (present Γ target optional s).mapExpr (.index · as false))
  callSpine : ∀ {Γ target typeArgs args s} {f : Expr → Lowered Expr}, R.spine Γ target s →
    (∀ a ∈ args, R.argument Γ a (argumentElement? Γ target) (f a)) →
    R.spine Γ (.invoke target typeArgs args)
      ((s.both (.all (args.map f))).map fun (s, as) => s.mapExpr (.invoke · typeArgs as))
  startSpine : ∀ {Γ e x}, e.chainOptional = false → R.node Γ e none x →
    R.spine Γ e (x.map .plain)
  lambdaArgument : ∀ {Γ arg element params body x}, arg.unparen = .lambda params body →
    R.expr (enter Γ params element) body none x →
    R.argument Γ arg element (x.map (.lambda params))
  valueArgument : ∀ {Γ arg element x}, R.expr Γ arg none x → R.argument Γ arg element x

theorem Kept.all (rules : R.Kept settings) :
    (∀ depth Γ e declared, R.expr Γ e declared (Lowering.expr settings depth Γ e declared)) ∧
    (∀ depth Γ e declared, R.node Γ e declared (Lowering.node settings depth Γ e declared)) ∧
    (∀ depth Γ s, R.creation Γ s (Lowering.creation settings depth Γ s)) ∧
    (∀ depth Γ p, R.property Γ p (Lowering.property settings depth Γ p)) ∧
    (∀ depth Γ e declared nested, R.collection Γ e declared nested
      (Lowering.collection settings depth Γ e declared nested)) ∧
    (∀ depth Γ e, R.spine Γ e (Lowering.spine settings depth Γ e)) ∧
    ∀ depth Γ arg element, R.argument Γ arg element
      (Lowering.argument settings depth Γ arg element) := by
  apply Lowering.expr.mutual_induct
  case case1 =>
    intro depth Γ e declared h hs
    rw [Lowering.expr, if_pos h]
    exact rules.chain h hs
  case case2 =>
    intro depth Γ e declared h hn
    rw [Lowering.expr, if_neg h]
    exact rules.noChain (Bool.eq_false_iff.2 h) hn
  case case3 =>
    intro depth Γ declared target typeArgs args ht ha
    rw [Lowering.node, List.attach_map_val
      (f := (Lowering.argument settings depth Γ · (argumentElement? Γ target)))]
    exact rules.call ht fun a hm => ha ⟨a, hm⟩
  case case4 =>
    intro depth Γ declared members s hs
    rw [node_untypedObject declared hs]
    exact rules.untypedObject hs
  case case5 =>
    intro Γ declared members s hs
    rw [node_deepObject declared (Bool.eq_false_iff.2 hs)]
    exact rules.deepObject
  case case6 =>
    intro Γ declared members s hs depth hc
    have htyped := Bool.eq_false_iff.2 hs
    rw [node_object declared htyped]
    exact rules.object htyped hc
  case case7 =>
    intro depth Γ declared c t f hc ht hf
    rw [Lowering.node]
    exact rules.conditional hc ht hf
  case case8 =>
    intro depth Γ declared inner h
    rw [Lowering.node]
    exact rules.paren h
  case case9 =>
    intro depth Γ declared e hi ha hc hp h
    rw [Lowering.node, List.attach_map_val (f := (Lowering.expr settings depth Γ · none))]
    · exact rules.other hi ha hc hp fun c hm => h ⟨c, hm⟩
    · exact hi
    · exact ha
    · exact hc
    · exact hp
  case case10 =>
    intro depth Γ s h
    rw [Lowering.creation, List.attach_map_val (f := fun p =>
      (Lowering.property settings depth Γ p).map (Initializer.named p.name))]
    exact rules.create fun p hp => h ⟨p, hp⟩
  case case11 =>
    intro depth Γ name type nullable nested base parameter element e h
    rw [Lowering.property]
    exact rules.collectionProperty h
  case case12 =>
    intro depth Γ name type nullable members e s h
    rw [Lowering.property]
    exact rules.objectProperty h
  case case13 =>
    intro depth Γ name type nullable members e
    rw [Lowering.property]
    exact rules.openProperty
  case case14 =>
    intro depth Γ name type nullable nested source hc ho h
    rw [Lowering.property]
    · exact rules.valueProperty hc ho h
    · exact hc
    · exact ho
  case case15 =>
    intro depth Γ e declared nested hf h
    rw [Lowering.collection, hf]
    exact rules.noSelection hf h
  case case16 =>
    intro depth Γ e declared nested reason hf
    rw [Lowering.collection, hf]
    exact rules.refused reason
  case case17 =>
    intro depth Γ e declared nested sel hf he
    rw [Lowering.collection, hf]
    dsimp only
    rw [he]
    exact rules.refused _
  case case18 =>
    intro depth Γ e declared sel hf element he inner hb s hs hd hc
    rw [collection_objects declared hf he hb]
    exact rules.selectObjects hf he hb hs hd hc
  case case19 =>
    intro depth Γ e declared sel hf element he hb hs hd
    rw [collection_openObjects declared hf he hb]
    exact rules.refusedBody _ hf hs
  case case20 =>
    intro depth Γ e declared nested sel hf element he inner hb hs hd h
    rw [collection_values declared hf he hb]
    exact rules.select hf he hb hs hd h
  case case21 =>
    intro depth Γ e declared nested sel hf element he reason hb hs hd
    rw [collection_refused declared hf he hb]
    exact rules.refusedBody _ hf hs
  case case22 =>
    intro depth Γ target name optional h
    rw [Lowering.spine]
    exact rules.memberSpine h
  case case23 =>
    intro depth Γ target args optional hs ha
    rw [Lowering.spine, List.attach_map_val (f := (Lowering.expr settings depth Γ · none))]
    exact rules.indexSpine hs fun a hm => ha ⟨a, hm⟩
  case case24 =>
    intro depth Γ target typeArgs args hs ha
    rw [Lowering.spine, List.attach_map_val
      (f := (Lowering.argument settings depth Γ · (argumentElement? Γ target)))]
    exact rules.callSpine hs fun a hm => ha ⟨a, hm⟩
  case case25 =>
    intro depth Γ e hm hi hc h
    have hn : e.chainOptional = false := by
      cases e with
      | member _ _ _ => exact absurd rfl (hm _ _ _)
      | index _ _ _ => exact absurd rfl (hi _ _ _)
      | invoke _ _ _ => exact absurd rfl (hc _ _ _)
      | _ => rfl
    rw [Lowering.spine]
    · exact rules.startSpine hn h
    · exact hm
    · exact hi
    · exact hc
  case case26 =>
    intro depth Γ arg element params body hu h
    rw [argument_lambda element hu]
    exact rules.lambdaArgument hu h
  case case27 =>
    intro depth Γ arg element hu h
    rw [argument_value element hu]
    exact rules.valueArgument h

theorem Kept.expr (rules : R.Kept settings) (depth : Nat) (Γ : Context) (e : Expr)
    (declared : Option TypeRef) : R.expr Γ e declared (Lowering.expr settings depth Γ e declared) :=
  rules.all.1 depth Γ e declared

theorem Kept.creation (rules : R.Kept settings) (depth : Nat) (Γ : Context) (s : Structure) :
    R.creation Γ s (Lowering.creation settings depth Γ s) :=
  rules.all.2.2.1 depth Γ s

theorem Kept.property (rules : R.Kept settings) (depth : Nat) (Γ : Context) (p : Property) :
    R.property Γ p (Lowering.property settings depth Γ p) :=
  rules.all.2.2.2.1 depth Γ p

theorem Kept.spine (rules : R.Kept settings) (depth : Nat) (Γ : Context) (e : Expr) :
    R.spine Γ e (Lowering.spine settings depth Γ e) :=
  rules.all.2.2.2.2.2.1 depth Γ e

end Relation

end Lowering

end Projection
