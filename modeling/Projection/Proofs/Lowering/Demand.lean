import Projection.Proofs.Lowering.Rules

/-!
When more depth makes no difference. What is lowered at some depth may ask for object literals to be
opened; if it only ever does so while there is depth left, then lowering it at a greater depth gives
the same.
-/

namespace Projection.Lowering

open Typing Projection.Expr

theorem finishSelection_congr {Γ : Context} {declared : TypeRef} {sel : Selection}
    {r : Lowered Spine} {b : Lowered Expr} {f g : Expr → Lowered Expr}
    (h : ∀ d ∈ sel.fallback, f d = g d) :
    finishSelection Γ declared sel r b f = finishSelection Γ declared sel r b g := by
  unfold finishSelection
  cases hf : sel.fallback with
  | none => rfl
  | some d =>
      dsimp only
      rw [h d hf]

/-- What may be lowered at a depth, and where. -/
structure Demand where
  expr : Nat → Context → Expr → Prop
  creation : Nat → Context → Structure → Prop
  property : Nat → Context → Property → Prop

namespace Demand

/-- Lowering leads from what may be lowered to nothing else, and an object literal is met only where
there is depth left for it. -/
structure Met (D : Demand) (settings : Settings) : Prop where
  child : ∀ {depth Γ c e}, D.expr depth Γ e → c ∈ e.children → D.expr depth Γ c
  function : ∀ {depth Γ target typeArgs args arg params body},
    D.expr depth Γ (.invoke target typeArgs args) → arg ∈ args →
    arg.unparen = .lambda params body →
    D.expr depth (enter Γ params (argumentElement? Γ target)) body
  object : ∀ {depth Γ members}, D.expr depth Γ (.anonymous members) →
    (Structure.ofType settings (anonymousType Γ members)).isDegenerate = false →
    ∃ left, depth = left + 1 ∧
      D.creation left Γ (Structure.ofType settings (anonymousType Γ members))
  properties : ∀ {depth Γ s p}, D.creation depth Γ s → p ∈ s.properties → D.property depth Γ p
  value : ∀ {depth Γ p}, D.property depth Γ p →
    (∀ members e, p.source ≠ .object members e) → D.expr depth Γ p.source.expr
  nested : ∀ {depth Γ p members e s}, D.property depth Γ p → p.source = .object members e →
    p.nested = some s → D.creation depth Γ s
  selection : ∀ {depth Γ p sel}, D.property depth Γ p →
    SelectionForm.ofExpr p.source.expr = .selection sel →
    D.expr depth Γ sel.base ∧ ∀ f ∈ sel.fallback, D.expr depth Γ f
  selectObjects : ∀ {depth Γ p sel s t}, D.property depth Γ p →
    SelectionForm.ofExpr p.source.expr = .selection sel → sel.bodyForm = .literal →
    elementType? Γ sel.base = some t → p.nested = some s →
    D.creation depth (Γ.bind sel.parameter t) s
  select : ∀ {depth Γ p sel t}, D.property depth Γ p →
    SelectionForm.ofExpr p.source.expr = .selection sel → sel.bodyForm = .expression →
    elementType? Γ sel.base = some t → D.expr depth (Γ.bind sel.parameter t) sel.body

variable {D : Demand} {settings : Settings}

theorem Met.all (rules : D.Met settings) (more : Nat) :
    (∀ depth Γ e declared, D.expr depth Γ e →
      Lowering.expr settings (depth + more) Γ e declared =
        Lowering.expr settings depth Γ e declared) ∧
    (∀ depth Γ e declared, D.expr depth Γ e →
      Lowering.node settings (depth + more) Γ e declared =
        Lowering.node settings depth Γ e declared) ∧
    (∀ depth Γ s, D.creation depth Γ s →
      Lowering.creation settings (depth + more) Γ s = Lowering.creation settings depth Γ s) ∧
    (∀ depth Γ p, D.property depth Γ p →
      Lowering.property settings (depth + more) Γ p = Lowering.property settings depth Γ p) ∧
    (∀ depth Γ e declared nested, (∃ p, D.property depth Γ p ∧ p.source.expr = e ∧
        p.nested = nested ∧ ∀ members f, p.source ≠ .object members f) →
      Lowering.collection settings (depth + more) Γ e declared nested =
        Lowering.collection settings depth Γ e declared nested) ∧
    (∀ depth Γ e, D.expr depth Γ e →
      Lowering.spine settings (depth + more) Γ e = Lowering.spine settings depth Γ e) ∧
    ∀ depth Γ arg element, D.expr depth Γ arg →
      (∀ params body, arg.unparen = .lambda params body →
        D.expr depth (enter Γ params element) body) →
      Lowering.argument settings (depth + more) Γ arg element =
        Lowering.argument settings depth Γ arg element := by
  apply Lowering.expr.mutual_induct
  case case1 =>
    intro depth Γ e declared h hs he
    rw [Lowering.expr, if_pos h, Lowering.expr, if_pos h, hs he]
  case case2 =>
    intro depth Γ e declared h hn he
    rw [Lowering.expr, if_neg h, Lowering.expr, if_neg h, hn he]
  case case3 =>
    intro depth Γ declared target typeArgs args ht ha he
    have hargs (a : { a // a ∈ args }) := ha a (rules.child he (by simp [children, a.2]))
      fun params body hu => rules.function he a.2 hu
    rw [Lowering.node, Lowering.node, ht (rules.child he (by simp [children]))]
    simp only [hargs]
  case case4 =>
    intro depth Γ declared members s hs he
    rw [node_untypedObject declared hs, node_untypedObject declared hs]
  case case5 =>
    intro Γ declared members s hs he
    obtain ⟨left, hleft, -⟩ := rules.object he (Bool.eq_false_iff.2 hs)
    cases hleft
  case case6 =>
    intro Γ declared members s hs depth hc he
    have htyped := Bool.eq_false_iff.2 hs
    obtain ⟨left, hleft, hcreation⟩ := rules.object he htyped
    cases hleft
    rw [Nat.succ_add, node_object declared htyped, node_object declared htyped, hc hcreation]
  case case7 =>
    intro depth Γ declared c t f hc ht hf he
    rw [Lowering.node, Lowering.node, hc (rules.child he (by simp [children])),
      ht (rules.child he (by simp [children])), hf (rules.child he (by simp [children]))]
  case case8 =>
    intro depth Γ declared inner h he
    rw [Lowering.node, Lowering.node, h (rules.child he (by simp [children]))]
  case case9 =>
    intro depth Γ declared e hi ha hc hp h he
    have hchildren (c : { c // c ∈ e.children }) := h c (rules.child he c.2)
    rw [Lowering.node, Lowering.node]
    · simp only [hchildren]
    all_goals assumption
  case case10 =>
    intro depth Γ s h hs
    have hproperties (p : { p // p ∈ s.properties }) := h p (rules.properties hs p.2)
    rw [Lowering.creation, Lowering.creation]
    simp only [hproperties]
  case case11 =>
    intro depth Γ name type nullable nested base parameter element e h hp
    rw [Lowering.property, Lowering.property]
    exact h ⟨_, hp, rfl, rfl, fun _ _ hs => by cases hs⟩
  case case12 =>
    intro depth Γ name type nullable members e s h hp
    rw [Lowering.property, Lowering.property]
    exact h (rules.nested hp rfl rfl)
  case case13 =>
    intro depth Γ name type nullable members e _
    rw [Lowering.property, Lowering.property]
  case case14 =>
    intro depth Γ name type nullable nested source hc ho h hp
    rw [Lowering.property, Lowering.property]
    · exact h (rules.value hp ho)
    all_goals assumption
  case case15 =>
    rintro depth Γ _ declared nested hf h ⟨p, hp, rfl, -, hsource⟩
    rw [Lowering.collection, Lowering.collection, hf]
    exact h (rules.value hp hsource)
  case case16 =>
    intro depth Γ e declared nested reason hf _
    rw [Lowering.collection, Lowering.collection, hf]
  case case17 =>
    intro depth Γ e declared nested sel hf he _
    rw [Lowering.collection, Lowering.collection, hf]
    dsimp only
    rw [he]
  case case18 =>
    rintro depth Γ _ declared sel hf element he inner hb s hs hd hc ⟨p, hp, rfl, hnested, -⟩
    obtain ⟨hbase, hfallback⟩ := rules.selection hp hf
    rw [collection_objects declared hf he hb, collection_objects declared hf he hb, hs hbase,
      hc (rules.selectObjects hp hf hb he hnested)]
    exact finishSelection_congr fun f hf => hd f (hfallback f hf)
  case case19 =>
    rintro depth Γ _ declared sel hf element he hb hs hd ⟨p, hp, rfl, -, -⟩
    rw [collection_openObjects declared hf he hb, collection_openObjects declared hf he hb,
      hs (rules.selection hp hf).1]
  case case20 =>
    rintro depth Γ _ declared nested sel hf element he inner hb hs hd h ⟨p, hp, rfl, -, -⟩
    obtain ⟨hbase, hfallback⟩ := rules.selection hp hf
    rw [collection_values declared hf he hb, collection_values declared hf he hb, hs hbase,
      h (rules.select hp hf hb he)]
    exact finishSelection_congr fun f hf => hd f (hfallback f hf)
  case case21 =>
    rintro depth Γ _ declared nested sel hf element he reason hb hs hd ⟨p, hp, rfl, -, -⟩
    rw [collection_refused declared hf he hb, collection_refused declared hf he hb,
      hs (rules.selection hp hf).1]
  case case22 =>
    intro depth Γ target name optional h he
    rw [Lowering.spine, Lowering.spine, h (rules.child he (by simp [children]))]
  case case23 =>
    intro depth Γ target args optional hs ha he
    have hargs (a : { a // a ∈ args }) := ha a (rules.child he (by simp [children, a.2]))
    rw [Lowering.spine, Lowering.spine, hs (rules.child he (by simp [children]))]
    simp only [hargs]
  case case24 =>
    intro depth Γ target typeArgs args hs ha he
    have hargs (a : { a // a ∈ args }) := ha a (rules.child he (by simp [children, a.2]))
      fun params body hu => rules.function he a.2 hu
    rw [Lowering.spine, Lowering.spine, hs (rules.child he (by simp [children]))]
    simp only [hargs]
  case case25 =>
    intro depth Γ e hm hi hc h he
    rw [Lowering.spine, Lowering.spine]
    · rw [h he]
    all_goals assumption
  case case26 =>
    intro depth Γ arg element params body hu h _ hbody
    rw [argument_lambda element hu, argument_lambda element hu, h (hbody params body hu)]
  case case27 =>
    intro depth Γ arg element hu h he _
    rw [argument_value element hu, argument_value element hu, h he]

end Demand

end Projection.Lowering
