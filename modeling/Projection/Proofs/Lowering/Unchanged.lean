import Projection.Lowering.Session
import Projection.Proofs.Expr.Nodes

/-!
What lowering has no business with. An expression without optional access and object literals comes
out as it went in, but for parentheses directly around a lambda that is an argument of a call, and
no structure is made for it.
-/

namespace Projection

namespace Expr

def bareLambda (e : Expr) : Expr :=
  match e.unparen with
  | lambda params body => lambda params body
  | _ => e

def bareArguments : Expr → Expr
  | invoke t ts as => invoke t ts (as.map bareLambda)
  | e => e

def withBareLambdas (e : Expr) : Expr :=
  (e.withChildren (e.children.attach.map fun c => withBareLambdas c.1)).bareArguments
termination_by sizeOf e
decreasing_by exact sizeOf_lt_of_mem_children c.2

theorem withBareLambdas_eq (e : Expr) :
    e.withBareLambdas = (e.withChildren (e.children.map withBareLambdas)).bareArguments := by
  rw [withBareLambdas]
  simp

theorem withBareLambdas_invoke (t : Expr) (ts : List TypeExpr) (as : List Expr) :
    (invoke t ts as).withBareLambdas =
      invoke t.withBareLambdas ts (as.map fun a => a.withBareLambdas.bareLambda) := by
  rw [withBareLambdas_eq]
  simp [children, withChildren, bareArguments]

/-- Nodes other than calls are rebuilt around their children. -/
theorem withBareLambdas_of_not_invoke {e : Expr} (h : ∀ t ts as, e ≠ invoke t ts as) :
    e.withBareLambdas = e.withChildren (e.children.map withBareLambdas) := by
  rw [withBareLambdas_eq]
  cases e with
  | invoke t ts as => exact absurd rfl (h t ts as)
  | creation t as initializers => cases initializers <;> rfl
  | _ => rfl

@[simp] theorem withBareLambdas_paren (e : Expr) :
    (paren e).withBareLambdas = paren e.withBareLambdas := by
  rw [withBareLambdas_of_not_invoke (by simp)]
  rfl

@[simp] theorem withBareLambdas_lambda (params : List String) (body : Expr) :
    (lambda params body).withBareLambdas = lambda params body.withBareLambdas := by
  rw [withBareLambdas_of_not_invoke (by simp)]
  rfl

/-- Copying does not get in the way of taking parentheses off. -/
theorem unparen_withBareLambdas (e : Expr) :
    e.withBareLambdas.unparen = e.unparen.withBareLambdas := by
  fun_induction unparen e with
  | case1 e ih =>
      rw [withBareLambdas_paren]
      exact ih
  | case2 e h =>
      cases e with
      | paren e => exact absurd rfl (h e)
      | invoke t ts as =>
          rw [withBareLambdas_invoke]
          rfl
      | creation t as initializers =>
          rw [withBareLambdas_of_not_invoke (by simp)]
          cases initializers <;> rfl
      | _ =>
          rw [withBareLambdas_of_not_invoke (by simp)]
          rfl

theorem bareLambda_of_lambda {e body : Expr} {params : List String}
    (h : e.unparen = lambda params body) : e.bareLambda = lambda params body := by
  rw [bareLambda, h]

theorem bareLambda_of_not_lambda {e : Expr} (h : ∀ params body, e.unparen ≠ lambda params body) :
    e.bareLambda = e := by
  unfold bareLambda
  split
  · rename_i params body hu
    exact absurd hu (h params body)
  · rfl

theorem exists_lambda_of_withBareLambdas {e body : Expr} {params : List String}
    (h : e.withBareLambdas = lambda params body) : ∃ inner, e = lambda params inner := by
  cases e with
  | lambda params' inner =>
      rw [withBareLambdas_lambda] at h
      cases h
      exact ⟨inner, rfl⟩
  | invoke t ts as =>
      rw [withBareLambdas_invoke] at h
      cases h
  | creation t as initializers =>
      rw [withBareLambdas_of_not_invoke (by simp)] at h
      cases initializers <;> cases h
  | _ =>
      rw [withBareLambdas_of_not_invoke (by simp)] at h
      cases h

def HasBareLambdas (e : Expr) : Prop := ∀ t ts as, e = invoke t ts as → ∀ a ∈ as, a.bareLambda = a

/-- Where there are no such parentheses the copy is the expression itself. -/
theorem withBareLambdas_eq_self {e : Expr} (h : e.Every HasBareLambdas) :
    e.withBareLambdas = e := by
  induction e using childInduction with
  | h e ih =>
      have hchildren : e.children.map withBareLambdas = e.children :=
        (List.map_congr_left fun c hc => ih c hc (h.child hc)).trans (List.map_id _)
      rw [withBareLambdas_eq, hchildren, withChildren_children]
      cases e with
      | invoke t ts as =>
          have hargs : as.map bareLambda = as :=
            (List.map_congr_left (h.self t ts as rfl)).trans (List.map_id _)
          rw [bareArguments, hargs]
      | _ => rfl

end Expr

namespace Lowering

open Projection.Expr

theorem all_pure (es : List Expr) (f : Expr → Lowered Expr) (g : Expr → Expr)
    (h : ∀ e ∈ es, f e = .pure (g e)) : Lowered.all (es.map f) = .pure (es.map g) := by
  induction es with
  | nil => rfl
  | cons e es ih =>
      obtain ⟨he, hes⟩ := List.forall_mem_cons.1 h
      rw [List.map_cons, Lowered.all, he, ih hes]
      rfl

/-- An argument goes through without its parentheses if it is a lambda, and as an expression
otherwise. -/
theorem argument_of_no_surface {settings : Settings} {depth : Nat} {a : Expr}
    (ih : ∀ e, e.size ≤ a.size → (e.Every fun n => n.isSurface = false) → ∀ Γ declared,
      expr settings depth Γ e declared = .pure e.withBareLambdas)
    (h : a.Every fun n => n.isSurface = false) (Γ : Context) (element : Option TypeRef) :
    argument settings depth Γ a element = .pure a.withBareLambdas.bareLambda := by
  unfold argument
  split
  · rename_i params body hu
    have hbody : body ∈ a.unparen.children := by simp [hu, children]
    have hsize : body.size ≤ a.size :=
      Nat.le_of_lt (Nat.lt_of_lt_of_le (size_lt_of_mem_children hbody) (size_unparen_le a))
    have hbare : a.withBareLambdas.bareLambda = lambda params body.withBareLambdas :=
      bareLambda_of_lambda (by rw [unparen_withBareLambdas, hu, withBareLambdas_lambda])
    rw [ih body hsize (h.unparen.child hbody), hbare]
    rfl
  · rename_i hu
    have hbare : a.withBareLambdas.bareLambda = a.withBareLambdas := by
      apply bareLambda_of_not_lambda
      intro params body hlambda
      rw [unparen_withBareLambdas] at hlambda
      obtain ⟨inner, hinner⟩ := exists_lambda_of_withBareLambdas hlambda
      exact hu params inner hinner
    rw [ih a (Nat.le_refl _) h, hbare]

/-- One node, once its children are known to go through. -/
theorem node_of_no_surface {settings : Settings} {depth : Nat} {e : Expr}
    (ih : ∀ c, c.size < e.size → (c.Every fun n => n.isSurface = false) → ∀ Γ declared,
      expr settings depth Γ c declared = .pure c.withBareLambdas)
    (h : e.Every fun n => n.isSurface = false) (Γ : Context) (declared : Option TypeRef) :
    node settings depth Γ e declared = .pure e.withBareLambdas := by
  have hchild {c : Expr} (hc : c ∈ e.children) (declared : Option TypeRef) :
      expr settings depth Γ c declared = .pure c.withBareLambdas :=
    ih c (size_lt_of_mem_children hc) (h.child hc) Γ declared
  cases e with
  | invoke target typeArgs args =>
      have hargs : Lowered.all (args.map fun a =>
          argument settings depth Γ a (argumentElement? Γ target)) =
            .pure (args.map fun a => a.withBareLambdas.bareLambda) := by
        apply all_pure
        intro a ha
        have hmem : a ∈ (invoke target typeArgs args).children := List.mem_cons_of_mem _ ha
        apply argument_of_no_surface
        · intro c hc
          exact ih c (Nat.lt_of_le_of_lt hc (size_lt_of_mem_children hmem))
        · exact h.child hmem
      rw [node, hchild List.mem_cons_self, List.attach_map_val
        (f := (argument settings depth Γ · (argumentElement? Γ target))), hargs,
        withBareLambdas_invoke]
      rfl
  | anonymous members => cases h.self
  | conditional c t f =>
      rw [node, hchild (by simp [children]), hchild (by simp [children]),
        hchild (by simp [children]),
        withBareLambdas_of_not_invoke (e := .conditional c t f) (by simp)]
      rfl
  | paren inner =>
      rw [node, hchild (by simp [children]), withBareLambdas_paren]
      rfl
  | _ =>
      rw [node, List.attach_map_val (f := (expr settings depth Γ · none)),
        all_pure _ _ withBareLambdas fun c hc => hchild hc none,
        withBareLambdas_of_not_invoke (by simp)]
      · rfl
      all_goals simp

theorem expr_of_no_surface (settings : Settings) (depth : Nat) (Γ : Context) (e : Expr)
    (declared : Option TypeRef) (h : e.Every fun n => n.isSurface = false) :
    expr settings depth Γ e declared = .pure e.withBareLambdas := by
  induction hn : e.size using Nat.strongRecOn generalizing Γ e declared with
  | ind n ih =>
      rw [expr, chainOptional_eq_false h]
      apply node_of_no_surface
      · intro c hc hsurface Γ declared
        exact ih c.size (hn ▸ hc) Γ c declared hsurface rfl
      · exact h

theorem every_not_isSurface {e : Expr} (ho : e.hasOptionalAccess = false)
    (ha : e.any isObject = false) : e.Every fun n => n.isSurface = false := by
  induction e using childInduction with
  | h e ih =>
      rw [hasOptionalAccess, any_eq, Bool.or_eq_false_iff, List.any_eq_false] at ho
      rw [any_eq, Bool.or_eq_false_iff, List.any_eq_false] at ha
      refine every_iff.2 ⟨?_, fun c hc => ih c hc ?_ ?_⟩
      · rw [isSurface, ho.1, ha.1]
        rfl
      · exact Bool.eq_false_iff.2 (ho.2 c hc)
      · exact Bool.eq_false_iff.2 (ha.2 c hc)

/-- Whatever the model, the scope, the bindings, the settings, the depth and the declared type are,
and whatever was lowered before, an expression without optional access and object literals goes
through: only parentheses directly around lambdas that are arguments of calls fall away, and no
structure is made. Where there are no such parentheses it stays exactly as it is. -/
theorem Session.lower_passes_through (s : Session) (depth : Nat) (e : Expr)
    (declared : Option TypeRef) (ho : e.hasOptionalAccess = false) (ha : e.any isObject = false) :
    s.expr depth e declared = (e.withBareLambdas, s) ∧
      (e.Every HasBareLambdas → s.expr depth e declared = (e, s)) := by
  have hexpr : s.expr depth e declared = (e.withBareLambdas, s) := by
    rw [Session.expr, expr_of_no_surface _ _ _ e declared (every_not_isSurface ho ha),
      Session.record]
    simp
  refine ⟨hexpr, fun hbare => ?_⟩
  rw [hexpr, withBareLambdas_eq_self hbare]

/-- `xs.Where(x => x.Id > 1).Select((x, i) => new Row(i) { Name = $"{x.Name,8}" })`, with what
`around` puts around the condition. -/
def rowsOf (around : Expr → Expr) : Expr :=
  let x : Expr := .ident "x"
  let condition : Expr := .lambda ["x"] (.binary .gt (x.dot "Id") (.literal (.int "1")))
  let row : Expr := .creation (.simple "Row") [.ident "i"]
    (some [.named "Name" (.interpolated [.hole (x.dot "Name") (some ",8")])])
  ((((Expr.ident "xs").dot "Where").call [around condition]).dot "Select").call
    [.lambda ["x", "i"] row]

def ordersBound : Context :=
  ⟨.ofTypes [], .empty, [("xs", .sequence "List" (.named "Order" false))]⟩

theorem Session.lower_passes_through_rows :
    let s := Session.start {} ordersBound
    (rowsOf .paren).hasOptionalAccess = false ∧ (rowsOf .paren).any isObject = false ∧
      s.lower (rowsOf .paren) (some .int) = (rowsOf id, s) := by
  intro s
  have ho : (rowsOf .paren).hasOptionalAccess = false := by decide +kernel
  have ha : (rowsOf .paren).any isObject = false := by decide +kernel
  have hrows : (rowsOf .paren).withBareLambdas = rowsOf id := by decide +kernel
  refine ⟨ho, ha, ?_⟩
  exact (Session.lower_passes_through s _ (rowsOf .paren) (some .int) ho ha).1.trans
    (congrArg (·, s) hrows)

end Lowering

end Projection
