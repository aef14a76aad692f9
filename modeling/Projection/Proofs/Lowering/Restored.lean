import Projection.Lowering.Session
import Projection.Proofs.Lowering.Rules
import Projection.Proofs.Lowering.Stack

/-!
Lowering restores its state. Whatever is typed or lowered on one state and in whatever order, the
stack of bindings is in the end what it was, the structures are the old ones with new ones behind
them, and each result is that of a state with the same bindings and no structures. So a session,
which has one context for all that is asked of it, does what is done on a state.
-/

namespace Projection.Lowering.Stateful

open Typing Projection.Expr

section Rules

variable {settings : Settings} {Γ : Context}

/-- The parameters of a lambda that ranges over elements are pushed in their order. -/
theorem enter_apply (params : List String) (element : Option TypeRef) :
    ∃ new, Lowering.enter Γ params element = ⟨Γ.model, Γ.scope, new ++ Γ.bindings⟩ ∧
      ∀ done, enter params element ⟨Γ.bindings, done⟩ =
        (new.length, ⟨new ++ Γ.bindings, done⟩) := by
  cases element with
  | none => exact ⟨[], rfl, fun done => by rcases params with _ | ⟨p, _ | ⟨q, r⟩⟩ <;> rfl⟩
  | some element =>
      rcases params with _ | ⟨first, _ | ⟨second, more⟩⟩
      · exact ⟨[], rfl, fun _ => rfl⟩
      · exact ⟨[(first, element)], rfl, fun _ => rfl⟩
      · refine ⟨[(second, .int), (first, element)], ?_, fun _ => rfl⟩
        rw [Lowering.enter, Context.bindAll, List.zip_cons_cons, List.zip_cons_cons,
          List.zip_nil_right]
        rfl

theorem finish_gives (s : Structure) (b : Bindings) : Gives (finish s) b ⟨(), [s]⟩ :=
  fun _ => rfl

theorem present_gives (target : Expr) (optional : Bool) (s : Spine) :
    Gives (present Γ.model Γ.scope target optional s) Γ.bindings
      (.pure (Lowering.present Γ target optional s)) := by
  unfold present Lowering.present
  cases optional with
  | true => exact .typed_bind (OnStack.infer_reads _) (.pure _)
  | false => exact .pure _

theorem closeChain_gives (e : Expr) (declared : Option TypeRef) (s : Spine) :
    Gives (closeChain Γ.model Γ.scope e declared s) Γ.bindings
      (.pure (Lowering.closeChain Γ e declared s)) := by
  unfold closeChain Lowering.closeChain
  cases Expr.all s.guards with
  | none => exact .pure _
  | some guard =>
      cases declared with
      | some type => exact (Gives.pure (some type)).map _
      | none => exact .typed_bind (OnStack.infer_reads _) (.pure _)

theorem argumentElement_gives (target : Expr) :
    Gives (argumentElement Γ.model Γ.scope target) Γ.bindings
      (.pure (argumentElement? Γ target)) := by
  unfold argumentElement argumentElement?
  cases target.unparen with
  | member receiver name optional => exact .typed (OnStack.elementType_reads receiver)
  | _ => exact .pure none

theorem argument_lambda_gives {depth : Nat} {arg body : Expr} {params : List String}
    {element : Option TypeRef} (hu : arg.unparen = .lambda params body)
    (h : Gives (expr settings (Lowering.enter Γ params element).model
      (Lowering.enter Γ params element).scope depth body none)
      (Lowering.enter Γ params element).bindings
      (Lowering.expr settings depth (Lowering.enter Γ params element) body none)) :
    Gives (argument settings Γ.model Γ.scope depth arg element) Γ.bindings
      (Lowering.argument settings depth Γ arg element) := by
  obtain ⟨new, henter, happly⟩ := enter_apply (Γ := Γ) params element
  rw [henter] at h
  rw [Lowering.argument_lambda element hu]
  unfold argument
  split
  · rename_i hv
    cases hu.symm.trans hv
    rw [henter]
    exact h.bracket_map happly rfl _
  · rename_i hv
    exact absurd hu (hv _ _)

theorem argument_value_gives {depth : Nat} {arg : Expr} {element : Option TypeRef}
    (hu : ∀ params body, arg.unparen ≠ .lambda params body)
    (h : Gives (expr settings Γ.model Γ.scope depth arg none) Γ.bindings
      (Lowering.expr settings depth Γ arg none)) :
    Gives (argument settings Γ.model Γ.scope depth arg element) Γ.bindings
      (Lowering.argument settings depth Γ arg element) := by
  rw [Lowering.argument_value element hu]
  unfold argument
  split
  · rename_i hv
    exact absurd hv (hu _ _)
  · exact h

section Objects

variable {depth : Nat} {members : List Initializer} {declared : Option TypeRef}

theorem node_untypedObject_gives
    (hs : (Structure.ofType settings (anonymousType Γ members)).isDegenerate = true) :
    Gives (node settings Γ.model Γ.scope depth (.anonymous members) declared) Γ.bindings
      (Lowering.node settings depth Γ (.anonymous members) declared) := by
  rw [node, Lowering.node_untypedObject declared hs]
  refine .typed_bind (OnStack.anonymousType_reads members) ?_
  rw [if_pos hs]
  exact .pure _

theorem node_deepObject_gives
    (hs : (Structure.ofType settings (anonymousType Γ members)).isDegenerate = false) :
    Gives (node settings Γ.model Γ.scope 0 (.anonymous members) declared) Γ.bindings
      (Lowering.node settings 0 Γ (.anonymous members) declared) := by
  rw [Lowering.node_deepObject declared hs]
  unfold node
  refine .typed_bind (OnStack.anonymousType_reads members) ?_
  rw [if_neg (Bool.eq_false_iff.1 hs)]
  exact .pure _

/-- The structure of an object is finished behind those of its members. -/
theorem node_object_gives
    (hs : (Structure.ofType settings (anonymousType Γ members)).isDegenerate = false)
    (hc : Gives (creation settings Γ.model Γ.scope depth
      (.ofType settings (anonymousType Γ members))) Γ.bindings
      (Lowering.creation settings depth Γ (.ofType settings (anonymousType Γ members)))) :
    Gives (node settings Γ.model Γ.scope (depth + 1) (.anonymous members) declared) Γ.bindings
      (Lowering.node settings (depth + 1) Γ (.anonymous members) declared) := by
  rw [Lowering.node_object declared hs]
  unfold node
  refine .typed_bind (OnStack.anonymousType_reads members) ?_
  rw [if_neg (Bool.eq_false_iff.1 hs)]
  exact hc.bind ((finish_gives _ _).map _) rfl

end Objects

section Selections

variable {depth : Nat} {e : Expr} {declared : TypeRef} {nested : Option Structure} {sel : Selection}
  {element : TypeRef} {r : Lowered Spine}

/-- The receiver of a selection is lowered before its function is entered, and the function is left
before anything is said about it. -/
theorem collection_gives {x : Lowered (Except String Expr)} {y z : Lowered Expr}
    (hform : SelectionForm.ofExpr e = .selection sel)
    (helement : elementType? Γ sel.base = some element)
    (hspine : Gives (spine settings Γ.model Γ.scope depth sel.base) Γ.bindings r)
    (hbody : Gives (elementBody settings Γ.model Γ.scope depth sel nested)
      (Γ.bind sel.parameter element).bindings x)
    (hrest : Gives (conclude e declared sel (Lowering.present Γ sel.base sel.optional r.value)
      (sel.fallback.mapM fun f => expr settings Γ.model Γ.scope depth f (some declared)) x.value)
      Γ.bindings y)
    (hz : ⟨y.value, r.structures ++ (x.structures ++ y.structures)⟩ = z) :
    Gives (collection settings Γ.model Γ.scope depth e declared nested) Γ.bindings z := by
  have hpush : ∀ done, typed (OnStack.push sel.parameter element) ⟨Γ.bindings, done⟩ =
      ((), ⟨[(sel.parameter, element)] ++ Γ.bindings, done⟩) := fun _ => rfl
  rw [collection, hform]
  refine .typed_bind (OnStack.elementType_reads sel.base) ?_
  rw [helement]
  have hinner := Gives.bracket (n := fun _ => 1) hpush rfl hbody hrest rfl
  exact hspine.bind ((present_gives sel.base sel.optional _).bind hinner rfl) hz

theorem collection_selected_gives {y : Lowered Expr} {f : Expr → Lowered Expr}
    (hform : SelectionForm.ofExpr e = .selection sel)
    (helement : elementType? Γ sel.base = some element)
    (hspine : Gives (spine settings Γ.model Γ.scope depth sel.base) Γ.bindings r)
    (hbody : Gives (elementBody settings Γ.model Γ.scope depth sel nested)
      (Γ.bind sel.parameter element).bindings (y.map .ok))
    (hfallback : ∀ d, Gives (expr settings Γ.model Γ.scope depth d (some declared)) Γ.bindings
      (f d)) :
    Gives (collection settings Γ.model Γ.scope depth e declared nested) Γ.bindings
      (finishSelection Γ declared sel r y f) := by
  unfold finishSelection
  cases hsel : sel.fallback with
  | none =>
      refine collection_gives hform helement hspine hbody (Gives.map (y := .pure none) ?_ _) rfl
      rw [hsel]
      exact .pure none
  | some d =>
      refine collection_gives hform helement hspine hbody (Gives.map (y := (f d).map some) ?_ _) rfl
      rw [hsel]
      exact (hfallback d).map some

theorem collection_refused_gives {reason : String}
    (hform : SelectionForm.ofExpr e = .selection sel)
    (helement : elementType? Γ sel.base = some element)
    (hspine : Gives (spine settings Γ.model Γ.scope depth sel.base) Γ.bindings r)
    (hbody : Gives (elementBody settings Γ.model Γ.scope depth sel nested)
      (Γ.bind sel.parameter element).bindings (.pure (.error reason))) :
    Gives (collection settings Γ.model Γ.scope depth e declared nested) Γ.bindings
      ((r.map (Lowering.present Γ sel.base sel.optional)).map fun _ => .marked reason e) := by
  refine collection_gives hform helement hspine hbody (.pure (marked reason e)) ?_
  simp only [Lowered.structures_pure, List.append_nil]
  rfl

theorem collection_unknown_gives (hform : SelectionForm.ofExpr e = .selection sel)
    (helement : elementType? Γ sel.base = none) :
    Gives (collection settings Γ.model Γ.scope depth e declared nested) Γ.bindings
      (Lowering.collection settings depth Γ e declared nested) := by
  rw [collection, Lowering.collection, hform]
  dsimp only
  refine .typed_bind (OnStack.elementType_reads sel.base) ?_
  rw [helement]
  exact .pure _

variable {m : Model} {σ : Scope} {b : Bindings} {y : Lowered Expr}

theorem elementBody_objects_gives {s : Structure} (hbody : sel.bodyForm = .literal)
    (h : Gives (creation settings m σ depth s) b y) :
    Gives (elementBody settings m σ depth sel (some s)) b (y.map .ok) := by
  unfold elementBody
  rw [hbody]
  exact h.map _

theorem elementBody_values_gives (hbody : sel.bodyForm = .expression)
    (h : Gives (expr settings m σ depth sel.body none) b y) :
    Gives (elementBody settings m σ depth sel nested) b (y.map .ok) := by
  unfold elementBody
  rw [hbody]
  exact h.map _

theorem elementBody_openObjects_gives (hbody : sel.bodyForm = .literal) :
    Gives (elementBody settings m σ depth sel none) b
      (.pure (.error "nested element shape could not be resolved")) := by
  unfold elementBody
  rw [hbody]
  exact .pure _

theorem elementBody_refused_gives {reason : String} (hbody : sel.bodyForm = .refused reason) :
    Gives (elementBody settings m σ depth sel nested) b (.pure (.error reason)) := by
  unfold elementBody
  rw [hbody]
  exact .pure _

end Selections

/-- On a state, each function of lowering gives what it gives in the context. The induction is along
the calls of lowering, so the stack at each call is that of the context there. -/
theorem gives_all (settings : Settings) :
    (∀ depth Γ e declared, Gives (expr settings Γ.model Γ.scope depth e declared) Γ.bindings
      (Lowering.expr settings depth Γ e declared)) ∧
    (∀ depth Γ e declared, Gives (node settings Γ.model Γ.scope depth e declared) Γ.bindings
      (Lowering.node settings depth Γ e declared)) ∧
    (∀ depth Γ s, Gives (creation settings Γ.model Γ.scope depth s) Γ.bindings
      (Lowering.creation settings depth Γ s)) ∧
    (∀ depth Γ p, Gives (property settings Γ.model Γ.scope depth p) Γ.bindings
      (Lowering.property settings depth Γ p)) ∧
    (∀ depth Γ e declared nested,
      Gives (collection settings Γ.model Γ.scope depth e declared nested) Γ.bindings
        (Lowering.collection settings depth Γ e declared nested)) ∧
    (∀ depth Γ e, Gives (spine settings Γ.model Γ.scope depth e) Γ.bindings
      (Lowering.spine settings depth Γ e)) ∧
    ∀ depth Γ arg element, Gives (argument settings Γ.model Γ.scope depth arg element) Γ.bindings
      (Lowering.argument settings depth Γ arg element) := by
  apply Lowering.expr.mutual_induct
  case case1 =>
    intro depth Γ e declared h hs
    rw [expr, Lowering.expr, if_pos h, if_pos h]
    exact hs.bind_pure (closeChain_gives e declared _)
  case case2 =>
    intro depth Γ e declared h hn
    rw [expr, Lowering.expr, if_neg h, if_neg h]
    exact hn
  case case3 =>
    intro depth Γ declared target typeArgs args ht ha
    rw [node, Lowering.node]
    have hargs := Gives.mapM fun a (_ : a ∈ args.attach) => ha a
    exact (argumentElement_gives target).bind (ht.bind (hargs.map _) rfl) rfl
  case case4 =>
    intro depth Γ declared members s hs
    exact node_untypedObject_gives hs
  case case5 =>
    intro Γ declared members s hs
    exact node_deepObject_gives (Bool.eq_false_iff.2 hs)
  case case6 =>
    intro Γ declared members s hs depth hc
    exact node_object_gives (Bool.eq_false_iff.2 hs) hc
  case case7 =>
    intro depth Γ declared c t f hc ht hf
    rw [node, Lowering.node]
    exact hc.bind (ht.bind (hf.map _) rfl) rfl
  case case8 =>
    intro depth Γ declared inner h
    rw [node, Lowering.node]
    exact h.map _
  case case9 =>
    intro depth Γ declared e hi ha hc hp h
    rw [node, Lowering.node]
    · exact (Gives.mapM fun c _ => h c).map _
    all_goals assumption
  case case10 =>
    intro depth Γ s h
    rw [creation, Lowering.creation]
    exact (Gives.mapM fun p _ => (h p).map _).map _
  case case11 =>
    intro depth Γ name type nullable nested base parameter element e h
    rw [property, Lowering.property]
    exact h
  case case12 =>
    intro depth Γ name type nullable members e s h
    rw [property, Lowering.property]
    exact h
  case case13 =>
    intro depth Γ name type nullable members e
    rw [property, Lowering.property]
    exact .pure _
  case case14 =>
    intro depth Γ name type nullable nested source hc ho h
    rw [property, Lowering.property]
    · exact h
    all_goals assumption
  case case15 =>
    intro depth Γ e declared nested hf h
    rw [collection, Lowering.collection, hf]
    exact h
  case case16 =>
    intro depth Γ e declared nested reason hf
    rw [collection, Lowering.collection, hf]
    exact .pure _
  case case17 =>
    intro depth Γ e declared nested sel hf he
    exact collection_unknown_gives hf he
  case case18 =>
    intro depth Γ e declared sel hf element he inner hb s hs hd hc
    rw [Lowering.collection_objects declared hf he hb]
    exact collection_selected_gives hf he hs (elementBody_objects_gives hb hc) hd
  case case19 =>
    intro depth Γ e declared sel hf element he hb hs hd
    rw [Lowering.collection_openObjects declared hf he hb]
    exact collection_refused_gives hf he hs (elementBody_openObjects_gives hb)
  case case20 =>
    intro depth Γ e declared nested sel hf element he inner hb hs hd h
    rw [Lowering.collection_values declared hf he hb]
    exact collection_selected_gives hf he hs (elementBody_values_gives hb h) hd
  case case21 =>
    intro depth Γ e declared nested sel hf element he reason hb hs hd
    rw [Lowering.collection_refused declared hf he hb]
    exact collection_refused_gives hf he hs (elementBody_refused_gives hb)
  case case22 =>
    intro depth Γ target name optional h
    rw [spine, Lowering.spine]
    exact h.bind_pure ((present_gives target optional _).map _)
  case case23 =>
    intro depth Γ target args optional hs ha
    rw [spine, Lowering.spine]
    have hargs := Gives.mapM fun a (_ : a ∈ args.attach) => ha a
    exact hs.bind ((present_gives target optional _).bind (hargs.map _) rfl) rfl
  case case24 =>
    intro depth Γ target typeArgs args hs ha
    rw [spine, Lowering.spine]
    have hargs := Gives.mapM fun a (_ : a ∈ args.attach) => ha a
    exact (argumentElement_gives target).bind (hs.bind (hargs.map _) rfl) rfl
  case case25 =>
    intro depth Γ e hm hi hc h
    rw [spine, Lowering.spine]
    · exact h.map _
    all_goals assumption
  case case26 =>
    intro depth Γ arg element params body hu h
    exact argument_lambda_gives hu h
  case case27 =>
    intro depth Γ arg element hu h
    exact argument_value_gives hu h

theorem expr_gives (depth : Nat) (e : Expr) (declared : Option TypeRef) :
    Gives (expr settings Γ.model Γ.scope depth e declared) Γ.bindings
      (Lowering.expr settings depth Γ e declared) :=
  (gives_all settings).1 depth Γ e declared

theorem creation_gives (depth : Nat) (s : Structure) :
    Gives (creation settings Γ.model Γ.scope depth s) Γ.bindings
      (Lowering.creation settings depth Γ s) :=
  (gives_all settings).2.2.1 depth Γ s

theorem property_gives (depth : Nat) (p : Property) :
    Gives (property settings Γ.model Γ.scope depth p) Γ.bindings
      (Lowering.property settings depth Γ p) :=
  (gives_all settings).2.2.2.1 depth Γ p

theorem initializer_gives (depth : Nat) (s : Structure) (i : Initializer) :
    Gives (initializer settings Γ.model Γ.scope depth s i) Γ.bindings
      (Lowering.initializer settings depth Γ s i) := by
  unfold initializer Lowering.initializer
  cases i.name.bind s.property? with
  | some p => exact (property_gives depth p).map _
  | none => exact (expr_gives depth i.value none).map _

theorem body_gives (depth : Nat) (shape : Shape) (s : Structure) :
    Gives (body settings Γ.model Γ.scope depth shape s) Γ.bindings
      (Lowering.body settings depth Γ shape s) := by
  unfold body Lowering.body
  cases shape.kind with
  | anonymous => exact creation_gives depth s
  | explicit target => exact creation_gives depth s
  | named type =>
      have hargs : Gives (shape.constructorArgs.mapM fun a =>
          expr settings Γ.model Γ.scope depth a none) Γ.bindings
          (.all (shape.constructorArgs.map (Lowering.expr settings depth Γ · none))) :=
        Gives.mapM fun a _ => expr_gives depth a none
      dsimp only
      split
      · rename_i is hbody
        refine hargs.bind (Gives.map (y := Lowered.map some (.all _)) ?_ _) rfl
        rw [hbody]
        exact (Gives.mapM fun i _ => initializer_gives depth s i).map some
      · rename_i hbody
        refine hargs.bind (Gives.map (y := .pure none) ?_ _) rfl
        unfold initializers
        split
        · rename_i h
          exact absurd h (hbody _ _ _)
        · exact .pure none

theorem projection_gives (depth : Nat) (shape : Shape) (elementType : TypeRef) (s : Structure) :
    Gives (projection settings Γ.model Γ.scope depth shape elementType s) Γ.bindings
      (Lowering.projection settings depth Γ shape elementType s) := by
  unfold projection Lowering.projection projectionContext
  cases shape.parameters with
  | nil =>
      have hstart : ∀ done, enterProjection [] elementType ⟨Γ.bindings, done⟩ =
          (0, ⟨[] ++ Γ.bindings, done⟩) := fun _ => rfl
      exact (body_gives depth shape s).bracket_map hstart rfl _
  | cons parameter parameters =>
      have hstart : ∀ done, enterProjection (parameter :: parameters) elementType
          ⟨Γ.bindings, done⟩ = (1, ⟨[(parameter, elementType)] ++ Γ.bindings, done⟩) :=
        fun _ => rfl
      exact (body_gives (Γ := Γ.bind parameter elementType) depth shape s).bracket_map hstart rfl _

end Rules

/-- What can be asked of one state. Lowering may be asked for at any depth. -/
inductive Step where
  | infer (e : Expr)
  | element (e : Expr)
  | result (f : Expr) (types : List TypeRef)
  | literal (members : List Initializer)
  | lower (depth : Nat) (e : Expr) (declared : Option TypeRef)
  | property (depth : Nat) (p : Property)
  | projection (depth : Nat) (shape : Shape) (elementType : TypeRef) (s : Structure)

inductive Answer where
  | type (t : Option TypeRef)
  | members (t : AnonymousType)
  | expr (e : Expr)

namespace Step

def run (settings : Settings) (m : Model) (σ : Scope) : Step → Stateful Answer
  | infer e => do return .type (← typed (OnStack.infer m σ e))
  | element e => do return .type (← typed (OnStack.elementType m σ e))
  | result f types => do return .type (← typed (OnStack.lambdaResult m σ f types))
  | literal members => do return .members (← typed (OnStack.anonymousType m σ members))
  | lower depth e declared => do return .expr (← Stateful.expr settings m σ depth e declared)
  | property depth p => do return .expr (← Stateful.property settings m σ depth p)
  | projection depth shape elementType s => do
      return .expr (← Stateful.projection settings m σ depth shape elementType s)

def answer (settings : Settings) (Γ : Context) : Step → Lowered Answer
  | infer e => .pure (.type (infer? Γ e))
  | element e => .pure (.type (elementType? Γ e))
  | result f types => .pure (.type (lambdaResult? Γ f types))
  | literal members => .pure (.members (anonymousType Γ members))
  | lower depth e declared => (Lowering.expr settings depth Γ e declared).map .expr
  | property depth p => (Lowering.property settings depth Γ p).map .expr
  | projection depth shape elementType s =>
      (Lowering.projection settings depth Γ shape elementType s).map .expr

theorem run_gives (settings : Settings) (Γ : Context) (step : Step) :
    Gives (step.run settings Γ.model Γ.scope) Γ.bindings (step.answer settings Γ) := by
  cases step with
  | infer e => exact .typed_bind (OnStack.infer_reads e) (.pure _)
  | element e => exact .typed_bind (OnStack.elementType_reads e) (.pure _)
  | result f types => exact .typed_bind (OnStack.lambdaResult_reads f types) (.pure _)
  | literal members => exact .typed_bind (OnStack.anonymousType_reads members) (.pure _)
  | lower depth e declared => exact (expr_gives depth e declared).map _
  | property depth p => exact (property_gives depth p).map _
  | projection depth shape elementType s =>
      exact (projection_gives depth shape elementType s).map _

def take : Step → StateM Session Answer
  | infer e => do return .type (infer? (← get).context e)
  | element e => do return .type (elementType? (← get).context e)
  | result f types => do return .type (lambdaResult? (← get).context f types)
  | literal members => do return .members (anonymousType (← get).context members)
  | lower depth e declared => .expr <$> fun s : Session => s.expr depth e declared
  | property depth p => .expr <$> fun s : Session => s.property depth p
  | projection depth shape elementType s =>
      .expr <$> fun session : Session => session.projection depth shape elementType s

theorem take_apply (step : Step) (settings : Settings) (Γ : Context) (done : List Structure) :
    step.take ⟨settings, Γ, done⟩ = ((step.answer settings Γ).value,
      ⟨settings, Γ, done ++ (step.answer settings Γ).structures⟩) := by
  cases step with
  | lower depth e declared => rfl
  | property depth p => rfl
  | projection depth shape elementType s => rfl
  | _ =>
      rw [answer, Lowered.structures_pure, List.append_nil]
      rfl

theorem mapM_take_apply (steps : List Step) (settings : Settings) (Γ : Context)
    (done : List Structure) :
    steps.mapM take ⟨settings, Γ, done⟩ = (steps.map fun step => (step.answer settings Γ).value,
      ⟨settings, Γ, done ++ steps.flatMap fun step => (step.answer settings Γ).structures⟩) := by
  induction steps generalizing done with
  | nil =>
      rw [List.flatMap_nil, List.append_nil]
      rfl
  | cons step steps ih =>
      have hrun : (step :: steps).mapM take ⟨settings, Γ, done⟩ =
          let first := step.take ⟨settings, Γ, done⟩
          let rest := steps.mapM take first.2
          (first.1 :: rest.1, rest.2) := by
        rw [List.mapM_cons]
        rfl
      rw [hrun, take_apply]
      dsimp only
      rw [ih, List.flatMap_cons, List.append_assoc]
      rfl

end Step

/-- Steps on one state, at whatever depths, leave the stack as it was, add what each of them
finishes to the structures, and answer as on a state with the same bindings and no structures. That
is what inference and lowering say in the context, and what the steps give in a session. -/
theorem run_steps_restores (settings : Settings) (Γ : Context) (done : List Structure)
    (steps : List Step) :
    let fresh (step : Step) := (step.run settings Γ.model Γ.scope).run ⟨Γ.bindings, []⟩
    let answers := steps.map fun step => (fresh step).1
    let structures := done ++ steps.flatMap fun step => (fresh step).2.structures
    (steps.mapM (Step.run settings Γ.model Γ.scope)).run ⟨Γ.bindings, done⟩ =
        (answers, ⟨Γ.bindings, structures⟩) ∧
      (∀ step, fresh step = ((step.answer settings Γ).value,
        ⟨Γ.bindings, (step.answer settings Γ).structures⟩)) ∧
      (steps.mapM Step.take).run ⟨settings, Γ, done⟩ = (answers, ⟨settings, Γ, structures⟩) := by
  have hfresh : ∀ step : Step, (step.run settings Γ.model Γ.scope).run ⟨Γ.bindings, []⟩ =
      ((step.answer settings Γ).value, ⟨Γ.bindings, (step.answer settings Γ).structures⟩) :=
    fun step => step.run_gives settings Γ []
  have hrun := Gives.mapM (fun step (_ : step ∈ steps) => step.run_gives settings Γ) done
  rw [Lowered.value_all, Lowered.structures_all, List.map_map, List.flatMap_map] at hrun
  simp only [hfresh, implies_true, true_and]
  exact ⟨hrun, Step.mapM_take_apply steps settings Γ done⟩

end Projection.Lowering.Stateful
