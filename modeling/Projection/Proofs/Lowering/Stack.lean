import Projection.Lowering
import Projection.Proofs.Typing.Stack

/-!
Lowering on one state: the stack of bindings that typing works on, and the structures that were
finished so far. Parameters are pushed before a function's body is lowered and popped by their
number behind it. `Gives` says that a computation ends on the stack it started with and what it
adds to the structures; it is kept by each way of putting computations together.
-/

namespace Projection.Lowering

open Typing Projection.Expr

/-- What lowering works on. -/
structure State where
  bindings : Bindings
  structures : List Structure

/-- A computation with the bindings and the finished structures at hand. -/
abbrev Stateful := StateM State

namespace Stateful

variable {α β γ : Type}

def typed (x : OnStack α) : Stateful α := do
  let s ← get
  set (⟨(x s.bindings).2, s.structures⟩ : State)
  return (x s.bindings).1

def finish (s : Structure) : Stateful Unit := modify fun t => ⟨t.bindings, t.structures ++ [s]⟩

def enter : List String → Option TypeRef → Stateful Nat
  | [first], some element => do
      typed (OnStack.push first element)
      return 1
  | first :: second :: _, some element => do
      typed (OnStack.push first element)
      typed (OnStack.push second .int)
      return 2
  | _, _ => return 0

section Receivers

variable (m : Model) (σ : Scope)

def present (target : Expr) (optional : Bool) (s : Spine) : Stateful Spine := do
  if optional then
    let type ← typed (OnStack.infer m σ target.withoutOptional)
    return ⟨if type.any TypeRef.isNullableValue then s.expr.dot "Value" else s.expr,
      s.guards ++ [s.expr.notNull]⟩
  else return s

def chainType (e : Expr) : Option TypeRef → Stateful (Option TypeRef)
  | some type => return some type
  | none => typed (OnStack.infer m σ e)

def closeChain (e : Expr) (declared : Option TypeRef) (s : Spine) : Stateful Expr := do
  match Expr.all s.guards with
  | none => return s.expr
  | some guard =>
      let type ← chainType m σ e declared
      return .conditional guard (castTo type s.expr) (absentValue type)

def argumentElement (target : Expr) : Stateful (Option TypeRef) :=
  match target.unparen with
  | .member receiver _ _ => typed (OnStack.elementType m σ receiver)
  | _ => return none

end Receivers

/-- The selection with its receiver and body lowered. Its fallback comes last, and only if the body
could be lowered. -/
def conclude (e : Expr) (declared : TypeRef) (sel : Selection) (receiver : Spine)
    (fallback : Stateful (Option Expr)) : Except String Expr → Stateful Expr
  | .error reason => return .marked reason e
  | .ok body => do
      return guardSelection declared receiver.guards (sel.rebuild receiver.expr body) (← fallback)

mutual

/-- Lowers an expression. Its parts are lowered in their order, each on the state that the last one
left. -/
def expr (settings : Settings) (m : Model) (σ : Scope) (depth : Nat) (e : Expr)
    (declared : Option TypeRef) : Stateful Expr := do
  if e.chainOptional then closeChain m σ e declared (← spine settings m σ depth e)
  else node settings m σ depth e declared
termination_by (depth, 0, 4 * e.size + 2)
decreasing_by
  · exact .right _ (.right _ (by omega))
  · exact .right _ (.right _ (by omega))

def spine (settings : Settings) (m : Model) (σ : Scope) (depth : Nat) (e : Expr) :
    Stateful Spine :=
  match e with
  | .member target name optional => do
      let s ← present m σ target optional (← spine settings m σ depth target)
      return s.mapExpr (·.dot name)
  | .index target args optional => do
      let s ← present m σ target optional (← spine settings m σ depth target)
      let args ← args.attach.mapM fun a => expr settings m σ depth a.1 none
      return s.mapExpr (.index · args false)
  | .invoke target typeArgs args => do
      let element ← argumentElement m σ target
      let s ← spine settings m σ depth target
      let args ← args.attach.mapM fun a => argument settings m σ depth a.1 element
      return s.mapExpr (.invoke · typeArgs args)
  | e => do return .plain (← node settings m σ depth e none)
termination_by (depth, 0, 4 * e.size + 1)
decreasing_by
  · exact lex_child 1 (by simp [children]) (by omega)
  · exact lex_child 1 (by simp [children]) (by omega)
  · exact lex_child 1 (by simp [children, a.2]) (by omega)
  · exact lex_child 1 (by simp [children]) (by omega)
  · exact lex_child 1 (by simp [children, a.2]) (by omega)
  · exact .right _ (.right _ (by omega))

def argument (settings : Settings) (m : Model) (σ : Scope) (depth : Nat) (arg : Expr)
    (element : Option TypeRef) : Stateful Expr :=
  match _h : arg.unparen with
  | .lambda params body => do
      let bound ← enter params element
      let body ← expr settings m σ depth body none
      typed (OnStack.pop bound)
      return .lambda params body
  | _ => expr settings m σ depth arg none
termination_by (depth, 0, 4 * arg.size + 3)
decreasing_by
  · have := OnStack.body_size_lt _h
    exact .right _ (.right _ (by omega))
  · exact .right _ (.right _ (by omega))

def node (settings : Settings) (m : Model) (σ : Scope) (depth : Nat) (e : Expr)
    (declared : Option TypeRef) : Stateful Expr :=
  match e with
  | .invoke target typeArgs args => do
      let element ← argumentElement m σ target
      let target ← expr settings m σ depth target none
      let args ← args.attach.mapM fun a => argument settings m σ depth a.1 element
      return .invoke target typeArgs args
  | .anonymous members => do
      let s := Structure.ofType settings (← typed (OnStack.anonymousType m σ members))
      if s.isDegenerate then
        return .marked "anonymous object has no resolvable members" (.anonymous members)
      else
        match depth with
        | 0 => return .marked "anonymous objects are nested too deeply" (.anonymous members)
        | depth + 1 =>
            let object ← creation settings m σ depth s
            finish s
            return object
  | .conditional c t f => do
      let c ← expr settings m σ depth c none
      let t ← expr settings m σ depth t declared
      let f ← expr settings m σ depth f declared
      return .conditional c t f
  | .paren inner => do return .paren (← expr settings m σ depth inner declared)
  | e => do
      return e.withChildren (← e.children.attach.mapM fun c => expr settings m σ depth c.1 none)
termination_by (depth, 0, 4 * e.size)
decreasing_by
  · exact lex_child 0 (by simp [children]) (by omega)
  · exact lex_child 0 (by simp [children, a.2]) (by omega)
  · exact .left _ _ (by omega)
  · exact lex_child 0 (by simp [children]) (by omega)
  · exact lex_child 0 (by simp [children]) (by omega)
  · exact lex_child 0 (by simp [children]) (by omega)
  · exact lex_child 0 (by simp [children]) (by omega)
  · exact lex_child 0 c.2 (by omega)

def creation (settings : Settings) (m : Model) (σ : Scope) (depth : Nat) (s : Structure) :
    Stateful Expr := do
  let initializers ← s.properties.attach.mapM fun p => do
    return Initializer.named p.1.name (← property settings m σ depth p.1)
  return .creation (.generated s.id) [] (some initializers)
termination_by (depth, 1, sizeOf s)
decreasing_by
  have h := List.sizeOf_lt_of_mem p.2
  cases s
  simp only [Structure.mk.sizeOf_spec] at *
  exact .right _ (.right _ (by omega))

def property (settings : Settings) (m : Model) (σ : Scope) (depth : Nat) (p : Property) :
    Stateful Expr :=
  match p with
  | ⟨_, type, _, nested, source⟩ =>
      match source with
      | .collection _ _ _ e => collection settings m σ depth e type nested
      | .object _ e =>
          match nested with
          | some s => creation settings m σ depth s
          | none => return .marked "nested object shape could not be resolved" e
      | source => expr settings m σ depth source.expr (some type)
termination_by (depth, 1, sizeOf p)
decreasing_by
  · exact .right _ (.right _ (by simp; omega))
  · exact .right _ (.right _ (by simp; omega))
  · exact .right _ (.left _ _ (by omega))

def collection (settings : Settings) (m : Model) (σ : Scope) (depth : Nat) (e : Expr)
    (declared : TypeRef) (nested : Option Structure) : Stateful Expr := do
  match SelectionForm.ofExpr e with
  | .other => expr settings m σ depth e (some declared)
  | .refused reason => return .marked reason e
  | .selection sel =>
      match ← typed (OnStack.elementType m σ sel.base) with
      | none => return .marked ("element type of " ++ sel.transform ++ " source is unknown") e
      | some element =>
          let receiver ← present m σ sel.base sel.optional (← spine settings m σ depth sel.base)
          typed (OnStack.push sel.parameter element)
          let body ← elementBody settings m σ depth sel nested
          typed (OnStack.pop 1)
          conclude e declared sel receiver
            (sel.fallback.mapM fun f => expr settings m σ depth f (some declared)) body
termination_by (depth, 1, sizeOf nested + 1)
decreasing_by
  · exact .right _ (.left _ _ (by omega))
  · exact .right _ (.left _ _ (by omega))
  · exact .right _ (.right _ (by omega))
  · exact .right _ (.left _ _ (by omega))

def elementBody (settings : Settings) (m : Model) (σ : Scope) (depth : Nat) (sel : Selection)
    (nested : Option Structure) : Stateful (Except String Expr) := do
  match sel.bodyForm with
  | .literal =>
      match nested with
      | some s => return .ok (← creation settings m σ depth s)
      | none => return .error "nested element shape could not be resolved"
  | .expression => return .ok (← expr settings m σ depth sel.body none)
  | .refused reason => return .error reason
termination_by (depth, 1, sizeOf nested)
decreasing_by
  · exact .right _ (.right _ (by simp))
  · exact .right _ (.left _ _ (by omega))

end

section Entries

variable (settings : Settings) (m : Model) (σ : Scope)

def initializer (depth : Nat) (s : Structure) (i : Initializer) : Stateful Initializer := do
  match i.name.bind s.property? with
  | some p => return ⟨i.name, ← property settings m σ depth p⟩
  | none => return ⟨i.name, ← expr settings m σ depth i.value none⟩

def initializers (depth : Nat) (s : Structure) : Expr → Stateful (Option (List Initializer))
  | .creation _ _ (some is) => do return some (← is.mapM (initializer settings m σ depth s))
  | _ => return none

def body (depth : Nat) (shape : Shape) (s : Structure) : Stateful Expr := do
  match shape.kind with
  | .anonymous | .explicit _ => creation settings m σ depth s
  | .named type =>
      let args ← shape.constructorArgs.mapM fun a => expr settings m σ depth a none
      return .creation type args (← initializers settings m σ depth s shape.body)

def enterProjection : List String → TypeRef → Stateful Nat
  | parameter :: _, type => do
      typed (OnStack.push parameter type)
      return 1
  | [], _ => return 0

def projection (depth : Nat) (shape : Shape) (elementType : TypeRef) (s : Structure) :
    Stateful Expr := do
  let bound ← enterProjection shape.parameters elementType
  let body ← body settings m σ depth shape s
  typed (OnStack.pop bound)
  return .lambda shape.parameters body

end Entries

/-- On the stack `b` the computation gives the value of `y`, finishes the structures of `y` behind
those that are finished, and leaves the stack as it was. -/
def Gives (x : Stateful α) (b : Bindings) (y : Lowered α) : Prop :=
  ∀ done, x ⟨b, done⟩ = (y.value, ⟨b, done ++ y.structures⟩)

namespace Gives

variable {x : Stateful α} {b : Bindings} {y : Lowered α}

theorem pure (a : α) : Gives (Pure.pure a) b (.pure a) := by
  intro done
  rw [Lowered.structures_pure, List.append_nil]
  rfl

theorem typed {x : OnStack α} {f : Bindings → α} (h : OnStack.Reads x f) :
    Gives (Stateful.typed x) b (.pure (f b)) := by
  intro done
  have hrun : Stateful.typed x ⟨b, done⟩ = ((x b).1, ⟨(x b).2, done⟩) := rfl
  rw [hrun, h b, Lowered.structures_pure, List.append_nil]
  rfl

theorem bind {k : α → Stateful β} {z w : Lowered β} (h : Gives x b y)
    (hk : Gives (k y.value) b z) (hw : ⟨z.value, y.structures ++ z.structures⟩ = w) :
    Gives (x >>= k) b w := by
  subst hw
  intro done
  have hrun : (x >>= k) ⟨b, done⟩ = k (x ⟨b, done⟩).1 (x ⟨b, done⟩).2 := rfl
  rw [hrun, h done, hk (done ++ y.structures), List.append_assoc]

/-- Nothing is finished while types are inferred. -/
theorem typed_bind {x : OnStack α} {f : Bindings → α} {k : α → Stateful β} {z : Lowered β}
    (h : OnStack.Reads x f) (hk : Gives (k (f b)) b z) : Gives (Stateful.typed x >>= k) b z :=
  (typed h).bind hk rfl

/-- Nothing is finished behind `x`. -/
theorem bind_pure {k : α → Stateful β} {c : β} (h : Gives x b y)
    (hk : Gives (k y.value) b (.pure c)) : Gives (x >>= k) b ⟨c, y.structures⟩ := by
  refine h.bind hk ?_
  rw [Lowered.structures_pure, List.append_nil]
  rfl

theorem map (h : Gives x b y) (f : α → β) : Gives (x >>= fun a => Pure.pure (f a)) b (y.map f) :=
  h.bind_pure (pure _)

theorem mapM {xs : List γ} {k : γ → Stateful β} {z : γ → Lowered β}
    (h : ∀ a ∈ xs, Gives (k a) b (z a)) : Gives (xs.mapM k) b (.all (xs.map z)) := by
  induction xs with
  | nil => exact pure []
  | cons a xs ih =>
      rw [List.mapM_cons]
      have htail := ih fun a ha => h a (List.mem_cons_of_mem _ ha)
      exact (h a List.mem_cons_self).bind (htail.map _) rfl

/-- What is pushed before is popped behind, and what follows starts on the old stack. -/
theorem bracket {start : Stateful γ} {c : γ} {n : γ → Nat} {new : Bindings}
    {k : α → Stateful β} {z w : Lowered β}
    (hstart : ∀ done, start ⟨b, done⟩ = (c, ⟨new ++ b, done⟩)) (hn : n c = new.length)
    (hx : Gives x (new ++ b) y) (hk : Gives (k y.value) b z)
    (hw : ⟨z.value, y.structures ++ z.structures⟩ = w) :
    Gives (start >>= fun c => x >>= fun a => Stateful.typed (OnStack.pop (n c)) >>= fun _ => k a)
      b w := by
  subst hw
  intro done
  have hrun : (start >>= fun c => x >>= fun a =>
      Stateful.typed (OnStack.pop (n c)) >>= fun _ => k a) ⟨b, done⟩ =
      let r := start ⟨b, done⟩
      let a := x r.2
      k a.1 ⟨a.2.bindings.drop (n r.1), a.2.structures⟩ := rfl
  rw [hrun, hstart]
  dsimp only
  rw [hx done, hn, List.drop_left, hk (done ++ y.structures), List.append_assoc]

theorem bracket_map {start : Stateful γ} {c : γ} {n : γ → Nat} {new : Bindings}
    (hx : Gives x (new ++ b) y) (hstart : ∀ done, start ⟨b, done⟩ = (c, ⟨new ++ b, done⟩))
    (hn : n c = new.length) (f : α → β) :
    Gives (start >>= fun c => x >>= fun a => Stateful.typed (OnStack.pop (n c)) >>= fun _ =>
      Pure.pure (f a)) b (y.map f) := by
  refine bracket hstart hn hx (pure _) ?_
  rw [Lowered.structures_pure, List.append_nil]
  rfl

end Gives

end Stateful

end Projection.Lowering
