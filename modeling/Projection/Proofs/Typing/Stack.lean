import Projection.Proofs.Typing.Rename

/-!
Inference on one stack of bindings. A function's parameters are pushed before its body is typed and
as many are popped behind it, and expressions are typed one after the other on what the last one
left. It gives the types of `operand?`, and whatever happens on the way, the stack is in the end
what it was.
-/

namespace Projection

abbrev Bindings := List (String × TypeRef)

namespace Typing

open Projection.Expr

/-- A computation with the bindings at hand. -/
abbrev OnStack := StateM Bindings

namespace OnStack

variable {α β : Type}

def push (name : String) (type : TypeRef) : OnStack Unit := modify ((name, type) :: ·)

def pushAll : List String → List TypeRef → OnStack Unit
  | name :: names, type :: types => do
      push name type
      pushAll names types
  | _, _ => return ()

def pop (count : Nat) : OnStack Unit := modify (·.drop count)

theorem pushAll_apply (names : List String) (types : List TypeRef) (s : Bindings) :
    pushAll names types s = ((), (names.zip types).reverse ++ s) := by
  induction names generalizing types s with
  | nil => rfl
  | cons name names ih =>
      cases types with
      | nil => rfl
      | cons type types =>
          rw [List.zip_cons_cons, List.reverse_cons, List.append_assoc]
          exact ih types ((name, type) :: s)

/-- The computation gives `f` of the stack and leaves the stack as it was. -/
def Reads (x : OnStack α) (f : Bindings → α) : Prop := ∀ s, x s = (f s, s)

namespace Reads

variable {x : OnStack α} {f g : Bindings → α}

theorem of_eq (h : Reads x f) (hfg : ∀ s, f s = g s) : Reads x g := by
  intro s
  rw [h s, hfg s]

theorem pure (a : α) : Reads (Pure.pure a) fun _ => a := fun _ => rfl

theorem get : Reads MonadState.get fun s => s := fun _ => rfl

/-- What follows starts on the same stack. -/
theorem bind_apply (h : Reads x f) (k : α → OnStack β) (s : Bindings) :
    (x >>= k) s = k (f s) s := by
  have hbind : (x >>= k) s = k (x s).1 (x s).2 := rfl
  rw [hbind, h s]

theorem bind {k : α → OnStack β} {c : α → Bindings → β} (h : Reads x f)
    (hk : ∀ a, Reads (k a) (c a)) : Reads (x >>= k) fun s => c (f s) s := by
  intro s
  rw [h.bind_apply, hk (f s) s]

theorem mapM {γ : Type} {xs : List γ} {k : γ → OnStack β} {c : γ → Bindings → β}
    (h : ∀ a ∈ xs, Reads (k a) (c a)) : Reads (xs.mapM k) fun s => xs.map (c · s) := by
  induction xs with
  | nil => exact pure []
  | cons a xs ih =>
      rw [List.mapM_cons]
      exact (h a List.mem_cons_self).bind fun b =>
        (ih fun a ha => h a (List.mem_cons_of_mem _ ha)).bind fun bs => pure (b :: bs)

/-- What is pushed before is popped behind. -/
theorem within (h : Reads x f) (names : List String) (types : List TypeRef) :
    Reads (do
      pushAll names types
      let result ← x
      pop (min names.length types.length)
      return result) fun s => f ((names.zip types).reverse ++ s) := by
  intro s
  have hrun : (do
      pushAll names types
      let result ← x
      pop (min names.length types.length)
      return result : OnStack α) s = (do
        let result ← x
        pop (min names.length types.length)
        return result : OnStack α) (pushAll names types s).2 := rfl
  rw [hrun, pushAll_apply, h.bind_apply]
  refine Prod.ext rfl (List.drop_left' ?_)
  rw [List.length_reverse, List.length_zip]

end Reads

theorem receiver_size_lt {target receiver : Expr} {name : String} {optional : Bool}
    (h : target.unparen = .member receiver name optional) (typeArgs : List TypeExpr)
    (args : List Expr) : receiver.size < (Expr.invoke target typeArgs args).size := by
  have h₁ := size_lt_of_mem_children (show receiver ∈ target.unparen.children by simp [h, children])
  have h₂ := size_unparen_le target
  have h₃ := size_lt_of_mem_children
    (show target ∈ (Expr.invoke target typeArgs args).children by simp [children])
  omega

theorem body_size_lt {lambda body : Expr} {params : List String}
    (h : lambda.unparen = .lambda params body) : body.size < lambda.size := by
  have h₁ := size_lt_of_mem_children (show body ∈ lambda.unparen.children by simp [h, children])
  have h₂ := size_unparen_le lambda
  omega

def takesFunction (method : String) (hasArgs : Bool) : Bool :=
  ["Select", "SelectMany"].contains method ||
    hasArgs && ["Average", "Sum", "Min", "Max"].contains method

def sequenceCall (receiver : TypeRef) (method : String) (hasArgs : Bool)
    (select : TypeRef → OnStack (Option TypeRef)) : OnStack (Option TypeRef) := do
  match receiver.element? with
  | none => return none
  | some element =>
      let result ← if takesFunction method hasArgs then select element else pure none
      return sequenceCall? receiver method hasArgs fun _ => result

mutual

def operand (m : Model) (σ : Scope) (e : Expr) : OnStack (Option Operand) :=
  match e with
  | .ident name => do return identifier? ⟨m, σ, ← get⟩ name
  | .this => do return (thisType? ⟨m, σ, ← get⟩).map .value
  | .literal l => return (literalType? l).map .value
  | .paren inner => operand m σ inner
  | .marked _ inner => operand m σ inner
  | .member target name optional => do
      match ← operand m σ target with
      | none => return none
      | some receiver =>
          return (memberAccess? m receiver name optional
            (chainOptional (.member target name optional))).map .value
  | .index target args optional => do
      match ← operand m σ target with
      | some (.value receiver) =>
          return (Framework.indexed? receiver.nonNullable).map fun element =>
            .value (lift (chainOptional (.index target args optional)) element)
      | _ => return none
  | .invoke target typeArgs args =>
      match _hu : target.unparen with
      | .member receiver name _ => do
          match ← operand m σ receiver with
          | none => return none
          | some (.type t) =>
              match declaredMethod? m t name with
              | some method => return (TypeRef.parse? m method.type).map .value
              | none =>
                  let types ← args.attach.mapM fun a => infer m σ a.1
                  return (Framework.staticCall? t name
                    ⟨typeArgs.map (TypeRef.ofExpr m), types⟩).map .value
          | some (.value t) =>
              let result ← sequenceCall t.nonNullable name (!args.isEmpty) fun element =>
                match _ha : args with
                | [] => return none
                | arg :: _more => lambdaResult m σ arg [element, .int]
              return (result.or (instanceCall? m t.nonNullable name)).map fun result =>
                .value (lift (chainOptional (.invoke target typeArgs args)) result)
      | .ident name => do return (ownCall? ⟨m, σ, ← get⟩ name).map .value
      | _ => return none
  | .lambda _ _ => return none
  | .anonymous members => do return some (.value (.anonymous (← anonymousType m σ members)))
  | .creation type _ _ => return some (.value (.ofExpr m type))
  | .conditional _ t f => do
      if t.isNull then return ((← infer m σ f).map TypeRef.asNullable).map .value
      else if f.isNull then return ((← infer m σ t).map TypeRef.asNullable).map .value
      else return (conditionalType? (← infer m σ t) (← infer m σ f) false false).map .value
  | .binary op l r => do
      if op = .and ∨ op = .or ∨ op.isComparison then return some (.value .bool)
      else
        let left ← infer m σ l
        if op = .coalesce ∧ r.isNull then return left.map .value
        else return (binaryType? op left (← infer m σ r) r.isNull).map .value
  | .unary op inner => do return (← infer m σ inner).map fun t => .value (unaryType op t)
  | .cast type _ => return some (.value (.ofExpr m type))
  | .defaultValue (some type) => return some (.value (.ofExpr m type))
  | .defaultValue none => return none
  | .interpolated _ => return some (.value .string)
termination_by 4 * e.size
decreasing_by
  all_goals try
    (simp only [size_eq (.paren _), size_eq (.marked _ _), size_eq (.member _ _ _),
      size_eq (.index _ _ _), size_eq (.conditional _ _ _), size_eq (.binary _ _ _),
      size_eq (.unary _ _), children, List.map_cons, List.foldr_cons]
     omega)
  · have := receiver_size_lt _hu typeArgs args
    omega
  · have := size_lt_of_mem_children
      (show a.1 ∈ (Expr.invoke target typeArgs args).children by simp [children, a.2])
    omega
  · have := size_lt_of_mem_children
      (show arg ∈ (Expr.invoke target typeArgs (arg :: _more)).children by simp [children])
    omega
  · have := size_pos (.anonymous members)
    omega

def infer (m : Model) (σ : Scope) (e : Expr) : OnStack (Option TypeRef) := do
  return (← operand m σ e).bind Operand.value?
termination_by 4 * e.size + 1

def lambdaResult (m : Model) (σ : Scope) (lambda : Expr) (types : List TypeRef) :
    OnStack (Option TypeRef) :=
  match _hl : lambda.unparen with
  | .lambda params body => do
      pushAll params types
      let result ← infer m σ body
      pop (min params.length types.length)
      return result
  | _ => return none
termination_by 4 * lambda.size
decreasing_by
  have := body_size_lt _hl
  omega

/-- A member of an object literal; one without a name is dropped. Without its marks it is typed
only where that can matter. -/
def anonymousMember (m : Model) (σ : Scope) (i : Initializer) :
    OnStack (Option AnonymousMember) := do
  match i.effectiveName? with
  | none => return none
  | some name =>
      let type ← infer m σ i.value
      if type.any (·.nullable) && i.value.hasOptionalAccess then
        let stripped ← infer m σ i.value.withoutOptional
        return some ⟨name, i.value, type, stripped.any (!·.nullable)⟩
      else return some ⟨name, i.value, type, false⟩
termination_by 4 * i.value.size + 2
decreasing_by
  · omega
  · rw [size_withoutOptional]
    omega

def anonymousType (m : Model) (σ : Scope) (members : List Initializer) : OnStack AnonymousType := do
  let source := Context.sourceType ⟨m, σ, ← get⟩
  let typed ← members.attach.mapM fun i => anonymousMember m σ i.1
  return ⟨source, typed.filterMap id⟩
termination_by 4 * (Expr.anonymous members).size - 1
decreasing_by
  have := size_lt_of_mem_children
    (show i.1.value ∈ (Expr.anonymous members).children from List.mem_map.2 ⟨i.1, i.2, rfl⟩)
  omega

end

def elementType (m : Model) (σ : Scope) (e : Expr) : OnStack (Option TypeRef) := do
  return (← infer m σ e.withoutOptional).bind TypeRef.element?

section Reads

variable {m : Model} {σ : Scope}

/-- The operator asks its function for nothing but the type it gives for the elements. -/
theorem sequenceCall?_eq_of_eq {receiver element : TypeRef} {method : String} {hasArgs : Bool}
    {f g : TypeRef → Option TypeRef} (h : receiver.element? = some element)
    (hfg : takesFunction method hasArgs = true → f element = g element) :
    sequenceCall? receiver method hasArgs f = sequenceCall? receiver method hasArgs g := by
  simp only [takesFunction, List.contains_cons, List.contains_nil, Bool.or_false, Bool.or_eq_true,
    Bool.and_eq_true, beq_iff_eq] at hfg
  simp only [sequenceCall?, h]
  grind

theorem sequenceCall_reads {receiver : TypeRef} {method : String} {hasArgs : Bool}
    {select : TypeRef → OnStack (Option TypeRef)} {f : TypeRef → Bindings → Option TypeRef}
    (h : ∀ element, Reads (select element) (f element)) :
    Reads (sequenceCall receiver method hasArgs select) fun s =>
      sequenceCall? receiver method hasArgs (f · s) := by
  intro s
  unfold sequenceCall
  cases helement : receiver.element? with
  | none => simp only [sequenceCall?, helement]; rfl
  | some element =>
      dsimp only
      by_cases ht : takesFunction method hasArgs = true
      · rw [if_pos ht, (h element).bind_apply]
        exact Prod.ext (sequenceCall?_eq_of_eq helement fun _ => rfl) rfl
      · rw [if_neg ht, (Reads.pure _).bind_apply]
        exact Prod.ext (sequenceCall?_eq_of_eq helement fun hc => absurd hc ht) rfl

theorem infer_reads_of {e : Expr} (h : Reads (operand m σ e) fun s => operand? ⟨m, σ, s⟩ e) :
    Reads (infer m σ e) fun s => infer? ⟨m, σ, s⟩ e := by
  rw [infer]
  exact h.bind fun _ => .pure _

/-- As many parameters are popped as were pushed. -/
theorem lambdaResult_reads_of {lambda : Expr} (types : List TypeRef)
    (h : ∀ body params, lambda.unparen = .lambda params body →
      Reads (infer m σ body) fun s => infer? ⟨m, σ, s⟩ body) :
    Reads (lambdaResult m σ lambda types) fun s => lambdaResult? ⟨m, σ, s⟩ lambda types := by
  rw [lambdaResult]
  split
  · rename_i params body hl
    refine ((h body params hl).within params types).of_eq fun s => ?_
    rw [lambdaResult?, hl]
    rfl
  · rename_i hl
    refine (Reads.pure none).of_eq fun s => ?_
    unfold lambdaResult?
    split
    · rename_i params body hu
      exact absurd hu (hl params body)
    · rfl

theorem anonymousMember_reads_of {i : Initializer}
    (h : ∀ e, e.size ≤ i.value.size → Reads (infer m σ e) fun s => infer? ⟨m, σ, s⟩ e) :
    Reads (anonymousMember m σ i) fun s => anonymousMember? ⟨m, σ, s⟩ i := by
  rw [anonymousMember]
  unfold anonymousMember?
  cases i.effectiveName? with
  | none => exact .pure _
  | some name =>
      intro s
      dsimp only
      rw [(h _ (Nat.le_refl _)).bind_apply, Option.map_some, chainOnly]
      by_cases hc :
          ((infer? ⟨m, σ, s⟩ i.value).any (·.nullable) && i.value.hasOptionalAccess) = true
      · rw [if_pos hc, hc, (h _ (Nat.le_of_eq (size_withoutOptional _))).bind_apply]
        rfl
      · rw [if_neg hc, Bool.eq_false_iff.2 hc]
        rfl

theorem anonymousType_reads_of {members : List Initializer}
    (h : ∀ i ∈ members, Reads (anonymousMember m σ i) fun s => anonymousMember? ⟨m, σ, s⟩ i) :
    Reads (anonymousType m σ members) fun s => Typing.anonymousType ⟨m, σ, s⟩ members := by
  rw [anonymousType]
  refine (Reads.get.bind fun s => (Reads.mapM fun i _ => h i.1 i.2).bind fun _ =>
    .pure _).of_eq ?_
  intro s
  rw [Typing.anonymousType, List.attach_map_val (f := (anonymousMember? ⟨m, σ, s⟩ ·)),
    List.filterMap_map]
  rfl

theorem operand_invoke_reads {target : Expr} {typeArgs : List TypeExpr} {args : List Expr}
    (hreceiver : ∀ receiver name o, target.unparen = .member receiver name o →
      Reads (operand m σ receiver) fun s => operand? ⟨m, σ, s⟩ receiver)
    (hargs : ∀ a ∈ args, Reads (infer m σ a) fun s => infer? ⟨m, σ, s⟩ a)
    (hselect : ∀ a ∈ args, ∀ types,
      Reads (lambdaResult m σ a types) fun s => lambdaResult? ⟨m, σ, s⟩ a types) :
    Reads (operand m σ (.invoke target typeArgs args)) fun s =>
      operand? ⟨m, σ, s⟩ (.invoke target typeArgs args) := by
  rw [operand]
  split
  · rename_i receiver name o hu
    intro s
    rw [(hreceiver receiver name o hu).bind_apply]
    dsimp only
    rw [operand?_invoke_member hu]
    cases operand? ⟨m, σ, s⟩ receiver with
    | none => rfl
    | some receiver =>
        cases receiver with
        | type t =>
            dsimp only
            rw [staticCall?]
            cases declaredMethod? m t name with
            | some method => rfl
            | none =>
                dsimp only
                rw [(Reads.mapM fun a _ => hargs a.1 a.2).bind_apply, List.attach_map_val]
                rfl
        | value t =>
            dsimp only
            rw [(sequenceCall_reads (f := fun element s => selected? ⟨m, σ, s⟩ args element)
              fun element => ?_).bind_apply]
            · rfl
            · cases args with
              | nil => exact .pure none
              | cons arg more => exact hselect arg List.mem_cons_self _
  · rename_i name hu
    exact (Reads.get.bind fun _ => .pure _).of_eq fun s =>
      (operand?_invoke_ident hu typeArgs args).symm
  · rename_i hm hi
    exact (Reads.pure none).of_eq fun s => (operand?_invoke_other hm hi typeArgs args).symm

theorem operand_reads (e : Expr) : Reads (operand m σ e) fun s => operand? ⟨m, σ, s⟩ e := by
  induction hn : e.size using Nat.strongRecOn generalizing e with
  | ind n ih =>
  subst hn
  have hinfer : ∀ c : Expr, c.size < e.size → Reads (infer m σ c) fun s => infer? ⟨m, σ, s⟩ c :=
    fun c hc => infer_reads_of (ih _ hc c rfl)
  have hchild : ∀ c ∈ e.children, Reads (infer m σ c) fun s => infer? ⟨m, σ, s⟩ c :=
    fun c hc => hinfer c (size_lt_of_mem_children hc)
  have hoperand : ∀ c ∈ e.children, Reads (operand m σ c) fun s => operand? ⟨m, σ, s⟩ c :=
    fun c hc => ih _ (size_lt_of_mem_children hc) c rfl
  cases e with
  | ident name =>
      rw [operand]
      exact (Reads.get.bind fun _ => .pure _).of_eq fun s => by rw [operand?]
  | this =>
      rw [operand]
      exact (Reads.get.bind fun _ => .pure _).of_eq fun s => by rw [operand?]
  | literal l =>
      rw [operand]
      exact (Reads.pure _).of_eq fun s => by rw [operand?]
  | paren inner =>
      rw [operand]
      exact (hoperand inner (by simp [children])).of_eq fun s => by rw [operand?]
  | marked note inner =>
      rw [operand]
      exact (hoperand inner (by simp [children])).of_eq fun s => by rw [operand?]
  | member target name optional =>
      intro s
      rw [operand, (hoperand target (by simp [children])).bind_apply]
      simp only [operand?]
      cases operand? ⟨m, σ, s⟩ target <;> rfl
  | index target args optional =>
      intro s
      rw [operand, (hoperand target (by simp [children])).bind_apply]
      simp only [operand?]
      cases operand? ⟨m, σ, s⟩ target with
      | none => rfl
      | some receiver => cases receiver <;> rfl
  | invoke target typeArgs args =>
      refine operand_invoke_reads ?_ (fun a ha => hchild a (by simp [children, ha])) ?_
      · intro receiver name o hu
        exact ih _ (receiver_size_lt hu typeArgs args) receiver rfl
      · intro a ha types
        refine lambdaResult_reads_of types fun body params hl => hinfer body ?_
        exact Nat.lt_trans (body_size_lt hl) (size_lt_of_mem_children (by simp [children, ha]))
  | lambda params body =>
      rw [operand]
      exact (Reads.pure _).of_eq fun s => by rw [operand?]
  | anonymous members =>
      rw [operand]
      refine ((anonymousType_reads_of fun i hi => anonymousMember_reads_of fun e he =>
        hinfer e ?_).bind fun _ => .pure _).of_eq fun s => by rw [operand?_anonymous]
      exact Nat.lt_of_le_of_lt he (size_lt_of_mem_children (List.mem_map.2 ⟨i, hi, rfl⟩))
  | creation type args initializers =>
      rw [operand]
      exact (Reads.pure _).of_eq fun s => by rw [operand?]
  | conditional c t f =>
      have ht := hchild t (by simp [children])
      have hf := hchild f (by simp [children])
      intro s
      rw [operand]
      simp only [operand?, conditionalType?]
      split
      · exact (hf.bind_apply _ s).trans rfl
      · split
        · exact (ht.bind_apply _ s).trans rfl
        · exact (ht.bind_apply _ s).trans (hf.bind_apply _ s)
  | binary op l r =>
      have hl := hchild l (by simp [children])
      have hr := hchild r (by simp [children])
      intro s
      rw [operand]
      simp only [operand?, binaryType?]
      split
      · rfl
      · rw [hl.bind_apply]
        split
        · rename_i hc
          simp only [coalesceType?, if_pos hc.1, if_pos hc.2]
          rfl
        · exact (hr.bind_apply _ s).trans rfl
  | unary op inner =>
      rw [operand]
      exact ((hchild inner (by simp [children])).bind fun _ => .pure _).of_eq fun s => by
        rw [operand?, infer?]
  | cast type inner =>
      rw [operand]
      exact (Reads.pure _).of_eq fun s => by rw [operand?]
  | defaultValue type =>
      cases type <;> rw [operand] <;> exact (Reads.pure _).of_eq fun s => by rw [operand?]
  | interpolated parts =>
      rw [operand]
      exact (Reads.pure _).of_eq fun s => by rw [operand?]

theorem infer_reads (e : Expr) : Reads (infer m σ e) fun s => infer? ⟨m, σ, s⟩ e :=
  infer_reads_of (operand_reads e)

theorem elementType_reads (e : Expr) :
    Reads (elementType m σ e) fun s => elementType? ⟨m, σ, s⟩ e :=
  (infer_reads e.withoutOptional).bind fun _ => .pure _

theorem lambdaResult_reads (lambda : Expr) (types : List TypeRef) :
    Reads (lambdaResult m σ lambda types) fun s => lambdaResult? ⟨m, σ, s⟩ lambda types :=
  lambdaResult_reads_of types fun body _ _ => infer_reads body

theorem anonymousType_reads (members : List Initializer) :
    Reads (anonymousType m σ members) fun s => Typing.anonymousType ⟨m, σ, s⟩ members :=
  anonymousType_reads_of fun _ _ => anonymousMember_reads_of fun e _ => infer_reads e

end Reads

end OnStack

end Typing

end Projection
