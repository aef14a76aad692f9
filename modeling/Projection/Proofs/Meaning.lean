import Projection.Expr.Traversal

/-!
Meanings of expressions under an interpretation of names, members, indexing and calls as partial
functions on values. An access to `null` is an error, `&&`, `||`, `??` and `?:` look at no more than
they need, and a chain is cut short where an optional access meets `null`.
-/

namespace Projection.Meaning

inductive Value (α : Type) where
  | null
  | bool (b : Bool)
  | other (a : α)
  deriving DecidableEq

/-- How an expression ends as the receiver of the next access. -/
inductive Outcome (α : Type) where
  | done (v : Value α)
  /-- An optional access before has met `null`; nothing behind it is looked at. -/
  | cut
  | stuck

namespace Outcome

variable {α : Type}

def ofOption : Option (Value α) → Outcome α
  | some v => done v
  | none => stuck

def value? : Outcome α → Option (Value α)
  | done v => some v
  | cut => some .null
  | stuck => none

def access (optional : Bool) (f : Value α → Option (Value α)) : Outcome α → Outcome α
  | done .null => if optional then cut else stuck
  | done v => ofOption (f v)
  | cut => cut
  | stuck => stuck

@[simp] theorem value?_ofOption (v : Option (Value α)) : (ofOption v).value? = v := by
  cases v <;> rfl

theorem ofOption_ne_cut (v : Option (Value α)) : ofOption v ≠ cut := by
  cases v <;> simp [ofOption]

theorem access_ne_cut {o : Outcome α} (f : Value α → Option (Value α)) (h : o ≠ cut) :
    o.access false f ≠ cut := by
  cases o with
  | done v => cases v <;> simp [access, ofOption_ne_cut]
  | cut => exact absurd rfl h
  | stuck => simp [access]

theorem access_done {v : Value α} (f : Value α → Option (Value α)) (optional : Bool)
    (h : v ≠ .null) : (done v).access optional f = ofOption (f v) := by
  cases v with
  | null => exact absurd rfl h
  | bool _ | other _ => rfl

end Outcome

/-- Errors are `none`. The body of a function is known by what it gives in every environment. -/
structure Interpretation (Env α : Type) where
  ident : Env → String → Option (Value α)
  this : Env → Option (Value α)
  /-- Numbers and texts. -/
  literal : Literal → Option (Value α)
  member : Value α → String → Option (Value α)
  index : Value α → List (Value α) → Option (Value α)
  call : Value α → List TypeExpr → List (Value α) → Option (Value α)
  closure : List String → (Env → Option (Value α)) → Env → Option (Value α)
  object : List (Option String × Value α) → Option (Value α)
  create : TypeExpr → List (Value α) → Option (List (Option String × Value α)) → Option (Value α)
  binary : BinaryOp → Value α → Value α → Option (Value α)
  unary : UnaryOp → Value α → Option (Value α)
  defaultOf : Option TypeExpr → Option (Value α)
  text : List (String ⊕ Value α × Option String) → Option (Value α)

variable {Env α : Type}

def conjunction (l r : Option (Value α)) : Option (Value α) :=
  match l with
  | some (.bool false) => some (.bool false)
  | some (.bool true) =>
      match r with
      | some (.bool b) => some (.bool b)
      | _ => none
  | _ => none

def disjunction (l r : Option (Value α)) : Option (Value α) :=
  match l with
  | some (.bool true) => some (.bool true)
  | some (.bool false) =>
      match r with
      | some (.bool b) => some (.bool b)
      | _ => none
  | _ => none

def coalescence (l r : Option (Value α)) : Option (Value α) :=
  match l with
  | some .null => r
  | l => l

def choice (c t f : Option (Value α)) : Option (Value α) :=
  match c with
  | some (.bool true) => t
  | some (.bool false) => f
  | _ => none

/-- What a test can give. -/
inductive Truth : Option (Value α) → Prop where
  | error : Truth none
  | value (b : Bool) : Truth (some (.bool b))

theorem truth_conjunction (l r : Option (Value α)) : Truth (conjunction l r) := by
  fun_cases conjunction l r <;> constructor

theorem conjunction_true {l : Option (Value α)} (h : Truth l) :
    conjunction l (some (.bool true)) = l := by
  rcases h with _ | _ | _ <;> rfl

theorem true_conjunction {r : Option (Value α)} (h : Truth r) :
    conjunction (some (.bool true)) r = r := by
  rcases h with _ | _ <;> rfl

theorem conjunction_assoc (a b c : Option (Value α)) :
    conjunction (conjunction a b) c = conjunction a (conjunction b c) := by
  rcases a with _ | _ | ⟨_ | _⟩ | _ <;> try rfl
  rw [true_conjunction (truth_conjunction b c)]
  rcases b with _ | _ | ⟨_ | _⟩ | _ <;> rfl

namespace Interpretation

variable (I : Interpretation Env α)

def constant : Literal → Option (Value α)
  | .null => some .null
  | .bool b => some (.bool b)
  | l => I.literal l

/-- Operators on two values. Equality with `null` needs no interpretation. -/
def operator (op : BinaryOp) (l r : Value α) : Option (Value α) :=
  match op, l, r with
  | .eq, .null, .null | .ne, .null, .bool _ | .ne, .null, .other _ | .ne, .bool _, .null
  | .ne, .other _, .null => some (.bool true)
  | .ne, .null, .null | .eq, .null, .bool _ | .eq, .null, .other _ | .eq, .bool _, .null
  | .eq, .other _, .null => some (.bool false)
  | op, l, r => I.binary op l r

def binaryValue (op : BinaryOp) (l r : Option (Value α)) : Option (Value α) :=
  match op with
  | .and => conjunction l r
  | .or => disjunction l r
  | .coalesce => coalescence l r
  | op => l.bind fun v => r.bind fun w => I.operator op v w

mutual

def run : Expr → Env → Outcome α
  | .ident name, ρ => .ofOption (I.ident ρ name)
  | .this, ρ => .ofOption (I.this ρ)
  | .literal l, _ => .ofOption (I.constant l)
  | .member t name optional, ρ => (run t ρ).access optional (I.member · name)
  | .index t as optional, ρ =>
      (run t ρ).access optional fun v => (runAll as ρ).bind (I.index v)
  | .invoke t ts as, ρ => (run t ρ).access false fun v => (runAll as ρ).bind (I.call v ts)
  | .lambda params body, ρ => .ofOption (I.closure params (fun ρ => (run body ρ).value?) ρ)
  | .anonymous ms, ρ => .ofOption ((runInitializers ms ρ).bind I.object)
  | .creation t as none, ρ => .ofOption ((runAll as ρ).bind fun vs => I.create t vs none)
  | .creation t as (some ms), ρ =>
      .ofOption ((runAll as ρ).bind fun vs => (runInitializers ms ρ).bind (I.create t vs ∘ some))
  | .conditional c t f, ρ =>
      .ofOption (choice (run c ρ).value? (run t ρ).value? (run f ρ).value?)
  | .binary op l r, ρ => .ofOption (I.binaryValue op (run l ρ).value? (run r ρ).value?)
  | .unary op e, ρ => .ofOption ((run e ρ).value?.bind (I.unary op))
  | .cast _ e, ρ => .ofOption (run e ρ).value?
  | .defaultValue t, _ => .ofOption (I.defaultOf t)
  | .interpolated ps, ρ => .ofOption ((runParts ps ρ).bind I.text)
  | .paren e, ρ => .ofOption (run e ρ).value?
  | .marked _ e, ρ => .ofOption (run e ρ).value?

def runAll : List Expr → Env → Option (List (Value α))
  | [], _ => some []
  | e :: es, ρ => (run e ρ).value?.bind fun v => (runAll es ρ).map (v :: ·)

def runInitializers : List Initializer → Env → Option (List (Option String × Value α))
  | [], _ => some []
  | ⟨name, e⟩ :: ms, ρ =>
      (run e ρ).value?.bind fun v => (runInitializers ms ρ).map ((name, v) :: ·)

def runParts : List Part → Env → Option (List (String ⊕ Value α × Option String))
  | [], _ => some []
  | .text s :: ps, ρ => (runParts ps ρ).map (.inl s :: ·)
  | .hole e format :: ps, ρ =>
      (run e ρ).value?.bind fun v => (runParts ps ρ).map (.inr (v, format) :: ·)

end

def eval (e : Expr) (ρ : Env) : Option (Value α) := (I.run e ρ).value?

variable {I}

theorem eval_binary (op : BinaryOp) (l r : Expr) (ρ : Env) :
    I.eval (.binary op l r) ρ = I.binaryValue op (I.eval l ρ) (I.eval r ρ) := by
  simp only [eval, run, Outcome.value?_ofOption]

theorem eval_conditional (c t f : Expr) (ρ : Env) :
    I.eval (.conditional c t f) ρ = choice (I.eval c ρ) (I.eval t ρ) (I.eval f ρ) := by
  simp only [eval, run, Outcome.value?_ofOption]

theorem eval_cast (t : TypeExpr) (e : Expr) (ρ : Env) : I.eval (.cast t e) ρ = I.eval e ρ := by
  simp only [eval, run, Outcome.value?_ofOption]

theorem runAll_map {f : Expr → Expr} {es : List Expr} (h : ∀ e ∈ es, I.run (f e) = I.run e) :
    I.runAll (es.map f) = I.runAll es := by
  funext ρ
  induction es with
  | nil => rfl
  | cons e es ih =>
      rw [List.forall_mem_cons] at h
      simp only [List.map_cons, runAll, h.1, ih h.2]

theorem runInitializers_renew {f : Expr → Expr} {ms : List Initializer}
    (h : ∀ e ∈ ms.map (·.value), I.run (f e) = I.run e) :
    I.runInitializers (Expr.renew ms ((ms.map (·.value)).map f)) = I.runInitializers ms := by
  funext ρ
  induction ms with
  | nil => rfl
  | cons m ms ih =>
      obtain ⟨name, e⟩ := m
      rw [List.map_cons, List.forall_mem_cons] at h
      have ih := ih h.2
      simp only [Expr.renew] at ih
      simp only [Expr.renew, List.map_cons, List.zipWith_cons_cons, runInitializers, h.1, ih]

theorem runParts_refill {f : Expr → Expr} {ps : List Part}
    (h : ∀ e ∈ ps.filterMap Part.expr?, I.run (f e) = I.run e) :
    I.runParts (Expr.refill ps ((ps.filterMap Part.expr?).map f)) = I.runParts ps := by
  funext ρ
  induction ps with
  | nil => rfl
  | cons p ps ih =>
      cases p with
      | text s => simp only [List.filterMap_cons, Part.expr?, Expr.refill, runParts, ih h]
      | hole e format =>
          simp only [List.filterMap_cons, Part.expr?, List.forall_mem_cons] at h
          simp only [List.filterMap_cons, Part.expr?, List.map_cons, Expr.refill, runParts, h.1,
            ih h.2]

/-- A node means the same around children that mean the same. -/
theorem run_withChildren {f : Expr → Expr} {e : Expr}
    (h : ∀ c ∈ e.children, I.run (f c) = I.run c) :
    I.run (e.withChildren (e.children.map f)) = I.run e := by
  funext ρ
  cases e with
  | ident _ | this | literal _ | defaultValue _ => rfl
  | member _ _ _ | lambda _ _ | unary _ _ | cast _ _ | paren _ | marked _ _ | conditional _ _ _
  | binary _ _ _ =>
      simp only [Expr.children, List.forall_mem_cons] at h
      simp only [Expr.children, List.map_cons, Expr.withChildren, run, h]
  | index _ _ _ | invoke _ _ _ =>
      simp only [Expr.children, List.forall_mem_cons] at h
      simp only [Expr.children, List.map_cons, Expr.withChildren, run, h.1, runAll_map h.2]
  | anonymous ms =>
      simp only [Expr.children, Expr.withChildren, run, runInitializers_renew h]
  | creation t as initializers =>
      cases initializers with
      | none =>
          rw [Expr.children] at h
          simp only [Expr.children, Expr.withChildren, run, runAll_map h]
      | some ms =>
          rw [Expr.children, List.forall_mem_append] at h
          have hlength : as.length = (as.map f).length := by simp
          simp only [Expr.children, List.map_append, Expr.withChildren]
          rw [hlength, List.take_left, List.drop_left]
          simp only [run, runAll_map h.1, runInitializers_renew h.2]
  | interpolated ps => simp only [Expr.children, Expr.withChildren, run, runParts_refill h]

/-- Only a chain with an optional access can be cut short. -/
theorem run_ne_cut {e : Expr} (h : e.chainOptional = false) (ρ : Env) : I.run e ρ ≠ .cut := by
  fun_induction Expr.chainOptional e with
  | case1 t name optional ih =>
      rw [Bool.or_eq_false_iff] at h
      obtain ⟨rfl, ht⟩ := h
      exact Outcome.access_ne_cut _ (ih ht)
  | case2 t as optional ih =>
      rw [Bool.or_eq_false_iff] at h
      obtain ⟨rfl, ht⟩ := h
      exact Outcome.access_ne_cut _ (ih ht)
  | case3 t ts as ih => exact Outcome.access_ne_cut _ (ih h)
  | case4 e hm hi hc =>
      cases e with
      | member _ _ _ => exact absurd rfl (hm _ _ _)
      | index _ _ _ => exact absurd rfl (hi _ _ _)
      | invoke _ _ _ => exact absurd rfl (hc _ _ _)
      | creation t as initializers => cases initializers <;> exact Outcome.ofOption_ne_cut _
      | _ => exact Outcome.ofOption_ne_cut _

/-- Parentheses end a chain, so around an expression that is not one they change nothing. -/
theorem run_unparen {e : Expr} (h : e.unparen.chainOptional = false) :
    I.run e.unparen = I.run e := by
  funext ρ
  fun_induction Expr.unparen e with
  | case1 e ih =>
      rw [run, ← ih h]
      cases hr : I.run e.unparen ρ with
      | done v => rfl
      | cut => exact absurd hr (run_ne_cut h ρ)
      | stuck => rfl
  | case2 => rfl

end Interpretation

end Projection.Meaning
