import Mathlib
import Projection.Proofs.Lowering.Surface
import Projection.Proofs.Meaning

/-!
Lowering keeps meanings. An expression without surface forms means the same afterwards. A chain with
optional accesses means its conditional: it gives its own value where it runs to the end, the absent
value where it is cut short, and an error where it is one.
-/

namespace Projection

open Meaning

namespace Expr

def Clean (e : Expr) : Prop := e.Every (·.isSurface = false)

theorem Clean.child {c e : Expr} (h : e.Clean) (hc : c ∈ e.children) : c.Clean := Every.child h hc

theorem Clean.chainOptional_eq_false {e : Expr} (h : e.Clean) : e.chainOptional = false :=
  Expr.chainOptional_eq_false h

theorem Clean.unparen {e : Expr} (h : e.Clean) : e.unparen.Clean := Every.unparen h

/-- A chain of accesses and calls whose start and whose arguments are clean. -/
def CleanSpine : Expr → Prop
  | member t _ _ => CleanSpine t
  | index t as _ => CleanSpine t ∧ ∀ a ∈ as, a.Clean
  | invoke t _ as => CleanSpine t ∧ ∀ a ∈ as, a.Clean
  | e => e.Clean

theorem CleanSpine.clean {e : Expr} (h : e.CleanSpine) (ho : e.chainOptional = false) :
    e.Clean := by
  fun_induction CleanSpine e with
  | case1 t name optional ih =>
      rw [chainOptional, Bool.or_eq_false_iff] at ho
      obtain ⟨rfl, ht⟩ := ho
      refine every_iff.2 ⟨rfl, ?_⟩
      exact List.forall_mem_singleton.2 (ih h ht)
  | case2 t as optional ih =>
      rw [chainOptional, Bool.or_eq_false_iff] at ho
      obtain ⟨rfl, ht⟩ := ho
      refine every_iff.2 ⟨rfl, ?_⟩
      exact List.forall_mem_cons.2 ⟨ih h.1 ht, h.2⟩
  | case3 t ts as ih =>
      refine every_iff.2 ⟨rfl, ?_⟩
      exact List.forall_mem_cons.2 ⟨ih h.1 ho, h.2⟩
  | case4 => exact h

def optionalReceivers : Expr → List Expr
  | member t _ optional | index t _ optional =>
      optionalReceivers t ++ if optional then [t] else []
  | invoke t _ _ => optionalReceivers t
  | _ => []

end Expr

namespace Lowering

open Typing Projection.Expr

variable {Env α : Type} {I : Interpretation Env α} {Γ : Context} {ρ : Env}

/-- Reading `Value` of a nullable value that is there gives that value, for the receivers in `e`
that are tested and inferred to be nullable values. -/
def Unwraps (I : Interpretation Env α) (Γ : Context) (e : Expr) (ρ : Env) : Prop :=
  ∀ t ∈ e.optionalReceivers, (infer? Γ t.withoutOptional).any TypeRef.isNullableValue = true →
    ∀ v, I.run t ρ = .done v → v ≠ .null → I.member v "Value" = some v

def tests (I : Interpretation Env α) (guards : List Expr) (ρ : Env) : Option (Value α) :=
  guards.foldr (fun g rest => conjunction (I.eval g ρ) rest) (some (.bool true))

theorem truth_tests (guards : List Expr) : Truth (tests I guards ρ) := by
  cases guards with
  | nil => exact .value true
  | cons g gs => exact truth_conjunction ..

theorem tests_append (gs hs : List Expr) :
    tests I (gs ++ hs) ρ = conjunction (tests I gs ρ) (tests I hs ρ) := by
  induction gs with
  | nil => exact (true_conjunction (truth_tests hs)).symm
  | cons g gs ih =>
      change conjunction _ (tests I (gs ++ hs) ρ) = conjunction (conjunction _ _) _
      rw [ih, conjunction_assoc]
      rfl

theorem eval_notNull (e : Expr) :
    I.eval e.notNull ρ = (I.eval e ρ).bind fun v => I.operator .ne v .null := by
  rw [notNull, Interpretation.eval_binary]
  rfl

theorem truth_notNull (e : Expr) : Truth (I.eval e.notNull ρ) := by
  rw [eval_notNull]
  rcases I.eval e ρ with _ | _ | _ | _ <;> constructor

theorem eval_foldl_and {c : Expr} (hc : Truth (I.eval c ρ)) (gs : List Expr) :
    I.eval (gs.foldl (.binary .and) c) ρ = conjunction (I.eval c ρ) (tests I gs ρ) := by
  induction gs generalizing c with
  | nil => exact (conjunction_true hc).symm
  | cons g gs ih =>
      have hboth : I.eval (.binary .and c g) ρ = conjunction (I.eval c ρ) (I.eval g ρ) :=
        Interpretation.eval_binary ..
      rw [List.foldl_cons, ih (hboth ▸ truth_conjunction ..), hboth, conjunction_assoc]
      rfl

def guarded : Option (Value α) → Outcome α → Outcome α
  | some (.bool true), o => o
  | some (.bool false), _ => .cut
  | _, _ => .stuck

theorem guarded_access {test : Option (Value α)} (h : Truth test) (o : Outcome α)
    (f : Value α → Option (Value α)) :
    (guarded test o).access false f = guarded test (o.access false f) := by
  rcases h with _ | _ | _ <;> rfl

/-- The lowered chain `s` runs as `e` does, up to what stands in for the part behind a cut. -/
structure Follows (I : Interpretation Env α) (Γ : Context) (e : Expr) (s : Spine) (ρ : Env) :
    Prop where
  guards : ∀ g ∈ s.guards, ∃ receiver : Expr, g = receiver.notNull
  runs : I.run s.expr ρ ≠ .cut
  run_eq : Unwraps I Γ e ρ → I.run e ρ = guarded (tests I s.guards ρ) (I.run s.expr ρ)

theorem Unwraps.of_append {e t : Expr} {ts : List Expr} (h : Unwraps I Γ e ρ)
    (he : e.optionalReceivers = t.optionalReceivers ++ ts) : Unwraps I Γ t ρ :=
  fun r hr => h r (he ▸ List.mem_append_left _ hr)

/-- Behind a mark the test decides between going on and the cut; the value taken out of a nullable
receiver is the receiver itself. -/
theorem access_present {t : Expr} {s : Spine} {optional : Bool} (f : Value α → Option (Value α))
    (h : Follows I Γ t s ρ) (ht : Unwraps I Γ t ρ)
    (hv : optional = true → (infer? Γ t.withoutOptional).any TypeRef.isNullableValue = true →
      ∀ v, I.run t ρ = .done v → v ≠ .null → I.member v "Value" = some v) :
    (I.run t ρ).access optional f =
      guarded (tests I (present Γ t optional s).guards ρ)
        ((I.run (present Γ t optional s).expr ρ).access false f) := by
  have hrun := h.run_eq ht
  cases optional with
  | false =>
      rw [hrun, guarded_access (truth_tests _)]
      rfl
  | true =>
      have htest : tests I (present Γ t true s).guards ρ =
          conjunction (tests I s.guards ρ) (I.eval s.expr.notNull ρ) := by
        have hone : tests I [s.expr.notNull] ρ = I.eval s.expr.notNull ρ :=
          conjunction_true (truth_notNull _)
        rw [← hone, ← tests_append]
        rfl
      have htruth := truth_tests (I := I) (ρ := ρ) s.guards
      rw [htest]
      generalize tests I s.guards ρ = test at hrun htruth ⊢
      rcases htruth with _ | _ | _
      · rw [hrun]
        rfl
      · rw [hrun]
        rfl
      · change I.run t ρ = I.run s.expr ρ at hrun
        rw [true_conjunction (truth_notNull _), eval_notNull, Interpretation.eval, hrun]
        cases ho : I.run s.expr ρ with
        | cut => exact absurd ho h.runs
        | stuck => rfl
        | done v =>
            by_cases hnull : v = .null
            · rw [hnull]
              rfl
            · have hexpr : I.run (present Γ t true s).expr ρ = .done v := by
                unfold present
                rw [if_pos rfl]
                dsimp only
                split
                · rename_i hn
                  change (I.run s.expr ρ).access false _ = _
                  rw [ho, Outcome.access_done _ _ hnull, hv rfl hn v (hrun.trans ho) hnull]
                  rfl
                · exact ho
              rw [hexpr, Outcome.access_done f true hnull, Outcome.access_done f false hnull]
              cases v with
              | null => exact absurd rfl hnull
              | bool _ | other _ => rfl

theorem present_runs {t : Expr} {s : Spine} (optional : Bool) (h : I.run s.expr ρ ≠ .cut) :
    I.run (present Γ t optional s).expr ρ ≠ .cut := by
  unfold present
  split
  · dsimp only
    split
    · exact Outcome.access_ne_cut _ h
    · exact h
  · exact h

theorem present_guards {t : Expr} {s : Spine} (optional : Bool)
    (h : ∀ g ∈ s.guards, ∃ receiver : Expr, g = receiver.notNull) :
    ∀ g ∈ (present Γ t optional s).guards, ∃ receiver : Expr, g = receiver.notNull := by
  unfold present
  split
  · exact List.forall_mem_append.2 ⟨h, List.forall_mem_singleton.2 ⟨s.expr, rfl⟩⟩
  · exact h

/-- One step of a chain: an access that may be marked. -/
theorem Follows.access {t e : Expr} {s : Spine} (h : Follows I Γ t s ρ) (optional : Bool)
    (next : Expr → Expr) (f : Value α → Option (Value α))
    (hreceivers : e.optionalReceivers = t.optionalReceivers ++ if optional then [t] else [])
    (he : I.run e ρ = (I.run t ρ).access optional f)
    (hnext : ∀ x, I.run (next x) ρ = (I.run x ρ).access false f) :
    Follows I Γ e ((present Γ t optional s).mapExpr next) ρ where
  guards := present_guards optional h.guards
  runs := by
    change I.run (next _) ρ ≠ .cut
    rw [hnext]
    exact Outcome.access_ne_cut _ (present_runs optional h.runs)
  run_eq := by
    intro hu
    change _ = guarded _ (I.run (next _) ρ)
    rw [he, hnext]
    apply access_present f h (hu.of_append hreceivers)
    rintro rfl hn
    exact hu t (by simp [hreceivers]) hn

/-- What is proved along with lowering. Creations of generated types have no source to compare
with: they come from object literals only. -/
def meaningRelation (I : Interpretation Env α) : Relation where
  expr _ e _ x := e.Clean → I.run x.value = I.run e
  node _ e _ x := e.Clean → I.run x.value = I.run e
  creation _ _ _ := True
  property _ _ _ := True
  collection _ _ _ _ _ := True
  spine Γ e x := e.CleanSpine → ∀ ρ, Follows I Γ e x.value ρ
  argument _ e _ x := e.Clean → I.run x.value = I.run e

theorem not_clean_anonymous {ms : List Initializer} : ¬(Expr.anonymous ms).Clean := by
  intro h
  have := Every.self h
  simp [isSurface, isObject] at this

theorem runAll_lowered {args : List Expr} {f : Expr → Lowered Expr}
    (h : ∀ a ∈ args, I.run (f a).value = I.run a) :
    I.runAll (Lowered.all (args.map f)).value = I.runAll args := by
  rw [Lowered.value_all, List.map_map]
  exact Interpretation.runAll_map h

theorem meaningRelation_kept (I : Interpretation Env α) (settings : Settings) :
    (meaningRelation I).Kept settings where
  chain := by
    intro Γ e declared s ho _ he
    rw [he.chainOptional_eq_false] at ho
    cases ho
  noChain _ h := h
  call := by
    intro Γ target typeArgs args declared t f ht ha he
    funext ρ
    have ht := ht (he.child (by simp [children]))
    have ha := runAll_lowered fun a hm => ha a hm (he.child (by simp [children, hm]))
    change (I.run t.value ρ).access false (fun v => (I.runAll (Lowered.all _).value ρ).bind _) = _
    rw [ht, ha]
    rfl
  untypedObject _ h := absurd h not_clean_anonymous
  deepObject h := absurd h not_clean_anonymous
  object _ _ h := absurd h not_clean_anonymous
  conditional := by
    intro Γ c t f declared x y z hc ht hf he
    funext ρ
    have hc := hc (he.child (by simp [children]))
    have ht := ht (he.child (by simp [children]))
    have hf := hf (he.child (by simp [children]))
    simp only [Lowered.value_map, Lowered.value_both, Interpretation.run, hc, ht, hf]
  paren := by
    intro Γ inner declared x h he
    funext ρ
    have h := h (he.child (by simp [children]))
    simp only [Lowered.value_map, Interpretation.run, h]
  other := by
    intro Γ e declared f _ _ _ _ h he
    rw [Lowered.value_map, Lowered.value_all, List.map_map]
    exact Interpretation.run_withChildren fun c hc => h c hc (he.child hc)
  create _ := trivial
  collectionProperty _ := trivial
  objectProperty _ := trivial
  openProperty := trivial
  valueProperty _ _ _ := trivial
  noSelection _ _ := trivial
  refused _ := trivial
  refusedBody _ _ _ := trivial
  selectObjects _ _ _ _ _ _ := trivial
  select _ _ _ _ _ _ := trivial
  memberSpine := by
    intro Γ target name optional s h he ρ
    exact (h he ρ).access optional (·.dot name) (I.member · name) rfl rfl fun x => rfl
  indexSpine := by
    intro Γ target args optional s f h ha he ρ
    have hargs := runAll_lowered fun a hm => ha a hm (he.2 a hm)
    refine (h he.1 ρ).access optional (.index · (Lowered.all (args.map f)).value false)
      (fun v => (I.runAll args ρ).bind (I.index v)) rfl rfl fun x => ?_
    rw [Interpretation.run, hargs]
  callSpine := by
    intro Γ target typeArgs args s f h ha he ρ
    have hargs := runAll_lowered fun a hm => ha a hm (he.2 a hm)
    refine (h he.1 ρ).access false (.invoke · typeArgs (Lowered.all (args.map f)).value)
      (fun v => (I.runAll args ρ).bind (I.call v typeArgs)) (by simp [optionalReceivers]) rfl
      fun x => ?_
    rw [Interpretation.run, hargs]
  startSpine := by
    intro Γ e x ho h he ρ
    have hrun := h (he.clean ho)
    refine ⟨fun g hg => absurd hg List.not_mem_nil, ?_, fun _ => ?_⟩
    · change I.run x.value ρ ≠ .cut
      rw [hrun]
      exact Interpretation.run_ne_cut ho ρ
    · change I.run e ρ = I.run x.value ρ
      rw [hrun]
  lambdaArgument := by
    intro Γ arg element params body x hu h he
    have hbody := h (he.unparen.child (by simp [hu, children]))
    have harg : I.run arg.unparen = I.run arg := Interpretation.run_unparen (by rw [hu]; rfl)
    rw [← harg, hu]
    funext ρ
    simp only [Lowered.value_map, Interpretation.run, hbody]
  valueArgument h := h

theorem eval_castTo (type : Option TypeRef) (e : Expr) :
    I.eval (castTo type e) ρ = I.eval e ρ :=
  castTo_cases (P := fun x => I.eval x ρ = I.eval e ρ) rfl fun _ _ _ _ =>
    Interpretation.eval_cast ..

/-- Closing a chain puts the absent value in the place of the cut. -/
theorem eval_closeChain {e : Expr} {s : Spine} (declared : Option TypeRef)
    (h : Follows I Γ e s ρ) (hu : Unwraps I Γ e ρ) :
    I.eval (closeChain Γ e declared s) ρ =
      match I.run e ρ with
      | .done v => some v
      | .cut => I.eval (absentValue (declared.or (infer? Γ e))) ρ
      | .stuck => none := by
  have hruns : I.eval s.expr ρ =
      match I.run s.expr ρ with
      | .done v => some v
      | .cut => I.eval (absentValue (declared.or (infer? Γ e))) ρ
      | .stuck => none := by
    rw [Interpretation.eval]
    cases hr : I.run s.expr ρ with
    | cut => exact absurd hr h.runs
    | done _ | stuck => rfl
  have hguards := h.guards
  have hrun := h.run_eq hu
  unfold closeChain
  cases hg : s.guards with
  | nil =>
      rw [hg] at hrun
      rw [hrun]
      exact hruns
  | cons g gs =>
      rw [hg] at hguards hrun
      obtain ⟨receiver, rfl⟩ := hguards g List.mem_cons_self
      have htest : I.eval (gs.foldl (.binary .and) receiver.notNull) ρ =
          tests I (receiver.notNull :: gs) ρ := eval_foldl_and (truth_notNull _) gs
      have htruth := truth_tests (I := I) (ρ := ρ) (receiver.notNull :: gs)
      rw [Expr.all]
      dsimp only
      rw [Interpretation.eval_conditional, eval_castTo, htest, hrun]
      generalize tests I (receiver.notNull :: gs) ρ = test at htruth
      rcases htruth with _ | _ | _
      · rfl
      · rfl
      · exact hruns

/-- At every depth an optional chain and its conditional agree: on the value where the chain runs to
its end, and with the absent value in place of the cut. Besides the errors of the chain there is at
most that of the absent value. -/
theorem lowered_chain_meaning (I : Interpretation Env α) (settings : Settings) (depth : Nat)
    (Γ : Context) (e : Expr) (declared : Option TypeRef) (ρ : Env) (ho : e.chainOptional = true)
    (hs : e.CleanSpine) (hu : Unwraps I Γ e ρ) :
    (I.eval (expr settings depth Γ e declared).value ρ =
      match I.run e ρ with
      | .done v => some v
      | .cut => I.eval (absentValue (declared.or (infer? Γ e))) ρ
      | .stuck => none) ∧
    (I.eval (expr settings depth Γ e declared).value ρ = none ↔
      I.run e ρ = .stuck ∨
        I.run e ρ = .cut ∧ I.eval (absentValue (declared.or (infer? Γ e))) ρ = none) := by
  have hfollows := (meaningRelation_kept I settings).spine depth Γ e hs ρ
  have heq := eval_closeChain declared hfollows hu
  have hexpr : (expr settings depth Γ e declared).value =
      closeChain Γ e declared (spine settings depth Γ e).value := by
    rw [expr, if_pos ho]
    rfl
  rw [hexpr]
  refine ⟨heq, ?_⟩
  rw [heq]
  cases I.run e ρ <;> simp

/-- All names stand for the one value of the environment. `Value` gives the receiver, any other
member the next number. -/
def counting : Interpretation (Value Nat) Nat where
  ident ρ _ := some ρ
  this _ := none
  literal _ := none
  member v name :=
    match v with
    | .other n => some (.other (if name = "Value" then n else n + 1))
    | _ => none
  index _ _ := none
  call v _ _ := some v
  closure _ _ _ := none
  object _ := none
  create _ _ _ := none
  binary _ _ _ := none
  unary _ _ := none
  defaultOf _ := some (.other 0)
  text _ := none

/-- The chain `d?.Scale.ToString()` over a nullable number, which is there and which is not. -/
theorem lowered_chain_meaning_nullable_number :
    let Γ : Context := ⟨.empty, .empty, [("d", ⟨.primitive .decimal, true⟩)]⟩
    let e : Expr := .invoke (.member (.member (.ident "d") "Scale" true) "ToString" false) [] []
    (infer? Γ (.ident "d")).any TypeRef.isNullableValue = true ∧ e.chainOptional = true ∧
      e.CleanSpine ∧ Unwraps counting Γ e (.other 7) ∧
      counting.eval (lower {} Γ e none).value (.other 7) = some (.other 9) ∧
      counting.eval (lower {} Γ e none).value .null = some (.other 0) := by
  intro Γ e
  have hclean : (Expr.ident "d").Clean := every_iff.2 ⟨rfl, by simp [children]⟩
  have hs : e.CleanSpine := ⟨hclean, by simp⟩
  have hu : Unwraps counting Γ e (.other 7) := by
    intro t ht _ v hv _
    obtain rfl : t = .ident "d" := by simpa [e, optionalReceivers] using ht
    cases hv
    rfl
  have hnull : Unwraps counting Γ e .null := by
    intro t ht _ v hv hn
    obtain rfl : t = .ident "d" := by simpa [e, optionalReceivers] using ht
    cases hv
    exact absurd rfl hn
  have habsent : infer? Γ e = none := by cbv
  refine ⟨by cbv, rfl, hs, hu, ?_, ?_⟩
  · exact (lowered_chain_meaning counting {} _ Γ e none (.other 7) rfl hs hu).1
  · rw [lower, (lowered_chain_meaning counting {} _ Γ e none .null rfl hs hnull).1, habsent]
    rfl

end Lowering

end Projection
