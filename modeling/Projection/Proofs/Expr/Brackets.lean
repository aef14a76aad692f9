import Projection.Expr.Printer
import Projection.Expr.Traversal

/-!
Parentheses as nodes. A tree is printed with those that binding strength asks for; `bracketed` has a
node for each of them, prints the same and differs from the tree in nothing else.
-/

namespace Projection.Expr

def withoutParens (e : Expr) : Expr :=
  match e with
  | paren e => withoutParens e
  | e => e.withChildren (e.children.attach.map fun c => withoutParens c.1)
termination_by sizeOf e
decreasing_by
  · simp
  · exact sizeOf_lt_of_mem_children c.2

theorem withoutParens_paren (e : Expr) : (paren e).withoutParens = e.withoutParens := by
  rw [withoutParens]

theorem withoutParens_eq {e : Expr} (h : ∀ inner, e ≠ paren inner) :
    e.withoutParens = e.withChildren (e.children.map withoutParens) := by
  rw [withoutParens]
  · simp
  · exact h

def wrap (needed : Bool) (e : Expr) : Expr := if needed then paren e else e

/-- A copy with a node for every pair of parentheses that the printer adds. -/
def bracketed : Expr → Expr
  | member t n o => member (wrap (t.power < primaryPower) t.bracketed) n o
  | index t as o => index (wrap (t.power < primaryPower) t.bracketed) (as.map bracketed) o
  | invoke t ts as => invoke (wrap (t.power < primaryPower) t.bracketed) ts (as.map bracketed)
  | lambda ps b => lambda ps b.bracketed
  | anonymous ms => anonymous (ms.map fun m => ⟨m.name, m.value.bracketed⟩)
  | creation t as none => creation t (as.map bracketed) none
  | creation t as (some ms) =>
      creation t (as.map bracketed) (some (ms.map fun m => ⟨m.name, m.value.bracketed⟩))
  | conditional c t f =>
      conditional (wrap (c.power < 1) c.bracketed) (wrap t.isLambda t.bracketed)
        (wrap f.isLambda f.bracketed)
  | binary op l r =>
      binary op
        (wrap (l.power < if op.groupsRight then op.precedence + 1 else op.precedence) l.bracketed)
        (wrap (r.power < if op.groupsRight then op.precedence else op.precedence + 1) r.bracketed)
  | unary op e => unary op (wrap (repeatsSign op e || e.power < unaryPower) e.bracketed)
  | cast t e => cast t (wrap (e.power < unaryPower) e.bracketed)
  | paren e => paren e.bracketed
  | marked note e => marked note e.bracketed
  | e => e
termination_by e => sizeOf e
decreasing_by all_goals exact sizeOf_lt_of_mem_children (by simp [children]; try grind)

theorem bracketed_of_children_nil {e : Expr} (h : e.children = []) : e.bracketed = e := by
  cases e with
  | creation t as i => cases i <;> simp_all [children, bracketed]
  | _ => simp_all [children, bracketed]

@[simp] theorem power_bracketed (e : Expr) : e.bracketed.power = e.power := by
  induction e using childInduction with
  | h e ih =>
      cases e with
      | marked note e =>
          rw [bracketed, power, power, ih e (by simp [children])]
      | creation t as i => cases i <;> rw [bracketed] <;> rfl
      | _ => simp [bracketed, power]

@[simp] theorem isLambda_bracketed (e : Expr) : e.bracketed.isLambda = e.isLambda := by
  cases e with
  | creation t as i => cases i <;> rw [bracketed] <;> rfl
  | _ => simp [bracketed, isLambda]

@[simp] theorem repeatsSign_bracketed (op : UnaryOp) (e : Expr) :
    repeatsSign op e.bracketed = repeatsSign op e := by
  cases e with
  | unary op' e => cases op <;> cases op' <;> simp [bracketed, repeatsSign]
  | creation t as i => cases i <;> cases op <;> simp [bracketed, repeatsSign]
  | _ => cases op <;> simp [bracketed, repeatsSign]

variable (names : StructuralId → String)

/-- A pair of parentheses that stands as a node is not added once more. -/
theorem print_wrap (needs : Expr → Bool) {e : Expr} (hparen : ∀ e, needs (paren e) = false)
    (hneeds : needs e.bracketed = needs e) (ih : e.bracketed.print names = e.print names) :
    wrapIf (needs (wrap (needs e) e.bracketed)) ((wrap (needs e) e.bracketed).print names) =
      wrapIf (needs e) (e.print names) := by
  cases h : needs e with
  | true =>
      rw [wrap, if_pos rfl, hparen]
      exact congrArg (fun text => "(" ++ text ++ ")") ih
  | false => rw [wrap, if_neg (by decide), hneeds, h, ih]

theorem print_wrap_power {e : Expr} {limit : Nat} (hlimit : limit ≤ primaryPower)
    (ih : e.bracketed.print names = e.print names) :
    wrapIf ((wrap (e.power < limit) e.bracketed).power < limit)
        ((wrap (e.power < limit) e.bracketed).print names) =
      wrapIf (e.power < limit) (e.print names) :=
  print_wrap names (fun e => e.power < limit) (fun _ => decide_eq_false (Nat.not_lt.2 hlimit))
    (by rw [power_bracketed]) ih

theorem print_wrap_isLambda {e : Expr} (ih : e.bracketed.print names = e.print names) :
    wrapIf (wrap e.isLambda e.bracketed).isLambda ((wrap e.isLambda e.bracketed).print names) =
      wrapIf e.isLambda (e.print names) :=
  print_wrap names isLambda (fun _ => rfl) (isLambda_bracketed e) ih

theorem printAll_bracketed {es : List Expr}
    (ih : ∀ e ∈ es, e.bracketed.print names = e.print names) :
    printAll names (es.map bracketed) = printAll names es := by
  rw [printAll_eq_map, printAll_eq_map, List.map_map]
  exact List.map_congr_left ih

theorem printInitializers_bracketed {ms : List Initializer}
    (ih : ∀ e ∈ ms.map (·.value), e.bracketed.print names = e.print names) :
    printInitializers names (ms.map fun m => ⟨m.name, m.value.bracketed⟩) =
      printInitializers names ms := by
  induction ms with
  | nil => rfl
  | cons m ms ihms =>
      obtain ⟨name, e⟩ := m
      have he := ih e List.mem_cons_self
      have hms := ihms fun e he => ih e (List.mem_cons_of_mem _ he)
      cases name with
      | none => exact (congr (congrArg List.cons he) hms :)
      | some n => exact (congr (congrArg (fun text => List.cons (n ++ " = " ++ text)) he) hms :)

theorem precedence_lt_primaryPower (op : BinaryOp) : op.precedence < primaryPower := by
  cases op <;> decide

theorem print_bracketed (e : Expr) : e.bracketed.print names = e.print names := by
  induction e using childInduction with
  | h e ih =>
      cases e with
      | ident | this | literal | defaultValue | interpolated => simp [bracketed]
      | member t n o =>
          have ht := print_wrap_power names (Nat.le_refl _) (ih t (by simp [children]))
          rw [bracketed]
          exact congrArg (fun text => text ++ (if o then "?." else ".") ++ n) ht
      | index t as o =>
          have ht := print_wrap_power names (Nat.le_refl _) (ih t (by simp [children]))
          have has := printAll_bracketed names fun e (he : e ∈ as) =>
            ih e (List.mem_cons_of_mem t he)
          rw [bracketed]
          exact (congr (congrArg (fun text args => text ++ (if o then "?[" else "[") ++
            Text.join ", " args ++ "]") ht) has :)
      | invoke t ts as =>
          have ht := print_wrap_power names (Nat.le_refl _) (ih t (by simp [children]))
          have has := printAll_bracketed names fun e (he : e ∈ as) =>
            ih e (List.mem_cons_of_mem t he)
          rw [bracketed]
          exact (congr (congrArg (fun text args => text ++ printTypeArgs names ts ++ "(" ++
            Text.join ", " args ++ ")") ht) has :)
      | lambda ps b =>
          rw [bracketed]
          exact congrArg (fun text => printParams ps ++ " => " ++ text) (ih b (by simp [children]))
      | anonymous ms =>
          rw [bracketed]
          exact congrArg (fun members => "new " ++ bracketMembers members)
            (printInitializers_bracketed names ih)
      | creation t as i =>
          cases i with
          | none =>
              have has := printAll_bracketed names ih
              rw [bracketed]
              exact congrArg (fun args => "new " ++ t.print names ++ "(" ++ Text.join ", " args ++
                ")") has
          | some ms =>
              have has := printAll_bracketed names fun e (he : e ∈ as) =>
                ih e (List.mem_append_left _ he)
              have hms := printInitializers_bracketed names fun e (he : e ∈ ms.map (·.value)) =>
                ih e (List.mem_append_right _ he)
              rw [bracketed]
              cases as with
              | nil =>
                  exact congrArg (fun members => "new " ++ t.print names ++ " " ++
                    bracketMembers members) hms
              | cons a as =>
                  exact (congr (congrArg (fun args members => "new " ++ t.print names ++ "(" ++
                    Text.join ", " args ++ ") " ++ bracketMembers members) has) hms :)
      | conditional c t f =>
          have hc := print_wrap_power names (by decide : 1 ≤ primaryPower)
            (ih c (by simp [children]))
          have ht := print_wrap_isLambda names (ih t (by simp [children]))
          have hf := print_wrap_isLambda names (ih f (by simp [children]))
          rw [bracketed]
          exact (congr (congr (congrArg (fun a b c => a ++ " ? " ++ b ++ " : " ++ c) hc) ht) hf :)
      | binary op l r =>
          have hlimit : ∀ b : Bool, (if b then op.precedence + 1 else op.precedence) ≤
              primaryPower ∧ (if b then op.precedence else op.precedence + 1) ≤ primaryPower := by
            have := precedence_lt_primaryPower op
            intro b
            cases b <;> simp <;> omega
          have hl := print_wrap_power names (hlimit op.groupsRight).1 (ih l (by simp [children]))
          have hr := print_wrap_power names (hlimit op.groupsRight).2 (ih r (by simp [children]))
          rw [bracketed]
          exact (congr (congrArg (fun a b => a ++ " " ++ op.spelling ++ " " ++ b) hl) hr :)
      | unary op e =>
          have he := print_wrap names (fun e => repeatsSign op e || e.power < unaryPower)
            (fun _ => by cases op <;> rfl) (by simp) (ih e (by simp [children]))
          rw [bracketed]
          exact congrArg (fun text => op.spelling ++ text) he
      | cast t e =>
          have he := print_wrap_power names (by decide : unaryPower ≤ primaryPower)
            (ih e (by simp [children]))
          rw [bracketed]
          exact congrArg (fun text => "(" ++ t.print names ++ ")" ++ text) he
      | paren e =>
          rw [bracketed]
          exact congrArg (fun text => "(" ++ text ++ ")") (ih e (by simp [children]))
      | marked note e =>
          rw [bracketed]
          exact congrArg (fun text => _ ++ text) (ih e (by simp [children]))

theorem withoutParens_wrap (needed : Bool) (e : Expr) :
    (wrap needed e).withoutParens = e.withoutParens := by
  cases needed with
  | true => exact withoutParens_paren e
  | false => rfl

theorem map_withoutParens_bracketed {es : List Expr}
    (ih : ∀ e ∈ es, e.bracketed.withoutParens = e.withoutParens) :
    (es.map bracketed).map withoutParens = es.map withoutParens := by
  rw [List.map_map]
  exact List.map_congr_left ih

theorem renew_map (ms : List Initializer) (f : Expr → Expr) (values : List Expr) :
    renew (ms.map fun m => ⟨m.name, f m.value⟩) values = renew ms values := by
  rw [renew, renew, List.zipWith_map_left]

theorem values_map_bracketed (ms : List Initializer) :
    (ms.map fun m => (⟨m.name, m.value.bracketed⟩ : Initializer)).map (·.value) =
      (ms.map (·.value)).map bracketed := by
  rw [List.map_map, List.map_map]
  rfl

theorem withoutParens_bracketed (e : Expr) : e.bracketed.withoutParens = e.withoutParens := by
  induction e using childInduction with
  | h e ih =>
      cases e with
      | ident | this | literal | defaultValue | interpolated => simp [bracketed]
      | paren e =>
          rw [bracketed, withoutParens_paren, withoutParens_paren]
          exact ih e (by simp [children])
      | anonymous ms =>
          have hms := map_withoutParens_bracketed ih
          rw [bracketed, withoutParens_eq, withoutParens_eq]
          · simp only [children, withChildren, renew_map] at hms ⊢
            rw [values_map_bracketed, hms]
          all_goals simp
      | creation t as i =>
          have hall := map_withoutParens_bracketed ih
          cases i with
          | none =>
              rw [bracketed, withoutParens_eq, withoutParens_eq]
              · simp only [children, withChildren] at hall ⊢
                rw [hall]
              all_goals simp
          | some ms =>
              rw [bracketed, withoutParens_eq, withoutParens_eq]
              · simp only [children, withChildren, renew_map, List.length_map] at hall ⊢
                rw [values_map_bracketed, ← List.map_append, hall]
              all_goals simp
      | index t as o | invoke t ts as =>
          have hall := map_withoutParens_bracketed ih
          rw [bracketed, withoutParens_eq, withoutParens_eq]
          · simp only [children, withChildren, List.map_cons, withoutParens_wrap,
              List.cons.injEq] at hall ⊢
            rw [hall.1, hall.2]
          all_goals simp
      | _ =>
          rw [bracketed, withoutParens_eq, withoutParens_eq]
          · simp_all [children, withChildren, withoutParens_wrap]
          all_goals simp

end Projection.Expr
