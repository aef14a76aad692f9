import Projection.Proofs.Lowering.Allowed
import Projection.Proofs.Typing.Nullable
import Projection.Proofs.Typing.Rename

/-!
The type of a selection of objects. It is a sequence of the objects that its own function builds, or
the model says what the call gives; so what is nested in a property that such a selection makes up
was written in its function.
-/

namespace Projection

namespace Framework

theorem lookup_eq_none {α : Type} {rows : List (Row α)} {member : String}
    (h : ∀ row ∈ rows, member ∉ row.members) (owner : String) (use : α) :
    Row.lookup rows owner member use = none := by
  rw [Row.lookup, List.find?_eq_none.2 fun row hr => by simp [h row hr]]
  rfl

theorem pick?_eq_none {entries : List (List String × TypeRef)} {name : String}
    (h : ∀ entry ∈ entries, name ∉ entry.1) : pick? entries name = none := by
  rw [pick?, List.find?_eq_none.2 fun entry he => by simp [h entry he]]
  rfl

/-- No type of the base library has a static method of this name. -/
theorem staticCall?_select (t : TypeRef) (call : Call) : staticCall? t "Select" call = none := by
  unfold staticCall?
  split
  · exact pick?_eq_none (by decide)
  · exact pick?_eq_none (by simp [primitiveStatics])
  · exact lookup_eq_none (by decide) _ _
  · rfl

/-- The operators that select and collect are no methods of a type of the base library. -/
theorem instanceCall?_operator {name : String} (h : name ∈ "Select" :: Lowering.terminals)
    (t : TypeRef) : instanceCall? t name = none := by
  have hcommon : ∀ n ∈ "Select" :: Lowering.terminals, ∀ entry ∈ commonCalls, n ∉ entry.1 := by
    decide
  have hstring : ∀ n ∈ "Select" :: Lowering.terminals, ∀ entry ∈ stringCalls, n ∉ entry.1 := by
    decide
  have hrows : ∀ n ∈ "Select" :: Lowering.terminals, ∀ row ∈ instanceCalls, n ∉ row.members := by
    decide
  have hadd : ∀ n ∈ "Select" :: Lowering.terminals,
      n ≠ "GetValueOrDefault" ∧ Text.startsWith "Add" n = false := by decide
  obtain ⟨hne, hstart⟩ := hadd name h
  rw [instanceCall?, pick?_eq_none (hcommon name h)]
  dsimp only
  rw [if_neg (fun hg => hne hg.1)]
  split
  · exact pick?_eq_none (hstring name h)
  · rw [if_neg (fun hg => by simp [hstart] at hg), lookup_eq_none (hrows name h)]
  · rfl

end Framework

theorem TypeRef.Written.element? {V : Vocabulary} {t u : TypeRef} (h : t.Written V)
    (hu : t.element? = some u) : u.Written V := by
  cases h with
  | primitive => cases hu
  | @named name args v n _ hargs =>
      match args, hargs with
      | [a], hargs =>
          rw [TypeRef.element?] at hu
          dsimp only at hu
          split at hu <;> cases hu
          exact hargs u List.mem_cons_self
      | [], _ | _ :: _ :: _, _ => cases hu
  | array h =>
      cases hu
      exact h

namespace Typing

open Projection.Expr TypeRef Lowering

variable {Γ : Context} {members : List Initializer}

/-- The type is written out, or a sequence of objects with these members. -/
inductive Selected (members : List Initializer) : TypeRef → Prop
  | written {t : TypeRef} : t.Written .full → Selected members t
  | sequence {name : String} {v n : Bool} (Γ : Context) :
      Selected members ⟨.named name [.anonymous (anonymousType Γ members)] v, n⟩
  | array {n : Bool} (Γ : Context) :
      Selected members ⟨.array (.anonymous (anonymousType Γ members)), n⟩

theorem Selected.withNullable {t : TypeRef} (h : Selected members t) (n : Bool) :
    Selected members (t.withNullable n) := by
  cases h with
  | written h => exact .written (h.withNullable n)
  | sequence Γ => exact .sequence Γ
  | array Γ => exact .array Γ

theorem Selected.lift {t : TypeRef} (h : Selected members t) (lifted : Bool) :
    Selected members (Typing.lift lifted t) := by
  unfold Typing.lift
  split
  · exact h.withNullable true
  · exact h

/-- Elements of such a sequence are objects with these members. -/
theorem Selected.element? {t u : TypeRef} (h : Selected members t) (hu : t.element? = some u) :
    u.Written .full ∨ ∃ Γ, u = .anonymous (anonymousType Γ members) := by
  cases h with
  | written h => exact .inl (h.element? hu)
  | sequence Γ =>
      rw [TypeRef.element?] at hu
      dsimp only at hu
      split at hu <;> cases hu
      exact .inr ⟨Γ, rfl⟩
  | array Γ =>
      cases hu
      exact .inr ⟨Γ, rfl⟩

/-- Nothing but an object with these members is nested in it. -/
theorem Selected.nested {settings : Settings} {t : TypeRef} {s : Structure}
    (h : Selected members t) (hs : (Structure.materialize settings t).2 = some s) :
    ∃ Γ, s = Structure.ofType settings (anonymousType Γ members) := by
  cases h with
  | written h =>
      rw [Structure.materialize_of_written settings h] at hs
      cases hs
  | sequence Γ =>
      rw [Structure.materialize, Structure.materializeAll_singleton, TypeRef.anonymous,
        Structure.materialize] at hs
      cases hs
      exact ⟨Γ, rfl⟩
  | array Γ =>
      rw [Structure.materialize, TypeRef.anonymous, Structure.materialize] at hs
      cases hs
      exact ⟨Γ, rfl⟩

/-- A method that is declared gives what its declaration says. -/
theorem selected_instanceCall? {m : Model} {t u : TypeRef} {name : String}
    (hn : name ∈ "Select" :: terminals) (h : instanceCall? m t name = some u) :
    Selected members u := by
  unfold instanceCall? at h
  split at h
  · exact .written (written_parse? h)
  · rw [Framework.instanceCall?_operator hn] at h
    cases h

/-- What a call behind a receiver can give. -/
theorem operand?_call {target receiver : Expr} {name : String} {optional : Bool}
    {typeArgs : List TypeExpr} {args : List Expr} {o : Operand}
    (htarget : target.unparen = .member receiver name optional)
    (h : operand? Γ (.invoke target typeArgs args) = some o) :
    ∃ t, o = .value t ∧
      ((∃ u call, operand? Γ receiver = some (.type u) ∧
        staticCall? Γ.model u name call = some t) ∨
      ∃ u v lifted, operand? Γ receiver = some (.value u) ∧ t = lift lifted v ∧
        (sequenceCall? u.nonNullable name (!args.isEmpty) (selected? Γ args) = some v ∨
          instanceCall? Γ.model u.nonNullable name = some v)) := by
  rw [operand?_invoke_member htarget] at h
  cases hr : operand? Γ receiver with
  | none =>
      rw [hr] at h
      cases h
  | some r =>
      rw [hr] at h
      cases r with
      | type u =>
          obtain ⟨t, ht, rfl⟩ := Option.map_eq_some_iff.1 h
          exact ⟨t, rfl, .inl ⟨u, _, rfl, ht⟩⟩
      | value u =>
          obtain ⟨v, hv, rfl⟩ := Option.map_eq_some_iff.1 h
          refine ⟨_, rfl, .inr ⟨u, v, _, rfl, rfl, ?_⟩⟩
          exact (Option.or_eq_some_iff.1 hv).imp_right (·.2)

/-- The function of a selection of objects. -/
theorem selected?_literal {arg body : Expr} {parameter : String}
    (harg : arg.unparen = .lambda [parameter] body) (hbody : body.unparen = .anonymous members)
    (element : TypeRef) : selected? Γ [arg] element =
      some (.anonymous (anonymousType (Γ.bind parameter element) members)) := by
  rw [selected?, List.head?_cons, Option.bind_some, lambdaResult?, harg]
  exact infer?_literal _ hbody

theorem selected_call {target arg base body : Expr} {parameter : String} {optional : Bool}
    {typeArgs : List TypeExpr} {o : Operand}
    (htarget : target.unparen = .member base "Select" optional)
    (harg : arg.unparen = .lambda [parameter] body) (hbody : body.unparen = .anonymous members)
    (h : operand? Γ (.invoke target typeArgs [arg]) = some o) :
    ∃ t, o = .value t ∧ Selected members t := by
  obtain ⟨t, rfl, hcall⟩ := operand?_call htarget h
  refine ⟨t, rfl, ?_⟩
  rcases hcall with ⟨u, call, -, hstatic⟩ | ⟨u, v, lifted, -, rfl, hv⟩
  · unfold staticCall? at hstatic
    split at hstatic
    · exact .written (written_parse? hstatic)
    · rw [Framework.staticCall?_select] at hstatic
      cases hstatic
  · refine Selected.lift ?_ lifted
    rcases hv with hv | hv
    · rw [sequenceCall?] at hv
      split at hv
      · cases hv
      · rename_i element _
        obtain ⟨w, hw, rfl⟩ := Option.map_eq_some_iff.1 hv
        cases hw.symm.trans (selected?_literal harg hbody element)
        exact .sequence _
    · exact selected_instanceCall? (by simp) hv

/-- A collection of elements that are written out or have these members. -/
theorem selected_sequence {name : String} {element : TypeRef} (hn : Text.IsName name)
    (h : element.Written .full ∨ ∃ Γ, element = .anonymous (anonymousType Γ members)) :
    Selected members (.sequence name element) := by
  rcases h with h | ⟨Γ, rfl⟩
  · exact .written (written_sequence hn h)
  · exact .sequence Γ

theorem selected_array {element : TypeRef}
    (h : element.Written .full ∨ ∃ Γ, element = .anonymous (anonymousType Γ members)) :
    Selected members (.array element) := by
  rcases h with h | ⟨Γ, rfl⟩
  · exact .written (.array h)
  · exact .array Γ

/-- Collecting keeps what is selected. -/
theorem selected_terminal {target inner : Expr} {name : String} {optional : Bool} {o : Operand}
    (htarget : target.unparen = .member inner name optional) (hn : name ∈ terminals)
    (hinner : ∀ o, operand? Γ inner = some o → ∃ t, o = .value t ∧ Selected members t)
    (h : operand? Γ (.invoke target [] []) = some o) :
    ∃ t, o = .value t ∧ Selected members t := by
  obtain ⟨t, rfl, hcall⟩ := operand?_call htarget h
  refine ⟨t, rfl, ?_⟩
  rcases hcall with ⟨u, call, hr, -⟩ | ⟨u, v, lifted, hr, rfl, hv⟩
  · obtain ⟨_, hvalue, -⟩ := hinner _ hr
    cases hvalue
  · obtain ⟨w, hvalue, hw⟩ := hinner _ hr
    cases hvalue
    refine Selected.lift ?_ lifted
    rcases hv with hv | hv
    · rw [sequenceCall?] at hv
      split at hv
      · cases hv
      · rename_i element helement
        have helements := (hw.withNullable false).element? helement
        simp only [terminals, List.mem_cons, List.not_mem_nil, or_false] at hn
        rcases hn with rfl | rfl | rfl | rfl
        all_goals
          simp [elementPreserving, elementResults, List.lookup_cons] at hv
          subst hv
        · exact selected_sequence (by decide) helements
        · exact selected_array helements
        · exact selected_sequence (by decide) helements
        · exact selected_sequence (by decide) helements
    · exact selected_instanceCall? (List.mem_cons_of_mem _ hn) hv

theorem members_of_literal {sel : Lowering.Selection} (h : sel.bodyForm = .literal) :
    sel.transform = "Select" ∧ ∃ members, sel.body.unparen = .anonymous members := by
  unfold Selection.bodyForm at h
  split at h
  · rename_i ht
    split at h
    · exact ⟨ht, _, ‹_›⟩
    · cases h
    · cases h
  · cases h

theorem splitFallback_eq_unparen {e : Expr} (h : (splitFallback e).2 = none) :
    (splitFallback e).1 = e.unparen := by
  unfold splitFallback at h ⊢
  split at h
  · cases h
  · rfl

/-- A selection of objects without a fallback has objects of its own function as elements, where the
model does not say otherwise. -/
theorem selected_of_selection {e : Expr} {sel : Lowering.Selection}
    (hsel : SelectionForm.ofExpr e = .selection sel) (hbody : sel.bodyForm = .literal)
    (hf : sel.fallback = none) :
    ∃ members, sel.body.unparen = .anonymous members ∧
      ∀ Γ t, infer? Γ e = some t → Selected members t := by
  obtain ⟨target, arg, hcall, htarget, harg, -, hfallback⟩ := eq_of_selection hsel
  obtain ⟨htransform, members, hmembers⟩ := members_of_literal hbody
  rw [splitFallback_eq_unparen (hfallback ▸ hf)] at hcall
  rw [htransform] at htarget
  refine ⟨members, hmembers, fun Γ t ht => ?_⟩
  have hselected : ∀ o, operand? Γ e.unparen = some o →
      ∃ t, o = .value t ∧ Selected members t := by
    intro o ho
    rcases splitTerminal_cases e.unparen with
      hsame | ⟨collector, inner, name, optional, hcore, hcollector, hn, hinner⟩
    · rw [← hsame, hcall] at ho
      exact selected_call htarget harg hmembers ho
    · rw [hcore] at ho
      refine selected_terminal hcollector hn (fun o ho => ?_) ho
      rw [← operand?_unparen, ← hinner, hcall] at ho
      exact selected_call htarget harg hmembers ho
  rw [infer?, ← operand?_unparen] at ht
  obtain ⟨o, ho, ht⟩ := Option.bind_eq_some_iff.1 ht
  obtain ⟨u, rfl, hu⟩ := hselected o ho
  cases ht
  exact hu

theorem element?_lift (lifted : Bool) (t : TypeRef) : (lift lifted t).element? = t.element? := by
  cases lifted <;> rfl

/-- What is known of a sequence decides the type of a call on it before the model does. -/
theorem infer?_sequenceCall {target receiver : Expr} {name : String} {optional : Bool}
    {args : List Expr} {t u : TypeRef} (htarget : target.unparen = .member receiver name optional)
    (hreceiver : infer? Γ receiver = some t)
    (hcall : sequenceCall? t.nonNullable name (!args.isEmpty) (selected? Γ args) = some u)
    (typeArgs : List TypeExpr) :
    infer? Γ (.invoke target typeArgs args) =
      some (lift (chainOptional (.invoke target typeArgs args)) u) := by
  obtain ⟨o, ho, ht⟩ := Option.bind_eq_some_iff.1 hreceiver
  cases o with
  | type _ => cases ht
  | value _ =>
      cases ht
      rw [infer?, operand?_invoke_member htarget, ho]
      dsimp only
      rw [hcall]
      rfl

theorem elements_select {target arg base body : Expr} {parameter : String} {optional : Bool}
    {element : TypeRef} (htarget : target.unparen = .member base "Select" optional)
    (harg : arg.unparen = .lambda [parameter] body) (hbody : body.unparen = .anonymous members)
    (hbase : (infer? Γ base).bind TypeRef.element? = some element) (typeArgs : List TypeExpr) :
    (infer? Γ (.invoke target typeArgs [arg])).bind TypeRef.element? =
      some (.anonymous (anonymousType (Γ.bind parameter element) members)) := by
  obtain ⟨t, ht, helement⟩ := Option.bind_eq_some_iff.1 hbase
  have hcall := sequenceCall?.eq_def t.nonNullable "Select" (!([arg] : List Expr).isEmpty)
    (selected? Γ [arg])
  rw [show t.nonNullable.element? = some element from helement] at hcall
  dsimp only at hcall
  rw [if_pos rfl, selected?_literal harg hbody] at hcall
  rw [infer?_sequenceCall htarget ht hcall, Option.bind_some, element?_lift]
  split <;> rfl

theorem elements_terminal {target inner : Expr} {name : String} {optional : Bool}
    {element : TypeRef} (htarget : target.unparen = .member inner name optional)
    (hn : name ∈ terminals) (hinner : (infer? Γ inner).bind TypeRef.element? = some element) :
    (infer? Γ (.invoke target [] [])).bind TypeRef.element? = some element := by
  obtain ⟨t, ht, helement⟩ := Option.bind_eq_some_iff.1 hinner
  have hcall := sequenceCall?.eq_def t.nonNullable name (!([] : List Expr).isEmpty) (selected? Γ [])
  rw [show t.nonNullable.element? = some element from helement] at hcall
  simp only [terminals, List.mem_cons, List.not_mem_nil, or_false] at hn
  rcases hn with rfl | rfl | rfl | rfl
  all_goals
    simp [elementPreserving, elementResults, List.lookup_cons] at hcall
    rw [infer?_sequenceCall htarget ht hcall, Option.bind_some, element?_lift]
    rfl

theorem elements_coalesce {l : Expr} {element : TypeRef} (r : Expr)
    (h : (infer? Γ l).bind TypeRef.element? = some element) :
    (infer? Γ (.binary .coalesce l r)).bind TypeRef.element? = some element := by
  obtain ⟨t, ht, helement⟩ := Option.bind_eq_some_iff.1 h
  rw [infer?_binary, ht]
  change (coalesceType? (some t) (infer? Γ r) r.isNull).bind TypeRef.element? = some element
  unfold coalesceType?
  split
  · exact helement
  · cases infer? Γ r <;> exact helement

/-- A selection of objects has the objects of its own function as elements as soon as the elements
that it ranges over are known, also with a fallback. -/
theorem elements_of_selection {e : Expr} {sel : Lowering.Selection} {element : TypeRef}
    (hsel : SelectionForm.ofExpr e = .selection sel) (hbody : sel.bodyForm = .literal)
    (hbase : (infer? Γ sel.base).bind TypeRef.element? = some element) :
    ∃ members, sel.body.unparen = .anonymous members ∧
      (infer? Γ e).bind TypeRef.element? =
        some (.anonymous (anonymousType (Γ.bind sel.parameter element) members)) := by
  obtain ⟨target, arg, hcall, htarget, harg, -, -⟩ := eq_of_selection hsel
  obtain ⟨htransform, members, hmembers⟩ := members_of_literal hbody
  rw [htransform] at htarget
  refine ⟨members, hmembers, ?_⟩
  have hselect := elements_select htarget harg hmembers hbase sel.typeArgs
  have hcollected : (infer? Γ (splitFallback e).1).bind TypeRef.element? =
      some (.anonymous (anonymousType (Γ.bind sel.parameter element) members)) := by
    rcases splitTerminal_cases (splitFallback e).1 with
      hsame | ⟨collector, inner, name, optional, hcore, hcollector, hn, hinner⟩
    · rw [← hsame, hcall]
      exact hselect
    · rw [hcore]
      refine elements_terminal hcollector hn ?_
      rw [← infer?_unparen, ← hinner, hcall]
      exact hselect
  rw [← infer?_unparen]
  unfold splitFallback at hcollected
  split at hcollected
  · rename_i l r heq
    rw [infer?_unparen] at hcollected
    rw [heq]
    exact elements_coalesce r hcollected
  · exact hcollected

end Typing

end Projection
