import Projection.Proofs.Typing.Rename

/-!
Optional access and the types of chains. Without its marks a chain has the same type but for the
`?`, as long as the marks do not decide what is read: `Value` and `HasValue` are members of the
nullable or of the value in it, whichever the access sees.
-/

namespace Projection

namespace Expr

def chainRoot : Expr → Expr
  | member target _ _ | index target _ _ | invoke target _ _ => chainRoot target
  | e => e

def chainArgs : Expr → List Expr
  | member target _ _ => chainArgs target
  | index target args _ | invoke target _ args => chainArgs target ++ args
  | _ => []

theorem withoutOptional_member (t : Expr) (n : String) (o : Bool) :
    (member t n o).withoutOptional = member t.withoutOptional n false := by
  rw [withoutOptional_eq]
  rfl

theorem withoutOptional_index (t : Expr) (as : List Expr) (o : Bool) :
    (index t as o).withoutOptional = index t.withoutOptional (as.map withoutOptional) false := by
  rw [withoutOptional_eq]
  rfl

theorem withoutOptional_invoke (t : Expr) (ts : List TypeExpr) (as : List Expr) :
    (invoke t ts as).withoutOptional =
      invoke t.withoutOptional ts (as.map withoutOptional) := by
  rw [withoutOptional_eq]
  rfl

theorem clearOptional_of_not_isOptionalAccess {e : Expr} (h : e.isOptionalAccess = false) :
    e.clearOptional = e := by
  fun_cases clearOptional e with
  | case1 t n o =>
      cases o
      · rfl
      · cases h
  | case2 t as o =>
      cases o
      · rfl
      · cases h
  | case3 => rfl

theorem withoutOptional_of_plain {e : Expr} (h : e.hasOptionalAccess = false) :
    e.withoutOptional = e := by
  induction e using childInduction with
  | h e ih =>
      rw [hasOptionalAccess, any_eq, Bool.or_eq_false_iff, List.any_eq_false] at h
      have hchildren : e.children.map withoutOptional = e.children :=
        (List.map_congr_left fun c hc => ih c hc (Bool.eq_false_iff.2 (h.2 c hc))).trans
          (List.map_id _)
      rw [withoutOptional_eq, hchildren, withChildren_children,
        clearOptional_of_not_isOptionalAccess h.1]

end Expr

namespace Typing

open Projection.Expr

variable {Γ : Context}

/-- Two readings of one expression that differ in nothing but the `?` of a value. -/
inductive Operand.Alike : Operand → Operand → Prop
  | value {t u : TypeRef} : t.kind = u.kind → Alike (.value t) (.value u)
  | type (t : TypeRef) : Alike (.type t) (.type t)

def Alike (Γ : Context) (e : Expr) : Prop :=
  ∀ o, operand? Γ e = some o → ∃ o', operand? Γ e.withoutOptional = some o' ∧ o.Alike o'

theorem alike_of_plain {e : Expr} (h : e.hasOptionalAccess = false) (Γ : Context) :
    Alike Γ e := by
  intro o ho
  rw [withoutOptional_of_plain h]
  refine ⟨o, ho, ?_⟩
  cases o with
  | value t => exact .value rfl
  | type t => exact .type t

/-- Whether an access to a receiver of type `t`, behind marks, reads the member that a plain access
reads if the receiver has type `u`. A nullable value has members of its own. -/
def ReadsAlike (t u : TypeRef) (name : String) (optional : Bool) : Prop :=
  name = "HasValue" ∨ name = "Value" → t.isValueType = true →
    (t.nullable && !optional) = u.nullable

theorem readsAlike_of_plain {target : Expr} (h : target.hasOptionalAccess = false) (name : String)
    (t u : TypeRef) (ht : infer? Γ target = some t)
    (hu : infer? Γ target.withoutOptional = some u) : ReadsAlike t u name false := by
  intro _ _
  rw [withoutOptional_of_plain h, ht] at hu
  cases hu
  rw [Bool.not_false, Bool.and_true]

theorem readsAlike_of_name {name : String} (h : ¬ (name = "HasValue" ∨ name = "Value"))
    (t u : TypeRef) (optional : Bool) : ReadsAlike t u name optional :=
  fun hname => absurd hname h

def Unaffected (Γ : Context) : Expr → Prop
  | .member target name optional =>
      Unaffected Γ target ∧ ∀ t u, infer? Γ target = some t →
        infer? Γ target.withoutOptional = some u → ReadsAlike t u name optional
  | .index target _ _ => Unaffected Γ target
  | .invoke (.member receiver _ _) _ _ => Unaffected Γ receiver
  | .invoke target _ _ => ∀ receiver name o, target.unparen = .member receiver name o →
      Alike Γ receiver
  | e => Alike Γ e

theorem nonNullable_eq_of_kind {t u : TypeRef} (h : t.kind = u.kind) :
    t.nonNullable = u.nonNullable :=
  congrArg (TypeRef.mk · false) h

theorem isValueType_eq_of_kind {t u : TypeRef} (h : t.kind = u.kind) :
    t.isValueType = u.isValueType := by
  rw [TypeRef.isValueType, TypeRef.isValueType, h]

theorem kind_lift (lifted : Bool) (t : TypeRef) : (lift lifted t).kind = t.kind := by
  cases lifted <;> rfl

/-- Nullable values have no members but the two. -/
theorem nullableMember?_eq_none {t : TypeRef} {name : String}
    (h : ¬ (name = "HasValue" ∨ name = "Value")) : Framework.nullableMember? t name = none := by
  rw [not_or] at h
  rw [Framework.nullableMember?, if_neg h.1, if_neg h.2]

theorem valueMember?_eq (m : Model) (t : TypeRef) (name : String) (optional : Bool) :
    valueMember? m t name optional =
      if t.isNullableValue && !optional then
        (Framework.nullableMember? t name).or (instanceMember? m t.nonNullable name)
      else instanceMember? m t.nonNullable name := by
  unfold valueMember? Framework.instanceMember?
  split
  · rename_i h
    rw [if_pos (Bool.and_eq_true_iff.1 h).1]
  · rfl

theorem nullableMember?_congr {t u : TypeRef} (h : t.kind = u.kind) (name : String) :
    Framework.nullableMember? t name = Framework.nullableMember? u name := by
  rw [Framework.nullableMember?, Framework.nullableMember?, nonNullable_eq_of_kind h]

/-- A member comes out the same from receivers that differ in their `?`. -/
theorem valueMember?_congr {m : Model} {t u : TypeRef} {name : String} {optional : Bool}
    (hkind : t.kind = u.kind) (hreads : ReadsAlike t u name optional) :
    valueMember? m t name optional = valueMember? m u name false := by
  rw [valueMember?_eq, valueMember?_eq, nonNullable_eq_of_kind hkind]
  by_cases hname : name = "HasValue" ∨ name = "Value"
  · have hsees : (t.isNullableValue && !optional) = (u.isNullableValue && !false) := by
      rw [TypeRef.isNullableValue, TypeRef.isNullableValue, ← isValueType_eq_of_kind hkind]
      cases hvalue : t.isValueType with
      | false => simp
      | true => simpa using hreads hname hvalue
    rw [hsees, nullableMember?_congr hkind]
  · rw [nullableMember?_eq_none hname, nullableMember?_eq_none hname]
    simp

/-- One access of a chain. -/
theorem alike_member {target : Expr} {name : String} {optional : Bool}
    (ih : Alike Γ target)
    (hreads : ∀ t u, infer? Γ target = some t → infer? Γ target.withoutOptional = some u →
      ReadsAlike t u name optional) :
    Alike Γ (.member target name optional) := by
  intro o ho
  rw [operand?] at ho
  obtain ⟨receiver, hreceiver, ho⟩ := Option.bind_eq_some_iff.1 ho
  obtain ⟨v, hv, rfl⟩ := Option.map_eq_some_iff.1 ho
  obtain ⟨receiver', hreceiver', halike⟩ := ih receiver hreceiver
  rw [withoutOptional_member, operand?, hreceiver', Option.bind_some]
  cases halike with
  | type t => exact ⟨.value v, by rw [memberAccess?] at hv ⊢; rw [hv]; rfl, .value rfl⟩
  | @value t u hkind =>
      have hreads := hreads t u (by rw [infer?, hreceiver]; rfl) (by rw [infer?, hreceiver']; rfl)
      obtain ⟨w, hw, rfl⟩ := Option.map_eq_some_iff.1 hv
      rw [valueMember?_congr hkind hreads] at hw
      refine ⟨_, by rw [memberAccess?, hw]; rfl, .value ?_⟩
      rw [kind_lift, kind_lift]

theorem alike_index {target : Expr} {args : List Expr} {optional : Bool} (ih : Alike Γ target) :
    Alike Γ (.index target args optional) := by
  intro o ho
  rw [operand?] at ho
  obtain ⟨t, ht, ho⟩ := Option.bind_eq_some_iff.1 ho
  obtain ⟨receiver, hreceiver, ht⟩ := Option.bind_eq_some_iff.1 ht
  obtain ⟨element, helement, rfl⟩ := Option.map_eq_some_iff.1 ho
  obtain ⟨receiver', hreceiver', halike⟩ := ih receiver hreceiver
  cases halike with
  | type t => cases ht
  | @value t u hkind =>
      cases ht
      rw [nonNullable_eq_of_kind hkind] at helement
      rw [withoutOptional_index, operand?, hreceiver', Option.bind_some]
      refine ⟨_, by rw [Operand.value?, Option.bind_some, helement]; rfl, .value ?_⟩
      rw [kind_lift, kind_lift]

/-- One call of a chain, with arguments that hold no marks. -/
theorem alike_call {target receiver : Expr} {name : String} {o : Bool}
    {typeArgs : List TypeExpr} {args : List Expr}
    (htarget : target.unparen = .member receiver name o) (ih : Alike Γ receiver)
    (hargs : ∀ a ∈ args, a.hasOptionalAccess = false) :
    Alike Γ (.invoke target typeArgs args) := by
  intro result hresult
  have hsame : args.map withoutOptional = args :=
    (List.map_congr_left fun a ha => withoutOptional_of_plain (hargs a ha)).trans (List.map_id _)
  have htarget' : target.withoutOptional.unparen =
      .member receiver.withoutOptional name false := by
    rw [unparen_withoutOptional, htarget, withoutOptional_member]
  rw [operand?_invoke_member htarget] at hresult
  rw [withoutOptional_invoke, hsame, operand?_invoke_member htarget']
  cases hreceiver : operand? Γ receiver with
  | none =>
      rw [hreceiver] at hresult
      cases hresult
  | some operand =>
      obtain ⟨operand', hreceiver', halike⟩ := ih operand hreceiver
      rw [hreceiver] at hresult
      rw [hreceiver']
      cases halike with
      | type t =>
          obtain ⟨v, -, rfl⟩ := Option.map_eq_some_iff.1 hresult
          exact ⟨.value v, hresult, .value rfl⟩
      | @value t u hkind =>
          obtain ⟨v, hv, rfl⟩ := Option.map_eq_some_iff.1 hresult
          rw [nonNullable_eq_of_kind hkind] at hv
          refine ⟨_, by dsimp only; rw [hv]; rfl, .value ?_⟩
          rw [kind_lift, kind_lift]

theorem alike_ownCall {target : Expr} {typeArgs : List TypeExpr} {args : List Expr}
    (h : ∀ receiver name o, target.unparen ≠ .member receiver name o) :
    Alike Γ (.invoke target typeArgs args) := by
  intro o ho
  cases hu : target.unparen with
  | ident name =>
      have hu' : target.withoutOptional.unparen = .ident name := by
        rw [unparen_withoutOptional, hu, withoutOptional_eq]
        rfl
      rw [operand?_invoke_ident hu] at ho
      rw [withoutOptional_invoke, operand?_invoke_ident hu']
      obtain ⟨t, -, rfl⟩ := Option.map_eq_some_iff.1 ho
      exact ⟨.value t, ho, .value rfl⟩
  | member receiver name o => exact absurd hu (h receiver name o)
  | _ =>
      rw [operand?_invoke_other (by simp [hu]) (by simp [hu])] at ho
      cases ho

/-- A chain whose marks do not decide what is read types alike without them. -/
theorem alike_of_unaffected {e : Expr} (h : Unaffected Γ e)
    (hargs : ∀ a ∈ e.chainArgs, a.hasOptionalAccess = false) : Alike Γ e := by
  fun_induction Unaffected Γ e with
  | case1 target name optional ih => exact alike_member (ih h.1 hargs) h.2
  | case2 target args optional ih =>
      exact alike_index (ih h fun a ha => hargs a (List.mem_append_left _ ha))
  | case3 receiver name o typeArgs args ih =>
      refine alike_call rfl (ih h fun a ha => hargs a (List.mem_append_left _ ha)) fun a ha => ?_
      exact hargs a (List.mem_append_right _ ha)
  | case4 target typeArgs args hmember =>
      by_cases hcall : ∃ receiver name o, target.unparen = .member receiver name o
      · obtain ⟨receiver, name, o, hu⟩ := hcall
        exact alike_call hu (h receiver name o hu) fun a ha => hargs a (List.mem_append_right _ ha)
      · exact alike_ownCall fun receiver name o hu => hcall ⟨receiver, name, o, hu⟩
  | case5 => exact h

/-- What a call gives is a value. Behind a receiver that is one it is lifted. -/
theorem value_of_invoke {target : Expr} {typeArgs : List TypeExpr} {args : List Expr} {o : Operand}
    (h : operand? Γ (.invoke target typeArgs args) = some o) :
    ∃ t, o = .value t ∧ ∀ receiver name optional, target = .member receiver name optional →
      (∃ τ, operand? Γ receiver = some (.type τ)) ∨ ∃ v, t = lift target.chainOptional v := by
  by_cases hcall : ∃ receiver name o, target.unparen = .member receiver name o
  · obtain ⟨receiver, name, optional, hu⟩ := hcall
    rw [operand?_invoke_member hu] at h
    split at h
    · cases h
    · rename_i τ hreceiver
      obtain ⟨t, -, rfl⟩ := Option.map_eq_some_iff.1 h
      refine ⟨t, rfl, ?_⟩
      rintro _ _ _ rfl
      cases hu
      exact .inl ⟨τ, hreceiver⟩
    · obtain ⟨v, -, rfl⟩ := Option.map_eq_some_iff.1 h
      exact ⟨_, rfl, fun _ _ _ _ => .inr ⟨v, rfl⟩⟩
  · have hmember : ∀ receiver name o, target.unparen ≠ .member receiver name o :=
      fun receiver name o hu => hcall ⟨receiver, name, o, hu⟩
    by_cases hident : ∃ name, target.unparen = .ident name
    · obtain ⟨name, hu⟩ := hident
      rw [operand?_invoke_ident hu] at h
      obtain ⟨t, -, rfl⟩ := Option.map_eq_some_iff.1 h
      refine ⟨t, rfl, ?_⟩
      rintro _ _ _ rfl
      cases hu
    · rw [operand?_invoke_other hmember fun name hu => hident ⟨name, hu⟩] at h
      cases h

/-- Accesses and calls give values, so only the start of a chain can be a type. -/
theorem chainRoot_of_type {e : Expr} {t : TypeRef} (h : operand? Γ e = some (.type t)) :
    e.chainRoot = e := by
  cases e with
  | member target name optional =>
      rw [operand?] at h
      obtain ⟨_, -, h⟩ := Option.bind_eq_some_iff.1 h
      obtain ⟨_, -, h⟩ := Option.map_eq_some_iff.1 h
      cases h
  | index target args optional =>
      rw [operand?] at h
      obtain ⟨_, -, h⟩ := Option.bind_eq_some_iff.1 h
      obtain ⟨_, -, h⟩ := Option.map_eq_some_iff.1 h
      cases h
  | invoke target typeArgs args =>
      obtain ⟨_, h, -⟩ := value_of_invoke h
      cases h
  | _ => rfl

/-- A chain with a mark that does not start at a type is nullable. -/
theorem nullable_of_chainOptional {e : Expr} {t : TypeRef} (hchain : e.chainOptional = true)
    (hroot : ∀ τ, operand? Γ e.chainRoot ≠ some (.type τ)) (h : operand? Γ e = some (.value t)) :
    t.nullable = true := by
  cases e with
  | member target name optional =>
      rw [operand?, hchain] at h
      obtain ⟨receiver, hreceiver, h⟩ := Option.bind_eq_some_iff.1 h
      obtain ⟨v, hv, h⟩ := Option.map_eq_some_iff.1 h
      cases h
      cases receiver with
      | type τ =>
          have hstart : (Expr.member target name optional).chainRoot = target :=
            chainRoot_of_type hreceiver
          exact absurd hreceiver (hstart ▸ hroot τ)
      | value u =>
          obtain ⟨w, -, rfl⟩ := Option.map_eq_some_iff.1 hv
          rfl
  | index target args optional =>
      rw [operand?, hchain] at h
      obtain ⟨_, -, h⟩ := Option.bind_eq_some_iff.1 h
      obtain ⟨element, -, h⟩ := Option.map_eq_some_iff.1 h
      cases h
      rfl
  | invoke target typeArgs args =>
      obtain ⟨_, heq, hlifted⟩ := value_of_invoke h
      cases heq
      cases target with
      | member receiver name optional =>
          rcases hlifted receiver name optional rfl with ⟨τ, hreceiver⟩ | ⟨v, rfl⟩
          · have hstart : (Expr.invoke (.member receiver name optional) typeArgs args).chainRoot =
                receiver := chainRoot_of_type hreceiver
            exact absurd hreceiver (hstart ▸ hroot τ)
          · rw [show (Expr.member receiver name optional).chainOptional = true from hchain]
            rfl
      | index _ _ _ | invoke _ _ _ =>
          rw [operand?_invoke_other (by simp [unparen]) (by simp [unparen])] at h
          cases h
      | _ => cases hchain
  | _ => cases hchain

/-- The type of a chain with marks is that of the chain without them, made nullable. -/
theorem infer_chain_eq_asNullable {e : Expr} {t : TypeRef} (hchain : e.chainOptional = true)
    (hroot : ∀ τ, operand? Γ e.chainRoot ≠ some (.type τ))
    (hargs : ∀ a ∈ e.chainArgs, a.hasOptionalAccess = false) (hreads : Unaffected Γ e)
    (ht : infer? Γ e = some t) :
    ∃ u, infer? Γ e.withoutOptional = some u ∧ t = u.asNullable := by
  obtain ⟨o, ho, hvalue⟩ := Option.bind_eq_some_iff.1 ht
  cases o with
  | type τ => cases hvalue
  | value t =>
      cases hvalue
      obtain ⟨o', ho', halike⟩ := alike_of_unaffected hreads hargs _ ho
      cases halike with
      | @value _ u hkind =>
          refine ⟨u, by rw [infer?, ho']; rfl, ?_⟩
          have hnullable := nullable_of_chainOptional hchain hroot ho
          obtain ⟨kind, nullable⟩ := t
          cases hkind
          cases hnullable
          rfl

def pairs : Model :=
  .ofTypes [⟨"Order", none, .class,
    [⟨"Pair", .property, "KeyValuePair<int, string>", false, false, .public⟩,
      ⟨"Spare", .property, "KeyValuePair<int, string>?", false, false, .public⟩]⟩]

def twoOrders : Context :=
  ⟨pairs, .empty, [("x", ⟨.named "Order" [] false, false⟩), ("y", ⟨.named "Order" [] false, true⟩)]⟩

/-- `x.Spare.Value.Value?.Trim().Length` -/
def trimmedLength : Expr :=
  .dot (.call (.member (.dot (.dot (.dot (.ident "x") "Spare") "Value") "Value") "Trim" true) [])
    "Length"

theorem infer_chain_eq_asNullable_trimmedLength :
    trimmedLength.chainOptional = true ∧
      (∀ τ, operand? twoOrders trimmedLength.chainRoot ≠ some (.type τ)) ∧
      (∀ a ∈ trimmedLength.chainArgs, a.hasOptionalAccess = false) ∧
      Unaffected twoOrders trimmedLength ∧
      infer? twoOrders trimmedLength = some ⟨.primitive .int, true⟩ ∧
      ∃ u, infer? twoOrders trimmedLength.withoutOptional = some u ∧
        ⟨.primitive .int, true⟩ = u.asNullable := by
  have hroot : ∀ τ, operand? twoOrders trimmedLength.chainRoot ≠ some (.type τ) := by
    intro τ h
    have hvalue : infer? twoOrders trimmedLength.chainRoot = none := by rw [infer?, h]; rfl
    exact absurd hvalue (by decide +kernel)
  have hargs : ∀ a ∈ trimmedLength.chainArgs, a.hasOptionalAccess = false := by decide +kernel
  have hreads : Unaffected twoOrders trimmedLength := by
    refine ⟨⟨⟨⟨alike_of_plain ?_ _, readsAlike_of_plain ?_ _⟩, readsAlike_of_plain ?_ _⟩,
      readsAlike_of_plain ?_ _⟩, fun t u _ _ => readsAlike_of_name ?_ t u _⟩ <;> decide +kernel
  have ht : infer? twoOrders trimmedLength = some ⟨.primitive .int, true⟩ := by decide +kernel
  exact ⟨rfl, hroot, hargs, hreads, ht, infer_chain_eq_asNullable rfl hroot hargs hreads ht⟩

theorem infer_chain_behind_value :
    infer? twoOrders (.dot (.member (.ident "y") "Pair" true) "Value") =
        some ⟨.named "KeyValuePair" [.int, .string] true, true⟩ ∧
      infer? twoOrders (Expr.dot (.member (.ident "y") "Pair" true) "Value").withoutOptional =
        some .string ∧
      infer? twoOrders (.member (.dot (.ident "x") "Spare") "Value" true) =
        some ⟨.primitive .string, true⟩ ∧
      infer? twoOrders (Expr.member (.dot (.ident "x") "Spare") "Value" true).withoutOptional =
        some ⟨.named "KeyValuePair" [.int, .string] true, false⟩ := by
  decide +kernel

end Typing

end Projection
