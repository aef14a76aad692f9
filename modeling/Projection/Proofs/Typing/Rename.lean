import Mathlib.Data.List.Basic
import Projection.Proofs.TypeRef.Rename
import Projection.Proofs.Typing.Inferred

/-!
Inference is blind to the names of variables: with new names in an expression and in its context,
the inferred type has the new names and is the same otherwise. The new names have to be different
for different names, since types are compared together with the member expressions in them.
-/

namespace Projection

open TypeRef

namespace Context

variable (ρ : String → String)

def rename (Γ : Context) : Context :=
  ⟨Γ.model, Γ.scope, Γ.bindings.map fun b => (ρ b.1, b.2.rename ρ)⟩

@[simp] theorem rename_model (Γ : Context) : (Γ.rename ρ).model = Γ.model := rfl

@[simp] theorem rename_scope (Γ : Context) : (Γ.rename ρ).scope = Γ.scope := rfl

@[simp] theorem sourceType_rename (Γ : Context) : (Γ.rename ρ).sourceType = Γ.sourceType := by
  obtain ⟨m, s, bindings⟩ := Γ
  cases bindings with
  | nil => rfl
  | cons b bs => exact simpleName_rename ρ b.2

theorem rename_bindAll (Γ : Context) (names : List String) (types : List TypeRef) :
    (Γ.bindAll names types).rename ρ =
      (Γ.rename ρ).bindAll (names.map ρ) (types.map (TypeRef.rename ρ)) := by
  simp [rename, bindAll, List.zip_map]

theorem lookup_rename {ρ : String → String} (hρ : ρ.Injective) (Γ : Context) (name : String) :
    (Γ.rename ρ).bindings.lookup (ρ name) = (Γ.bindings.lookup name).map (TypeRef.rename ρ) := by
  obtain ⟨m, s, bindings⟩ := Γ
  change (bindings.map fun b => (ρ b.1, b.2.rename ρ)).lookup (ρ name) = _
  induction bindings with
  | nil => rfl
  | cons b bs ih =>
      obtain ⟨n, t⟩ := b
      by_cases h : name = n
      · simp [h]
      · simp [List.lookup_cons, beq_eq_false_iff_ne.2 h, beq_eq_false_iff_ne.2 (hρ.ne h), ih]

end Context

namespace Typing

variable (ρ : String → String)

def Operand.rename : Operand → Operand
  | value t => value (t.rename ρ)
  | type t => type (t.rename ρ)

@[simp] theorem value?_rename (o : Option Operand) :
    (o.map (Operand.rename ρ)).bind Operand.value? =
      (o.bind Operand.value?).map (TypeRef.rename ρ) := by
  cases o with
  | none => rfl
  | some o => cases o <;> rfl

@[simp] theorem map_rename_value (o : Option TypeRef) :
    (o.map Operand.value).map (Operand.rename ρ) = (o.map (TypeRef.rename ρ)).map .value := by
  cases o <;> rfl

@[simp] theorem map_rename_type (o : Option TypeRef) :
    (o.map Operand.type).map (Operand.rename ρ) = (o.map (TypeRef.rename ρ)).map .type := by
  cases o <;> rfl

@[simp] theorem lift_rename (lifted : Bool) (t : TypeRef) :
    lift lifted (t.rename ρ) = (lift lifted t).rename ρ := by
  cases lifted <;> simp [lift]

@[simp] theorem map_rename_literalType? (l : Literal) :
    (literalType? l).map (TypeRef.rename ρ) = literalType? l := by
  cases l <;> rfl

@[simp] theorem widen_rename (l r : TypeRef) :
    widen (l.rename ρ) (r.rename ρ) = (widen l r).rename ρ := by
  simp only [widen, rank?_rename, rename_nullable, rename_withNullable,
    ← apply_ite (TypeRef.rename ρ)]
  exact congrArg (withNullable · _) (apply_ite (TypeRef.rename ρ) _ int _).symm

theorem unify_rename {ρ σ : String → String} (h : ∀ n, σ (ρ n) = n) (t f : TypeRef) :
    unify (t.rename ρ) (f.rename ρ) = (unify t f).rename ρ := by
  have hcompare : (t.rename ρ).nonNullable = (f.rename ρ).nonNullable ↔
      t.nonNullable = f.nonNullable := by
    rw [← rename_nonNullable, ← rename_nonNullable]
    refine ⟨fun heq => ?_, congrArg _⟩
    rw [← rename_rename ρ h t.nonNullable, heq, rename_rename ρ h]
  simp only [unify, hcompare, rank?_rename, rename_nullable, widen_rename]
  split
  · simp
  · split <;> rfl

theorem conditionalType?_rename {ρ σ : String → String} (h : ∀ n, σ (ρ n) = n)
    (t f : Option TypeRef) (tNull fNull : Bool) :
    conditionalType? (t.map (TypeRef.rename ρ)) (f.map (TypeRef.rename ρ)) tNull fNull =
      (conditionalType? t f tNull fNull).map (TypeRef.rename ρ) := by
  unfold conditionalType?
  split
  · cases f <;> simp
  · split
    · cases t <;> simp
    · cases t <;> cases f <;> simp [unify_rename h]

@[simp] theorem coalesceType?_rename (l r : Option TypeRef) (rNull : Bool) :
    coalesceType? (l.map (TypeRef.rename ρ)) (r.map (TypeRef.rename ρ)) rNull =
      (coalesceType? l r rNull).map (TypeRef.rename ρ) := by
  unfold coalesceType?
  split
  · rfl
  · cases l <;> cases r <;> simp

@[simp] theorem isDate_rename (t : TypeRef) : isDate (t.rename ρ) = isDate t := by
  simp [isDate]

@[simp] theorem arithmeticType?_rename (op : BinaryOp) (l r : TypeRef) :
    arithmeticType? op (l.rename ρ) (r.rename ρ) =
      (arithmeticType? op l r).map (TypeRef.rename ρ) := by
  simp only [arithmeticType?, isPrimitive_rename, isDate_rename, rename_nullable,
    primitive?_rename, widen_rename]
  split
  · rfl
  · split
    · split
      · rfl
      · split <;> rfl
    · split
      · rfl
      · split <;> rfl

@[simp] theorem halfKnown?_rename (op : BinaryOp) (t : TypeRef) :
    halfKnown? op (t.rename ρ) = (halfKnown? op t).map (TypeRef.rename ρ) := by
  simp only [halfKnown?, isPrimitive_rename]
  split <;> rfl

@[simp] theorem binaryType?_rename (op : BinaryOp) (l r : Option TypeRef) (rNull : Bool) :
    binaryType? op (l.map (TypeRef.rename ρ)) (r.map (TypeRef.rename ρ)) rNull =
      (binaryType? op l r rNull).map (TypeRef.rename ρ) := by
  unfold binaryType?
  split
  · rfl
  · split
    · exact coalesceType?_rename ρ l r rNull
    · cases l <;> cases r <;> simp

theorem lookup_elementResults_rename (method : String) (element : TypeRef) :
    (elementResults.lookup method).map (· (element.rename ρ)) =
      ((elementResults.lookup method).map (· element)).map (TypeRef.rename ρ) := by
  have hdefault : elementResults.orDefault (element.rename ρ) =
      (elementResults.orDefault element).rename ρ := by
    simp only [elementResults.orDefault, isValueType_rename, apply_ite (TypeRef.rename ρ),
      rename_asNullable]
  have hall : ∀ entry ∈ elementResults,
      entry.2 (element.rename ρ) = (entry.2 element).rename ρ := by
    simp only [elementResults, List.forall_mem_cons]
    exact ⟨rfl, rfl, rfl, rfl, rfl, rfl, rfl, rfl, rfl, hdefault, hdefault, hdefault, hdefault, rfl,
      rfl, rfl, rfl, rfl, rfl, by simp⟩
  cases h : elementResults.lookup method with
  | none => rfl
  | some f => exact congrArg some (hall (method, f) (mem_of_lookup h))

@[simp] theorem averageType_rename (t : TypeRef) :
    averageType (t.rename ρ) = (averageType t).rename ρ := by
  simp only [averageType, primitive?_rename, rename_nullable, rename_withNullable]
  congr 1
  split <;> rfl

theorem sequenceCall?_rename {select select' : TypeRef → Option TypeRef}
    (h : ∀ t, select' (t.rename ρ) = (select t).map (TypeRef.rename ρ)) (receiver : TypeRef)
    (method : String) (hasArgs : Bool) :
    sequenceCall? (receiver.rename ρ) method hasArgs select' =
      (sequenceCall? receiver method hasArgs select).map (TypeRef.rename ρ) := by
  unfold sequenceCall?
  rw [element?_rename, isQueryable_rename]
  cases receiver.element? with
  | none => rfl
  | some element =>
      have hchosen : (if hasArgs then (select element).map (TypeRef.rename ρ)
          else some (element.rename ρ)) =
          (if hasArgs then select element else some element).map (TypeRef.rename ρ) := by
        cases hasArgs <;> rfl
      simp only [Option.map_some, h, hchosen]
      split
      · cases select element <;> simp
      · split
        · cases select element with
          | none => rfl
          | some t => cases ht : t.element? <;> simp [ht]
        · split
          · rfl
          · split
            · cases (if hasArgs then select element else some element) <;> simp
            · split
              · rfl
              · split
                · cases hasArgs <;> simp
                · exact lookup_elementResults_rename ρ method element

@[simp] theorem map_rename_memberType? (m : Model) (owner : TypeDecl) (member : MemberDecl) :
    (memberType? m owner member).map (TypeRef.rename ρ) = memberType? m owner member := by
  unfold memberType?
  split <;> simp

@[simp] theorem declaration?_rename (m : Model) (t : TypeRef) :
    declaration? m (t.rename ρ) = declaration? m t := by
  obtain ⟨kind, n⟩ := t
  cases kind <;> simp [declaration?]

theorem readMember?_rename (m : Model) (t : TypeRef) (name : String) (library : Option TypeRef) :
    readMember? m (t.rename ρ) name (library.map (TypeRef.rename ρ)) =
      (readMember? m t name library).map (TypeRef.rename ρ) := by
  simp only [readMember?, declaredMember?, declaration?_rename]
  split
  · split <;> simp
  · rfl

@[simp] theorem staticMember?_rename (m : Model) (t : TypeRef) (name : String) :
    staticMember? m (t.rename ρ) name = (staticMember? m t name).map (TypeRef.rename ρ) := by
  rw [staticMember?, Framework.staticMember?_rename, readMember?_rename]
  rfl

@[simp] theorem instanceMember?_rename (m : Model) (t : TypeRef) (name : String) :
    instanceMember? m (t.rename ρ) name = (instanceMember? m t name).map (TypeRef.rename ρ) := by
  have hread : readMember? m (t.rename ρ) name (Framework.instanceMember? (t.rename ρ) name) =
      (readMember? m t name (Framework.instanceMember? t name)).map (TypeRef.rename ρ) := by
    rw [Framework.instanceMember?_rename, readMember?_rename]
  obtain ⟨kind, n⟩ := t
  cases kind with
  | anonymous type =>
      simp only [instanceMember?, rename_kind, renameKind_anonymous, AnonymousType.member?,
        AnonymousType.rename, List.find?_map]
      change ((type.members.find? (·.name == name)).map (·.rename ρ)).bind (·.type) = _
      cases type.members.find? (·.name == name) <;> rfl
  | _ => simpa [instanceMember?] using hread

@[simp] theorem valueMember?_rename (m : Model) (t : TypeRef) (name : String) (optional : Bool) :
    valueMember? m (t.rename ρ) name optional =
      (valueMember? m t name optional).map (TypeRef.rename ρ) := by
  simp only [valueMember?, isNullableValue_rename, ← rename_nonNullable, instanceMember?_rename,
    Framework.instanceMember?_rename]
  split
  · cases Framework.instanceMember? t name <;> simp
  · rfl

@[simp] theorem memberAccess?_rename (m : Model) (receiver : Operand) (name : String)
    (optional lifted : Bool) :
    memberAccess? m (receiver.rename ρ) name optional lifted =
      (memberAccess? m receiver name optional lifted).map (TypeRef.rename ρ) := by
  cases receiver with
  | type t => exact staticMember?_rename ρ m t name
  | value t =>
      simp only [Operand.rename, memberAccess?, valueMember?_rename]
      cases valueMember? m t name optional <;> simp

theorem map_rename_thisType? (Γ : Context) :
    (thisType? Γ).map (TypeRef.rename ρ) = thisType? (Γ.rename ρ) := by
  simp only [thisType?, Context.rename_model, Context.rename_scope]
  cases Γ.model.enclosing? Γ.scope <;> rfl

theorem map_rename_ownCall? (Γ : Context) (name : String) :
    (ownCall? Γ name).map (TypeRef.rename ρ) = ownCall? (Γ.rename ρ) name := by
  simp only [ownCall?, Context.rename_model, Context.rename_scope]
  split
  · rfl
  · cases (Γ.model.enclosing? Γ.scope).bind (·.method? name) <;> simp

@[simp] theorem staticCall?_rename (m : Model) (t : TypeRef) (name : String)
    (call : Framework.Call) :
    staticCall? m (t.rename ρ) name (call.rename ρ) =
      (staticCall? m t name call).map (TypeRef.rename ρ) := by
  simp only [staticCall?, declaredMethod?, declaration?_rename]
  split
  · simp
  · exact Framework.staticCall?_rename ρ t name call

@[simp] theorem instanceCall?_rename (m : Model) (t : TypeRef) (name : String) :
    instanceCall? m (t.rename ρ) name = (instanceCall? m t name).map (TypeRef.rename ρ) := by
  simp only [instanceCall?, declaredMethod?, declaration?_rename]
  split
  · simp
  · exact Framework.instanceCall?_rename ρ t name

@[simp] theorem unaryType_rename (op : UnaryOp) (t : TypeRef) :
    unaryType op (t.rename ρ) = (unaryType op t).rename ρ := by
  cases op <;> simp [unaryType]

end Typing

/-- The name stands for nothing that is declared. -/
def Unresolved (m : Model) (s : Scope) (name : String) : Prop :=
  m.symbol? s name = none ∧ Framework.type? name = none

instance (m : Model) (s : Scope) (name : String) : Decidable (Unresolved m s name) :=
  inferInstanceAs (Decidable (_ ∧ _))

def Context.Settled (Γ : Context) (ρ : String → String) (name : String) : Prop :=
  name ∈ Γ.bindings.map (·.1) ∨ ρ name = name ∨
    (Unresolved Γ.model Γ.scope name ∧ Unresolved Γ.model Γ.scope (ρ name))

namespace Typing

theorem identifier?_rename {ρ : String → String} (hρ : ρ.Injective) {Γ : Context} {name : String}
    (h : Γ.Settled ρ name) :
    identifier? (Γ.rename ρ) (ρ name) = (identifier? Γ name).map (Operand.rename ρ) := by
  unfold identifier?
  rw [Context.lookup_rename hρ]
  cases hb : Γ.bindings.lookup name with
  | some t => rfl
  | none =>
      simp only [Option.map_none, Context.rename_model, Context.rename_scope]
      rcases h with h | h | ⟨h, h'⟩
      · obtain ⟨b, hmem, rfl⟩ := List.mem_map.1 h
        simpa using List.lookup_eq_none_iff.1 hb b hmem
      · rw [h]
        split
        · rw [map_rename_value, map_rename_parse?]
        · rw [map_rename_value, map_rename_memberType?]
        · rfl
        · rw [map_rename_type, Framework.map_rename_type?]
      · simp [h.1, h.2, h'.1, h'.2]

end Typing

/-- What inference needs to be blind to new names: that each name which it looks up keeps standing
for what it stands for, and that names which are more than variables stay. -/
structure Context.Renames (Γ : Context) (ρ : String → String) (e : Expr) : Prop where
  settled : ∀ n ∈ e.loose (·.take 2), Γ.Settled ρ n
  labels : ∀ n ∈ e.labels, ρ n = n

namespace Context.Renames

open Projection.Expr

variable {Γ : Context} {ρ : String → String} {c e : Expr}

theorem child (h : Γ.Renames ρ e) (he : e.ownParameters = []) (hc : c ∈ e.children) :
    Γ.Renames ρ c where
  settled n hn := h.settled n (mem_loose.2 (.inr ⟨⟨c, hc, hn⟩, by simp [he]⟩))
  labels n hn := h.labels n (labels_subset_of_child hc hn)

theorem unparen (h : Γ.Renames ρ e) : Γ.Renames ρ e.unparen where
  settled n hn := h.settled n (mem_loose_of_unparen rfl hn)
  labels n hn := h.labels n (labels_unparen_subset e hn)

theorem withoutOptional (h : Γ.Renames ρ e) : Γ.Renames ρ e.withoutOptional where
  settled n hn := h.settled n (loose_withoutOptional e ▸ hn)
  labels n hn := h.labels n (labels_withoutOptional e ▸ hn)

/-- Inference binds the first two parameters of a lambda. -/
theorem body {params : List String} {b : Expr} (h : Γ.Renames ρ (.lambda params b))
    (element index : TypeRef) : (Γ.bindAll params [element, index]).Renames ρ b where
  settled n hn := by
    have hbound : ((Γ.bindAll params [element, index]).bindings.map (·.1)) =
        (params.take 2).reverse ++ Γ.bindings.map (·.1) := by
      rw [bindAll, List.map_append, List.map_reverse]
      rcases params with _ | ⟨p, _ | ⟨q, ps⟩⟩ <;> simp
    unfold Settled
    rw [hbound, List.mem_append, List.mem_reverse, or_assoc]
    by_cases hp : n ∈ params.take 2
    · exact .inl hp
    · exact .inr (h.settled n (mem_loose.2 (.inr ⟨⟨b, by simp [children], hn⟩, hp⟩)))
  labels n hn := h.labels n (labels_subset_of_child (by simp [children]) hn)

end Context.Renames

namespace Typing

open Projection.Expr

theorem operand?_anonymous (Γ : Context) (members : List Initializer) :
    operand? Γ (.anonymous members) = some (.value (.anonymous (anonymousType Γ members))) := by
  obtain ⟨o, ho, hv⟩ := Option.bind_eq_some_iff.1 (infer?_anonymous Γ members)
  cases o with
  | type t => cases hv
  | value t =>
      cases hv
      exact ho

def selected? (Γ : Context) (args : List Expr) (element : TypeRef) : Option TypeRef :=
  args.head?.bind (lambdaResult? Γ · [element, .int])

theorem operand?_invoke_member {Γ : Context} {target receiver : Expr} {name : String} {o : Bool}
    (hu : target.unparen = .member receiver name o) (typeArgs : List TypeExpr)
    (args : List Expr) :
    operand? Γ (.invoke target typeArgs args) =
      match operand? Γ receiver with
      | none => none
      | some (.type t) =>
          (staticCall? Γ.model t name
            ⟨typeArgs.map (TypeRef.ofExpr Γ.model), args.map (infer? Γ)⟩).map .value
      | some (.value t) =>
          ((sequenceCall? t.nonNullable name (!args.isEmpty) (selected? Γ args)).or
            (instanceCall? Γ.model t.nonNullable name)).map fun result =>
              .value (lift (chainOptional (.invoke target typeArgs args)) result) := by
  rw [operand?]
  split
  · rename_i h
    rw [hu] at h
    cases h
    cases operand? Γ receiver with
    | none => rfl
    | some receiver =>
        cases receiver with
        | type t =>
            have hargs : (args.attach.map fun a => (operand? Γ a.1).bind Operand.value?) =
                args.map (infer? Γ) := by
              conv => rhs; rw [← List.attach_map_subtype_val args, List.map_map]
              rfl
            exact congrArg (fun as => (staticCall? Γ.model t name ⟨_, as⟩).map Operand.value) hargs
        | value t =>
            refine congrArg (fun f => ((sequenceCall? t.nonNullable name (!args.isEmpty) f).or
              (instanceCall? Γ.model t.nonNullable name)).map fun result =>
                Operand.value (lift _ result)) ?_
            funext element
            cases args with
            | nil => rfl
            | cons arg more =>
                dsimp only [selected?, List.head?_cons, Option.bind_some, lambdaResult?]
                split
                · rename_i params body hl
                  rw [hl]
                  rfl
                · rename_i hl
                  split
                  · rename_i h
                    exact (hl _ _ h).elim
                  · rfl
  · rename_i h
    rw [hu] at h
    cases h
  · rename_i h _
    exact absurd hu (h _ _ _)

theorem operand?_invoke_ident {Γ : Context} {target : Expr} {name : String}
    (hu : target.unparen = .ident name) (typeArgs : List TypeExpr) (args : List Expr) :
    operand? Γ (.invoke target typeArgs args) = (ownCall? Γ name).map .value := by
  rw [operand?]
  split
  · rename_i h
    rw [hu] at h
    cases h
  · rename_i h
    rw [hu] at h
    cases h
    rfl
  · rename_i h
    exact absurd hu (h _)

theorem operand?_invoke_other {Γ : Context} {target : Expr}
    (hm : ∀ receiver name o, target.unparen ≠ .member receiver name o)
    (hi : ∀ name, target.unparen ≠ .ident name) (typeArgs : List TypeExpr) (args : List Expr) :
    operand? Γ (.invoke target typeArgs args) = none := by
  rw [operand?]
  split
  · rename_i h
    exact absurd h (hm _ _ _)
  · rename_i h
    exact absurd h (hi _)
  · rfl

/-- A member keeps its name unless it takes it from a variable that gets another one. -/
theorem effectiveName?_rename {ρ : String → String} {m : Initializer}
    (h : m.name = none → ∀ n ∈ m.value.unparen.ownVariable, ρ n = n) :
    Initializer.effectiveName? ⟨m.name, m.value.rename ρ⟩ = m.effectiveName? := by
  obtain ⟨name, value⟩ := m
  cases name with
  | some name => rfl
  | none =>
      have hvariable := h rfl
      simp only [Initializer.effectiveName?, impliedName?, unparen_rename]
      cases hu : value.unparen with
      | ident n =>
          rw [hu] at hvariable
          rw [rename_ident, hvariable n List.mem_cons_self]
      | _ => simp

theorem anonymousMember?_rename {ρ : String → String} {Γ : Context} {m : Initializer}
    (hname : m.name = none → ∀ n ∈ m.value.unparen.ownVariable, ρ n = n)
    (hvalue : infer? (Γ.rename ρ) (m.value.rename ρ) = (infer? Γ m.value).map (TypeRef.rename ρ))
    (hplain : infer? (Γ.rename ρ) (m.value.withoutOptional.rename ρ) =
      (infer? Γ m.value.withoutOptional).map (TypeRef.rename ρ)) :
    anonymousMember? (Γ.rename ρ) ⟨m.name, m.value.rename ρ⟩ =
      (anonymousMember? Γ m).map (·.rename ρ) := by
  have hchain : chainOnly (Γ.rename ρ) (m.value.rename ρ) = chainOnly Γ m.value := by
    simp only [chainOnly, hvalue, withoutOptional_rename, hplain, hasOptionalAccess_rename,
      Option.any_map, rename_nullable]
  simp only [anonymousMember?, effectiveName?_rename hname, hvalue, hchain]
  cases m.effectiveName? <;> rfl

theorem anonymousType_rename {ρ : String → String} {Γ : Context} {members : List Initializer}
    (h : ∀ m ∈ members, anonymousMember? (Γ.rename ρ) ⟨m.name, m.value.rename ρ⟩ =
      (anonymousMember? Γ m).map (·.rename ρ)) :
    anonymousType (Γ.rename ρ) (renameInitializers ρ members) =
      (anonymousType Γ members).rename ρ := by
  have hmembers : (renameInitializers ρ members).filterMap (anonymousMember? (Γ.rename ρ)) =
      (members.filterMap (anonymousMember? Γ)).map (·.rename ρ) := by
    rw [renameInitializers, List.filterMap_map, List.map_filterMap]
    exact List.filterMap_congr h
  rw [anonymousType, hmembers, Context.sourceType_rename]
  rfl

theorem lambdaResult?_rename {ρ : String → String} {Γ : Context} {arg : Expr} {element : TypeRef}
    (h : ∀ params body, arg.unparen = .lambda params body →
      infer? ((Γ.bindAll params [element, .int]).rename ρ) (body.rename ρ) =
        (infer? (Γ.bindAll params [element, .int]) body).map (TypeRef.rename ρ)) :
    lambdaResult? (Γ.rename ρ) (arg.rename ρ) [element.rename ρ, .int] =
      (lambdaResult? Γ arg [element, .int]).map (TypeRef.rename ρ) := by
  unfold lambdaResult?
  rw [unparen_rename]
  cases hu : arg.unparen with
  | lambda params body =>
      have hbody := h params body hu
      rw [Context.rename_bindAll] at hbody
      rw [rename_lambda]
      exact hbody
  | _ => simp

/-- A call on a receiver, from its receiver and its arguments. -/
theorem operand?_call_rename {ρ : String → String} {Γ : Context} {target receiver : Expr}
    {name : String} {o : Bool} (hu : target.unparen = .member receiver name o)
    (typeArgs : List TypeExpr) {args : List Expr}
    (hreceiver : operand? (Γ.rename ρ) (receiver.rename ρ) =
      (operand? Γ receiver).map (Operand.rename ρ))
    (hargs : ∀ a ∈ args, infer? (Γ.rename ρ) (a.rename ρ) = (infer? Γ a).map (TypeRef.rename ρ))
    (hselect : ∀ t, selected? (Γ.rename ρ) (args.map (Expr.rename ρ)) (t.rename ρ) =
      (selected? Γ args t).map (TypeRef.rename ρ)) :
    operand? (Γ.rename ρ) ((Expr.invoke target typeArgs args).rename ρ) =
      (operand? Γ (.invoke target typeArgs args)).map (Operand.rename ρ) := by
  have hu' : (target.rename ρ).unparen = .member (receiver.rename ρ) name o := by
    rw [unparen_rename, hu, rename_member]
  have hchain := chainOptional_rename ρ (.invoke target typeArgs args)
  rw [rename_invoke] at hchain ⊢
  rw [operand?_invoke_member hu', operand?_invoke_member hu, hreceiver, hchain]
  cases operand? Γ receiver with
  | none => rfl
  | some receiver =>
      cases receiver with
      | type t =>
          have hcall : Framework.Call.mk (typeArgs.map (ofExpr Γ.model))
                ((args.map (Expr.rename ρ)).map (infer? (Γ.rename ρ))) =
              (Framework.Call.mk (typeArgs.map (ofExpr Γ.model))
                (args.map (infer? Γ))).rename ρ := by
            simp only [Framework.Call.rename, List.map_map]
            congr 1
            · exact List.map_congr_left fun t _ => (rename_ofExpr ρ Γ.model t).symm
            · exact List.map_congr_left hargs
          simp only [Option.map_some, Operand.rename, Context.rename_model]
          rw [hcall, staticCall?_rename, map_rename_value]
      | value t =>
          simp only [Option.map_some, Operand.rename, Context.rename_model, List.isEmpty_map,
            ← rename_nonNullable, sequenceCall?_rename ρ hselect, instanceCall?_rename]
          cases sequenceCall? t.nonNullable name (!args.isEmpty) (selected? Γ args) with
          | some result => exact congrArg (some ∘ Operand.value) (lift_rename ρ _ result)
          | none =>
              cases instanceCall? Γ.model t.nonNullable name with
              | none => rfl
              | some result => exact congrArg (some ∘ Operand.value) (lift_rename ρ _ result)

theorem operand?_rename {ρ σ : String → String} (hσ : ∀ n, σ (ρ n) = n) {Γ : Context} {e : Expr}
    (h : Γ.Renames ρ e) :
    operand? (Γ.rename ρ) (e.rename ρ) = (operand? Γ e).map (Operand.rename ρ) := by
  have hρ : ρ.Injective := Function.LeftInverse.injective hσ
  induction hn : e.size using Nat.strongRecOn generalizing Γ e with
  | ind n ih =>
      subst hn
      have operand {c : Expr} (he : e.ownParameters = []) (hc : c ∈ e.children) :
          operand? (Γ.rename ρ) (c.rename ρ) = (operand? Γ c).map (Operand.rename ρ) :=
        ih _ (size_lt_of_mem_children hc) (h.child he hc) rfl
      cases e with
      | ident name =>
          rw [rename_ident, operand?, operand?]
          exact identifier?_rename hρ (h.settled name (mem_loose.2 (.inl List.mem_cons_self)))
      | this =>
          rw [rename_this, operand?, operand?, map_rename_value, map_rename_thisType?]
      | literal l =>
          rw [rename_literal, operand?, operand?, map_rename_value, map_rename_literalType?]
      | paren inner =>
          rw [rename_paren, operand?, operand?]
          exact operand rfl (by simp [children])
      | marked note inner =>
          rw [rename_marked, operand?, operand?]
          exact operand rfl (by simp [children])
      | member target name optional =>
          have hchain := chainOptional_rename ρ (.member target name optional)
          rw [rename_member] at hchain ⊢
          rw [operand?, operand?, operand rfl (by simp [children]), hchain]
          cases operand? Γ target with
          | none => rfl
          | some receiver =>
              simp only [Option.map_some, Option.bind_some, Context.rename_model,
                memberAccess?_rename, map_rename_value]
      | index target args optional =>
          have hchain := chainOptional_rename ρ (.index target args optional)
          rw [rename_index] at hchain ⊢
          rw [operand?, operand?, operand rfl (by simp [children]), hchain, value?_rename]
          cases (operand? Γ target).bind Operand.value? with
          | none => rfl
          | some receiver =>
              simp only [Option.map_some, Option.bind_some, ← rename_nonNullable,
                Framework.indexed?_rename]
              cases Framework.indexed? receiver.nonNullable with
              | none => rfl
              | some element => exact congrArg (some ∘ Operand.value) (lift_rename ρ _ element)
      | invoke target typeArgs args =>
          have htarget := (h.child rfl (show target ∈ _ by simp [children])).unparen
          have hsmaller := Nat.lt_of_le_of_lt (size_unparen_le target)
            (size_lt_of_mem_children (show target ∈ (invoke target typeArgs args).children by
              simp [children]))
          cases hu : target.unparen with
          | member receiver name o =>
              rw [hu] at htarget hsmaller
              refine operand?_call_rename hu typeArgs ?_ (fun a ha => ?_) fun element => ?_
              · exact ih _ (Nat.lt_trans (size_lt_of_mem_children (by simp [children])) hsmaller)
                  (htarget.child rfl (by simp [children])) rfl
              · rw [infer?, operand rfl (List.mem_cons_of_mem _ ha), value?_rename]
                rfl
              · cases args with
                | nil => rfl
                | cons arg more =>
                    refine lambdaResult?_rename fun params body hl => ?_
                    have harg := (h.child rfl (show arg ∈ _ by simp [children])).unparen
                    have hbody : body ∈ arg.unparen.children := by simp [hl, children]
                    have hsize := Nat.lt_of_lt_of_le (size_lt_of_mem_children hbody)
                      (size_unparen_le arg)
                    rw [hl] at harg
                    rw [infer?, ih _ (Nat.lt_trans hsize (size_lt_of_mem_children
                      (by simp [children]))) (harg.body element .int) rfl, value?_rename]
                    rfl
          | ident name =>
              have hu' : (target.rename ρ).unparen = .ident name := by
                rw [unparen_rename, hu, rename_ident, h.labels name]
                exact ownLabels_subset _ (by simp [ownLabels, hu, ownVariable])
              rw [rename_invoke, operand?_invoke_ident hu', operand?_invoke_ident hu,
                map_rename_value, map_rename_ownCall?]
          | _ =>
              rw [rename_invoke, operand?_invoke_other, operand?_invoke_other]
              all_goals simp [hu]
      | lambda params body => rw [rename_lambda, operand?, operand?, Option.map_none]
      | anonymous members =>
          have hmembers : anonymousType (Γ.rename ρ) (renameInitializers ρ members) =
              (anonymousType Γ members).rename ρ := by
            refine anonymousType_rename fun m hm => ?_
            have hm' : m.value ∈ (Expr.anonymous members).children := List.mem_map.2 ⟨m, hm, rfl⟩
            refine anonymousMember?_rename (fun hname n hn => ?_) ?_ ?_
            · refine h.labels n (ownLabels_subset _ (List.mem_flatMap.2 ⟨m, hm, ?_⟩))
              rwa [if_pos hname]
            · rw [infer?, operand rfl hm', value?_rename]
              rfl
            · rw [infer?, ih _ (by rw [size_withoutOptional]; exact size_lt_of_mem_children hm')
                (h.child rfl hm').withoutOptional rfl, value?_rename]
              rfl
          rw [Expr.rename_anonymous, operand?_anonymous, operand?_anonymous, hmembers]
          exact congrArg (some ∘ Operand.value) (TypeRef.rename_anonymous ρ _).symm
      | creation t as ms =>
          rw [rename_creation, operand?, operand?]
          exact congrArg (some ∘ Operand.value) (rename_ofExpr ρ Γ.model t).symm
      | cast t inner =>
          rw [rename_cast, operand?, operand?]
          exact congrArg (some ∘ Operand.value) (rename_ofExpr ρ Γ.model t).symm
      | defaultValue t =>
          rw [rename_defaultValue]
          cases t with
          | none => rw [operand?, operand?, Option.map_none]
          | some t =>
              rw [operand?, operand?]
              exact congrArg (some ∘ Operand.value) (rename_ofExpr ρ Γ.model t).symm
      | conditional c t f =>
          rw [rename_conditional, operand?, operand?, operand rfl (by simp [children]),
            operand rfl (by simp [children]), value?_rename, value?_rename, isNull_rename,
            isNull_rename, conditionalType?_rename hσ, map_rename_value]
      | binary op l r =>
          rw [rename_binary, operand?, operand?, operand rfl (by simp [children]),
            operand rfl (by simp [children]), value?_rename, value?_rename, isNull_rename,
            binaryType?_rename, map_rename_value]
      | unary op inner =>
          rw [rename_unary, operand?, operand?, operand rfl (by simp [children]), value?_rename]
          cases (operand? Γ inner).bind Operand.value? with
          | none => rfl
          | some t => exact congrArg (some ∘ Operand.value) (unaryType_rename ρ op t)
      | interpolated parts => 
          rw [rename_interpolated, operand?, operand?]
          rfl

end Typing

end Projection
