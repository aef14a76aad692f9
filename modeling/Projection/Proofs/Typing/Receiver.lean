import Projection.Proofs.Typing.Nullable

/-!
Members of the enclosing type, named bare and behind `this`. A bare name is looked for in the
enclosing type itself. Behind `this` only the simple name of that type is left, and what it leads to
may be another type.
-/

namespace Projection.Typing

/-- The simple name of `owner` leads to a member `name` that has the type of `member`: in the type
that is found under it or, if that has no such member, in the base library. -/
def LeadsTo (m : Model) (owner : TypeDecl) (name : String) (member : MemberDecl) : Prop :=
  match declaredMember? m (.named owner.name owner.kind.isValueType) name with
  | some (found, other) => memberType? m found other = memberType? m owner member
  | none =>
      Framework.instanceMember? (.named owner.name owner.kind.isValueType) name =
        memberType? m owner member

theorem leadsTo_of_type? {m : Model} {owner : TypeDecl} {name : String} {member : MemberDecl}
    (hfound : m.type? owner.name = some owner) (hmember : owner.member? name = some member) :
    LeadsTo m owner name member := by
  have hdeclared : declaredMember? m (.named owner.name owner.kind.isValueType) name =
      some (owner, member) := by
    change (m.type? owner.name).bind _ = _
    rw [hfound, Option.bind_some, hmember]
    rfl
  rw [LeadsTo, hdeclared]

/-- A method is no value, and has no type as one. -/
theorem ite_isValue_memberType? (m : Model) (owner : TypeDecl) (member : MemberDecl) :
    (if member.isValue then memberType? m owner member else none) = memberType? m owner member := by
  unfold MemberDecl.isValue memberType?
  cases member.kind <;> rfl

section Enclosing

variable {Γ : Context} {owner : TypeDecl} {name : String} {member : MemberDecl}

theorem infer?_ident_member (howner : Γ.model.enclosing? Γ.scope = some owner)
    (hmember : owner.member? name = some member) (hbound : ∀ b ∈ Γ.bindings, b.1 ≠ name)
    (hlocal : ∀ l ∈ Γ.scope.locals, l.name ≠ name) :
    infer? Γ (.ident name) = memberType? Γ.model owner member := by
  have hunbound : Γ.bindings.lookup name = none := by
    refine List.lookup_eq_none_iff.2 fun b hb => ?_
    simpa using (hbound b hb).symm
  have hfree : Γ.scope.local? name = none := by
    refine List.find?_eq_none.2 fun l hl => ?_
    simpa using hlocal l (List.mem_reverse.1 hl)
  have hsymbol : Γ.model.symbol? Γ.scope name = some (.member owner member) := by
    simp [Model.symbol?, hfree, howner, hmember]
  rw [infer?, operand?, identifier?, hunbound, hsymbol]
  exact bind_value?_map_value _

/-- The receiver is a plain value, so nothing is lifted and no member of a nullable comes first. -/
theorem infer?_this_member (howner : Γ.model.enclosing? Γ.scope = some owner) :
    infer? Γ (.member .this name false) =
      instanceMember? Γ.model (.named owner.name owner.kind.isValueType) name := by
  have hthis : operand? Γ .this = some (.value (.named owner.name owner.kind.isValueType)) := by
    rw [operand?, thisType?, howner]
    rfl
  rw [infer?, operand?, hthis, Option.bind_some, bind_value?_map_value]
  exact congrFun Option.map_id _

/-- Where nothing hides a member of the enclosing type, it has the same type bare and behind `this`
exactly if the simple name of the enclosing type leads to a member of that type, which it does where
it finds the enclosing type. -/
theorem infer?_this_member_eq_iff (howner : Γ.model.enclosing? Γ.scope = some owner)
    (hmember : owner.member? name = some member) (hbound : ∀ b ∈ Γ.bindings, b.1 ≠ name)
    (hlocal : ∀ l ∈ Γ.scope.locals, l.name ≠ name) :
    (infer? Γ (.member .this name false) = infer? Γ (.ident name) ↔
        LeadsTo Γ.model owner name member) ∧
      (Γ.model.type? owner.name = some owner →
        infer? Γ (.member .this name false) = infer? Γ (.ident name)) := by
  have hleads : infer? Γ (.member .this name false) = infer? Γ (.ident name) ↔
      LeadsTo Γ.model owner name member := by
    rw [infer?_ident_member howner hmember hbound hlocal, infer?_this_member howner, LeadsTo]
    change readMember? .. = _ ↔ _
    rw [readMember?]
    cases declaredMember? Γ.model (.named owner.name owner.kind.isValueType) name with
    | some declared => simp only [ite_isValue_memberType?]
    | none => rfl
  exact ⟨hleads, fun hfound => hleads.2 (leadsTo_of_type? hfound hmember)⟩

end Enclosing

theorem infer?_this_member_eq_iff_first :
    let size : MemberDecl := ⟨"Size", .field, "int?", false, false, .private⟩
    let first : TypeDecl := ⟨"Item", some "A", .struct, [size]⟩
    let second : TypeDecl := ⟨"Item", some "B", .class, []⟩
    let Γ : Context := ⟨.ofTypes [first, second], ⟨[], some "A.Item"⟩, [("x", .string)]⟩
    Γ.model.enclosing? Γ.scope = some first ∧ first.member? "Size" = some size ∧
      Γ.model.type? "Item" = some first ∧
      infer? Γ (.member .this "Size" false) = infer? Γ (.ident "Size") ∧
      infer? Γ (.ident "Size") = some TypeRef.int.asNullable := by
  intro size first second Γ
  have howner : Γ.model.enclosing? Γ.scope = some first := by decide
  have hmember : first.member? "Size" = some size := by decide
  have hfound : Γ.model.type? "Item" = some first := by decide
  refine ⟨howner, hmember, hfound, ?_, by decide +kernel⟩
  exact (infer?_this_member_eq_iff howner hmember (by decide) (List.forall_mem_nil _)).2 hfound

theorem infer?_this_member_shadowed :
    let first : TypeDecl := ⟨"Item", some "A", .class,
      [⟨"Size", .property, "int", false, false, .public⟩]⟩
    let second : TypeDecl := ⟨"Item", some "B", .class,
      [⟨"Size", .property, "string", false, false, .public⟩]⟩
    let Γ : Context := ⟨.ofTypes [first, second], ⟨[], some "B.Item"⟩, []⟩
    Γ.model.enclosing? Γ.scope = some second ∧ (second.member? "Size").isSome = true ∧
      infer? Γ (.ident "Size") = some .string ∧
      infer? Γ (.member .this "Size" false) = some .int := by
  decide +kernel

end Projection.Typing
