import Projection.Proofs.Expr.Rename
import Projection.TypeRef.Resolve

/-!
New names for the variables in the member expressions of anonymous types. All else about a type is
blind to it, and so are the tables of the base library.
-/

namespace Projection.TypeRef

variable (ρ : String → String)

mutual

def rename : TypeRef → TypeRef
  | ⟨kind, nullable⟩ => ⟨renameKind kind, nullable⟩

def renameKind : TypeKind → TypeKind
  | .primitive p => .primitive p
  | .named name args v => .named name (renameAll args) v
  | .array element => .array (rename element)
  | .anonymous ⟨sourceType, members⟩ => .anonymous ⟨sourceType, renameMembers members⟩
  | .generated id => .generated id

def renameAll : List TypeRef → List TypeRef
  | [] => []
  | t :: ts => rename t :: renameAll ts

def renameMembers : List AnonymousMember → List AnonymousMember
  | [] => []
  | ⟨name, e, none, chainOnly⟩ :: ms => ⟨name, e.rename ρ, none, chainOnly⟩ :: renameMembers ms
  | ⟨name, e, some t, chainOnly⟩ :: ms =>
      ⟨name, e.rename ρ, some (rename t), chainOnly⟩ :: renameMembers ms

end

@[simp] theorem renameAll_eq (ts : List TypeRef) : renameAll ρ ts = ts.map (rename ρ) := by
  induction ts <;> simp_all [renameAll]

end Projection.TypeRef

namespace Projection

def AnonymousMember.rename (ρ : String → String) (m : AnonymousMember) : AnonymousMember :=
  ⟨m.name, m.expr.rename ρ, m.type.map (TypeRef.rename ρ), m.chainOnly⟩

def AnonymousType.rename (ρ : String → String) (t : AnonymousType) : AnonymousType :=
  ⟨t.sourceType, t.members.map (·.rename ρ)⟩

end Projection

namespace Projection.TypeRef

variable (ρ : String → String)

theorem renameMembers_eq (ms : List AnonymousMember) :
    renameMembers ρ ms = ms.map (·.rename ρ) := by
  induction ms with
  | nil => rfl
  | cons m ms ih =>
      obtain ⟨name, e, t, c⟩ := m
      cases t <;> simp [renameMembers, ih, AnonymousMember.rename]

@[simp] theorem renameKind_primitive (p : Primitive) :
    renameKind ρ (.primitive p) = .primitive p := rfl

@[simp] theorem renameKind_named (name : String) (args : List TypeRef) (v : Bool) :
    renameKind ρ (.named name args v) = .named name (args.map (rename ρ)) v := by
  rw [renameKind, renameAll_eq]

@[simp] theorem renameKind_array (element : TypeRef) :
    renameKind ρ (.array element) = .array (element.rename ρ) := rfl

@[simp] theorem renameKind_anonymous (type : AnonymousType) :
    renameKind ρ (.anonymous type) = .anonymous (type.rename ρ) := by
  obtain ⟨s, ms⟩ := type
  rw [renameKind, renameMembers_eq, AnonymousType.rename]

mutual

/-- Taking the new names back. -/
theorem rename_rename {σ : String → String} (h : ∀ n, σ (ρ n) = n) (t : TypeRef) :
    (t.rename ρ).rename σ = t := by
  obtain ⟨kind, n⟩ := t
  rw [rename, rename, renameKind_renameKind h kind]

theorem renameKind_renameKind {σ : String → String} (h : ∀ n, σ (ρ n) = n) (kind : TypeKind) :
    renameKind σ (renameKind ρ kind) = kind := by
  match kind with
  | .primitive p => rfl
  | .named name args v => rw [renameKind, renameKind, renameAll_renameAll h args]
  | .array element => rw [renameKind, renameKind, rename_rename h element]
  | .anonymous ⟨s, ms⟩ => rw [renameKind, renameKind, renameMembers_renameMembers h ms]
  | .generated id => rfl

theorem renameAll_renameAll {σ : String → String} (h : ∀ n, σ (ρ n) = n) (ts : List TypeRef) :
    renameAll σ (renameAll ρ ts) = ts := by
  match ts with
  | [] => rfl
  | t :: ts => rw [renameAll, renameAll, rename_rename h t, renameAll_renameAll h ts]

theorem renameMembers_renameMembers {σ : String → String} (h : ∀ n, σ (ρ n) = n)
    (ms : List AnonymousMember) : renameMembers σ (renameMembers ρ ms) = ms := by
  match ms with
  | [] => rfl
  | ⟨name, e, none, c⟩ :: ms =>
      rw [renameMembers, renameMembers, renameMembers_renameMembers h ms,
        Expr.rename_rename ρ h e]
  | ⟨name, e, some t, c⟩ :: ms =>
      rw [renameMembers, renameMembers, renameMembers_renameMembers h ms,
        Expr.rename_rename ρ h e, rename_rename h t]

end

@[simp] theorem renameKind_generated (id : StructuralId) :
    renameKind ρ (.generated id) = .generated id := rfl

@[simp] theorem rename_kind (t : TypeRef) : (t.rename ρ).kind = renameKind ρ t.kind := by
  cases t
  rfl

@[simp] theorem rename_nullable (t : TypeRef) : (t.rename ρ).nullable = t.nullable := by
  cases t
  rfl

@[simp] theorem rename_withNullable (t : TypeRef) (n : Bool) :
    (t.withNullable n).rename ρ = (t.rename ρ).withNullable n := by
  cases t
  rfl

@[simp] theorem rename_asNullable (t : TypeRef) : t.asNullable.rename ρ = (t.rename ρ).asNullable :=
  rename_withNullable ρ t true

@[simp] theorem rename_nonNullable (t : TypeRef) :
    t.nonNullable.rename ρ = (t.rename ρ).nonNullable :=
  rename_withNullable ρ t false

@[simp] theorem rename_primitive (p : Primitive) : (primitive p).rename ρ = primitive p := rfl

@[simp] theorem rename_bool : bool.rename ρ = bool := rfl

@[simp] theorem rename_int : int.rename ρ = int := rfl

@[simp] theorem rename_string : string.rename ρ = string := rfl

@[simp] theorem rename_named (name : String) (v : Bool) : (named name v).rename ρ = named name v :=
  rfl

@[simp] theorem rename_sequence (name : String) (element : TypeRef) :
    (sequence name element).rename ρ = sequence name (element.rename ρ) := rfl

@[simp] theorem rename_array (element : TypeRef) :
    (array element).rename ρ = array (element.rename ρ) := rfl

theorem rename_anonymous (type : AnonymousType) :
    (anonymous type).rename ρ = anonymous (type.rename ρ) := by
  rw [anonymous, rename, renameKind_anonymous]
  rfl

@[simp] theorem primitive?_rename (t : TypeRef) : (t.rename ρ).primitive? = t.primitive? := by
  obtain ⟨kind, n⟩ := t
  cases kind <;> simp [primitive?]

@[simp] theorem isPrimitive_rename (t : TypeRef) (p : Primitive) :
    (t.rename ρ).isPrimitive p = t.isPrimitive p := by
  simp [isPrimitive]

@[simp] theorem rank?_rename (t : TypeRef) : (t.rename ρ).rank? = t.rank? := by
  simp [rank?]

@[simp] theorem isValueType_rename (t : TypeRef) : (t.rename ρ).isValueType = t.isValueType := by
  obtain ⟨kind, n⟩ := t
  cases kind <;> simp [isValueType]

@[simp] theorem isNullableValue_rename (t : TypeRef) :
    (t.rename ρ).isNullableValue = t.isNullableValue := by
  simp [isNullableValue]

@[simp] theorem isNamed_rename (t : TypeRef) (name : String) :
    (t.rename ρ).isNamed name = t.isNamed name := by
  obtain ⟨kind, n⟩ := t
  cases kind <;> simp [isNamed]

@[simp] theorem element?_rename (t : TypeRef) :
    (t.rename ρ).element? = t.element?.map (rename ρ) := by
  obtain ⟨kind, n⟩ := t
  cases kind with
  | named name args v =>
      match args with
      | [] | _ :: _ :: _ => simp [element?]
      | [a] =>
          simp only [element?, rename_kind, renameKind_named, List.map_cons, List.map_nil]
          split <;> rfl
  | _ => simp [element?]

@[simp] theorem isQueryable_rename (t : TypeRef) : (t.rename ρ).isQueryable = t.isQueryable := by
  simp [isQueryable]

@[simp] theorem simpleName_rename (t : TypeRef) : (t.rename ρ).simpleName = t.simpleName := by
  fun_induction simpleName t with
  | case3 element n ih => simpa [rename, simpleName] using ih
  | case4 type n => rw [rename, renameKind_anonymous, simpleName]
  | _ => simp [rename, simpleName]

mutual

/-- Written types have no anonymous types in them. -/
@[simp] theorem rename_ofExpr (m : Model) (t : TypeExpr) : (ofExpr m t).rename ρ = ofExpr m t := by
  match t with
  | .nullable t => rw [ofExpr, rename_asNullable, rename_ofExpr m t]
  | .array t => rw [ofExpr, rename_array, rename_ofExpr m t]
  | .generated id => rfl
  | .named name [] =>
      rw [ofExpr]
      split <;> rfl
  | .named name (a :: as) =>
      rw [ofExpr]
      split
      · rw [rename_asNullable, rename_ofExpr m a]
      · rw [rename, renameKind, renameAll, rename_ofExpr m a, renameAll_ofExprs m as]

theorem renameAll_ofExprs (m : Model) (ts : List TypeExpr) :
    renameAll ρ (ofExprs m ts) = ofExprs m ts := by
  match ts with
  | [] => rfl
  | t :: ts => rw [ofExprs, renameAll, rename_ofExpr m t, renameAll_ofExprs m ts]

end

@[simp] theorem map_rename_parse? (m : Model) (text : String) :
    (parse? m text).map (rename ρ) = parse? m text := by
  unfold parse? parse
  cases TypeExpr.parse text with
  | error e => rfl
  | ok t => exact congrArg some (rename_ofExpr ρ m t)

end Projection.TypeRef

namespace Projection.Framework

open TypeRef

variable (ρ : String → String)

@[simp] theorem map_rename_type? (name : String) : (type? name).map (rename ρ) = type? name := by
  unfold type?
  split
  · rfl
  · split <;> rfl

/-- A row gives what it gave, up to the new names, for data with new names. -/
def Row.Natural {α : Type} (f : α → α) (row : Row α) : Prop :=
  ∀ a, row.result (f a) = (row.result a).map (rename ρ)

theorem Row.natural_fixed {α : Type} {f : α → α} {owners members : List String} {t : TypeRef}
    (h : t.rename ρ = t) : (Row.fixed owners members t).Natural ρ f :=
  fun _ => congrArg some h.symm

theorem Row.lookup_map {α : Type} {f : α → α} {rows : List (Row α)}
    (h : ∀ row ∈ rows, row.Natural ρ f) (owner member : String) (a : α) :
    Row.lookup rows owner member (f a) = (Row.lookup rows owner member a).map (rename ρ) := by
  unfold Row.lookup
  cases hrow : rows.find? fun row => row.owners.contains owner && row.members.contains member with
  | none => rfl
  | some row => exact h row (List.mem_of_find?_eq_some hrow) a

theorem map_rename_pick? {entries : List (List String × TypeRef)}
    (h : ∀ entry ∈ entries, entry.2.rename ρ = entry.2) (name : String) :
    (pick? entries name).map (rename ρ) = pick? entries name := by
  unfold pick?
  cases hentry : entries.find? (·.1.contains name) with
  | none => rfl
  | some entry => exact congrArg some (h entry (List.mem_of_find?_eq_some hentry))

@[simp] theorem staticMember?_rename (t : TypeRef) (member : String) :
    staticMember? (t.rename ρ) member = (staticMember? t member).map (rename ρ) := by
  obtain ⟨kind, n⟩ := t
  cases kind with
  | primitive p =>
      simp only [staticMember?, rename_kind, renameKind_primitive, primitiveMember?]
      split
      · rfl
      · split
        · rfl
        · split <;> rfl
  | named name args v =>
      simp only [staticMember?, rename_kind, renameKind_named]
      refine Row.lookup_map ρ (f := id) ?_ _ _ ()
      simp only [staticMembers, List.forall_mem_cons]
      refine ⟨?_, ?_, ?_, ?_, ?_, ?_, by simp⟩ <;> exact Row.natural_fixed ρ rfl
  | _ => simp [staticMember?]

def Call.rename (c : Call) : Call :=
  ⟨c.typeArgs.map (TypeRef.rename ρ), c.argTypes.map (Option.map (TypeRef.rename ρ))⟩

@[simp] theorem firstArg?_rename (c : Call) :
    (c.rename ρ).firstArg? = c.firstArg?.map (TypeRef.rename ρ) := by
  obtain ⟨ts, as⟩ := c
  cases as <;> simp [Call.rename, Call.firstArg?]

theorem staticCalls_natural : ∀ row ∈ staticCalls, row.Natural ρ (Call.rename ρ) := by
  simp only [staticCalls, List.forall_mem_cons]
  refine ⟨firstArg?_rename ρ, ?round, ?_, ?_, ?_, ?_, ?_, ?_, ?_, ?_, ?empty, ?_, ?array, ?_, ?_,
    ?_, by simp⟩
  case round =>
    intro c
    simp only [firstArg?_rename]
    cases c.firstArg? with
    | none => rfl
    | some t => by_cases h : t.isPrimitive .decimal <;> simp [Option.filter_some, h, double]
  case empty =>
    intro c
    cases h : c.typeArgs <;> simp [Call.rename, h]
  case array =>
    intro c
    cases h : c.typeArgs <;> simp [Call.rename, h]
  all_goals exact Row.natural_fixed ρ rfl

@[simp] theorem staticCall?_rename (t : TypeRef) (method : String) (c : Call) :
    staticCall? (t.rename ρ) method (c.rename ρ) =
      (staticCall? t method c).map (TypeRef.rename ρ) := by
  obtain ⟨kind, n⟩ := t
  cases kind with
  | primitive p =>
      have hstring : ∀ entry ∈ stringStatics, entry.2.rename ρ = entry.2 := by
        simp [stringStatics]
      have hother : ∀ entry ∈ primitiveStatics p, entry.2.rename ρ = entry.2 := by
        simp [primitiveStatics]
      simp only [staticCall?, rename_kind, renameKind_primitive]
      split
      · exact (map_rename_pick? ρ hstring method).symm
      · rename_i h
        cases h
        exact (map_rename_pick? ρ hother method).symm
      all_goals simp_all
  | named name args v =>
      simp only [staticCall?, rename_kind, renameKind_named]
      exact Row.lookup_map ρ (staticCalls_natural ρ) _ _ c
  | _ => simp [staticCall?]

@[simp] theorem nullableMember?_rename (t : TypeRef) (member : String) :
    nullableMember? (t.rename ρ) member = (nullableMember? t member).map (TypeRef.rename ρ) := by
  unfold nullableMember?
  split
  · rfl
  · split
    · exact congrArg some (rename_nonNullable ρ t).symm
    · rfl

theorem instanceMembers_natural :
    ∀ row ∈ instanceMembers, row.Natural ρ (List.map (TypeRef.rename ρ)) := by
  have harg (owners members : List String) (i : Nat) :
      Row.Natural ρ (List.map (TypeRef.rename ρ)) ⟨owners, members, fun args => args[i]?⟩ :=
    fun args => List.getElem?_map ..
  have hsequence (owners members : List String) (i : Nat) (name : String) :
      Row.Natural ρ (List.map (TypeRef.rename ρ))
        ⟨owners, members, fun args => args[i]?.map (.sequence name)⟩ := by
    intro args
    simp only [List.getElem?_map, Option.map_map]
    rfl
  simp only [instanceMembers, List.forall_mem_cons]
  refine ⟨?_, hsequence _ _ 0 _, hsequence _ _ 1 _, harg _ _ 0, harg _ _ 1, ?_, ?_, ?_, ?_, ?_, ?_,
    ?_, ?_, ?_, by simp⟩
  all_goals exact Row.natural_fixed ρ rfl

@[simp] theorem instanceMember?_rename (t : TypeRef) (member : String) :
    instanceMember? (t.rename ρ) member = (instanceMember? t member).map (TypeRef.rename ρ) := by
  unfold instanceMember?
  rw [isNullableValue_rename]
  split
  · exact nullableMember?_rename ρ t member
  · obtain ⟨kind, n⟩ := t
    cases kind with
    | primitive p =>
        simp only [rename_kind, renameKind_primitive]
        split
        · split <;> rfl
        all_goals simp_all
    | array element =>
        simp only [rename_kind, renameKind_array]
        split
        · rfl
        · split <;> rfl
    | named name args v =>
        simp only [rename_kind, renameKind_named]
        exact Row.lookup_map ρ (instanceMembers_natural ρ) _ _ args
    | _ => simp

theorem instanceCalls_natural :
    ∀ row ∈ instanceCalls, row.Natural ρ (List.map (TypeRef.rename ρ)) := by
  simp only [instanceCalls, List.forall_mem_cons]
  refine ⟨Row.natural_fixed ρ rfl, Row.natural_fixed ρ rfl, Row.natural_fixed ρ rfl, ?_, by simp⟩
  intro args
  simp only [List.getElem?_map, Option.map_map]
  congr 1
  funext t
  exact (rename_asNullable ρ t).symm

@[simp] theorem instanceCall?_rename (t : TypeRef) (method : String) :
    instanceCall? (t.rename ρ) method = (instanceCall? t method).map (TypeRef.rename ρ) := by
  have hcommon : ∀ entry ∈ commonCalls, entry.2.rename ρ = entry.2 := by simp [commonCalls]
  have hstring : ∀ entry ∈ stringCalls, entry.2.rename ρ = entry.2 := by simp [stringCalls]
  unfold instanceCall?
  rw [isNullableValue_rename]
  cases hc : pick? commonCalls method with
  | some u =>
      have := map_rename_pick? ρ hcommon method
      rw [hc] at this
      exact this.symm
  | none =>
      dsimp only
      split
      · exact congrArg some (rename_nonNullable ρ t).symm
      · obtain ⟨kind, n⟩ := t
        cases kind with
        | primitive p =>
            simp only [rename_kind, renameKind_primitive]
            split
            · exact (map_rename_pick? ρ hstring method).symm
            all_goals simp_all
        | named name args v =>
            simp only [rename_kind, renameKind_named]
            split
            · rfl
            · exact Row.lookup_map ρ (instanceCalls_natural ρ) _ _ args
        | _ => simp

@[simp] theorem indexed?_rename (t : TypeRef) :
    indexed? (t.rename ρ) = (indexed? t).map (TypeRef.rename ρ) := by
  unfold indexed?
  rw [isPrimitive_rename, element?_rename]
  split
  · rfl
  · cases t.element? with
    | some u => rfl
    | none =>
        obtain ⟨kind, n⟩ := t
        cases kind with
        | named name args v =>
            simp only [Option.map_none, rename_kind, renameKind_named]
            split
            · exact List.getElem?_map ..
            · rfl
        | _ => simp

end Projection.Framework
