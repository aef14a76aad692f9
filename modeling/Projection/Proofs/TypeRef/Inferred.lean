import Projection.Proofs.Grammar.Spelled
import Projection.Proofs.TypeRef.Closed
import Projection.Proofs.TypeRef.Generated
import Projection.TypeRef.Resolve

/-!
Types that source text gives rise to. What is written out holds neither anonymous nor generated
types; inference adds anonymous types and sequences of them, at most one to a type. The names that
types have are those of the text, of the model and of the base library.
-/

namespace Projection

open Text

/-- The type is made of these names, and none of it is generated. -/
inductive TypeExpr.Over (N : String → Prop) : TypeExpr → Prop where
  | named {name : String} {args : List TypeExpr} : N name → (∀ a ∈ args, Over N a) →
      Over N (.named name args)
  | array {t : TypeExpr} : Over N t → Over N (.array t)
  | nullable {t : TypeExpr} : Over N t → Over N (.nullable t)

theorem TypeExpr.Over.generatedIds {N : String → Prop} {t : TypeExpr} (h : t.Over N) :
    t.generatedIds = [] := by
  induction h with
  | named _ _ ih =>
      rw [TypeExpr.generatedIds, generatedIdsAll_eq]
      exact List.flatMap_eq_nil_iff.2 ih
  | array _ ih | nullable _ ih => exact ih

mutual

theorem TypeExpr.over_of_generatedIds {t : TypeExpr} (h : t.generatedIds = []) :
    t.Over fun _ => True := by
  match t with
  | .named _ args => exact .named trivial (overs_of_generatedIds h)
  | .array t => exact .array (over_of_generatedIds (t := t) h)
  | .nullable t => exact .nullable (over_of_generatedIds (t := t) h)
  | .generated _ => cases h

theorem TypeExpr.overs_of_generatedIds {ts : List TypeExpr} (h : generatedIdsAll ts = []) :
    ∀ t ∈ ts, t.Over fun _ => True := by
  match ts with
  | [] => simp
  | t :: ts =>
      obtain ⟨ht, hts⟩ := List.append_eq_nil_iff.1 h
      exact List.forall_mem_cons.2 ⟨over_of_generatedIds ht, overs_of_generatedIds hts⟩

end

/-- What types are made of: the names that they have, and the expressions and names that the
members of anonymous types have. All that source text can give is in it. -/
structure Vocabulary where
  name : String → Prop
  source : Expr → Prop
  label : String → Prop
  plain : ∀ {n}, IsName n → name n
  parsed : ∀ {text t}, TypeExpr.parse text = .ok t → t.Over name
  types : ∀ {e}, source e → ∀ t ∈ e.types, t.Over name
  child : ∀ {c e}, source e → c ∈ e.children → source c
  withoutOptional : ∀ {e}, source e → source e.withoutOptional
  labels : ∀ {ms m n}, source (.anonymous ms) → m ∈ ms → m.effectiveName? = some n → label n

def Vocabulary.Knows (V : Vocabulary) (m : Model) : Prop := ∀ t ∈ m.types, V.name t.name

theorem Vocabulary.spelled (V : Vocabulary) {e : Expr} (h : V.source e) : e.Spelled := by
  induction e using Expr.childInduction with
  | h e ih =>
      exact Expr.every_iff.2
        ⟨fun t ht => (V.types h t ht).generatedIds, fun c hc => ih c hc (V.child h hc)⟩

def Vocabulary.full : Vocabulary where
  name _ := True
  source := Expr.Spelled
  label _ := True
  plain _ := trivial
  parsed h := TypeExpr.over_of_generatedIds (TypeExpr.generatedIds_of_parse h)
  types h t ht := TypeExpr.over_of_generatedIds (Expr.Every.self h t ht)
  child := Expr.Every.child
  withoutOptional := Expr.Spelled.withoutOptional
  labels _ _ _ := trivial

theorem Vocabulary.unparen (V : Vocabulary) {e : Expr} (h : V.source e) : V.source e.unparen :=
  Expr.unparen_of_children V.child h

namespace TypeRef

/-- The type can be written in source text. -/
inductive Written (V : Vocabulary) : TypeRef → Prop where
  | primitive {p : Primitive} {n : Bool} : Written V ⟨.primitive p, n⟩
  | named {name : String} {args : List TypeRef} {v n : Bool} :
      V.name name → (∀ a ∈ args, Written V a) → Written V ⟨.named name args v, n⟩
  | array {element : TypeRef} {n : Bool} : Written V element → Written V ⟨.array element, n⟩

/-- The type can be inferred from source text. The members of an anonymous type come from there. -/
inductive Inferred (V : Vocabulary) : TypeRef → Prop where
  | written {t : TypeRef} : Written V t → Inferred V t
  | sequence {name : String} {element : TypeRef} {v n : Bool} :
      V.name name → Inferred V element → Inferred V ⟨.named name [element] v, n⟩
  | array {element : TypeRef} {n : Bool} : Inferred V element → Inferred V ⟨.array element, n⟩
  | anonymous {type : AnonymousType} {n : Bool} :
      (∀ m ∈ type.members, V.label m.name ∧ V.source m.expr) →
      (∀ m ∈ type.members, ∀ t, m.type = some t → Inferred V t) → Inferred V ⟨.anonymous type, n⟩

variable {V : Vocabulary}

theorem Written.withNullable {t : TypeRef} (h : t.Written V) (n : Bool) :
    (t.withNullable n).Written V := by
  cases h with
  | primitive => exact .primitive
  | named hn h => exact .named hn h
  | array h => exact .array h

theorem Written.generatedIds {t : TypeRef} (h : t.Written V) : t.generatedIds = [] := by
  induction h with
  | primitive => rfl
  | named _ _ ih =>
      rw [TypeRef.generatedIds, kindIds, generatedIdsAll_eq]
      exact List.flatMap_eq_nil_iff.2 ih
  | array _ ih => exact ih

@[simp] theorem written_primitive (p : Primitive) : (primitive p).Written V := .primitive

theorem written_name {name : String} (h : V.name name) (v : Bool) : (named name v).Written V :=
  .named h nofun

/-- Names of the base library are plain. -/
theorem written_library {name : String} (h : IsName name) (v : Bool) :
    (named name v).Written V :=
  written_name (V.plain h) v

theorem written_sequence {name : String} {element : TypeRef} (h : IsName name)
    (he : element.Written V) : (sequence name element).Written V :=
  .named (V.plain h) (List.forall_mem_singleton.2 he)

theorem inferred_sequence {name : String} {element : TypeRef} (h : IsName name)
    (he : element.Inferred V) : (sequence name element).Inferred V :=
  .sequence (V.plain h) he

mutual

/-- Text without generated types stands for a type without them. -/
theorem written_ofExpr (m : Model) {t : TypeExpr} (h : t.Over V.name) :
    (ofExpr m t).Written V := by
  match t with
  | .nullable t =>
      cases h with
      | nullable h => exact (written_ofExpr m h).withNullable true
  | .array t =>
      cases h with
      | array h => exact .array (written_ofExpr m h)
  | .generated id => cases h
  | .named name [] =>
      cases h with
      | named hn _ =>
          rw [ofExpr]
          split
          · exact .primitive
          · exact written_name hn _
  | .named name (a :: as) =>
      cases h with
      | named hn hargs =>
          obtain ⟨ha, has⟩ := List.forall_mem_cons.1 hargs
          rw [ofExpr]
          split
          · exact (written_ofExpr m ha).withNullable true
          · exact .named hn (List.forall_mem_cons.2 ⟨written_ofExpr m ha, written_ofExprs m has⟩)

theorem written_ofExprs (m : Model) {ts : List TypeExpr} (h : ∀ t ∈ ts, t.Over V.name) :
    ∀ t ∈ ofExprs m ts, t.Written V := by
  match ts with
  | [] => simp
  | t :: ts =>
      obtain ⟨ht, hts⟩ := List.forall_mem_cons.1 h
      exact List.forall_mem_cons.2 ⟨written_ofExpr m ht, written_ofExprs m hts⟩

end

theorem written_parse {m : Model} {text : String} {t : TypeRef} (h : parse m text = .ok t) :
    t.Written V := by
  unfold parse at h
  split at h
  · rename_i hp
    cases h
    exact written_ofExpr m (V.parsed hp)
  · cases h

theorem written_parse? {m : Model} {text : String} {t : TypeRef} (h : parse? m text = some t) :
    t.Written V := by
  obtain ⟨e, he, rfl⟩ := parse?_eq_some_iff.1 h
  exact written_ofExpr m (V.parsed he)

namespace Inferred

variable {t u : TypeRef}

theorem withNullable (h : t.Inferred V) (n : Bool) : (t.withNullable n).Inferred V := by
  cases h with
  | written h => exact .written (h.withNullable n)
  | sequence hn h => exact .sequence hn h
  | array h => exact .array h
  | anonymous hs ht => exact .anonymous hs ht

theorem generatedIds (h : t.Inferred V) : t.generatedIds = [] := by
  induction h with
  | written h => exact h.generatedIds
  | sequence _ _ ih =>
      rw [TypeRef.generatedIds, kindIds, generatedIdsAll_eq]
      exact List.flatMap_eq_nil_iff.2 (List.forall_mem_singleton.2 ih)
  | array _ ih => exact ih
  | anonymous => rfl

theorem args {name : String} {args : List TypeRef} {v : Bool} (h : t.Inferred V)
    (hk : t.kind = .named name args v) : ∀ a ∈ args, a.Inferred V := by
  cases h with
  | written h =>
      cases h with
      | primitive | array _ => cases hk
      | named _ h =>
          cases hk
          exact fun a ha => .written (h a ha)
  | sequence _ h =>
      cases hk
      exact List.forall_mem_singleton.2 h
  | array _ | anonymous _ _ => cases hk

theorem element (h : t.Inferred V) (hk : t.kind = .array u) : u.Inferred V := by
  cases h with
  | written h =>
      cases h with
      | primitive | named _ _ => cases hk
      | array h =>
          cases hk
          exact .written h
  | array h =>
      cases hk
      exact h
  | sequence _ _ | anonymous _ _ => cases hk

theorem member {type : AnonymousType} (h : t.Inferred V) (hk : t.kind = .anonymous type) :
    ∀ m ∈ type.members, ∀ u, m.type = some u → u.Inferred V := by
  cases h with
  | written h => cases h <;> cases hk
  | anonymous _ ht =>
      cases hk
      exact ht
  | sequence _ _ | array _ => cases hk

end Inferred

/-- The base library stays within the inferred types. -/
theorem closed_inferred : Closed (Inferred V) where
  primitive := .written .primitive
  library h v := .written (written_library h v)
  sequence := inferred_sequence
  array := .array
  withNullable := Inferred.withNullable
  args := Inferred.args
  element := Inferred.element
  member := Inferred.member

end TypeRef

end Projection
