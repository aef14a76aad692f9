import Projection.Proofs.TypeRef.Inferred
import Projection.Proofs.Typing.Closed

/-!
Inference stays within the inferred types: a spelled expression under parameters of inferred types
has an inferred type, if it has one.
-/

namespace Projection

open TypeRef Projection.Expr Text

variable {V : Vocabulary}

variable (V) in
structure Context.Inferred (Γ : Context) : Prop where
  model : V.Knows Γ.model
  bindings : ∀ b ∈ Γ.bindings, b.2.Inferred V

theorem Context.Inferred.bind {Γ : Context} {name : String} {t : TypeRef} (h : Γ.Inferred V)
    (ht : t.Inferred V) : (Γ.bind name t).Inferred V :=
  ⟨h.model, List.forall_mem_cons.2 ⟨ht, h.bindings⟩⟩

theorem Context.Inferred.bindAll {Γ : Context} {names : List String} {ts : List TypeRef}
    (h : Γ.Inferred V) (ht : ∀ t ∈ ts, t.Inferred V) : (Γ.bindAll names ts).Inferred V :=
  ⟨h.model, Context.forall_mem_bindAll h.bindings ht⟩

namespace Typing

variable (V) in
def Infers (o : Option TypeRef) : Prop := ∀ t, o = some t → t.Inferred V

theorem inferred_anonymous {Γ : Context} {members : List Initializer}
    (he : V.source (.anonymous members))
    (hc : ∀ c ∈ (Expr.anonymous members).children, Infers V (infer? Γ c)) :
    (TypeRef.anonymous (anonymousType Γ members)).Inferred V := by
  have hmember {m : AnonymousMember} (hm : m ∈ (anonymousType Γ members).members) :
      (V.label m.name ∧ V.source m.expr) ∧ Infers V m.type := by
    obtain ⟨i, hi, hm⟩ := List.mem_filterMap.1 hm
    obtain ⟨name, hname, rfl⟩ := Option.map_eq_some_iff.1 hm
    have hvalue : i.value ∈ (Expr.anonymous members).children := List.mem_map.2 ⟨i, hi, rfl⟩
    exact ⟨⟨V.labels he hi hname, V.child he hvalue⟩, hc i.value hvalue⟩
  exact .anonymous (fun m hm => (hmember hm).1) fun m hm => (hmember hm).2

/-- Inference over a model of the vocabulary stays within the inferred types. -/
theorem closed_inferred {m : Model} (hm : V.Knows m) : Closed m V.source (Inferred V) where
  toClosed := TypeRef.closed_inferred
  declared h v := .written (written_name (hm _ h) v)
  parsed h := .written (written_parse? h)
  types h t ht := .written (written_ofExpr _ (V.types h t ht))
  child := V.child
  literal := inferred_anonymous

theorem infers_infer? {Γ : Context} {e : Expr} (hΓ : Γ.Inferred V) (he : V.source e) :
    Infers V (infer? Γ e) :=
  (closed_inferred hΓ.model).infer? hΓ.bindings he

theorem infers_elementType? {Γ : Context} {e : Expr} (hΓ : Γ.Inferred V) (he : V.source e) :
    Infers V (elementType? Γ e) := by
  intro t h
  obtain ⟨u, hu, ht⟩ := Option.bind_eq_some_iff.1 h
  exact TypeRef.closed_inferred.element? (infers_infer? hΓ (V.withoutOptional he) u hu) ht

/-- Object literals in source text have inferred types. -/
theorem inferred_anonymousType {Γ : Context} {members : List Initializer} (hΓ : Γ.Inferred V)
    (he : V.source (.anonymous members)) :
    (TypeRef.anonymous (anonymousType Γ members)).Inferred V :=
  inferred_anonymous he fun _ hc => infers_infer? hΓ (V.child he hc)

end Typing

end Projection
