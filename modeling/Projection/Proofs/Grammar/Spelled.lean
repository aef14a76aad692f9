import Projection.Proofs.Expr.Spelled
import Projection.Proofs.Grammar.Rules

/-!
Source text has no spelling for generated types: what is read is spelled out, the holes of
interpolated strings included.
-/

namespace Projection.Grammar

theorem generatedIds_typeMarks (t : TypeExpr) (ts : List Token) :
    (typeMarks t ts).1.generatedIds = t.generatedIds := by
  have hnull : ∀ t : TypeExpr, t.asNullable.generatedIds = t.generatedIds := by
    intro t
    cases t <;> rfl
  fun_induction typeMarks t ts with
  | case1 t rest ih => rw [ih, hnull]
  | case2 t rest ih => rw [ih, TypeExpr.generatedIds, hnull]
  | case3 t rest ih => rw [ih, TypeExpr.generatedIds]
  | case4 => rfl

def spelledTypes : TypeRelation where
  type _ t _ := t.generatedIds = []
  list _ us _ := ∀ u ∈ us, u.generatedIds = []

theorem spelledTypes_kept : spelledTypes.Kept where
  generic := by
    intro first ts more args rest _ ha
    change TypeExpr.generatedIds _ = []
    rw [generatedIds_typeMarks, TypeExpr.generatedIds, TypeExpr.generatedIdsAll_eq]
    exact List.flatMap_eq_nil_iff.2 ha
  simple := by
    intro first ts _
    change TypeExpr.generatedIds _ = []
    rw [generatedIds_typeMarks]
    rfl
  next ht hu := List.forall_mem_cons.2 ⟨ht, hu⟩
  last ht := List.forall_mem_singleton.2 ht

theorem generatedIds_of_type {ts : List Token} {t : TypeExpr} {rest : List Token}
    (h : (type ts).Is t rest) : t.generatedIds = [] :=
  spelledTypes_kept.all.1 ts t rest h

theorem generatedIds_of_castType? {ts : List Token} {t : TypeExpr} {rest : List Token}
    (h : Found (castType? ts) t rest) : t.generatedIds = [] :=
  generatedIds_of_type (found_castType?_iff.1 h).1

theorem generatedIds_of_callTypeArgs? {ts : List Token} {us : List TypeExpr} {rest : List Token}
    (h : Found (callTypeArgs? ts) us rest) : ∀ u ∈ us, u.generatedIds = [] := by
  obtain ⟨more, -, hu⟩ := found_callTypeArgs?_iff.1 h
  exact spelledTypes_kept.all.2 more us _ hu

open Projection.Expr

def spelledRelation : Relation where
  expression _ e _ := e.Spelled
  binary _ _ e _ := e.Spelled
  binaryRest _ left _ e _ := left.Spelled → e.Spelled
  unary _ e _ := e.Spelled
  trailers e _ e' _ := e.Spelled → e'.Spelled
  items _ _ es _ := ∀ e ∈ es, e.Spelled
  someItems _ _ es _ := ∀ e ∈ es, e.Spelled
  memberTrailer e _ _ e' _ := e.Spelled → e'.Spelled
  genericCall e _ e' _ := e.Spelled → e'.Spelled
  primary _ e _ := e.Spelled
  holes _ parts := ∀ e ∈ parts.filterMap Part.expr?, e.Spelled
  creation _ e _ := e.Spelled
  initializers _ ms _ := ∀ e ∈ ms.map (·.value), e.Spelled
  moreInitializers _ ms _ := ∀ e ∈ ms.map (·.value), e.Spelled

theorem spelledRelation_kept : spelledRelation.Kept where
  lambda _ _ h := every_iff.2 ⟨by simp [types], List.forall_mem_singleton.2 h⟩
  conditional _ hc ht hf :=
    every_iff.2 ⟨by simp [types], List.forall_mem_cons.2 ⟨hc, List.forall_mem_cons.2
      ⟨ht, List.forall_mem_singleton.2 hf⟩⟩⟩
  noConditional _ h _ := h
  operands hl he := he hl
  noOperator _ h := h
  operator _ _ hr he hl :=
    he (every_iff.2 ⟨by simp [types],
      List.forall_mem_cons.2 ⟨hl, List.forall_mem_singleton.2 hr⟩⟩)
  prefixed _ h := every_iff.2 ⟨by simp [types], List.forall_mem_singleton.2 h⟩
  cast hc h :=
    every_iff.2 ⟨List.forall_mem_singleton.2 (generatedIds_of_castType? hc),
      List.forall_mem_singleton.2 h⟩
  name _ _ he _ hg ht := ht (hg he)
  value _ _ he _ ht := ht he
  access h := h
  call ha ht he := ht (every_iff.2 ⟨by simp [types, call], List.forall_mem_cons.2 ⟨he, ha⟩⟩)
  index ha ht he := ht (every_iff.2 ⟨by simp [types], List.forall_mem_cons.2 ⟨he, ha⟩⟩)
  noTrailer _ h := h
  member hg ht he := ht (hg (every_iff.2 ⟨by simp [types], List.forall_mem_singleton.2 he⟩))
  noTypeArgs _ h := h
  typeArgs ht ha he :=
    every_iff.2 ⟨generatedIds_of_callTypeArgs? ht, List.forall_mem_cons.2 ⟨he, ha⟩⟩
  noItems := by simp [spelledRelation]
  items _ h := h
  lastItem h := List.forall_mem_singleton.2 h
  nextItem _ h hs := List.forall_mem_cons.2 ⟨h, hs⟩
  literal _ := every_iff.2 ⟨by simp [types], by simp [children]⟩
  receiver := every_iff.2 ⟨by simp [types], by simp [children]⟩
  creation h := h
  typedDefault h :=
    every_iff.2 ⟨List.forall_mem_singleton.2 (generatedIds_of_type h), by simp [children]⟩
  default _ := every_iff.2 ⟨by simp [types], by simp [children]⟩
  ident _ _ _ := every_iff.2 ⟨by simp [types], by simp [children]⟩
  interpolated h := every_iff.2 ⟨by simp [types], h⟩
  paren h := every_iff.2 ⟨by simp [types], List.forall_mem_singleton.2 h⟩
  noSegments := by simp [spelledRelation]
  text h := h
  hole _ he h := List.forall_mem_cons.2 ⟨he, h⟩
  anonymous h := every_iff.2 ⟨by simp [types], h⟩
  constructed ht ha _ :=
    every_iff.2 ⟨List.forall_mem_singleton.2 (generatedIds_of_type ht), ha⟩
  constructedWith ht ha hm :=
    every_iff.2 ⟨List.forall_mem_singleton.2 (generatedIds_of_type ht),
      List.forall_mem_append.2 ⟨ha, hm⟩⟩
  initialized ht hm :=
    every_iff.2 ⟨List.forall_mem_singleton.2 (generatedIds_of_type ht), hm⟩
  noInitializers := by simp [spelledRelation]
  named h hm := List.forall_mem_cons.2 ⟨h, hm⟩
  bare _ _ h hm := List.forall_mem_cons.2 ⟨h, hm⟩
  comma h := h
  endInitializers := by simp [spelledRelation]

end Projection.Grammar

namespace Projection

theorem Expr.spelled_of_parse {source : String} {e : Expr} (h : Expr.parse source = .ok e) :
    e.Spelled := by
  obtain ⟨s, -, hread⟩ := Expr.parse_eq_ok_iff.1 h
  exact Grammar.spelledRelation_kept.expression hread

theorem TypeExpr.exists_words_of_parse {source : String} {t : TypeExpr}
    (h : TypeExpr.parse source = .ok t) :
    ∃ s rest, Scan.ofString source = .ok s ∧ (Grammar.type s.words).Is t rest := by
  unfold TypeExpr.parse at h
  split at h
  · cases h
  · rename_i s hs
    split at h
    · cases h
    · rename_i hw
      cases h
      unfold Grammar.wholeType at hw
      split at hw
      · cases hw
      · rename_i r hr
        split at hw
        · cases hw
          exact ⟨s, _, hs, r.bound, hr⟩
        · cases hw

theorem TypeExpr.generatedIds_of_parse {source : String} {t : TypeExpr}
    (h : TypeExpr.parse source = .ok t) : t.generatedIds = [] := by
  obtain ⟨s, rest, -, hread⟩ := exists_words_of_parse h
  exact Grammar.generatedIds_of_type hread

end Projection
