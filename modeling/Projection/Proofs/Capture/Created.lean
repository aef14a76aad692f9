import Projection.Capture
import Projection.Proofs.Lowering.Created

/-!
Moving a projection to where generated code stands changes neither the generated types that it
mentions nor the objects that it creates. What is put in place of names comes from source text.
-/

namespace Projection.Capture

open Projection.Expr

variable {S : List Structure}

theorem spelled_qualified (path : String) : (Expr.qualified path).Spelled := by
  have hident (name : String) : (Expr.ident name).Spelled :=
    every_iff.2 ⟨by simp [types], by simp [children]⟩
  unfold Expr.qualified
  split
  · exact hident _
  · refine List.foldlRecOn _ _ (hident _) fun e he name _ => ?_
    exact every_iff.2 ⟨by simp [types, dot], List.forall_mem_singleton.2 he⟩

theorem spelled_qualifiedMember (owner : TypeDecl) (name : String) :
    (qualifiedMember owner name).Spelled :=
  every_iff.2 ⟨by simp [types, qualifiedMember, dot],
    List.forall_mem_singleton.2 (spelled_qualified _)⟩

theorem spelled_of_methodTarget {owner : TypeDecl} {method : MemberDecl} {e : Expr}
    (h : methodTarget owner method = .ok e) : e.Spelled := by
  unfold methodTarget at h
  split at h
  · split at h
    · cases h
      exact spelled_qualifiedMember owner method.name
    · cases h
  · cases h

theorem bound_marked {note : String} {e : Expr} (h : e.Every (Bound S)) :
    (Expr.marked note e).Every (Bound S) :=
  every_iff.2 ⟨.of_spelled (by simp [types]), List.forall_mem_singleton.2 h⟩

theorem bound_methodGroup {owner : TypeDecl} {method : MemberDecl} {e : Expr}
    (h : e.Every (Bound S)) : (methodGroup owner method e).Every (Bound S) := by
  unfold methodGroup
  split
  · rename_i htarget
    exact (spelled_of_methodTarget htarget).bound
  · exact bound_marked h

theorem bound_ident (name : String) : (Expr.ident name).Every (Bound S) :=
  every_iff.2 ⟨.of_spelled (by simp [types]), by simp [children]⟩

theorem bound_rehostName (m : Model) (s : Scope) (name : String) :
    (rehostName m s name).Every (Bound S) := by
  unfold rehostName
  split
  · split
    · rename_i hparse
      exact (Expr.spelled_of_parse hparse).bound
    · exact bound_ident name
  · exact (spelled_qualifiedMember _ name).bound
  · exact (spelled_qualified _).bound
  · exact bound_methodGroup (bound_ident name)
  all_goals exact bound_ident name

theorem bound_rehostOwn {m : Model} {s : Scope} {name : String} {e : Expr}
    (h : e.Every (Bound S)) : (rehostOwn m s name e).Every (Bound S) := by
  unfold rehostOwn
  split
  · exact bound_ident name
  · exact (spelled_qualifiedMember _ name).bound
  · exact bound_methodGroup h
  · exact h

theorem bound_invoke {t u : Expr} {ts : List TypeExpr} {as bs : List Expr}
    (h : (Expr.invoke t ts as).Every (Bound S)) (hu : u.Every (Bound S))
    (hb : ∀ b ∈ bs, b.Every (Bound S)) : (Expr.invoke u ts bs).Every (Bound S) :=
  every_iff.2 ⟨⟨h.self.mentions, fun _ _ _ he => by cases he⟩, List.forall_mem_cons.2 ⟨hu, hb⟩⟩

theorem bound_rehost {m : Model} {s : Scope} {bound : List String} {e : Expr}
    (h : e.Every (Bound S)) : (rehost m s bound e).Every (Bound S) := by
  fun_induction rehost m s bound e with
  | case1 bound name _ => exact h
  | case2 bound name _ => exact bound_rehostName m s name
  | case3 bound target name optional _ => exact bound_rehostOwn h
  | case4 bound target name optional _ ih =>
      exact every_iff.2 ⟨.of_spelled (by simp [types]),
        List.forall_mem_singleton.2 (ih (h.child (by simp [children])))⟩
  | case5 bound target typeArgs args args' owner method _ callee hcallee ih =>
      refine bound_invoke h (spelled_of_methodTarget hcallee).bound ?_
      exact List.forall_mem_map.2 fun a _ => ih a (h.child (List.mem_cons_of_mem _ a.2))
  | case6 bound target typeArgs args args' owner method _ reason _ ih =>
      refine bound_marked (bound_invoke h (h.child (by simp [children])) ?_)
      exact List.forall_mem_map.2 fun a _ => ih a (h.child (List.mem_cons_of_mem _ a.2))
  | case7 bound target typeArgs args args' _ name _ ih =>
      refine bound_invoke h (h.child (by simp [children])) ?_
      exact List.forall_mem_map.2 fun a _ => ih a (h.child (List.mem_cons_of_mem _ a.2))
  | case8 bound target typeArgs args args' _ _ ih ihcallee =>
      have htarget := h.child (show target ∈ _ by simp [children])
      refine bound_invoke h (ihcallee htarget.unparen) ?_
      exact List.forall_mem_map.2 fun a _ => ih a (h.child (List.mem_cons_of_mem _ a.2))
  | case9 bound params body ih =>
      exact every_iff.2 ⟨.of_spelled (by simp [types]),
        List.forall_mem_singleton.2 (ih (h.child (by simp [children])))⟩
  | case10 bound e _ _ _ _ ih =>
      refine every_withChildren (h.self.withChildren (by simp)) (by simp) ?_
      exact List.forall_mem_map.2 fun c _ => ih c (h.child c.2)

end Projection.Capture
