import Projection.Proofs.Capture.Origins

/-!
Trees in which every name is bound or allowed. What is asked of a name depends on whether it is a
variable, is called, or stands behind `this`; so do the origins of a tree.
-/

namespace Projection

namespace Expr

/-- `P` holds of the node itself and of all below it, each with the parameters around it. -/
inductive Under (P : List String → Expr → Prop) : List String → Expr → Prop
  | node {bound : List String} {e : Expr} : P bound e →
      (∀ c ∈ e.children, Under P (bound ++ e.ownParameters) c) → Under P bound e

namespace Under

variable {P : List String → Expr → Prop} {bound : List String} {c e : Expr}

theorem self (h : Under P bound e) : P bound e := by
  cases h with
  | node h _ => exact h

theorem child (h : Under P bound e) (hc : c ∈ e.children) :
    Under P (bound ++ e.ownParameters) c := by
  cases h with
  | node _ h => exact h c hc

/-- Only a lambda binds names. -/
theorem part (h : Under P bound e) (hc : c ∈ e.children) (hp : e.ownParameters = []) :
    Under P bound c := by
  have hchild := h.child hc
  rwa [hp, List.append_nil] at hchild

theorem unparen (h : Under P bound e) : Under P bound e.unparen := by
  fun_induction Expr.unparen e with
  | case1 e ih => exact ih (h.part (by simp [children]) rfl)
  | case2 => exact h

theorem plain (he : P bound e) (hp : e.ownParameters = [])
    (hc : ∀ c ∈ e.children, Under P bound c) : Under P bound e :=
  .node he (by rwa [hp, List.append_nil])

end Under

end Expr

def Expr.isInert : Expr → Bool
  | ident _ | member _ _ _ | invoke _ _ _ => false
  | _ => true

structure Allowed where
  free : String → Prop
  called : String → Prop
  own : String → Prop

namespace Allowed

open Projection.Expr Capture

variable {A : Allowed} {m : Model} {s : Scope} {bound : List String} {e : Expr}

structure Node (A : Allowed) (bound : List String) (e : Expr) : Prop where
  free : ∀ n, e = .ident n → n ∈ bound ∨ A.free n
  called : ∀ t ts as n, e = .invoke t ts as → t.unparen = .ident n → n ∈ bound ∨ A.called n
  own : ∀ t n o, e = .member t n o → isThis t = true → n ∈ bound ∨ A.own n

theorem node_of_isInert (h : e.isInert = true) : A.Node bound e where
  free n he := by
    rw [he] at h
    cases h
  called t ts as n he := by
    rw [he] at h
    cases h
  own t n o he := by
    rw [he] at h
    cases h

def Tree (A : Allowed) (bound : List String) (e : Expr) : Prop := e.Under A.Node bound

theorem tree_of_isInert (hi : e.isInert = true) (hp : e.ownParameters = [])
    (h : ∀ c ∈ e.children, A.Tree bound c) : A.Tree bound e :=
  .plain (node_of_isInert hi) hp h

theorem tree_ident {n : String} (h : n ∈ bound ∨ A.free n) : A.Tree bound (.ident n) :=
  .plain ⟨fun _ he => by cases he; exact h, nofun, nofun⟩ rfl nofun

theorem tree_member {t : Expr} {n : String} {o : Bool} (ht : A.Tree bound t)
    (h : isThis t = true → n ∈ bound ∨ A.own n) : A.Tree bound (.member t n o) :=
  .plain ⟨nofun, nofun, fun _ _ _ he => by cases he; exact h⟩ rfl
    (List.forall_mem_singleton.2 ht)

theorem tree_invoke {t : Expr} {ts : List TypeExpr} {as : List Expr} (ht : A.Tree bound t)
    (h : ∀ n, t.unparen = .ident n → n ∈ bound ∨ A.called n) (ha : ∀ a ∈ as, A.Tree bound a) :
    A.Tree bound (.invoke t ts as) :=
  .plain ⟨nofun, fun _ _ _ n he => by cases he; exact h n, nofun⟩ rfl
    (List.forall_mem_cons.2 ⟨ht, ha⟩)

theorem tree_lambda {params : List String} {body : Expr} (h : A.Tree (bound ++ params) body) :
    A.Tree bound (.lambda params body) :=
  .node ⟨nofun, nofun, nofun⟩ (List.forall_mem_singleton.2 h)

theorem tree_paren {e : Expr} (h : A.Tree bound e) : A.Tree bound (.paren e) :=
  tree_of_isInert rfl rfl (List.forall_mem_singleton.2 h)

theorem tree_of_unparen {e : Expr} (h : A.Tree bound e.unparen) : A.Tree bound e := by
  fun_induction unparen e with
  | case1 e ih => exact tree_paren (ih h)
  | case2 => exact h

theorem tree_of_isThis {e : Expr} (h : isThis e = true) : A.Tree bound e := by
  rw [isThis.eq_def] at h
  split at h
  · rename_i hu
    exact tree_of_unparen (hu ▸ tree_of_isInert rfl rfl (by simp [children]))
  · cases h

def Covers (A : Allowed) (o : Origin) : Prop :=
  if o.own then A.own o.name else if o.called then A.called o.name else A.free o.name

/-- The names of a tree that are bare once it is moved are allowed. -/
theorem covers_of_tree (h : A.Tree bound e) :
    ∀ o ∈ origins m s bound e, o.hidden = false → A.Covers o := by
  have hown {bound : List String} {t : Expr} {n : String} {o : Bool} (called : Bool)
      (h : A.Tree bound (.member t n o)) (ht : isThis t = true) :
      ∀ o ∈ ownOrigin m s bound called n, o.hidden = false → A.Covers o := by
    intro o ho hidden
    obtain ⟨-, rfl⟩ := mem_ownOrigin ho
    exact (h.self.own _ _ _ rfl ht).resolve_left (by simpa using hidden)
  induction bound, e using uses.induct with
  | case1 bound name _ | case2 bound name _ =>
      rw [origins_ident]
      intro o ho _
      obtain ⟨hb, -, rfl⟩ := mem_bareOrigin ho
      exact (h.self.free _ rfl).resolve_left hb
  | case3 bound target name optional ht =>
      rw [origins_member, if_pos ht]
      exact hown false h ht
  | case4 bound target name optional ht ih =>
      rw [origins_member, if_neg ht]
      exact ih (h.part (by simp [children]) rfl)
  | case5 bound target typeArgs args hreceiver hcallee hargs =>
      have htarget : A.Tree bound target.unparen :=
        (h.part (show target ∈ _ by simp [children]) rfl).unparen
      rw [origins_invoke]
      refine List.forall_mem_append.2 ⟨?_, fun o ho => ?_⟩
      · rw [calleeOrigins.eq_def]
        split
        · rename_i name hu
          intro o ho _
          obtain ⟨hb, -, rfl⟩ := mem_bareOrigin ho
          exact (h.self.called _ _ _ _ rfl hu).resolve_left hb
        · rename_i receiver name optional hu
          rw [hu] at htarget
          split
          · rename_i hr
            exact hown true htarget hr
          · exact hreceiver receiver name optional hu (htarget.part (by simp [children]) rfl)
        · exact hcallee _ rfl htarget
      · obtain ⟨a, ha, ho⟩ := List.mem_flatMap.1 ho
        exact hargs ⟨a, ha⟩ (h.part (by simp [children, ha]) rfl) o ho
  | case6 bound params body ih =>
      rw [origins_lambda]
      exact ih (h.child (by simp [children]))
  | case7 bound e hi hm hc hl ih =>
      have hp := ownParameters_eq_nil hl
      rw [origins_other hi hm hc hl]
      intro o ho
      obtain ⟨c, hc, ho⟩ := List.mem_flatMap.1 ho
      exact ih ⟨c, hc⟩ (h.part hc hp) o ho

theorem free_of_tree (h : A.Tree bound e) {n : String} (hn : n ∈ e.free) (hb : n ∉ bound) :
    A.free n := by
  induction h with
  | @node bound e he _ ih =>
      rcases mem_loose.1 hn with hv | ⟨⟨c, hc, hn⟩, hp⟩
      · cases e with
        | ident name =>
            cases List.mem_singleton.1 hv
            exact (he.free n rfl).resolve_left hb
        | _ => cases hv
      · exact ih c hc hn fun h => (List.mem_append.1 h).elim hb hp

/-- A tree is allowed as soon as the names that are bare once it is moved are, next to those that
are replaced. -/
theorem tree_of_covers (hcalled : ∀ n, A.called n → A.free n)
    (hown : ∀ n, (∀ type, ownReference? m s n ≠ some (.capture type)) → A.own n)
    (hreplaced : Outer (fun n => ∀ called value, replacement? m s called n = some value →
      if called then A.called n else A.free n) bound e)
    (h : ∀ o ∈ origins m s bound e, o.hidden = false → A.Covers o) : A.Tree bound e := by
  have hbare {bound : List String} {called : Bool} {n : String} (hb : n ∉ bound)
      (hreplaced : ∀ value, replacement? m s called n = some value →
        if called then A.called n else A.free n)
      (h : ∀ o ∈ bareOrigin m s bound called n, o.hidden = false → A.Covers o) :
      if called then A.called n else A.free n := by
    cases hr : replacement? m s called n with
    | some value => exact hreplaced value hr
    | none =>
        rw [bareOrigin, if_neg (by simpa using hb), hr] at h
        exact List.forall_mem_singleton.1 h rfl
  have hthis {bound : List String} {called : Bool} {n : String}
      (h : ∀ o ∈ ownOrigin m s bound called n, o.hidden = false → A.Covers o) :
      n ∈ bound ∨ A.own n := by
    by_cases hb : n ∈ bound
    · exact .inl hb
    · right
      by_cases hr : ∃ type, ownReference? m s n = some (.capture type)
      · obtain ⟨type, hr⟩ := hr
        rw [ownOrigin, hr] at h
        exact List.forall_mem_singleton.1 h (by simpa using hb)
      · exact hown n fun type ht => hr ⟨type, ht⟩
  induction bound, e using uses.induct with
  | case1 bound name hb => exact tree_ident (.inl (by simpa using hb))
  | case2 bound name hb =>
      rw [origins_ident] at h
      have hb : name ∉ bound := by simpa using hb
      exact tree_ident (.inr (hbare hb (hreplaced name (by simp) hb false) h))
  | case3 bound target name optional ht =>
      rw [origins_member, if_pos ht] at h
      exact tree_member (tree_of_isThis ht) fun _ => hthis h
  | case4 bound target name optional ht ih =>
      rw [origins_member, if_neg ht] at h
      exact tree_member (ih (hreplaced.part (by simp [children]) rfl) h) (absurd · ht)
  | case5 bound target typeArgs args hreceiver hcallee hargs =>
      rw [origins_invoke] at h
      obtain ⟨htarget, ha⟩ := List.forall_mem_append.1 h
      have hout := (hreplaced.part (show target ∈ _ by simp [children]) rfl).unparen
      have hname (n : String) (hu : target.unparen = .ident n) : n ∈ bound ∨ A.called n := by
        rw [hu] at htarget hout
        by_cases hb : n ∈ bound
        · exact .inl hb
        · exact .inr (hbare hb (hout n (by simp) hb true) htarget)
      refine tree_invoke (tree_of_unparen ?_) hname fun a hm => ?_
      · rw [calleeOrigins.eq_def] at htarget
        split at htarget
        · rename_i n hu
          rw [hu]
          exact tree_ident ((hname n hu).imp_right (hcalled n))
        · rename_i receiver name optional hu
          rw [hu]
          rw [hu] at hout
          split at htarget
          · rename_i hr
            exact tree_member (tree_of_isThis hr) fun _ => hthis htarget
          · rename_i hr
            exact tree_member (hreceiver receiver name optional hu
              (hout.part (by simp [children]) rfl) htarget) (absurd · hr)
        · exact hcallee _ rfl hout htarget
      · exact hargs ⟨a, hm⟩ (hreplaced.part (by simp [children, hm]) rfl) fun o ho =>
          ha o (List.mem_flatMap.2 ⟨a, hm, ho⟩)
  | case6 bound params body ih =>
      rw [origins_lambda] at h
      exact tree_lambda (ih hreplaced.body h)
  | case7 bound e hi hm hc hl ih =>
      have hp := ownParameters_eq_nil hl
      rw [origins_other hi hm hc hl] at h
      refine .plain ⟨fun n he => absurd he (hi n), fun t ts as _ he => absurd he (hc t ts as),
        fun t n o he => absurd he (hm t n o)⟩ hp fun c hc => ?_
      exact ih ⟨c, hc⟩ (hreplaced.part hc hp) fun o ho => h o (List.mem_flatMap.2 ⟨c, hc, ho⟩)

end Allowed

end Projection
