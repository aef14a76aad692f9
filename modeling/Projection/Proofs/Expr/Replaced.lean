import Projection.Proofs.TypeRef.Declared

/-!
Trees in the place of others. A node is read back if each of its new children has no form that the
child before it did not have; so a tree can be rebuilt from below, one node at a time.
-/

namespace Projection.Expr

open Text

/-- A note hides nothing: it stands in front of an object literal, if there is one. -/
def Shown (v : Expr) : Prop := v.isMarked = true → ∃ note ms, v = marked note (anonymous ms)

theorem shown_of_isMarked {v : Expr} (h : v.isMarked = false) : v.Shown := by
  intro hm
  rw [h] at hm
  cases hm

theorem Shown.isLambda_spelled {v : Expr} (h : v.Shown) : v.spelled.isLambda = v.isLambda := by
  cases v with
  | marked note inner =>
      obtain ⟨note, ms, heq⟩ := h rfl
      rw [heq, spelled_marked, spelled_anonymous]
      rfl
  | defaultValue t => cases t <;> simp [isLambda]
  | creation t as i => cases i <;> simp [isLambda]
  | interpolated ps =>
      rw [spelled_eq rfl]
      rfl
  | _ => simp [isLambda]

theorem Shown.repeatsSign_spelled {v : Expr} (h : v.Shown) (op : UnaryOp) :
    repeatsSign op v.spelled = repeatsSign op v := by
  cases v with
  | marked note inner =>
      obtain ⟨note, ms, heq⟩ := h rfl
      rw [heq, spelled_marked, spelled_anonymous]
      cases op <;> rfl
  | defaultValue t => cases t <;> cases op <;> simp [repeatsSign]
  | creation t as i => cases i <;> cases op <;> simp [repeatsSign]
  | interpolated ps =>
      rw [spelled_eq rfl]
      cases op <;> rfl
  | unary sign inner => cases op <;> cases sign <;> simp [repeatsSign]
  | _ => cases op <;> simp [repeatsSign]

/-- The tree can stand where `e` stands: it has no form that `e` does not have, and can be called if
`e` can. -/
structure Replaces (v e : Expr) : Prop where
  path : v.spelled.isPath = true → e.isPath = true
  typeLike : v.spelled.isTypeLike = true → e.isTypeLike = true
  sureType : v.spelled.isSureType = true → e.isSureType = true
  endsAsType : v.spelled.endsAsType = true → e.endsAsType = true
  signed : v.spelled.isSigned = true → e.isSigned = true
  callable : e.isCallable = true → v.spelled.isCallable = true
  name : e.chainOptional = false → e.isName = true → v.spelled.isName = true
  shown : v.Shown

theorem isTypeLike_of_isPath {e : Expr} (h : e.isPath = true) : e.isTypeLike = true := by
  unfold isTypeLike
  split
  · cases h
  · exact h

/-- A form of its own: no type, no sign, and nothing that ends as a type. -/
structure Neutral (e : Expr) : Prop where
  typeLike : e.isTypeLike = false
  endsAsType : e.endsAsType = false
  signed : e.isSigned = false
  callable : e.isCallable = true

namespace Replaces

variable {v e : Expr}

theorem of_neutral (hv : v.spelled.Neutral) (hs : v.Shown)
    (hn : e.isName = true → e.chainOptional = true) : v.Replaces e where
  path h := absurd (isTypeLike_of_isPath h) (by simp [hv.typeLike])
  typeLike h := absurd h (by simp [hv.typeLike])
  sureType h := absurd (isTypeLike_of_isSureType h) (by simp [hv.typeLike])
  endsAsType h := absurd h (by simp [hv.endsAsType])
  signed h := absurd h (by simp [hv.signed])
  callable _ := hv.callable
  name ho h := absurd (hn h) (by simp [ho])
  shown := hs

theorem of_spelled_eq (h : v.spelled = e) (hs : v.Shown) : v.Replaces e where
  path := h ▸ id
  typeLike := h ▸ id
  sureType := h ▸ id
  endsAsType := h ▸ id
  signed := h ▸ id
  callable := h ▸ id
  name _ := h ▸ id
  shown := hs

theorem conditional (h : e.isName = true → e.chainOptional = true) (c t f : Expr) :
    (conditional c t f).Replaces e := by
  refine of_neutral ?_ (shown_of_isMarked rfl) h
  rw [spelled_conditional]
  exact ⟨rfl, rfl, rfl, rfl⟩

theorem object (note : String) (ms : List Initializer) :
    (marked note (anonymous ms)).Replaces (anonymous ms) := by
  refine of_neutral ?_ (fun _ => ⟨note, ms, rfl⟩) nofun
  rw [spelled_marked, spelled_anonymous]
  exact ⟨rfl, rfl, rfl, rfl⟩

theorem creation (type : TypeExpr) (as : List Expr) (ns ms : List Initializer) :
    (creation type as (some ns)).Replaces (anonymous ms) := by
  refine of_neutral ?_ (shown_of_isMarked rfl) nofun
  rw [spelled_creation_some]
  exact ⟨rfl, rfl, rfl, rfl⟩

theorem invoke (t : Expr) (ts us : List TypeExpr) (as bs : List Expr) :
    (invoke v ts as).Replaces (invoke t us bs) := by
  refine of_neutral ?_ (shown_of_isMarked rfl) nofun
  rw [spelled_invoke]
  exact ⟨rfl, rfl, rfl, rfl⟩

theorem member (h : v.Replaces e) (name : String) (o : Bool) :
    (member v name o).Replaces (member e name o) where
  path hp := by
    rw [spelled_member] at hp
    cases o with
    | true => cases hp
    | false => exact h.path hp
  typeLike hp := by
    rw [spelled_member] at hp
    cases o with
    | true => cases hp
    | false => exact h.path hp
  sureType := by simp [isSureType]
  endsAsType := by simp [Expr.endsAsType]
  signed := by simp [isSigned]
  callable _ := by simp [isCallable]
  name _ _ := by simp [isName]
  shown := shown_of_isMarked rfl

theorem index (h : v.Replaces e) (o : Bool) {as bs : List Expr} (hargs : as = [] → bs = []) :
    (index v as o).Replaces (index e bs o) := by
  cases as with
  | cons a as =>
      refine of_neutral ?_ (shown_of_isMarked rfl) nofun
      rw [spelled_index]
      exact ⟨rfl, rfl, rfl, rfl⟩
  | nil =>
      obtain rfl := hargs rfl
      have hlike : (Expr.index v [] o).spelled.isTypeLike = true → e.isTypeLike = true := by
        rw [spelled_index]
        exact h.typeLike
      exact {
        path := by simp [isPath]
        typeLike := hlike
        sureType := fun hs => hlike (isTypeLike_of_isSureType hs)
        endsAsType := by simp [Expr.endsAsType]
        signed := by simp [isSigned]
        callable := by simp [isCallable]
        name := fun _ => nofun
        shown := shown_of_isMarked rfl }

/-- Nodes that end in an operand are no types, and all of them can be called. -/
theorem of_operand (hv : v.spelled.isTypeLike = false) (hc : v.spelled.isCallable = true)
    (hends : v.spelled.endsAsType = true → e.endsAsType = true)
    (hsign : v.spelled.isSigned = true → e.isSigned = true) (hn : e.isName = false)
    (hs : v.Shown) : v.Replaces e where
  path h := absurd (isTypeLike_of_isPath h) (by simp [hv])
  typeLike h := absurd h (by simp [hv])
  sureType h := absurd (isTypeLike_of_isSureType h) (by simp [hv])
  endsAsType := hends
  signed := hsign
  callable _ := hc
  name _ h := absurd h (by simp [hn])
  shown := hs

theorem binary (h : v.Replaces e) (op : BinaryOp) (l l' : Expr) :
    (binary op l' v).Replaces (binary op l e) := by
  refine of_operand ?_ ?_ ?_ ?_ rfl (shown_of_isMarked rfl)
  all_goals rw [spelled_binary]
  · rfl
  · rfl
  · exact h.endsAsType
  · nofun

theorem unary (h : v.Replaces e) (op : UnaryOp) : (unary op v).Replaces (unary op e) := by
  refine of_operand ?_ ?_ ?_ ?_ rfl (shown_of_isMarked rfl)
  all_goals rw [spelled_unary]
  · rfl
  · rfl
  · exact h.endsAsType
  · cases op <;> exact id

theorem cast (h : v.Replaces e) (t : TypeExpr) : (cast t v).Replaces (cast t e) := by
  refine of_operand ?_ ?_ ?_ ?_ rfl (shown_of_isMarked rfl)
  all_goals rw [spelled_cast]
  · rfl
  · rfl
  · exact h.endsAsType
  · nofun

theorem paren (h : v.Replaces e) : (paren v).Replaces (paren e) where
  path := by simp [isPath]
  typeLike := by simp [isTypeLike, isPath]
  sureType := by simp [isSureType]
  endsAsType hs := h.sureType (by rwa [spelled_paren] at hs)
  signed := by simp [isSigned]
  callable hc := by
    have hlike : v.spelled.isTypeLike = false := by
      refine Bool.eq_false_iff.2 fun hv => ?_
      rw [isCallable, h.typeLike hv] at hc
      cases hc
    rw [spelled_paren, isCallable, hlike]
    rfl
  name _ := nofun
  shown := shown_of_isMarked rfl

/-- A node around new children. -/
theorem withChildren {S : Strings} {g : Expr → Expr} (hp : e.Spellable S)
    (ho : ∀ ms, e ≠ anonymous ms)
    (h : ∀ c ∈ e.children, (g c).Replaces c) :
    (e.withChildren (e.children.map g)).Replaces e := by
  cases e with
  | ident n => exact of_spelled_eq (spelled_ident n) (shown_of_isMarked rfl)
  | this => exact of_spelled_eq spelled_this (shown_of_isMarked rfl)
  | literal value => exact of_spelled_eq (spelled_literal value) (shown_of_isMarked rfl)
  | member t n o => exact (h t List.mem_cons_self).member n o
  | index t as o => exact (h t List.mem_cons_self).index o List.map_eq_nil_iff.1
  | invoke t ts as => exact .invoke t ts ts _ as
  | lambda ps b =>
      refine of_neutral ?_ (shown_of_isMarked rfl) (by rintro ⟨⟩)
      change (Expr.lambda ps (g b)).spelled.Neutral
      rw [spelled_lambda]
      exact ⟨rfl, rfl, rfl, rfl⟩
  | anonymous ms => exact absurd rfl (ho ms)
  | creation t as i =>
      refine of_neutral ?_ (shown_of_isMarked (isMarked_withChildren _ _)) (by rintro ⟨⟩)
      cases i with
      | none =>
          rw [Expr.withChildren, spelled_creation_none]
          exact ⟨rfl, rfl, rfl, rfl⟩
      | some ms =>
          rw [Expr.withChildren, spelled_creation_some]
          exact ⟨rfl, rfl, rfl, rfl⟩
  | conditional c t f =>
      exact .conditional (by rintro ⟨⟩) _ _ _
  | binary op l r => exact (h r (by simp [children])).binary op l _
  | unary op e => exact (h e List.mem_cons_self).unary op
  | cast t e => exact (h e List.mem_cons_self).cast t
  | defaultValue t =>
      cases t with
      | none => exact of_spelled_eq spelled_default (shown_of_isMarked rfl)
      | some t =>
          refine of_neutral ?_ (shown_of_isMarked rfl) (by rintro ⟨⟩)
          change (defaultValue (some t)).spelled.Neutral
          rw [spelled_typedDefault]
          exact ⟨rfl, rfl, rfl, rfl⟩
  | interpolated ps =>
      refine of_neutral ?_ (shown_of_isMarked rfl) (by rintro ⟨⟩)
      rw [spelled_eq rfl]
      exact ⟨rfl, rfl, rfl, rfl⟩
  | paren e => exact (h e List.mem_cons_self).paren
  | marked note e => cases hp.plain.2

end Replaces

theorem unhidden_of_shown {n : Expr} (h : ∀ c ∈ n.children, c.Shown) : n.Unhidden := by
  cases n with
  | conditional c t f =>
      have ht : t.Shown := h t (by simp [children])
      have hf : f.Shown := h f (by simp [children])
      exact ⟨ht.isLambda_spelled, hf.isLambda_spelled⟩
  | unary op e => exact (h e (by simp [children])).repeatsSign_spelled op
  | _ => trivial

variable {S : Strings}

theorem every_sayable_of_formed {e : Expr} (h : e.Every (Formed S)) : e.Every (Sayable S) := by
  induction e using childInduction with
  | h e ih =>
      have hspelled := spelled_of_spellable (h.mono fun _ hn => hn.spellable)
      refine every_iff.2 ⟨⟨h.self.spellable.legible, fun _ => ?_, ?_⟩, fun c hc =>
        ih c hc (h.child hc)⟩
      · rw [hspelled]
        exact h.self.shaped
      · exact unhidden_of_shown fun c hc => shown_of_isMarked (h.child hc).self.spellable.plain.2

section Sayable

variable {t f e l r : Expr} {name : String} {as : List Expr} {type : TypeExpr}

theorem sayable_ident (h : IsName name) (hr : isReserved name = false) :
    (ident name).Sayable S where
  legible := ⟨List.forall_mem_singleton.2 h, nofun, trivial⟩
  shaped _ := by rwa [spelled_ident]
  unhidden := trivial

theorem sayable_literal {value : Literal} (h : value.token.Valid) : (literal value).Sayable S where
  legible := ⟨List.forall_mem_singleton.2 h, nofun, trivial⟩
  shaped _ := by
    rw [spelled_literal]
    trivial
  unhidden := trivial

theorem sayable_default : (defaultValue none).Sayable S where
  legible := ⟨nofun, nofun, trivial⟩
  shaped _ := by
    rw [spelled_default]
    trivial
  unhidden := trivial

theorem sayable_dot (t : Expr) (h : IsName name) : (t.dot name).Sayable S where
  legible := ⟨List.forall_mem_singleton.2 h, nofun, trivial⟩
  shaped _ := by
    rw [dot, spelled_member]
    trivial
  unhidden := trivial

theorem sayable_index (t : Expr) (as : List Expr) : (index t as false).Sayable S where
  legible := ⟨nofun, nofun, trivial⟩
  shaped _ := by
    rw [spelled_index]
    trivial
  unhidden := trivial

theorem sayable_invoke {ts : List TypeExpr} (hts : ∀ u ∈ ts, u.Legible)
    (hcall : ts = [] → t.spelled.isCallable = true) (hname : ts ≠ [] → t.spelled.isName = true) :
    (invoke t ts as).Sayable S where
  legible := ⟨nofun, hts, trivial⟩
  shaped _ := by
    rw [spelled_invoke]
    cases ts with
    | nil => exact hcall rfl
    | cons u us => exact hname nofun
  unhidden := trivial

theorem sayable_lambda {ps : List String} (h : ∀ p ∈ ps, IsName p) : (lambda ps e).Sayable S where
  legible := ⟨List.forall_mem_map.2 h, nofun, trivial⟩
  shaped _ := by
    rw [spelled_lambda]
    trivial
  unhidden := trivial

theorem sayable_conditional {c : Expr} (ht : t.Shown) (hf : f.Shown) :
    (conditional c t f).Sayable S where
  legible := ⟨nofun, nofun, trivial⟩
  shaped _ := by
    rw [spelled_conditional]
    trivial
  unhidden := ⟨ht.isLambda_spelled, hf.isLambda_spelled⟩

theorem sayable_binary {op : BinaryOp} (h : ¬(op = .add ∨ op = .sub)) :
    (binary op l r).Sayable S where
  legible := ⟨nofun, nofun, trivial⟩
  shaped _ := by
    rw [spelled_binary]
    exact fun hop => absurd hop h
  unhidden := trivial

theorem sayable_cast (ht : type.Legible) (h : e.spelled.isSigned = false) :
    (cast type e).Sayable S where
  legible := ⟨nofun, List.forall_mem_singleton.2 ht, trivial⟩
  shaped _ := by
    rw [spelled_cast]
    exact fun hs => absurd hs (by simp [h])
  unhidden := trivial

theorem sayable_paren (e : Expr) : (paren e).Sayable S where
  legible := ⟨nofun, nofun, trivial⟩
  shaped _ := by
    rw [spelled_paren]
    trivial
  unhidden := trivial

theorem sayable_marked (note : String) (e : Expr) : (marked note e).Sayable S where
  legible := ⟨nofun, nofun, trivial⟩
  shaped := nofun
  unhidden := trivial

theorem sayable_empty (h : type.Legible) : (creation type as none).Sayable S where
  legible := ⟨nofun, List.forall_mem_singleton.2 h, trivial⟩
  shaped _ := by
    rw [spelled_creation_none]
    trivial
  unhidden := trivial

theorem sayable_creation {ms : List Initializer} (h : type.Legible)
    (hn : ∀ m ∈ ms, ∀ n ∈ m.name, IsName n) : (creation type as (some ms)).Sayable S where
  legible := by
    refine ⟨fun t ht => ?_, List.forall_mem_singleton.2 h, trivial⟩
    obtain ⟨m, hm, ht⟩ := List.mem_filterMap.1 ht
    obtain ⟨n, hname, rfl⟩ := Option.map_eq_some_iff.1 ht
    exact hn m hm n hname
  shaped _ := by
    rw [spelled_creation_some]
    trivial
  unhidden := trivial

end Sayable

theorem admits_withChildren {e : Expr} (h : S.Admits e) (cs : List Expr) :
    S.Admits (e.withChildren cs) := by
  fun_cases withChildren e cs with
  | case14 ps => exact S.refill cs h
  | case15 => exact h
  | _ => trivial

/-- A node around new children. Calls are left out, since not all of their children are replaced. -/
theorem sayable_withChildren {e : Expr} {g : Expr → Expr} (he : e.Formed S)
    (hi : ∀ t ts as, e ≠ invoke t ts as) (h : ∀ c ∈ e.children, (g c).Replaces c) :
    (e.withChildren (e.children.map g)).Sayable S where
  legible := by
    refine ⟨?_, ?_, ?_⟩
    · rw [ownTokens_withChildren (by simp)]
      exact he.spellable.own
    · rw [types_withChildren]
      exact fun t ht => (he.spellable.types t ht).legible
    · exact admits_withChildren he.spellable.plain.1 _
  shaped _ := by
    have hshaped := he.shaped
    cases e with
    | ident n =>
        change (ident n).spelled.Shaped
        rwa [spelled_ident]
    | invoke t ts as => exact absurd rfl (hi t ts as)
    | binary op l r =>
        change (binary op (g l) (g r)).spelled.Shaped
        rw [spelled_binary]
        intro hop
        refine Bool.eq_false_iff.2 fun hends => ?_
        have hl := (h l (by simp [children])).endsAsType hends
        rw [hshaped hop] at hl
        cases hl
    | cast t e =>
        change (cast t (g e)).spelled.Shaped
        rw [spelled_cast, TypeExpr.spelled_of_readable (he.spellable.types t List.mem_cons_self)]
        exact fun hs => hshaped ((h e (by simp [children])).signed hs)
    | interpolated ps =>
        rw [withChildren, spelled_eq rfl]
        trivial
    | marked note e => cases he.spellable.plain.2
    | creation t as i =>
        cases i with
        | none =>
            rw [withChildren, spelled_creation_none]
            trivial
        | some ms =>
            rw [withChildren, spelled_creation_some]
            trivial
    | defaultValue t =>
        cases t with
        | none =>
            change (defaultValue none).spelled.Shaped
            rw [spelled_default]
            trivial
        | some t =>
            change (defaultValue (some t)).spelled.Shaped
            rw [spelled_typedDefault]
            trivial
    | anonymous ms =>
        rw [withChildren, spelled_anonymous]
        trivial
    | _ => simp [withChildren, children, Shaped]
  unhidden := by
    refine unhidden_of_shown ?_
    rw [children_withChildren _ _ (by simp)]
    exact List.forall_mem_map.2 fun c hc => (h c hc).shown

end Projection.Expr
