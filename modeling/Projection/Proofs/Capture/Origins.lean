import Projection.Proofs.Capture.Created
import Projection.Proofs.Expr.Rename

/-!
Where the bare names of a moved expression come from. Moving an expression leaves some names bare
and takes others from behind `this`; these are its origins. The names that have to be handed in are
those of the origins that are not called, and the free variables of the moved expression are those
of the origins that no lambda hides, next to what inlined values and full names bring along.
-/

namespace Projection

open Projection.Expr

theorem Text.pieces_append_of_not_mem {separator : Char} {cs : List Char} (h : separator ∉ cs)
    (rest : List Char) :
    ∃ piece more, pieces separator (cs ++ rest) = (cs ++ piece) :: more := by
  induction cs with
  | nil =>
      cases hp : pieces separator rest with
      | nil => exact absurd hp (pieces_ne_nil separator rest)
      | cons piece more => exact ⟨piece, more, hp⟩
  | cons c cs ih =>
      obtain ⟨hc, hcs⟩ := not_or.1 (fun hm => h (List.mem_cons.2 hm))
      obtain ⟨piece, more, hp⟩ := ih hcs
      exact ⟨piece, more, by rw [List.cons_append, pieces, if_neg (Ne.symm hc), hp]; rfl⟩

namespace Expr

@[simp] theorem free_ident (n : String) : (ident n).free = [n] := by
  rw [free, loose_eq]
  rfl

theorem ownParameters_eq_nil {e : Expr} (h : ∀ params body, e ≠ lambda params body) :
    e.ownParameters = [] := by
  cases e with
  | lambda params body => exact absurd rfl (h params body)
  | _ => rfl

theorem free_eq (e : Expr) : e.free =
    e.ownVariable ++ (e.children.flatMap free).filter (· ∉ e.ownParameters) :=
  loose_eq id e

/-- A node that is no variable and binds nothing has the free variables of its children. -/
theorem free_of_plain {e : Expr} (hv : e.ownVariable = []) (hp : e.ownParameters = []) :
    e.free = e.children.flatMap free := by
  rw [free_eq, hv, hp]
  simp

@[simp] theorem free_member (t : Expr) (n : String) (o : Bool) : (member t n o).free = t.free := by
  rw [free_of_plain rfl rfl]
  simp [children]

@[simp] theorem free_invoke (t : Expr) (ts : List TypeExpr) (as : List Expr) :
    (invoke t ts as).free = t.free ++ as.flatMap free := by
  rw [free_of_plain rfl rfl]
  rfl

@[simp] theorem free_lambda (ps : List String) (b : Expr) :
    (lambda ps b).free = b.free.filter (· ∉ ps) := by
  rw [free_eq]
  simp only [ownVariable, children, List.flatMap_singleton, List.nil_append]
  rfl

@[simp] theorem free_marked (note : String) (e : Expr) : (marked note e).free = e.free := by
  rw [free_of_plain rfl rfl]
  simp [children]

@[simp] theorem free_paren (e : Expr) : (paren e).free = e.free := by
  rw [free_of_plain rfl rfl]
  simp [children]

theorem free_unparen (e : Expr) : e.unparen.free = e.free := by
  fun_induction unparen e with
  | case1 e ih => rw [ih, free_paren]
  | case2 => rfl

/-- A full name has its first part as the only variable. -/
theorem free_qualified_append {front : String} (h : '.' ∉ front.toList) (path : String) :
    ∃ t, (qualified (front ++ path)).free = [front ++ t] := by
  have hdots (names : List String) (e : Expr) : (names.foldl dot e).free = e.free := by
    refine List.foldlRecOn names _ (motive := (free · = e.free)) rfl fun x hx name _ => ?_
    rw [dot, free_member, hx]
  obtain ⟨piece, more, hp⟩ := Text.pieces_append_of_not_mem h path.toList
  refine ⟨String.ofList piece, ?_⟩
  rw [qualified, Text.splitAt, String.toList_append, hp, List.map_cons]
  dsimp only
  rw [hdots, free_ident, String.ofList_append, String.ofList_toList]

end Expr

def Symbol.reference : Symbol → Capture.Reference
  | .variable l => if l.isConst then .constant l.value else .capture l.type
  | .member owner decl => Capture.memberReference owner decl
  | .type t => .type t

def Symbol.type? : Symbol → Option String
  | .variable l => some l.type
  | .member _ decl => some decl.type
  | .type _ => none

theorem Symbol.type?_of_capture {symbol : Symbol} {type : String}
    (h : symbol.reference = .capture type) : symbol.type? = some type := by
  cases symbol with
  | «variable» l =>
      rw [reference] at h
      split at h <;> cases h
      rfl
  | member owner decl =>
      rw [reference, Capture.memberReference] at h
      split at h
      · cases h
      · cases h
      all_goals split at h <;> cases h; rfl
  | type t => cases h

def Model.ownSymbol? (m : Model) (s : Scope) (name : String) : Option Symbol :=
  (m.enclosing? s).bind fun owner => (owner.member? name).map (Symbol.member owner)

theorem Model.symbol?_of_not_local {m : Model} {s : Scope} {name : String} {symbol : Symbol}
    (hl : s.local? name = none) (h : m.ownSymbol? s name = some symbol) :
    m.symbol? s name = some symbol := by
  rw [ownSymbol?] at h
  rw [symbol?, hl]
  dsimp only
  rw [h]

namespace Capture

variable {m : Model} {s : Scope} {bound : List String}

theorem reference_eq (m : Model) (s : Scope) (name : String) :
    reference m s name = ((m.symbol? s name).map Symbol.reference).getD .unresolved := by
  unfold reference
  split <;> rename_i h <;> rw [h] <;> rfl

theorem ownReference?_eq (m : Model) (s : Scope) (name : String) :
    ownReference? m s name = (m.ownSymbol? s name).map Symbol.reference := by
  unfold ownReference? Model.ownSymbol?
  cases m.enclosing? s with
  | none => rfl
  | some owner => cases h : owner.member? name <;> simp [h, Symbol.reference]

def inlined? (m : Model) (s : Scope) (name : String) : Option Expr :=
  match reference m s name with
  | .constant (some value) => (Expr.parse value).toOption
  | _ => none

def replacement? (m : Model) (s : Scope) (called : Bool) (name : String) : Option Expr :=
  match reference m s name with
  | .method owner method => (methodTarget owner method).toOption
  | .static owner => if called then none else some (qualifiedMember owner name)
  | .type t => if called then none else some (.qualified ("global::" ++ t.fullName))
  | _ => if called then none else inlined? m s name

/-- A name that is bare once an expression is moved. -/
structure Origin where
  name : String
  /-- What it stands for where the expression was written. -/
  symbol : Option Symbol
  /-- Whether it stood behind `this`. -/
  own : Bool
  called : Bool
  /-- Whether a lambda around it has a parameter of this name. -/
  hidden : Bool
  deriving DecidableEq, Repr

def bareOrigin (m : Model) (s : Scope) (bound : List String) (called : Bool) (name : String) :
    List Origin :=
  if bound.contains name then []
  else
    match replacement? m s called name with
    | some _ => []
    | none => [⟨name, m.symbol? s name, false, called, false⟩]

def ownOrigin (m : Model) (s : Scope) (bound : List String) (called : Bool) (name : String) :
    List Origin :=
  match ownReference? m s name with
  | some (.capture _) => [⟨name, m.ownSymbol? s name, true, called, bound.contains name⟩]
  | _ => []

/-- The names that are bare once the expression is moved, in the order in which they occur. The
names in `bound` are parameters around `e`. -/
def origins (m : Model) (s : Scope) (bound : List String) (e : Expr) : List Origin :=
  match e with
  | .ident name => bareOrigin m s bound false name
  | .member target name _ =>
      if isThis target then ownOrigin m s bound false name else origins m s bound target
  | .invoke target _ args =>
      (match _h : target.unparen with
        | .ident name => bareOrigin m s bound true name
        | .member receiver name _ =>
            if isThis receiver then ownOrigin m s bound true name else origins m s bound receiver
        | callee => origins m s bound callee) ++
        args.attach.flatMap fun a => origins m s bound a.1
  | .lambda params body => origins m s (bound ++ params) body
  | e => e.children.attach.flatMap fun c => origins m s bound c.1
termination_by e.size
decreasing_by
  · exact size_lt_of_mem_children (by simp [children])
  · have := size_lt_of_mem_children (show receiver ∈ target.unparen.children by simp [_h, children])
    have := size_unparen_le target
    have := size_lt_of_mem_children
      (show target ∈ (Expr.invoke target ‹_› args).children by simp [children])
    omega
  · have := size_unparen_le target
    have := size_lt_of_mem_children
      (show target ∈ (Expr.invoke target ‹_› args).children by simp [children])
    rw [_h] at *
    omega
  · exact size_lt_of_mem_children (by simp [children, a.2])
  · exact size_lt_of_mem_children (by simp [children])
  · exact size_lt_of_mem_children c.2

def calleeOrigins (m : Model) (s : Scope) (bound : List String) : Expr → List Origin
  | .ident name => bareOrigin m s bound true name
  | .member receiver name _ =>
      if isThis receiver then ownOrigin m s bound true name else origins m s bound receiver
  | callee => origins m s bound callee

theorem flatMap_attach {α β : Type} (as : List α) (f : α → List β) :
    (as.attach.flatMap fun a => f a.1) = as.flatMap f := by
  conv => rhs; rw [← List.attach_map_subtype_val as, List.flatMap_map]

theorem origins_ident (name : String) :
    origins m s bound (.ident name) = bareOrigin m s bound false name := by
  rw [origins]

theorem origins_member (target : Expr) (name : String) (optional : Bool) :
    origins m s bound (.member target name optional) =
      if isThis target then ownOrigin m s bound false name else origins m s bound target := by
  rw [origins]

theorem origins_invoke (target : Expr) (typeArgs : List TypeExpr) (args : List Expr) :
    origins m s bound (.invoke target typeArgs args) =
      calleeOrigins m s bound target.unparen ++ args.flatMap (origins m s bound) := by
  rw [origins, flatMap_attach]
  congr 1
  unfold calleeOrigins
  split <;> rename_i h <;> simp only [h]

theorem origins_lambda (params : List String) (body : Expr) :
    origins m s bound (.lambda params body) = origins m s (bound ++ params) body := by
  rw [origins]

/-- All other forms hand on what is below them. -/
theorem origins_other {e : Expr} (hi : ∀ name, e ≠ .ident name)
    (hm : ∀ target name optional, e ≠ .member target name optional)
    (hc : ∀ target typeArgs args, e ≠ .invoke target typeArgs args)
    (hl : ∀ params body, e ≠ .lambda params body) :
    origins m s bound e = e.children.flatMap (origins m s bound) := by
  rw [origins, flatMap_attach]
  · exact hi
  · exact hm
  · exact hc
  · exact hl

def Origin.reference (o : Origin) : Reference := (o.symbol.map Symbol.reference).getD .unresolved

def Origin.uses (o : Origin) : List (String × String) :=
  if o.called then [] else captured o.name (some o.reference)

theorem captured_eq_nil {name : String} {r : Reference} (h : ∀ type, r ≠ .capture type) :
    captured name (some r) = [] := by
  unfold captured
  split
  · rename_i type hr
    cases hr
    exact absurd rfl (h type)
  · rfl

theorem reference_ne_capture_of_replacement? {name : String} {called : Bool} {e : Expr}
    (h : replacement? m s called name = some e) (type : String) :
    reference m s name ≠ .capture type := by
  intro hr
  rw [replacement?, hr] at h
  dsimp only at h
  split at h
  · cases h
  · rw [inlined?, hr] at h
    cases h

theorem flatMap_bareOrigin (name : String) :
    (bareOrigin m s bound false name).flatMap Origin.uses =
      if bound.contains name then [] else captured name (some (reference m s name)) := by
  unfold bareOrigin
  split
  · rfl
  · split
    · rename_i e h
      exact (captured_eq_nil (reference_ne_capture_of_replacement? h)).symm
    · rw [reference_eq]
      simp [Origin.uses, Origin.reference]

theorem flatMap_ownOrigin (name : String) :
    (ownOrigin m s bound false name).flatMap Origin.uses =
      captured name (ownReference? m s name) := by
  unfold ownOrigin
  split
  · rename_i type h
    have hs := h
    rw [ownReference?_eq] at hs
    simp [Origin.uses, Origin.reference, h, hs, captured]
  · rename_i h
    unfold captured
    split
    · rename_i type hr
      exact absurd hr (h type)
    · rfl

theorem flatMap_called {os : List Origin} (h : ∀ o ∈ os, o.called = true) :
    os.flatMap Origin.uses = [] := by
  refine List.flatMap_eq_nil_iff.2 fun o ho => ?_
  rw [Origin.uses, if_pos (h o ho)]

theorem mem_bareOrigin {o : Origin} {name : String} {called : Bool}
    (h : o ∈ bareOrigin m s bound called name) :
    name ∉ bound ∧ replacement? m s called name = none ∧
      o = ⟨name, m.symbol? s name, false, called, false⟩ := by
  unfold bareOrigin at h
  split at h
  · cases h
  · rename_i hb
    split at h
    · cases h
    · rename_i hr
      exact ⟨by simpa using hb, hr, List.mem_singleton.1 h⟩

theorem mem_ownOrigin {o : Origin} {name : String} {called : Bool}
    (h : o ∈ ownOrigin m s bound called name) :
    (∃ type, ownReference? m s name = some (.capture type)) ∧
      o = ⟨name, m.ownSymbol? s name, true, called, bound.contains name⟩ := by
  unfold ownOrigin at h
  split at h
  · rename_i type hr
    exact ⟨⟨type, hr⟩, List.mem_singleton.1 h⟩
  · cases h

theorem flatMap_eq_flatMap {α β γ : Type} {as : List α} {f : α → List γ} {g : α → List β}
    {k : β → List γ} (h : ∀ a ∈ as, f a = (g a).flatMap k) :
    as.flatMap f = (as.flatMap g).flatMap k := by
  rw [List.flatMap_assoc]
  exact congrArg List.flatten (List.map_congr_left h)

/-- The names that have to be handed in are those that occur without being called. -/
theorem uses_eq (m : Model) (s : Scope) (bound : List String) (e : Expr) :
    uses m s bound e = (origins m s bound e).flatMap Origin.uses := by
  fun_induction uses m s bound e with
  | case1 bound name h => rw [origins_ident, flatMap_bareOrigin, if_pos h]
  | case2 bound name h => rw [origins_ident, flatMap_bareOrigin, if_neg h]
  | case3 bound target name optional h => rw [origins_member, if_pos h, flatMap_ownOrigin]
  | case4 bound target name optional h ih => rw [origins_member, if_neg h, ih]
  | case5 bound target typeArgs args hreceiver hcallee hargs =>
      rw [origins_invoke, List.flatMap_append, flatMap_attach args (uses m s bound)]
      congr 1
      · unfold calleeOrigins
        split
        · rename_i name h
          simp only [h]
          exact (flatMap_called fun o ho => by rw [(mem_bareOrigin ho).2.2]).symm
        · rename_i receiver name optional h
          simp only [h]
          split
          · exact (flatMap_called fun o ho => by rw [(mem_ownOrigin ho).2]).symm
          · exact hreceiver receiver name optional h
        · rename_i hi hm
          split
          · rename_i h
            exact absurd h (hi _)
          · rename_i h
            exact absurd h (hm _ _ _)
          · exact hcallee _ rfl
      · exact flatMap_eq_flatMap fun a ha => hargs ⟨a, ha⟩
  | case6 bound params body ih => rw [origins_lambda, ih]
  | case7 bound e hi hm hc hl ih =>
      rw [origins_other hi hm hc hl, flatMap_attach e.children (uses m s bound)]
      exact flatMap_eq_flatMap fun c hc => ih ⟨c, hc⟩

/-- What an origin is: a bare name that is not replaced, or a name behind `this` that has to be
handed in. -/
inductive Origin.From (m : Model) (s : Scope) : Origin → Prop
  | bare {name : String} {called : Bool} : replacement? m s called name = none →
      From m s ⟨name, m.symbol? s name, false, called, false⟩
  | own {name type : String} {called hidden : Bool} :
      ownReference? m s name = some (.capture type) →
      From m s ⟨name, m.ownSymbol? s name, true, called, hidden⟩

theorem from_of_mem_origins {e : Expr} : ∀ o ∈ origins m s bound e, o.From m s := by
  have hbare {bound : List String} {called : Bool} {name : String} :
      ∀ o ∈ bareOrigin m s bound called name, o.From m s := by
    intro o ho
    obtain ⟨-, hr, rfl⟩ := mem_bareOrigin ho
    exact .bare hr
  have hown {bound : List String} {called : Bool} {name : String} :
      ∀ o ∈ ownOrigin m s bound called name, o.From m s := by
    intro o ho
    obtain ⟨⟨type, hr⟩, rfl⟩ := mem_ownOrigin ho
    exact .own hr
  induction bound, e using uses.induct with
  | case1 bound name _ | case2 bound name _ =>
      rw [origins_ident]
      exact hbare
  | case3 bound target name optional h =>
      rw [origins_member, if_pos h]
      exact hown
  | case4 bound target name optional h ih =>
      rw [origins_member, if_neg h]
      exact ih
  | case5 bound target typeArgs args hreceiver hcallee hargs =>
      rw [origins_invoke]
      refine List.forall_mem_append.2 ⟨?_, fun o ho => ?_⟩
      · rw [calleeOrigins.eq_def]
        split
        · exact hbare
        · rename_i receiver name optional hu
          split
          · exact hown
          · exact hreceiver receiver name optional hu
        · exact hcallee _ rfl
      · obtain ⟨a, ha, ho⟩ := List.mem_flatMap.1 ho
        exact hargs ⟨a, ha⟩ o ho
  | case6 bound params body ih =>
      rw [origins_lambda]
      exact ih
  | case7 bound e hi hm hc hl ih =>
      rw [origins_other hi hm hc hl]
      intro o ho
      obtain ⟨c, hc, ho⟩ := List.mem_flatMap.1 ho
      exact ih ⟨c, hc⟩ o ho

theorem free_qualifiedMember (owner : TypeDecl) (name : String) :
    ∃ t, (qualifiedMember owner name).free = ["global::" ++ t] := by
  rw [qualifiedMember, dot, free_member]
  exact free_qualified_append (by decide) owner.fullName

theorem free_of_methodTarget {owner : TypeDecl} {method : MemberDecl} {e : Expr}
    (h : methodTarget owner method = .ok e) : ∃ t, e.free = ["global::" ++ t] := by
  unfold methodTarget at h
  split at h
  · split at h
    · cases h
      exact free_qualifiedMember owner method.name
    · cases h
  · cases h

/-- What is put in place of a name is the value of a constant or a full name. -/
theorem free_of_replacement? {called : Bool} {name : String} {e : Expr}
    (h : replacement? m s called name = some e) :
    inlined? m s name = some e ∨ ∃ t, e.free = ["global::" ++ t] := by
  unfold replacement? at h
  split at h
  · rename_i owner method _
    cases ht : methodTarget owner method with
    | error reason =>
        rw [ht] at h
        cases h
    | ok target =>
        rw [ht] at h
        cases h
        exact .inr (free_of_methodTarget ht)
  · split at h <;> cases h
    exact .inr (free_qualifiedMember _ name)
  · split at h <;> cases h
    exact .inr (free_qualified_append (by decide) _)
  · split at h
    · cases h
    · exact .inl h

theorem rehostName_of_replacement? {name : String} {e : Expr}
    (h : replacement? m s false name = some e) : rehostName m s name = e := by
  rw [replacement?, inlined?] at h
  rw [rehostName]
  cases hr : reference m s name with
  | method owner method =>
      rw [hr] at h
      dsimp only [methodGroup] at h ⊢
      cases ht : methodTarget owner method <;> rw [ht] at h <;> cases h
      rfl
  | constant value =>
      rw [hr] at h
      cases value with
      | none => cases h
      | some value =>
          dsimp only at h ⊢
          cases hp : Expr.parse value <;> rw [hp] at h <;> cases h
          rfl
  | static owner | type t =>
      rw [hr] at h
      cases h
      rfl
  | capture t | unresolved =>
      rw [hr] at h
      cases h

theorem free_rehostName {name : String} (h : replacement? m s false name = none) :
    (rehostName m s name).free = [name] := by
  rw [replacement?, inlined?] at h
  rw [rehostName]
  cases hr : reference m s name with
  | method owner method =>
      rw [hr] at h
      dsimp only [methodGroup] at h ⊢
      cases ht : methodTarget owner method <;> rw [ht] at h <;> cases h
      rw [free_marked, free_ident]
  | constant value =>
      rw [hr] at h
      cases value with
      | none => exact free_ident name
      | some value =>
          dsimp only at h ⊢
          cases hp : Expr.parse value <;> rw [hp] at h <;> cases h
          exact free_ident name
  | static owner | type t =>
      rw [hr] at h
      cases h
  | capture t | unresolved => exact free_ident name

def exposed (p : String → Bool) (os : List Origin) : List String :=
  (os.filter fun o => !o.hidden && p o.name).map (·.name)

variable {p : String → Bool}

@[simp] theorem exposed_nil : exposed p [] = [] := rfl

@[simp] theorem exposed_append (os os' : List Origin) :
    exposed p (os ++ os') = exposed p os ++ exposed p os' := by
  simp [exposed]

theorem exposed_flatMap {α : Type} (as : List α) (f : α → List Origin) :
    exposed p (as.flatMap f) = as.flatMap fun a => exposed p (f a) := by
  induction as with
  | nil => rfl
  | cons a as ih => rw [List.flatMap_cons, exposed_append, ih, List.flatMap_cons]

def freeOutside (p : String → Bool) (bound : List String) (e : Expr) : List String :=
  e.free.filter fun n => !bound.contains n && p n

theorem freeOutside_ident (name : String) : freeOutside p bound (.ident name) =
    if !bound.contains name && p name then [name] else [] := by
  rw [freeOutside, free_ident, List.filter_cons, List.filter_nil]

theorem freeOutside_eq_nil {e : Expr} (h : ∀ n ∈ e.free, p n = false) :
    freeOutside p bound e = [] := by
  refine List.filter_eq_nil_iff.2 fun n hn => ?_
  simp [h n hn]

theorem freeOutside_full (hg : ∀ t, p ("global::" ++ t) = false) {e : Expr}
    (h : ∃ t, e.free = ["global::" ++ t]) : freeOutside p bound e = [] := by
  obtain ⟨t, ht⟩ := h
  refine freeOutside_eq_nil fun n hn => ?_
  rw [ht] at hn
  cases List.mem_singleton.1 hn
  exact hg t

def Outer (Q : String → Prop) (bound : List String) (e : Expr) : Prop :=
  ∀ n ∈ e.free, n ∉ bound → Q n

namespace Outer

variable {Q : String → Prop} {c e : Expr}

theorem part (h : Outer Q bound e) (hc : c ∈ e.children) (hp : e.ownParameters = []) :
    Outer Q bound c := by
  refine fun n hn => h n (mem_loose.2 (.inr ⟨⟨c, hc, hn⟩, ?_⟩))
  rw [hp]
  exact List.not_mem_nil

theorem unparen (h : Outer Q bound e) : Outer Q bound e.unparen :=
  fun n hn => h n (free_unparen e ▸ hn)

theorem body {params : List String} {body : Expr} (h : Outer Q bound (.lambda params body)) :
    Outer Q (bound ++ params) body := by
  intro n hn hb
  obtain ⟨hbound, hparams⟩ := not_or.1 (fun h => hb (List.mem_append.2 h))
  refine h n ?_ hbound
  rw [free_lambda]
  exact List.mem_filter.2 ⟨hn, by simpa using hparams⟩

end Outer

def Inlines (m : Model) (s : Scope) (p : String → Bool) (n : String) : Prop :=
  ∀ value, inlined? m s n = some value → ∀ k ∈ value.free, p k = false

theorem freeOutside_rehostName (hg : ∀ t, p ("global::" ++ t) = false) {name : String}
    (hb : name ∉ bound) (hi : Inlines m s p name) :
    freeOutside p bound (rehostName m s name) = exposed p (bareOrigin m s bound false name) := by
  rw [bareOrigin, if_neg (by simpa using hb)]
  split
  · rename_i e h
    rw [rehostName_of_replacement? h, exposed_nil]
    rcases free_of_replacement? h with hv | hfull
    · exact freeOutside_eq_nil (hi e hv)
    · exact freeOutside_full hg hfull
  · rename_i h
    rw [freeOutside, free_rehostName h]
    by_cases hp : p name <;> simp [exposed, hb, hp]

theorem freeOutside_rehostOwn (hg : ∀ t, p ("global::" ++ t) = false) {name : String} {e : Expr}
    (called : Bool) (he : e.free = []) :
    freeOutside p bound (rehostOwn m s name e) = exposed p (ownOrigin m s bound called name) := by
  unfold rehostOwn ownOrigin
  split
  · rename_i type h
    simp only [h]
    rw [freeOutside_ident]
    by_cases hp : p name <;> by_cases hb : name ∈ bound <;> simp [exposed, hp, hb]
  · rename_i owner h
    simp only [h]
    exact freeOutside_full hg (free_qualifiedMember owner name)
  · rename_i owner method h
    simp only [h, exposed_nil, methodGroup]
    split
    · rename_i ht
      exact freeOutside_full hg (free_of_methodTarget ht)
    · exact freeOutside_eq_nil (by simp [he])
  · rename_i h _ _
    split
    · rename_i type hr
      exact absurd hr (h type)
    · exact freeOutside_eq_nil (by simp [he])

theorem free_of_isThis {e : Expr} (h : isThis e = true) : e.free = [] := by
  unfold isThis at h
  split at h
  · rename_i hu
    rw [← free_unparen, hu, free_of_plain rfl rfl]
    rfl
  · cases h

theorem freeOutside_invoke (t : Expr) (ts : List TypeExpr) (as : List Expr) :
    freeOutside p bound (.invoke t ts as) =
      freeOutside p bound t ++ as.flatMap (freeOutside p bound) := by
  rw [freeOutside, free_invoke, List.filter_append, List.filter_flatMap]
  rfl

theorem exposed_calleeOrigins {callee : Expr} (h : ∀ name, callee ≠ .ident name) :
    exposed p (calleeOrigins m s bound callee) = exposed p (origins m s bound callee) := by
  unfold calleeOrigins
  split
  · exact absurd rfl (h _)
  · rw [origins_member]
    split
    · unfold ownOrigin
      split
      · simp only [exposed, List.filter_cons]
        split <;> rfl
      · rfl
    · rfl
  · rfl

theorem ownMethod?_eq_some {callee : Expr} {owner : TypeDecl} {method : MemberDecl}
    (h : ownMethod? m s bound callee = some (owner, method)) :
    (∃ name, callee = .ident name ∧ name ∉ bound ∧
      reference m s name = .method owner method) ∨
    ∃ target name optional, callee = .member target name optional ∧ isThis target = true ∧
      ownReference? m s name = some (.method owner method) := by
  unfold ownMethod? at h
  dsimp only at h
  split at h
  · rename_i hfound
    cases h
    split at hfound
    · rename_i name
      split at hfound
      · cases hfound
      · rename_i hb
        exact .inl ⟨name, rfl, by simpa using hb, Option.some.inj hfound⟩
    · rename_i target name optional
      split at hfound
      · rename_i ht
        exact .inr ⟨target, name, optional, rfl, ht, hfound⟩
      · cases hfound
    · cases hfound
  · cases h

theorem replacement?_called {name : String} (hb : name ∉ bound)
    (h : ownMethod? m s bound (.ident name) = none) : replacement? m s true name = none := by
  unfold ownMethod? at h
  dsimp only at h
  rw [if_neg (by simpa using hb)] at h
  rw [replacement?]
  cases hr : reference m s name with
  | method owner method =>
      rw [hr] at h
      cases h
  | _ => rfl

theorem exposed_bareOrigin {called : Bool} {name : String}
    (h : name ∉ bound → replacement? m s called name = none) :
    exposed p (bareOrigin m s bound called name) = freeOutside p bound (.ident name) := by
  rw [freeOutside_ident, bareOrigin]
  by_cases hb : name ∈ bound
  · simp [hb]
  · rw [if_neg (by simpa using hb), h hb]
    by_cases hp : p name <;> simp [exposed, hb, hp]

theorem freeOutside_unparen (e : Expr) :
    freeOutside p bound e.unparen = freeOutside p bound e := by
  rw [freeOutside, free_unparen, freeOutside]

theorem flatMap_freeOutside {es : List Expr} {f : Expr → Expr}
    (h : ∀ e ∈ es, freeOutside p bound (f e) = exposed p (origins m s bound e)) :
    (es.attach.map fun e => f e.1).flatMap (freeOutside p bound) =
      exposed p (es.flatMap (origins m s bound)) := by
  rw [List.attach_map_val (f := f), exposed_flatMap, List.flatMap_map]
  exact congrArg List.flatten (List.map_congr_left h)

/-- The free variables of a moved expression are the names of its exposed origins. -/
theorem freeOutside_rehost (hg : ∀ t, p ("global::" ++ t) = false) {e : Expr}
    (hi : Outer (Inlines m s p) bound e) :
    freeOutside p bound (rehost m s bound e) = exposed p (origins m s bound e) := by
  fun_induction rehost m s bound e with
  | case1 bound name h =>
      rw [origins_ident, bareOrigin, if_pos h, freeOutside_ident, h]
      rfl
  | case2 bound name h =>
      have hb : name ∉ bound := by simpa using h
      rw [origins_ident]
      exact freeOutside_rehostName hg hb (hi name (by simp) hb)
  | case3 bound target name optional h =>
      rw [origins_member, if_pos h]
      exact freeOutside_rehostOwn hg false (by rw [free_member, free_of_isThis h])
  | case4 bound target name optional h ih =>
      rw [origins_member, if_neg h, ← ih (hi.part (by simp [children]) rfl), freeOutside,
        free_member]
      rfl
  | case5 bound target typeArgs args args' owner method hown callee hcallee ih =>
      have hargs := flatMap_freeOutside (f := rehost m s bound) fun a ha =>
        ih ⟨a, ha⟩ (hi.part (List.mem_cons_of_mem _ ha) rfl)
      have hcalled : exposed p (calleeOrigins m s bound target.unparen) = [] := by
        rcases ownMethod?_eq_some hown with ⟨name, hu, hb, hr⟩ | ⟨_, name, _, hu, ht, hr⟩
        · have hr : replacement? m s true name = some callee := by
            rw [replacement?, hr]
            dsimp only
            rw [hcallee]
            rfl
          rw [hu, calleeOrigins, bareOrigin, if_neg (by simpa using hb), hr]
          rfl
        · rw [hu, calleeOrigins, if_pos ht, ownOrigin, hr]
          rfl
      rw [freeOutside_invoke, origins_invoke, exposed_append, hcalled,
        freeOutside_full hg (free_of_methodTarget hcallee), hargs]
  | case6 bound target typeArgs args args' owner method hown reason hreason ih =>
      have hargs := flatMap_freeOutside (f := rehost m s bound) fun a ha =>
        ih ⟨a, ha⟩ (hi.part (List.mem_cons_of_mem _ ha) rfl)
      have hcalled : exposed p (calleeOrigins m s bound target.unparen) =
          freeOutside p bound target := by
        rw [← freeOutside_unparen]
        rcases ownMethod?_eq_some hown with ⟨name, hu, hb, hr⟩ | ⟨_, name, _, hu, ht, hr⟩
        · rw [hu, calleeOrigins, exposed_bareOrigin]
          intro _
          rw [replacement?, hr]
          dsimp only
          rw [hreason]
          rfl
        · rw [hu, calleeOrigins, if_pos ht, ownOrigin, hr, freeOutside, free_member,
            free_of_isThis ht]
          rfl
      rw [freeOutside, free_marked, ← freeOutside, freeOutside_invoke, origins_invoke,
        exposed_append, hcalled, hargs]
  | case7 bound target typeArgs args args' hown name hu ih =>
      have hargs := flatMap_freeOutside (f := rehost m s bound) fun a ha =>
        ih ⟨a, ha⟩ (hi.part (List.mem_cons_of_mem _ ha) rfl)
      rw [freeOutside_invoke, origins_invoke, exposed_append, hu, calleeOrigins,
        exposed_bareOrigin (replacement?_called · (hu ▸ hown)), ← hu, freeOutside_unparen, hargs]
  | case8 bound target typeArgs args args' hown hn ih ihcallee =>
      have hargs := flatMap_freeOutside (f := rehost m s bound) fun a ha =>
        ih ⟨a, ha⟩ (hi.part (List.mem_cons_of_mem _ ha) rfl)
      have htarget := hi.part (show target ∈ _ from List.mem_cons_self) rfl
      rw [freeOutside_invoke, origins_invoke, exposed_append, exposed_calleeOrigins hn,
        ihcallee htarget.unparen, hargs]
  | case9 bound params body ih =>
      rw [origins_lambda, ← ih hi.body, freeOutside, free_lambda, List.filter_filter]
      refine List.filter_congr fun n _ => ?_
      by_cases hb : n ∈ bound <;> by_cases hp : n ∈ params <;> simp [hb, hp]
  | case10 bound e hid hm hc hl ih =>
      have hv : e.ownVariable = [] := by
        cases e with
        | ident name => exact absurd rfl (hid name)
        | _ => rfl
      have hp := ownParameters_eq_nil hl
      rw [origins_other hid hm hc hl, freeOutside, free_of_plain (by simpa using hv)
        (by simpa using hp), children_withChildren _ _ (by simp), List.filter_flatMap]
      exact flatMap_freeOutside (f := rehost m s bound) fun c hc => ih ⟨c, hc⟩ (hi.part hc hp)

end Capture

end Projection
