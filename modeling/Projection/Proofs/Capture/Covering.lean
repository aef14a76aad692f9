import Projection.Proofs.Capture.Refers
import Projection.Proofs.Lowering.Scoped

/-!
When the names that a lambda was seen to use are all that it needs elsewhere. Symbols say for
themselves whether generated code can name them; the names of the lambda are those that are handed
in, those that need not be, and those that are replaced.
-/

namespace Projection

open Projection.Expr Capture

/-- Whether the member can be named from anywhere: it is static or constant, and accessible.
Constants of an enum always are. -/
def MemberDecl.isReachable (decl : MemberDecl) (owner : TypeDecl) : Bool :=
  (decl.isStatic || decl.isConst) &&
    (decl.visibility.inAssembly || decl.isConst && owner.kind == .enum)

namespace Symbol

/-- Whether generated code has the symbol only if it is handed in: a variable, or a field or
property that cannot be named from anywhere. -/
def needsValue : Symbol → Bool
  | .variable l => !l.isConst
  | .member owner decl =>
      (decl.kind == .field || decl.kind == .property) && !decl.isReachable owner
  | .type _ => false

def value? : Symbol → Option Expr
  | .variable l => if l.isConst then l.value.bind fun text => (Expr.parse text).toOption else none
  | _ => none

theorem needsValue_iff {symbol : Symbol} :
    symbol.needsValue = true ↔ ∃ type, symbol.reference = .capture type := by
  cases symbol with
  | «variable» l =>
      rw [needsValue, reference]
      cases l.isConst <;> simp
  | type t => simp [needsValue, reference]
  | member owner decl =>
      rw [needsValue, reference, memberReference, MemberDecl.isReachable]
      cases decl.kind with
      | method | enumMember => simp
      | property | field =>
          cases decl.isStatic <;> cases decl.isConst <;> cases decl.visibility.inAssembly <;>
            by_cases he : owner.kind = .enum <;> simp [he]

end Symbol

namespace Capture

variable {m : Model} {s : Scope} {n : String}

theorem memberReference_ne_constant (owner : TypeDecl) (decl : MemberDecl)
    (value : Option String) : memberReference owner decl ≠ .constant value := by
  rw [memberReference.eq_def]
  split
  · exact nofun
  · exact nofun
  all_goals split <;> exact nofun

theorem inlined?_eq (m : Model) (s : Scope) (n : String) :
    inlined? m s n = (m.symbol? s n).bind Symbol.value? := by
  rw [inlined?, reference_eq]
  cases m.symbol? s n with
  | none => rfl
  | some symbol =>
      simp only [Option.map_some, Option.getD_some, Option.bind_some]
      cases symbol with
      | «variable» l =>
          rw [Symbol.reference, Symbol.value?]
          cases l.isConst with
          | false => rfl
          | true => cases l.value <;> rfl
      | type t => rfl
      | member owner decl =>
          rw [Symbol.reference, Symbol.value?]
          split
          · rename_i hr
            exact absurd hr (memberReference_ne_constant owner decl _)
          · rfl
          · simp

theorem replacement?_of_inlined? {value : Expr} (h : inlined? m s n = some value) :
    replacement? m s false n = some value := by
  have hv := h
  rw [inlined?] at hv
  split at hv
  · rename_i hr
    rw [replacement?, hr]
    exact h
  · cases hv

/-- Of what is called, constants are not replaced. -/
theorem inlined?_of_called {value : Expr} (h : replacement? m s true n = some value) :
    inlined? m s n = none := by
  rw [replacement?] at h
  split at h
  · rename_i hr
    rw [inlined?, hr]
  all_goals cases h

theorem inlined?_of_no_constants (h : ∀ l ∈ s.locals, l.isConst = false) (n : String) :
    inlined? m s n = none := by
  rw [inlined?_eq, Model.symbol?]
  cases hl : s.local? n with
  | some l =>
      have hconst := h l (List.mem_reverse.1 (List.mem_of_find?_eq_some hl))
      simp [Symbol.value?, hconst]
  | none =>
      dsimp only
      split
      · rename_i found hfound
        obtain ⟨owner, -, hdecl⟩ := Option.bind_eq_some_iff.1 hfound
        obtain ⟨decl, -, rfl⟩ := Option.map_eq_some_iff.1 hdecl
        rfl
      · cases m.type? n <;> rfl

/-- A free variable that is not replaced stays free. -/
theorem mem_free_rehost {e : Expr} (hr : ∀ called, replacement? m s called n = none)
    (hg : ∀ t, "global::" ++ t ≠ n)
    (hi : ∀ k value, inlined? m s k = some value → n ∉ value.free) (hn : n ∈ e.free) :
    n ∈ (rehost m s [] e).free := by
  by_contra hfree
  let others : Allowed := ⟨(· ≠ n), (· ≠ n), fun _ => True⟩
  have hmoved := @freeOutside_rehost m s [] (· == n) (fun t => beq_eq_false_iff_ne.2 (hg t)) e
    fun k _ _ value hv x hx => beq_eq_false_iff_ne.2 fun heq => hi k value hv (heq ▸ hx)
  have hnone : freeOutside (· == n) [] (rehost m s [] e) = [] :=
    freeOutside_eq_nil fun k hk => beq_eq_false_iff_ne.2 fun heq => hfree (heq ▸ hk)
  rw [hmoved] at hnone
  have htree : others.Tree [] e := by
    refine Allowed.tree_of_covers (m := m) (s := s) (fun _ h => h) (fun _ _ => trivial) ?_ ?_
    · intro k _ _ called value hk
      have hne : k ≠ n := by
        rintro rfl
        rw [hr called] at hk
        cases hk
      cases called <;> exact hne
    · intro o ho hhidden
      have hne : o.name ≠ n := by
        simpa [hhidden] using List.filter_eq_nil_iff.1 (List.map_eq_nil_iff.1 hnone) o ho
      rw [Allowed.Covers]
      split
      · trivial
      · split <;> exact hne
  exact Allowed.free_of_tree htree hn List.not_mem_nil rfl

end Capture

def Expr.innerParameters (e : Expr) : List String :=
  match e.unparen with
  | .lambda _ body => body.parameters
  | _ => []

namespace Shape

variable {lambda : Expr} {typeArgs : List TypeExpr} {shape : Shape}

theorem every_body {P : Expr → Prop} (h : ofLambda lambda typeArgs = .ok shape)
    (he : lambda.Every P) : shape.body.Every P := by
  obtain ⟨body, hu, hb, -⟩ := eq_of_ofLambda h
  have hlambda := he.unparen
  rw [hu] at hlambda
  rw [hb]
  exact (hlambda.child (by simp [children])).unparen

theorem under_body {P : List String → Expr → Prop} (h : ofLambda lambda typeArgs = .ok shape)
    (ht : lambda.Under P []) : shape.body.Under P shape.parameters := by
  obtain ⟨body, hu, hb, -⟩ := eq_of_ofLambda h
  have hlambda := ht.unparen
  rw [hu] at hlambda
  rw [hb]
  exact (hlambda.child (by simp [children])).unparen

theorem parameters_body (h : ofLambda lambda typeArgs = .ok shape) :
    shape.body.parameters ⊆ lambda.innerParameters := by
  obtain ⟨body, hu, hb, -⟩ := eq_of_ofLambda h
  rw [innerParameters, hu, hb]
  intro n hn
  obtain ⟨d, hd, hn⟩ := List.mem_flatMap.1 hn
  exact List.mem_flatMap.2 ⟨d, nodes_subset (unparen_mem_nodes body) hd, hn⟩

end Shape

namespace Captures

variable {c : Captures} {m : Model} {s : Scope} {lambda : Expr} {n : String}

/-- Whether a name must not be free in generated code: it has to be handed in and is not, or its
value is to be put in its place. -/
def misses (c : Captures) (m : Model) (s : Scope) (n : String) : Bool :=
  match m.symbol? s n with
  | none => false
  | some symbol => symbol.needsValue && !c.names.contains n || symbol.value?.isSome

theorem misses_eq_false_iff : c.misses m s n = false ↔
    (∀ type, reference m s n = .capture type → n ∈ c.names) ∧ inlined? m s n = none := by
  rw [misses, inlined?_eq, reference_eq]
  cases m.symbol? s n with
  | none => simp
  | some symbol =>
      dsimp only [Option.map_some, Option.getD_some, Option.bind_some]
      rw [Bool.or_eq_false_iff, Option.isSome_eq_false_iff, Option.isNone_iff_eq_none]
      refine and_congr_left fun _ => ?_
      rw [Bool.and_eq_false_imp, Symbol.needsValue_iff]
      simp

/-- Neither a variable nor a member of the enclosing type. -/
theorem misses_of_not_mem (hl : n ∉ s.locals.map (·.name))
    (hm : ∀ owner ∈ m.enclosing? s, n ∉ owner.members.map (·.name)) : c.misses m s n = false := by
  have hlocal : s.local? n = none := by
    refine List.find?_eq_none.2 fun l hmem heq => hl (List.mem_map.2 ⟨l, ?_, ?_⟩)
    · exact List.mem_reverse.1 hmem
    · simpa using heq
  have hmember : m.ownSymbol? s n = none := by
    rw [Model.ownSymbol?, Option.bind_eq_none_iff]
    intro owner howner
    rw [Option.map_eq_none_iff, TypeDecl.member?, List.find?_eq_none]
    exact fun decl hmem heq =>
      hm owner howner (List.mem_map.2 ⟨decl, hmem, by simpa using heq⟩)
  rw [Model.ownSymbol?] at hmember
  rw [misses, Model.symbol?, hlocal]
  dsimp only
  rw [hmember]
  cases m.type? n <;> rfl

/-- Conditions on a lambda under which these names are all that its projection needs. -/
structure Covering (c : Captures) (m : Model) (s : Scope) (lambda : Expr) : Prop where
  /-- What is called need not be handed in, or is handed in for another use. -/
  called : ∀ o ∈ Capture.origins m s [] lambda, o.called = true → o.hidden = false →
    c.misses m s o.name = false
  /-- No member behind `this` has the name of a constant whose value is known. -/
  own : ∀ o ∈ Capture.origins m s [] lambda, o.own = true → o.hidden = false →
    inlined? m s o.name = none
  /-- The values of constants name nothing that would be missed. -/
  constants : ∀ n ∈ lambda.free, ∀ value, inlined? m s n = some value →
    ∀ k ∈ value.free, c.misses m s k = false
  /-- Full names are not taken for variables. -/
  system : c.misses m s "System" = false
  full : ∀ t, c.misses m s ("global::" ++ t) = false
  /-- No selection of objects has a fallback, or else it does not matter which lambda a value comes
  to stand under. -/
  scopes : lambda.Every (·.forks = false) ∨
    lambda.Spelled ∧ ∀ n ∈ lambda.innerParameters, c.misses m s n = false

/-- The names that a lambda may have before it is moved: those that are not missed afterwards, and
constants that are replaced. -/
def allowed (c : Captures) (m : Model) (s : Scope) : Allowed where
  free n := c.misses m s n = false ∨
    ∃ value, inlined? m s n = some value ∧ ∀ k ∈ value.free, c.misses m s k = false
  called n := c.misses m s n = false
  own n := (∃ type, ownReference? m s n = some (.capture type)) → c.misses m s n = false

theorem all_allowed (h : c.misses m s n = false) : (c.allowed m s).All n :=
  ⟨.inl h, h, fun _ => h⟩

theorem misses_of_covers {o : Origin} (ho : o.From m s) (h : (c.allowed m s).Covers o) :
    c.misses m s o.name = false := by
  cases ho with
  | own hr => exact h ⟨_, hr⟩
  | @bare name called hr =>
      cases called with
      | true => exact h
      | false =>
          rcases h with h | ⟨value, hv, -⟩
          · exact h
          · rw [replacement?_of_inlined? hv] at hr
            cases hr

/-- Moving leaves no name that would be missed. -/
theorem misses_of_free_rehost {e : Expr} (hfull : ∀ t, c.misses m s ("global::" ++ t) = false)
    (h : (c.allowed m s).Tree [] e) :
    ∀ n ∈ (rehost m s [] e).free, c.misses m s n = false := by
  have hinlines : Outer (Inlines m s (c.misses m s)) [] e := by
    intro n hn hb value hv
    rcases Allowed.free_of_tree h hn hb with hm | ⟨value', hv', hk⟩
    · rw [(misses_eq_false_iff.1 hm).2] at hv
      cases hv
    · rw [hv'] at hv
      cases hv
      exact hk
  have hexposed : exposed (c.misses m s) (Capture.origins m s [] e) = [] := by
    refine List.map_eq_nil_iff.2 (List.filter_eq_nil_iff.2 fun o ho hm => ?_)
    obtain ⟨hhidden, hm⟩ := Bool.and_eq_true_iff.1 hm
    have hcovers := Allowed.covers_of_tree h o ho (by simpa using hhidden)
    rw [misses_of_covers (from_of_mem_origins o ho) hcovers] at hm
    cases hm
  have hfree := freeOutside_rehost hfull hinlines
  rw [hexposed] at hfree
  intro n hn
  simpa using List.filter_eq_nil_iff.1 hfree n hn

variable {typeArgs : List TypeExpr} {shape : Shape} {declared : Option (List String)}

theorem mem_names_of_origin (h : Shape.ofLambda lambda typeArgs = .ok shape) {o : Origin}
    (ho : o ∈ Capture.origins m s [] lambda) (hc : o.called = false) (type : String)
    (hr : o.reference = .capture type) : o.name ∈ (ofShape m s shape declared).names := by
  refine mem_names_ofUses.2 ⟨type, ?_⟩
  rw [uses_of_shape h]
  refine List.mem_flatMap.2 ⟨o, ho, ?_⟩
  rw [Origin.uses, hc, hr]
  exact List.mem_singleton_self _

namespace Covering

/-- The names of a lambda that stay bare are handed in or need not be. -/
theorem misses_of_origin (h : Shape.ofLambda lambda typeArgs = .ok shape)
    (hc : (ofShape m s shape declared).Covering m s lambda) {o : Origin}
    (ho : o ∈ Capture.origins m s [] lambda) (hhidden : o.hidden = false) :
    (ofShape m s shape declared).misses m s o.name = false := by
  cases hcalled : o.called with
  | true => exact hc.called o ho hcalled hhidden
  | false =>
      have hfrom := from_of_mem_origins o ho
      cases hfrom with
      | @bare name called hr =>
          cases hcalled
          refine misses_eq_false_iff.2 ⟨fun type ht => mem_names_of_origin h ho rfl type ?_, ?_⟩
          · rw [← ht, reference_eq]
            rfl
          · cases hv : inlined? m s name with
            | none => rfl
            | some value =>
                rw [replacement?_of_inlined? hv] at hr
                cases hr
      | @own name type _ _ hr =>
          refine misses_eq_false_iff.2 ⟨fun _ _ => mem_names_of_origin h ho hcalled type ?_,
            hc.own _ ho rfl hhidden⟩
          rw [ownReference?_eq] at hr
          rw [Origin.reference, hr]
          rfl

/-- A name that is replaced is not missed, unless it is a constant. -/
theorem allowed_of_replacement? (hc : c.Covering m s lambda) (hn : n ∈ lambda.free) {called : Bool}
    {value : Expr} (hr : replacement? m s called n = some value) :
    if called then (c.allowed m s).called n else (c.allowed m s).free n := by
  have hcapture := reference_ne_capture_of_replacement? hr
  have hmisses (hv : inlined? m s n = none) : c.misses m s n = false :=
    misses_eq_false_iff.2 ⟨fun type ht => absurd ht (hcapture type), hv⟩
  cases called with
  | true => exact hmisses (inlined?_of_called hr)
  | false =>
      cases hv : inlined? m s n with
      | none => exact .inl (hmisses hv)
      | some value => exact .inr ⟨value, hv, hc.constants n hn value hv⟩

/-- All names of the lambda as it is written are allowed. -/
theorem tree_lambda (h : Shape.ofLambda lambda typeArgs = .ok shape)
    (hc : (ofShape m s shape declared).Covering m s lambda) :
    ((ofShape m s shape declared).allowed m s).Tree [] lambda := by
  refine Allowed.tree_of_covers (m := m) (s := s) (fun n hn => .inl hn) ?_ ?_ ?_
  · intro n hn ⟨type, ht⟩
    exact absurd ht (hn type)
  · exact fun n hn _ called value hr => hc.allowed_of_replacement? hn hr
  · intro o ho hhidden
    have hm := misses_of_origin h hc ho hhidden
    rw [Allowed.Covers]
    split
    · exact fun _ => hm
    · split
      · exact hm
      · exact .inl hm

end Covering

end Captures

end Projection
