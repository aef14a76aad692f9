import Projection.Proofs.Capture.Origins

/-!
What the names of a moved projection refer to. A member that is taken from behind `this` stays what
it was exactly when no lambda around it has a parameter of its name and no variable of that name is
named next to it.
-/

namespace Projection

open Projection.Expr

/-- The lambda behind a shape. -/
theorem Shape.eq_of_ofLambda {lambda : Expr} {typeArgs : List TypeExpr} {shape : Shape}
    (h : ofLambda lambda typeArgs = .ok shape) :
    ∃ body, lambda.unparen = .lambda shape.parameters body ∧ shape.body = body.unparen ∧
      shape.body.ownParameters = [] ∧ ∀ a ∈ shape.constructorArgs, a ∈ shape.body.children := by
  unfold ofLambda at h
  split at h
  · cases h
  · rename_i p ps body hu
    split at h
    · rename_i members hb
      cases hk : literalKind typeArgs with
      | error reason =>
          rw [hk] at h
          cases h
      | ok kind =>
          rw [hk] at h
          cases h
          exact ⟨body, hu, hb.symm, rfl, nofun⟩
    · rename_i type args initializers hb
      cases h
      refine ⟨body, hu, hb.symm, rfl, fun a ha => ?_⟩
      cases initializers <;> simp [children, ha]
    · cases h
  · cases h

namespace Capture

variable {m : Model} {s : Scope} {bound : List String}

theorem exists_member_of_ownReference? {name type : String}
    (h : ownReference? m s name = some (.capture type)) :
    ∃ owner decl, m.ownSymbol? s name = some (.member owner decl) := by
  rw [ownReference?_eq] at h
  obtain ⟨symbol, hsymbol, -⟩ := Option.map_eq_some_iff.1 h
  obtain ⟨owner, -, hdecl⟩ := Option.bind_eq_some_iff.1 hsymbol
  obtain ⟨decl, -, rfl⟩ := Option.map_eq_some_iff.1 hdecl
  exact ⟨owner, decl, hsymbol⟩

def Origin.isVariable (o : Origin) : Bool :=
  match o.symbol with
  | some (.variable _) => true
  | _ => false

/-- Where no variable hides it, a member of the enclosing type is what its bare name stands for. -/
theorem symbol?_eq_ownSymbol? {name type : String}
    (h : ownReference? m s name = some (.capture type))
    {called : Bool}
    (hv : (Origin.mk name (m.symbol? s name) false called false).isVariable = false) :
    m.symbol? s name = m.ownSymbol? s name := by
  obtain ⟨owner, decl, hown⟩ := exists_member_of_ownReference? h
  cases hl : s.local? name with
  | none => rw [Model.symbol?_of_not_local hl hown, hown]
  | some l =>
      have hs : m.symbol? s name = some (.variable l) := by rw [Model.symbol?, hl]
      rw [Origin.isVariable, hs] at hv
      cases hv

theorem origins_unparen (m : Model) (s : Scope) (bound : List String) (e : Expr) :
    origins m s bound e.unparen = origins m s bound e := by
  fun_induction unparen e with
  | case1 e ih =>
      rw [ih, origins_other (e := .paren e) (by simp) (by simp) (by simp) (by simp)]
      simp [children]
  | case2 => rfl

/-- The uses of the body of a projection are those of the whole lambda. -/
theorem uses_of_shape {lambda : Expr} {typeArgs : List TypeExpr} {shape : Shape}
    (h : Shape.ofLambda lambda typeArgs = .ok shape) (m : Model) (s : Scope) :
    uses m s shape.parameters shape.body = (origins m s [] lambda).flatMap Origin.uses := by
  obtain ⟨body, hu, hb, -⟩ := Shape.eq_of_ofLambda h
  rw [uses_eq, hb, origins_unparen, ← origins_unparen m s [] lambda, hu, origins_lambda,
    List.nil_append]

end Capture

namespace Captures

open Capture

variable {uses : List (String × String)} {declared : Option (List String)}

theorem entries_ofUses (uses : List (String × String)) (declared : Option (List String)) :
    (ofUses uses declared).entries =
      (Ordered.ofList (uses.map (·.1))).map fun name => (name, typeOf uses name) := by
  cases declared <;> rfl

theorem mem_names_ofUses {name : String} :
    name ∈ (ofUses uses declared).names ↔ ∃ type, (name, type) ∈ uses := by
  rw [names, entries_ofUses, List.map_map]
  simp [Ordered.mem_ofList]

/-- A name is recorded with the type of one of its uses. -/
theorem mem_of_mem_entries {p : String × String} (h : p ∈ (ofUses uses declared).entries) :
    p ∈ uses := by
  rw [entries_ofUses] at h
  obtain ⟨name, hn, rfl⟩ := List.mem_map.1 h
  obtain ⟨u, hu, rfl⟩ := List.mem_map.1 (Ordered.mem_ofList.1 hn)
  rw [typeOf]
  cases hl : uses.reverse.lookup u.1 with
  | none =>
      have hne := List.lookup_eq_none_iff.1 hl u (List.mem_reverse.2 hu)
      simp at hne
  | some type => exact List.mem_reverse.1 (Typing.mem_of_lookup hl)

def origins (c : Captures) (m : Model) (s : Scope) (lambda : Expr) : List Origin :=
  (Capture.origins m s [] lambda).filter (·.name ∈ c.names)

/-- Each of the names that are handed in stands for one symbol, of the recorded type: at every place
in the moved lambda it stands for what is named at this place of the lambda as it was written. -/
structure Denotes (c : Captures) (m : Model) (s : Scope) (lambda : Expr)
    (symbolOf : String → Option Symbol) : Prop where
  types : ∀ p ∈ c.entries, (symbolOf p.1).bind Symbol.type? = some p.2
  places : (c.origins m s lambda).map (fun o => (o.name, o.symbol)) =
    ((rehost m s [] lambda).free.filter (· ∈ c.names)).map fun name => (name, symbolOf name)

variable {m : Model} {s : Scope} {lambda : Expr} {typeArgs : List TypeExpr} {shape : Shape}

theorem Denotes.symbol_eq {c : Captures} {symbolOf : String → Option Symbol}
    (h : c.Denotes m s lambda symbolOf) {o : Origin} (ho : o ∈ c.origins m s lambda) :
    o.symbol = symbolOf o.name := by
  have hmem := List.mem_map_of_mem (f := fun o : Origin => (o.name, o.symbol)) ho
  rw [h.places] at hmem
  obtain ⟨name, -, hname⟩ := List.mem_map.1 hmem
  obtain ⟨hn, hs⟩ := Prod.mk.inj hname
  rw [← hs, hn]

/-- What a name is recorded with is what one of its origins stands for. -/
theorem exists_origin_of_mem_entries (h : Shape.ofLambda lambda typeArgs = .ok shape)
    {p : String × String} (hp : p ∈ (ofShape m s shape declared).entries) :
    ∃ o ∈ (ofShape m s shape declared).origins m s lambda,
      o.name = p.1 ∧ o.symbol.bind Symbol.type? = some p.2 := by
  have hmem := mem_of_mem_entries hp
  rw [uses_of_shape h] at hmem
  obtain ⟨o, ho, hmem⟩ := List.mem_flatMap.1 hmem
  unfold Origin.uses at hmem
  split at hmem
  · cases hmem
  · unfold captured at hmem
    split at hmem
    · rename_i type hr
      cases List.mem_singleton.1 hmem
      refine ⟨o, List.mem_filter.2 ⟨ho, ?_⟩, rfl, ?_⟩
      · exact decide_eq_true (List.mem_map.2 ⟨_, hp, rfl⟩)
      · unfold Origin.reference at hr
        cases hs : o.symbol with
        | none =>
            rw [hs] at hr
            cases hr
        | some symbol =>
            rw [hs] at hr
            exact Symbol.type?_of_capture (Option.some.inj hr)
    · cases hmem

/-- The moved lambda has the names of the origins that nothing hides. -/
theorem filter_free_rehost
    (hg : ∀ t, "global::" ++ t ∉ (ofShape m s shape declared).names)
    (hi : ∀ n ∈ lambda.free, ∀ value, inlined? m s n = some value →
      ∀ k ∈ value.free, k ∉ (ofShape m s shape declared).names) :
    (rehost m s [] lambda).free.filter (· ∈ (ofShape m s shape declared).names) =
      (((ofShape m s shape declared).origins m s lambda).filter (!·.hidden)).map (·.name) := by
  have hfree := @freeOutside_rehost m s []
    (fun n => decide (n ∈ (ofShape m s shape declared).names))
    (fun t => decide_eq_false (hg t)) lambda
    (fun n hn _ value hv k hk => decide_eq_false (hi n hn value hv k hk))
  simpa [freeOutside, exposed, origins, List.filter_filter] using hfree

/-- Names behind `this` stay apart from variables: then a name stands for one symbol. -/
theorem symbol_eq_of_apart {c : Captures}
    (hapart : ∀ o ∈ c.origins m s lambda, o.own = true →
      ∀ o' ∈ c.origins m s lambda, o'.name = o.name → o'.isVariable = false)
    {o o' : Origin} (ho : o ∈ c.origins m s lambda) (ho' : o' ∈ c.origins m s lambda)
    (hn : o'.name = o.name) : o'.symbol = o.symbol := by
  have hfrom := from_of_mem_origins o (List.mem_filter.1 ho).1
  have hfrom' := from_of_mem_origins o' (List.mem_filter.1 ho').1
  cases hfrom with
  | bare =>
      cases hfrom' with
      | bare =>
          cases hn
          rfl
      | own hr =>
          cases hn
          exact (symbol?_eq_ownSymbol? hr (hapart _ ho' rfl _ ho rfl)).symm
  | own hr =>
      cases hfrom' with
      | bare =>
          cases hn
          exact symbol?_eq_ownSymbol? hr (hapart _ ho rfl _ ho' rfl)
      | own =>
          cases hn
          rfl

def symbolOf (os : List Origin) (name : String) : Option Symbol :=
  (os.find? (·.name == name)).bind (·.symbol)

theorem symbolOf_eq {c : Captures}
    (hapart : ∀ o ∈ c.origins m s lambda, o.own = true →
      ∀ o' ∈ c.origins m s lambda, o'.name = o.name → o'.isVariable = false)
    {o : Origin} (ho : o ∈ c.origins m s lambda) :
    symbolOf (c.origins m s lambda) o.name = o.symbol := by
  cases hf : (c.origins m s lambda).find? (·.name == o.name) with
  | none =>
      have hne := List.find?_eq_none.1 hf o ho
      simp at hne
  | some o' =>
      rw [symbolOf, hf]
      exact symbol_eq_of_apart hapart ho (List.mem_of_find?_eq_some hf)
        (by simpa using List.find?_some hf)

/-- Moving a projection keeps what the names that are handed in stand for exactly when no member
behind `this` comes under a lambda with a parameter of its name, and none has the name of a
variable that stays bare. -/
theorem rehost_keeps_references_iff (h : Shape.ofLambda lambda typeArgs = .ok shape)
    (hg : ∀ t, "global::" ++ t ∉ (ofShape m s shape declared).names)
    (hi : ∀ n ∈ lambda.free, ∀ value, inlined? m s n = some value →
      ∀ k ∈ value.free, k ∉ (ofShape m s shape declared).names) :
    (∃ symbolOf, (ofShape m s shape declared).Denotes m s lambda symbolOf) ↔
      (∀ o ∈ (ofShape m s shape declared).origins m s lambda, o.own = true → o.hidden = false) ∧
      ∀ o ∈ (ofShape m s shape declared).origins m s lambda, o.own = true →
        ∀ o' ∈ (ofShape m s shape declared).origins m s lambda, o'.name = o.name →
          o'.isVariable = false := by
  constructor
  · rintro ⟨symbolOf, hdenotes⟩
    have hlength := congrArg List.length hdenotes.places
    rw [filter_free_rehost hg hi, List.length_map, List.length_map, List.length_map] at hlength
    have hvisible := List.length_filter_eq_length_iff.1 hlength.symm
    refine ⟨fun o ho _ => by simpa using hvisible o ho, fun o ho hown o' ho' hn => ?_⟩
    have hfrom := from_of_mem_origins o (List.mem_filter.1 ho).1
    cases hfrom with
    | bare => cases hown
    | own hr =>
        obtain ⟨owner, decl, hmember⟩ := exists_member_of_ownReference? hr
        rw [Origin.isVariable, hdenotes.symbol_eq ho', hn, ← hdenotes.symbol_eq ho, hmember]
  · rintro ⟨hvisible, hapart⟩
    refine ⟨symbolOf ((ofShape m s shape declared).origins m s lambda), ?_, ?_⟩
    · intro p hp
      obtain ⟨o, ho, hn, ht⟩ := exists_origin_of_mem_entries h hp
      rw [← hn, symbolOf_eq hapart ho, ht]
    · have hall : ∀ o ∈ (ofShape m s shape declared).origins m s lambda,
          (!o.hidden) = true := by
        intro o ho
        have hfrom := from_of_mem_origins o (List.mem_filter.1 ho).1
        cases hfrom with
        | bare => rfl
        | own hr => rw [hvisible _ ho rfl]; rfl
      rw [filter_free_rehost hg hi, List.filter_eq_self.2 hall, List.map_map]
      exact List.map_congr_left fun o ho => by
        rw [Function.comp_apply, symbolOf_eq hapart ho]

def query : Model :=
  .ofTypes [⟨"Query", none, .class, [⟨"limit", .field, "string", false, false, .private⟩]⟩]

def inQuery (locals : List Local) : Scope := ⟨locals, some "Query"⟩

def pairOf (a b : Expr) : Expr := .lambda ["x"] (.anonymous [⟨some "A", a⟩, ⟨some "B", b⟩])

def ownLimit : Expr := Expr.this.dot "limit"

def itemsWhere (parameter : String) (body : Expr) : Expr :=
  (((Expr.ident "x").dot "Items").dot "Where").call [.lambda [parameter] body]

/-- `x => new …` with `A = top + rate` and `B = x.Items.Where(i => this.limit < rate)`. -/
def limited : Expr :=
  pairOf (.binary .add (.ident "top") (.ident "rate"))
    (itemsWhere "i" (.binary .lt ownLimit (.ident "rate")))

def limitedScope : Scope :=
  inQuery [⟨"rate", .variable, "int", false, none⟩, ⟨"top", .variable, "int", true, some "10"⟩]

theorem full_name_not_mem {names : List String} (h : ∀ n ∈ names, n.toList.head? ≠ some 'g')
    (t : String) : "global::" ++ t ∉ names :=
  fun ht => h _ ht (by simp)

/-- Where the constants of a lambda have values without names, nothing is inlined that has one. -/
theorem not_mem_free_of_closed
    (h : ∀ n ∈ lambda.free, ((inlined? m s n).map free).getD [] = []) :
    ∀ n ∈ lambda.free, ∀ value, inlined? m s n = some value → ∀ k, k ∉ value.free := by
  intro n hn value hv k hk
  have hvalue : value.free = [] := by simpa [hv] using h n hn
  rw [hvalue] at hk
  cases hk

theorem rehost_keeps_references_iff_constant_and_member :
    ∃ shape, Shape.ofLambda limited [] = .ok shape ∧
      (ofShape query limitedScope shape none).entries = [("limit", "string"), ("rate", "int")] ∧
      ∃ symbolOf, (ofShape query limitedScope shape none).Denotes query limitedScope limited
        symbolOf := by
  refine ⟨_, rfl, by decide +kernel, ?_⟩
  refine (rehost_keeps_references_iff (show Shape.ofLambda limited [] = .ok _ from rfl)
    (full_name_not_mem (by decide +kernel)) ?_).2 ⟨by decide +kernel, by decide +kernel⟩
  intro n hn value hv k hk
  exact absurd hk (not_mem_free_of_closed (by decide +kernel) n hn value hv k)

def limitScope : Scope := inQuery [⟨"limit", .variable, "int", false, none⟩]

/-- `x => new …` with `A = limit` and `B = this.limit`. -/
def bothLimits : Expr := pairOf (.ident "limit") ownLimit

/-- `x => new …` with `A = x.Id` and `B = x.Items.Where(limit => this.limit < limit)`. -/
def hiddenLimit : Expr :=
  pairOf ((Expr.ident "x").dot "Id") (itemsWhere "limit" (.binary .lt ownLimit (.ident "limit")))

/-- Next to a variable of its name, and under a lambda with a parameter of its name, a member from
behind `this` is taken for something else. -/
theorem references_merged_and_hidden :
    (∃ shape, Shape.ofLambda bothLimits [] = .ok shape ∧
      (ofShape query limitScope shape none).names = ["limit"] ∧
      ∀ symbolOf,
        ¬ (ofShape query limitScope shape none).Denotes query limitScope bothLimits symbolOf) ∧
    ∃ shape, Shape.ofLambda hiddenLimit [] = .ok shape ∧
      (ofShape query (inQuery []) shape none).names = ["limit"] ∧
      ∀ symbolOf,
        ¬ (ofShape query (inQuery []) shape none).Denotes query (inQuery []) hiddenLimit
          symbolOf := by
  refine ⟨⟨_, rfl, by decide +kernel, fun symbolOf h => ?_⟩,
    ⟨_, rfl, by decide +kernel, fun symbolOf h => ?_⟩⟩
  · have hbare := h.symbol_eq
      (o := ⟨"limit", query.symbol? limitScope "limit", false, false, false⟩) (by decide +kernel)
    have hown := h.symbol_eq
      (o := ⟨"limit", query.ownSymbol? limitScope "limit", true, false, false⟩) (by decide +kernel)
    exact absurd (hbare.trans hown.symm) (by decide +kernel)
  · have hplaces := congrArg List.length h.places
    rw [List.length_map, List.length_map] at hplaces
    revert hplaces
    decide +kernel

end Captures

end Projection
