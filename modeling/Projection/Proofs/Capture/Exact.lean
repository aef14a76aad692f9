import Projection.Proofs.Capture.Refers

/-!
The names that a projection takes from its surroundings, by the places where they stand. A name is
taken where it stands free and is not called, or behind `this` and is not called, and has to be
handed in; in what order and how often does not matter.
-/

namespace Projection

namespace Capture

open Projection.Expr

/-- `Place start e bound called x` says that `x` stands in `e`, under lambdas of `e` with the
parameters `bound`, and whether it is what a call calls. Parentheses around what is called do not
count. `start` says this of `e` itself. -/
inductive Place : Bool → Expr → List String → Bool → Expr → Prop
  | here {start : Bool} {e : Expr} : Place start e [] start e
  | callee {start called : Bool} {target x : Expr} {typeArgs : List TypeExpr} {args : List Expr}
      {bound : List String} :
      Place true target bound called x → Place start (.invoke target typeArgs args) bound called x
  | argument {start called : Bool} {target a x : Expr} {typeArgs : List TypeExpr}
      {args : List Expr} {bound : List String} :
      a ∈ args → Place false a bound called x →
      Place start (.invoke target typeArgs args) bound called x
  | paren {start called : Bool} {e x : Expr} {bound : List String} :
      Place start e bound called x → Place start (.paren e) bound called x
  | body {start called : Bool} {e x : Expr} {params bound : List String} :
      Place false e bound called x → Place start (.lambda params e) (params ++ bound) called x
  /-- All other forms. -/
  | child {start called : Bool} {e c x : Expr} {bound : List String} :
      (∀ target typeArgs args, e ≠ .invoke target typeArgs args) → (∀ inner, e ≠ .paren inner) →
      (∀ params inner, e ≠ .lambda params inner) → c ∈ e.children →
      Place false c bound called x → Place start e bound called x

/-- The node takes the name, which has to be handed in with this type: it is the bare name, and no
lambda around it binds it, or the name behind `this`. -/
inductive Taking (m : Model) (s : Scope) (bound : List String) (name type : String) : Expr → Prop
  | bare : name ∉ bound → reference m s name = .capture type →
      Taking m s bound name type (.ident name)
  | own {target : Expr} {optional : Bool} : target.unparen = .this →
      ownReference? m s name = some (.capture type) →
      Taking m s bound name type (.member target name optional)

/-- Somewhere in `e`, under lambdas with the parameters `outer`, a node that is not called takes the
name. -/
def Takes (m : Model) (s : Scope) (outer : List String) (start : Bool) (e : Expr)
    (name type : String) : Prop :=
  ∃ bound x, Place start e bound false x ∧ Taking m s (outer ++ bound) name type x

variable {m : Model} {s : Scope} {outer : List String} {start : Bool} {name type : String}

theorem isThis_iff {e : Expr} : isThis e = true ↔ e.unparen = .this := by
  unfold isThis
  split <;> simp_all

theorem taking_ident {bound : List String} {x : String} :
    Taking m s bound name type (.ident x) ↔
      x = name ∧ name ∉ bound ∧ reference m s name = .capture type := by
  constructor
  · rintro ⟨hfree, href⟩
    exact ⟨rfl, hfree, href⟩
  · rintro ⟨rfl, hfree, href⟩
    exact .bare hfree href

theorem taking_member {bound : List String} {target : Expr} {x : String} {optional : Bool} :
    Taking m s bound name type (.member target x optional) ↔
      target.unparen = .this ∧ x = name ∧ ownReference? m s name = some (.capture type) := by
  constructor
  · intro h
    cases h with
    | own hthis href => exact ⟨hthis, rfl, href⟩
  · rintro ⟨hthis, rfl, href⟩
    exact .own hthis href

theorem takes_ident (x : String) : Takes m s outer start (.ident x) name type ↔
    start = false ∧ Taking m s outer name type (.ident x) := by
  constructor
  · rintro ⟨bound, x, hplace, htaking⟩
    cases hplace with
    | here => exact ⟨rfl, by simpa using htaking⟩
    | child _ _ _ hc => cases hc
  · rintro ⟨rfl, htaking⟩
    exact ⟨[], _, .here, by simpa using htaking⟩

theorem takes_member (target : Expr) (x : String) (optional : Bool) :
    Takes m s outer start (.member target x optional) name type ↔
      (start = false ∧ Taking m s outer name type (.member target x optional)) ∨
        Takes m s outer false target name type := by
  constructor
  · rintro ⟨bound, y, hplace, htaking⟩
    cases hplace with
    | here => exact .inl ⟨rfl, by simpa using htaking⟩
    | child _ _ _ hc hplace =>
        cases List.mem_singleton.1 hc
        exact .inr ⟨bound, y, hplace, htaking⟩
  · rintro (⟨rfl, htaking⟩ | ⟨bound, y, hplace, htaking⟩)
    · exact ⟨[], _, .here, by simpa using htaking⟩
    · exact ⟨bound, y, .child (by simp) (by simp) (by simp) (by simp [children]) hplace, htaking⟩

theorem takes_invoke (target : Expr) (typeArgs : List TypeExpr) (args : List Expr) :
    Takes m s outer start (.invoke target typeArgs args) name type ↔
      Takes m s outer true target name type ∨ ∃ a ∈ args, Takes m s outer false a name type := by
  constructor
  · rintro ⟨bound, x, hplace, htaking⟩
    cases hplace with
    | here => cases htaking
    | callee hplace => exact .inl ⟨bound, x, hplace, htaking⟩
    | argument ha hplace => exact .inr ⟨_, ha, bound, x, hplace, htaking⟩
    | child hi => exact absurd rfl (hi _ _ _)
  · rintro (⟨bound, x, hplace, htaking⟩ | ⟨a, ha, bound, x, hplace, htaking⟩)
    · exact ⟨bound, x, .callee hplace, htaking⟩
    · exact ⟨bound, x, .argument ha hplace, htaking⟩

theorem takes_lambda (params : List String) (e : Expr) :
    Takes m s outer start (.lambda params e) name type ↔
      Takes m s (outer ++ params) false e name type := by
  constructor
  · rintro ⟨bound, x, hplace, htaking⟩
    cases hplace with
    | here => cases htaking
    | body hplace => exact ⟨_, x, hplace, by rwa [List.append_assoc]⟩
    | child _ _ hl => exact absurd rfl (hl _ _)
  · rintro ⟨bound, x, hplace, htaking⟩
    exact ⟨params ++ bound, x, .body hplace, by rwa [← List.append_assoc]⟩

theorem takes_paren (e : Expr) :
    Takes m s outer start (.paren e) name type ↔ Takes m s outer start e name type := by
  constructor
  · rintro ⟨bound, x, hplace, htaking⟩
    cases hplace with
    | here => cases htaking
    | paren hplace => exact ⟨bound, x, hplace, htaking⟩
    | child _ hp => exact absurd rfl (hp _)
  · rintro ⟨bound, x, hplace, htaking⟩
    exact ⟨bound, x, .paren hplace, htaking⟩

theorem takes_unparen (e : Expr) :
    Takes m s outer start e.unparen name type ↔ Takes m s outer start e name type := by
  fun_induction unparen e with
  | case1 e ih => rw [ih, takes_paren]
  | case2 => rfl

/-- All other forms take what their children take, be they called or not. -/
theorem takes_other {e : Expr} (hn : ∀ x, e ≠ .ident x)
    (hm : ∀ target x optional, e ≠ .member target x optional)
    (hi : ∀ target typeArgs args, e ≠ .invoke target typeArgs args)
    (hl : ∀ params inner, e ≠ .lambda params inner) (hp : ∀ inner, e ≠ .paren inner) :
    Takes m s outer start e name type ↔
      ∃ c ∈ e.children, Takes m s outer false c name type := by
  constructor
  · rintro ⟨bound, x, hplace, htaking⟩
    cases hplace with
    | here =>
        cases htaking with
        | bare => exact absurd rfl (hn _)
        | own => exact absurd rfl (hm _ _ _)
    | callee => exact absurd rfl (hi _ _ _)
    | argument => exact absurd rfl (hi _ _ _)
    | paren => exact absurd rfl (hp _)
    | body => exact absurd rfl (hl _ _)
    | child _ _ _ hc hplace => exact ⟨_, hc, bound, x, hplace, htaking⟩
  · rintro ⟨c, hc, bound, x, hplace, htaking⟩
    exact ⟨bound, x, .child hi hp hl hc hplace, htaking⟩

theorem not_takes_this {e : Expr} (h : e.unparen = .this) :
    ¬ Takes m s outer start e name type := by
  rw [← takes_unparen, h, takes_other (by simp) (by simp) (by simp) (by simp) (by simp)]
  simp [children]

theorem mem_captured {x : String} {r : Option Reference} :
    (name, type) ∈ captured x r ↔ x = name ∧ r = some (.capture type) := by
  unfold captured
  split
  · simp [eq_comm]
  · rename_i h
    simp only [List.not_mem_nil, false_iff, not_and]
    rintro - rfl
    exact h type rfl

theorem unparen_ne_paren (e inner : Expr) : e.unparen ≠ .paren inner := by
  fun_induction unparen e with
  | case1 e ih => exact ih
  | case2 e h => exact h inner

/-- Only for a name it matters whether it is called. -/
theorem takes_start {e : Expr} (hn : ∀ x, e ≠ .ident x)
    (hm : ∀ target x optional, e ≠ .member target x optional) (hp : ∀ inner, e ≠ .paren inner) :
    Takes m s outer true e name type ↔ Takes m s outer false e name type := by
  cases e with
  | ident x => exact absurd rfl (hn x)
  | member target x optional => exact absurd rfl (hm target x optional)
  | paren inner => exact absurd rfl (hp inner)
  | invoke target typeArgs args => rw [takes_invoke, takes_invoke]
  | lambda params body => rw [takes_lambda, takes_lambda]
  | _ => rw [takes_other hn hm (by simp) (by simp) hp, takes_other hn hm (by simp) (by simp) hp]

/-- What is called takes as much as its parts: the name of a method is no use. -/
theorem takes_callee (target : Expr) : Takes m s outer true target name type ↔
    match target.unparen with
    | .ident _ => False
    | .member receiver _ _ =>
        isThis receiver = false ∧ Takes m s outer false receiver name type
    | callee => Takes m s outer false callee name type := by
  rw [← takes_unparen]
  split
  · rename_i x hu
    rw [hu, takes_ident]
    simp
  · rename_i receiver x optional hu
    rw [hu, takes_member]
    cases hthis : isThis receiver with
    | false => simp
    | true => simp [not_takes_this (isThis_iff.1 hthis)]
  · rename_i hn hm
    exact takes_start hn hm (unparen_ne_paren target)

/-- The uses of an expression are what its nodes take. -/
theorem mem_uses (e : Expr) :
    (name, type) ∈ uses m s outer e ↔ Takes m s outer false e name type := by
  fun_induction uses m s outer e with
  | case1 outer x h =>
      rw [takes_ident, taking_ident]
      simp only [List.not_mem_nil, true_and, false_iff]
      rintro ⟨rfl, hfree, -⟩
      exact hfree (List.contains_iff_mem.1 h)
  | case2 outer x h =>
      rw [takes_ident, taking_ident, mem_captured]
      have hx : x ∉ outer := fun hmem => h (List.contains_iff_mem.2 hmem)
      constructor
      · rintro ⟨rfl, href⟩
        exact ⟨rfl, rfl, hx, Option.some.inj href⟩
      · rintro ⟨-, rfl, -, href⟩
        exact ⟨rfl, congrArg some href⟩
  | case3 outer target x optional h =>
      have hthis := isThis_iff.1 h
      rw [takes_member, taking_member, mem_captured]
      constructor
      · rintro ⟨rfl, href⟩
        exact .inl ⟨rfl, hthis, rfl, href⟩
      · rintro (⟨-, -, rfl, href⟩ | htakes)
        · exact ⟨rfl, href⟩
        · exact absurd htakes (not_takes_this hthis)
  | case4 outer target x optional h ih =>
      rw [takes_member, taking_member, ih, ← isThis_iff]
      simp [h]
  | case5 outer target typeArgs args hreceiver hcallee hargs =>
      rw [takes_invoke, takes_callee, List.mem_append, flatMap_attach args (uses m s outer),
        List.mem_flatMap]
      apply or_congr
      · split
        · rename_i x hu
          simp [hu]
        · rename_i receiver x optional hu
          simp only [hu]
          split
          · rename_i hthis
            simp [hthis]
          · rename_i hthis
            rw [hreceiver receiver x optional hu]
            simp [hthis]
        · rename_i hn hm
          split
          · rename_i hu
            exact absurd hu (hn _)
          · rename_i hu
            exact absurd hu (hm _ _ _)
          · exact hcallee _ rfl
      · apply exists_congr
        intro a
        apply and_congr_right
        intro ha
        exact hargs ⟨a, ha⟩
  | case6 outer params body ih => rw [takes_lambda, ih]
  | case7 outer e hi hm hc hl ih =>
      have hchildren : (name, type) ∈ (e.children.attach.flatMap fun c => uses m s outer c.1) ↔
          ∃ c ∈ e.children, Takes m s outer false c name type := by
        rw [flatMap_attach e.children (uses m s outer), List.mem_flatMap]
        apply exists_congr
        intro c
        apply and_congr_right
        intro hc
        exact ih ⟨c, hc⟩
      rw [hchildren]
      cases e with
      | paren inner =>
          rw [takes_paren]
          simp [children]
      | _ => rw [takes_other hi hm hc hl (by simp)]

end Capture

def Shape.Takes (m : Model) (s : Scope) (shape : Shape) (name type : String) : Prop :=
  Capture.Takes m s shape.parameters false shape.body name type

namespace Captures

open Capture

variable {m : Model} {s : Scope} {shape shape' : Shape} {declared : Option (List String)}

theorem mem_names_ofShape {name : String} :
    name ∈ (ofShape m s shape declared).names ↔ ∃ type, shape.Takes m s name type := by
  rw [ofShape, mem_names_ofUses]
  exact exists_congr fun type => mem_uses shape.body

theorem names_ofUses (uses : List (String × String)) (declared : Option (List String)) :
    (ofUses uses declared).names = Ordered.ofList (uses.map (·.1)) := by
  rw [names, entries_ofUses, List.map_map]
  exact List.map_id _

theorem increasing_names (m : Model) (s : Scope) (shape : Shape) (declared : Option (List String)) :
    Ordered.Increasing (ofShape m s shape declared).names := by
  rw [ofShape, names_ofUses]
  exact Ordered.increasing_ofList _

/-- Names that are taken alike are listed alike. -/
theorem names_congr (h : ∀ name, (∃ type, shape.Takes m s name type) ↔
    ∃ type, shape'.Takes m s name type) :
    (ofShape m s shape declared).names = (ofShape m s shape' declared).names := by
  apply Ordered.eq_of_mem_iff (increasing_names ..) (increasing_names ..)
  intro name
  rw [mem_names_ofShape, mem_names_ofShape, h]

theorem missing_ofShape (declared : List String) :
    (ofShape m s shape (some declared)).missing =
      (ofShape m s shape (some declared)).names.filter (!declared.contains ·) := by
  rw [ofShape, names_ofUses]
  rfl

theorem unused_ofShape (declared : List String) :
    (ofShape m s shape (some declared)).unused =
      (Ordered.ofList declared).filter (!(ofShape m s shape (some declared)).names.contains ·) := by
  rw [ofShape, names_ofUses]
  rfl

theorem mem_missing {names : List String} {name : String} :
    name ∈ (ofShape m s shape (some names)).missing ↔
      name ∈ (ofShape m s shape (some names)).names ∧ name ∉ names := by
  rw [missing_ofShape, List.mem_filter]
  simp

theorem mem_unused {names : List String} {name : String} :
    name ∈ (ofShape m s shape (some names)).unused ↔
      name ∈ names ∧ name ∉ (ofShape m s shape (some names)).names := by
  rw [unused_ofShape, List.mem_filter, Ordered.mem_ofList]
  simp

theorem differences_congr
    (h : (ofShape m s shape declared).names = (ofShape m s shape' declared).names) :
    (ofShape m s shape declared).missing = (ofShape m s shape' declared).missing ∧
      (ofShape m s shape declared).unused = (ofShape m s shape' declared).unused := by
  cases declared with
  | none => exact ⟨rfl, rfl⟩
  | some names => rw [missing_ofShape, missing_ofShape, unused_ofShape, unused_ofShape, h]; simp

theorem names_parameters (c : Captures) : c.parameters.map (·.2) = c.names := List.map_map

theorem names_eq_of_entries {c d : Captures} (h : c.entries = d.entries) : c.names = d.names := by
  rw [names, names, h]

theorem eq_of_lists {c d : Captures} (he : c.entries = d.entries) (hm : c.missing = d.missing)
    (hu : c.unused = d.unused) : c = d := by
  cases c
  cases d
  cases he
  cases hm
  cases hu
  rfl

/-- The names and their types do not depend on what was declared. -/
theorem entries_ofShape (declared' : Option (List String)) :
    (ofShape m s shape declared).entries = (ofShape m s shape declared').entries := by
  rw [ofShape, ofShape, entries_ofUses, entries_ofUses]

theorem takes_of_mem_entries {p : String × String}
    (h : p ∈ (ofShape m s shape declared).entries) : shape.Takes m s p.1 p.2 :=
  (mem_uses shape.body).1 (mem_of_mem_entries h)

/-- Where a name has one type only, the recorded one is known from where it is taken. -/
theorem entries_congr (h : ∀ name type, shape.Takes m s name type ↔ shape'.Takes m s name type)
    (hone : ∀ name type type', shape.Takes m s name type → shape.Takes m s name type' →
      type = type') :
    (ofShape m s shape declared).entries = (ofShape m s shape' declared).entries := by
  have hnames : (ofShape m s shape declared).names = (ofShape m s shape' declared).names :=
    names_congr fun name => exists_congr fun type => h name type
  have hentries (sh : Shape) : (ofShape m s sh declared).entries =
      (ofShape m s sh declared).names.map fun name =>
        (name, typeOf (Capture.uses m s sh.parameters sh.body) name) := by
    rw [ofShape, names_ofUses]
    exact entries_ofUses _ _
  rw [hentries, hentries, ← hnames]
  apply List.map_congr_left
  intro name hname
  have htype (sh : Shape) (hmem : name ∈ (ofShape m s sh declared).names) :
      sh.Takes m s name (typeOf (Capture.uses m s sh.parameters sh.body) name) := by
    have hentry : (name, typeOf (Capture.uses m s sh.parameters sh.body) name) ∈
        (ofShape m s sh declared).entries := by
      rw [hentries]
      exact List.mem_map_of_mem hmem
    exact takes_of_mem_entries hentry
  have hleft := htype shape hname
  have hright := (h name _).2 (htype shape' (hnames ▸ hname))
  rw [hone name _ _ hleft hright]

/-- The names that a projection takes are exactly those that stand free or behind `this`, are not
called, and have to be handed in. They are listed in increasing order, each with a type of one of
its places, and what differs from the declared names is listed in increasing order as well; against
the list itself nothing differs. What else the projection says is of no account: one that takes the
same names gives the same lists, and the same types where no name has two. -/
theorem ofShape_exact (m : Model) (s : Scope) (shape : Shape) (declared : Option (List String)) :
    let c := ofShape m s shape declared
    (∀ name, name ∈ c.names ↔ ∃ type, shape.Takes m s name type) ∧
    (∀ p ∈ c.entries, shape.Takes m s p.1 p.2) ∧
    c.parameters.map (·.2) = c.names ∧ Ordered.Increasing (c.parameters.map (·.2)) ∧
    (declared = none → c.missing = [] ∧ c.unused = []) ∧
    (∀ names, declared = some names →
      Ordered.Increasing c.missing ∧ Ordered.Increasing c.unused ∧
      (∀ name, name ∈ c.missing ↔ name ∈ c.names ∧ name ∉ names) ∧
      ∀ name, name ∈ c.unused ↔ name ∈ names ∧ name ∉ c.names) ∧
    ofShape m s shape (some c.names) = ⟨c.entries, [], []⟩ ∧
    (∀ shape' : Shape, (∀ name, (∃ type, shape.Takes m s name type) ↔
        ∃ type, shape'.Takes m s name type) →
      (ofShape m s shape' declared).names = c.names ∧
        (ofShape m s shape' declared).missing = c.missing ∧
        (ofShape m s shape' declared).unused = c.unused) ∧
    ∀ shape' : Shape, (∀ name type, shape.Takes m s name type ↔ shape'.Takes m s name type) →
      (∀ name type type', shape.Takes m s name type → shape.Takes m s name type' →
        type = type') →
      ofShape m s shape' declared = c := by
  intro c
  refine ⟨fun name => mem_names_ofShape, fun p hp => takes_of_mem_entries hp, ?_, ?_, ?_, ?_, ?_,
    ?_, ?_⟩
  · exact names_parameters c
  · exact names_parameters c ▸ increasing_names m s shape declared
  · rintro rfl
    exact ⟨rfl, rfl⟩
  · rintro names rfl
    refine ⟨?_, ?_, fun name => mem_missing, fun name => mem_unused⟩
    · exact missing_ofShape names ▸ (increasing_names ..).filter _
    · exact unused_ofShape names ▸ (Ordered.increasing_ofList names).filter _
  · have hentries : (ofShape m s shape (some c.names)).entries = c.entries :=
      entries_ofShape declared
    have hnames := names_eq_of_entries hentries
    refine eq_of_lists hentries ?_ ?_
    · apply List.eq_nil_iff_forall_not_mem.2
      intro name hmem
      obtain ⟨htaken, hnot⟩ := mem_missing.1 hmem
      exact hnot (hnames ▸ htaken)
    · apply List.eq_nil_iff_forall_not_mem.2
      intro name hmem
      obtain ⟨hdeclared, hnot⟩ := mem_unused.1 hmem
      exact hnot (hnames.symm ▸ hdeclared)
  · intro shape' h
    have hnames : c.names = (ofShape m s shape' declared).names := names_congr h
    have hdiffer := differences_congr hnames
    exact ⟨hnames.symm, hdiffer.1.symm, hdiffer.2.symm⟩
  · intro shape' h hone
    have hentries : c.entries = (ofShape m s shape' declared).entries := entries_congr h hone
    have hdiffer := differences_congr (names_eq_of_entries hentries)
    exact (eq_of_lists hentries hdiffer.1 hdiffer.2).symm

def pairShape (a b : Expr) : Shape :=
  ⟨.anonymous, ["x"], .anonymous [⟨some "A", a⟩, ⟨some "B", b⟩], [], []⟩

/-- `A = rate` and `B = x.Items.Where(i => this.limit < rate)`. -/
def oftenRated : Shape :=
  pairShape (.ident "rate") (itemsWhere "i" (.binary .lt ownLimit (.ident "rate")))

/-- `A = rate(this.limit)` and `B = x.Items.Where(rate => top < rate) ?? rate`. -/
def onceRated : Shape :=
  pairShape ((Expr.ident "rate").call [ownLimit])
    (.binary .coalesce (itemsWhere "rate" (.binary .lt (.ident "top") (.ident "rate")))
      (.ident "rate"))

theorem takes_oftenRated (name type : String) :
    oftenRated.Takes query limitedScope name type ↔
      (name, type) = ("limit", "string") ∨ (name, type) = ("rate", "int") := by
  have huses : Capture.uses query limitedScope oftenRated.parameters oftenRated.body =
      [("rate", "int"), ("limit", "string"), ("rate", "int")] := by decide +kernel
  rw [Shape.Takes, ← mem_uses, huses]
  simp only [List.mem_cons, List.not_mem_nil, or_false]
  exact or_iff_right_of_imp .inr

theorem takes_onceRated (name type : String) :
    onceRated.Takes query limitedScope name type ↔
      (name, type) = ("limit", "string") ∨ (name, type) = ("rate", "int") := by
  have huses : Capture.uses query limitedScope onceRated.parameters onceRated.body =
      [("limit", "string"), ("rate", "int")] := by decide +kernel
  rw [Shape.Takes, ← mem_uses, huses]
  simp only [List.mem_cons, List.not_mem_nil, or_false]

theorem ofShape_exact_two_orders :
    let declared := some ["top", "rate"]
    (ofShape query limitedScope oftenRated declared).entries =
        [("limit", "string"), ("rate", "int")] ∧
      ofShape query limitedScope onceRated declared =
        ofShape query limitedScope oftenRated declared := by
  intro declared
  obtain ⟨-, -, -, -, -, -, -, -, hsame⟩ := ofShape_exact query limitedScope oftenRated declared
  refine ⟨by decide +kernel, hsame onceRated (fun name type => ?_) ?_⟩
  · rw [takes_oftenRated, takes_onceRated]
  · intro name type type' h h'
    rw [takes_oftenRated] at h h'
    grind

end Captures

end Projection
