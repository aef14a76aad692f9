import Projection.Proofs.Capture.Covering
import Projection.Proofs.Site.Created

/-!
What a compiled projection takes from its surroundings. The names to be handed in are collected
from the lambda as it is written, and the projection that needs them is that lambda lowered and
moved. It needs no others, as long as nothing is called that has to be handed in and every value
stays under the lambdas that it was written under.
-/

namespace Projection

open Projection.Expr Capture

/-- What is free in the projection and has to be handed in is a parameter of the factory, and no
constant is left whose value is known. -/
def CompiledSite.SelfContained (c : CompiledSite) (m : Model) (s : Scope) : Prop :=
  ∀ n ∈ c.projection.free, ∀ symbol, m.symbol? s n = some symbol →
    (symbol.needsValue = true →
      n ∈ c.captures.names ∧ ∃ type, (type, n) ∈ c.captures.parameters) ∧
    symbol.value? = none

namespace CallSite

open Lowering

variable {m : Model} {settings : Settings} {site : CallSite} {shape : Shape} {A : Allowed}
  {S : Scoping} {bound : List String}

/-- What a body builds has its values from the body. -/
theorem drawn_built {Γ : Context} {body : Expr} (name : String) (rules : S.Kept A settings)
    (hΓ : S.context Γ) : S.source bound body →
    Drawn S.source bound (Structure.ofType settings
      (match body with
        | .anonymous members => Typing.anonymousType Γ members
        | .creation _ _ (some initializers) =>
            Typing.anonymousType Γ (initializers.filter (·.name.isSome))
        | _ => ⟨name, []⟩)) := by
  intro hb
  split
  · exact rules.object hΓ hb
  · exact rules.object hΓ (rules.literal hb (List.filter_subset_self _))
  · exact .values nofun nofun

/-- All names of the lowered projection are allowed. -/
theorem tree_lowered (h : Shape.ofLambda site.lambda site.typeArguments = .ok shape)
    (rules : S.Kept A settings)
    (hΓ : S.context (match shape.parameters with
      | [] => (⟨m, site.scope, []⟩ : Context)
      | p :: _ => Context.bind ⟨m, site.scope, []⟩ p (site.elementType m)))
    (hb : S.source shape.parameters shape.body) :
    A.Tree [] (site.lowered m settings shape (Structure.ofType settings
      (resultType m site.scope shape (site.elementType m)))).value := by
  obtain ⟨_, _, _, hp, ha⟩ := Shape.eq_of_ofLambda h
  refine Allowed.tree_lambda (rules.tree_body hΓ (drawn_built _ rules hΓ hb) hb fun a hm => ?_)
  have harg := rules.child hb (ha a hm)
  rwa [hp, List.append_nil] at harg

theorem tree_nameRoot (type : TypeExpr) {e : Expr} (h : A.Tree [] e) :
    A.Tree [] (nameRoot type e) := by
  unfold nameRoot
  split
  · rename_i params created args initializers
    have hbody := h.child (show Expr.creation created args initializers ∈ _ by simp [children])
    refine Allowed.tree_lambda (Scoping.tree_creation (fun a ha => hbody.part ?_ rfl) ?_)
    · cases initializers <;> simp [children, ha]
    · rintro is ⟨⟩ i hi
      exact hbody.part (List.mem_append_right _ (List.mem_map.2 ⟨i, hi, rfl⟩)) rfl
  · exact h

theorem tree_root {s : Structure} {e : Expr} (h : A.Tree [] e) :
    A.Tree [] (site.root shape s e).2.2 := by
  unfold root
  split
  · exact h
  · exact tree_nameRoot _ h
  · exact h

/-- The projection is lowered in one of the two ways in which values stay where they are allowed. -/
theorem tree_of_covering (settings : Settings) {declared : Option (List String)}
    (h : Shape.ofLambda site.lambda site.typeArguments = .ok shape)
    (hc : (Captures.ofShape m site.scope shape declared).Covering m site.scope site.lambda) :
    ((Captures.ofShape m site.scope shape declared).allowed m site.scope).Tree []
      (site.lowered m settings shape (Structure.ofType settings
        (resultType m site.scope shape (site.elementType m)))).value := by
  have htree := Shape.under_body h (hc.tree_lambda h)
  have hsystem := (Captures.all_allowed hc.system).1
  rcases hc.scopes with hforks | ⟨hspelled, hinner⟩
  · exact tree_lowered h (Scoping.unforked_kept hsystem) trivial ⟨htree, Shape.every_body h hforks⟩
  · refine tree_lowered h (Scoping.level_kept shape.parameters hsystem)
      (inferred_parameters (fun _ => trivial) site m _) ⟨List.Subset.refl _,
        Shape.every_body h hspelled, Allowed.every_of_tree htree (fun n hn => .inl hn) ?_⟩
    exact fun n hn => Captures.all_allowed (hinner n (Shape.parameters_body h hn))

theorem selfContained_iff {c : CompiledSite} {s : Scope} :
    c.SelfContained m s ↔ ∀ n ∈ c.projection.free, c.captures.misses m s n = false := by
  refine forall₂_congr fun n _ => ?_
  rw [Captures.misses_eq_false_iff, inlined?_eq, reference_eq]
  cases m.symbol? s n with
  | none => simp
  | some symbol =>
      simp only [Option.some.injEq, forall_eq', Option.map_some, Option.getD_some,
        Option.bind_some, Symbol.needsValue_iff, forall_exists_index]
      refine and_congr_left fun _ => forall₂_congr fun type _ => and_iff_left_of_imp fun hn => ?_
      obtain ⟨entry, he, rfl⟩ := List.mem_map.1 hn
      exact ⟨entry.2, List.mem_map.2 ⟨entry, he, rfl⟩⟩

/-- A compiled projection takes nothing but the parameters of its factory from its surroundings,
if the names that the lambda was seen to use cover it. -/
theorem projection_takes_only_parameters {c : CompiledSite}
    (h : site.compile m settings = .compiled c)
    (hc : c.captures.Covering m site.scope site.lambda) : c.SelfContained m site.scope := by
  obtain ⟨shape, hshape, rfl⟩ := eq_of_compile h
  refine selfContained_iff.2 (Captures.misses_of_free_rehost hc.full ?_)
  exact tree_root (tree_of_covering settings hshape hc)

def shop (members : List MemberDecl) : Model :=
  .ofTypes [⟨"Order", none, .class, ⟨"Id", .property, "int", false, false, .public⟩ :: members⟩,
    ⟨"Line", none, .class, [⟨"Price", .property, "int", false, false, .public⟩]⟩,
    ⟨"Query", none, .class, [⟨"discount", .field, "int", false, false, .private⟩]⟩]

def shopSite (body : Expr) (locals : List Local) : CallSite :=
  ⟨⟨"Query.cs", 1, 1⟩, none, "Order", .lambda ["x"] body, [], none, none,
    ⟨locals, some "Query"⟩⟩

def ofOrder (name : String) : Expr := (Expr.ident "x").dot name

def selectNet (source : Expr) (parameter : String) (value : Expr) : Expr :=
  (source.dot "Select").call [.lambda [parameter] (.anonymous [.named "Net" value])]

def withLines : Model := shop [⟨"Lines", .property, "List<Line>", false, false, .public⟩]

/-- `x => new …` with `Id = x.Id + rate + Top` and
`Lines = x.Lines.Select(l => new { Net = l.Price + this.discount })`. -/
def discounted : CallSite :=
  shopSite (.anonymous
      [.named "Id" (.binary .add (.binary .add (ofOrder "Id") (.ident "rate")) (.ident "Top")),
      .named "Lines" (selectNet (ofOrder "Lines") "l"
        (.binary .add ((Expr.ident "l").dot "Price") (Expr.this.dot "discount")))])
    [⟨"rate", .variable, "int", false, none⟩, ⟨"Top", .variable, "int", true, some "10"⟩,
      ⟨"l", .variable, "Line", false, none⟩]

theorem exists_compiled (site : CallSite) (m : Model) (P : CompiledSite → Bool)
    (h : (match site.compile m {} with
      | .compiled c => P c
      | _ => false) = true) : ∃ c, site.compile m {} = .compiled c ∧ P c = true := by
  split at h
  · rename_i c hc
    exact ⟨c, hc, h⟩
  · cases h

theorem projection_takes_only_parameters_discount :
    ∃ c, discounted.compile withLines {} = .compiled c ∧
      c.captures.parameters = [("int", "discount"), ("int", "rate")] ∧
      c.captures.Covering withLines discounted.scope discounted.lambda ∧
      c.SelfContained withLines discounted.scope := by
  obtain ⟨c, hc, hcaptures⟩ := exists_compiled discounted withLines
    (fun c => c.captures = ⟨[("discount", "int"), ("rate", "int")], [], []⟩) (by decide +kernel)
  replace hcaptures := of_decide_eq_true hcaptures
  have hcovering : c.captures.Covering withLines discounted.scope discounted.lambda := by
    rw [hcaptures]
    refine ⟨by decide +kernel, by decide +kernel, fun n hn value hv k hk => ?_,
      by decide +kernel, fun t => ?_, .inl ?_⟩
    · exact absurd hk (Captures.not_mem_free_of_closed (by decide +kernel) n hn value hv k)
    · refine Captures.misses_of_not_mem (Captures.full_name_not_mem (by decide) t) ?_
      rintro owner ⟨⟩
      exact Captures.full_name_not_mem (by decide) t
    · exact (by decide +kernel : ∀ d ∈ discounted.lambda.nodes, d.forks = false)
  exact ⟨c, hc, by rw [hcaptures]; rfl, hcovering, projection_takes_only_parameters hc hcovering⟩

def pairSite (args : List Expr) (locals : List Local) : CallSite :=
  shopSite (.creation (.simple "Pair") args none) locals

/-- Arguments that lowering leaves alone are moved as they are, with all that they name. -/
theorem pairSite_not_selfContained (args : List Expr) (locals : List Local)
    {names frees : List String}
    (h : ∀ depth Γ, ∀ a ∈ args, (Lowering.expr {} depth Γ a none).value = a)
    (hnames : (Captures.ofUses (uses withLines ⟨locals, some "Query"⟩ ["x"]
      (.creation (.simple "Pair") args none)) none).names = names)
    (hfree : (rehost withLines ⟨locals, some "Query"⟩ []
      (pairSite args locals).lambda).free = frees)
    (hmissed : ∃ n ∈ frees, (Captures.ofUses (uses withLines ⟨locals, some "Query"⟩ ["x"]
      (.creation (.simple "Pair") args none)) none).misses withLines ⟨locals, some "Query"⟩ n) :
    ∃ c, (pairSite args locals).compile withLines {} = .compiled c ∧ c.captures.names = names ∧
      c.projection.free = frees ∧ ¬ c.SelfContained withLines ⟨locals, some "Query"⟩ := by
  have hargs {depth : Nat} {Γ : Context} :
      (Lowered.all (args.map fun a => Lowering.expr {} depth Γ a none)).value = args := by
    rw [Lowered.value_all, List.map_map]
    exact (List.map_congr_left (h depth Γ)).trans (List.map_id args)
  obtain ⟨c, hc, hcaptures, hprojection⟩ : ∃ c,
      (pairSite args locals).compile withLines {} = .compiled c ∧
      c.captures = .ofUses (uses withLines ⟨locals, some "Query"⟩ ["x"]
        (.creation (.simple "Pair") args none)) none ∧
      c.projection = rehost withLines ⟨locals, some "Query"⟩ [] (pairSite args locals).lambda :=
    ⟨_, rfl, rfl, congrArg (fun as => rehost _ _ _ (Expr.lambda ["x"]
      (.creation (.simple "Pair") as none))) hargs⟩
  obtain ⟨n, hn, hm⟩ := hmissed
  refine ⟨c, hc, by rw [hcaptures, hnames], by rw [hprojection, hfree], fun hcontained => ?_⟩
  have hnot := selfContained_iff.1 hcontained n (by rwa [hprojection, hfree])
  rw [hcaptures, hm] at hnot
  cases hnot

/-- `x => new Pair(f(x.Id), Top)`, where `Top` is `Base + 1`. -/
def calling : CallSite :=
  pairSite [(Expr.ident "f").call [ofOrder "Id"], .ident "Top"]
    [⟨"f", .variable, "Func<int, int>", false, none⟩, ⟨"Base", .variable, "int", true, some "10"⟩,
      ⟨"Top", .variable, "int", true, some "Base + 1"⟩]

/-- `x => new Pair(x.Id, this.discount)` next to a constant `discount`. -/
def discountPair : CallSite :=
  pairSite [ofOrder "Id", Expr.this.dot "discount"]
    [⟨"discount", .variable, "int", true, some "5"⟩]

def oldLines : Model :=
  .ofTypes (⟨"List", none, .struct, []⟩ :: (shop
    [⟨"Old", .property, "List<Line>?", false, false, .public⟩,
      ⟨"Lines", .property, "Line[]", false, false, .public⟩]).types)

def priceOfLine : Expr := (Expr.ident "l").dot "Price"

def oldSelection : Lowering.Selection where
  base := .member (ofOrder "Old") "Value" true
  optional := false
  transform := "Select"
  typeArgs := []
  parameter := "o"
  body := .anonymous [.named "Net" (.literal (.int "1"))]
  terminal := none
  fallback := some (selectNet (ofOrder "Lines") "l" priceOfLine)

def eitherLines : Expr :=
  .binary .coalesce (selectNet oldSelection.base "o" (.literal (.int "1")))
    (selectNet (ofOrder "Lines") "l" priceOfLine)

/-- `x => new …` with either lines, next to a variable `l`. -/
def falling : CallSite :=
  shopSite (.anonymous [.named "A" eitherLines]) [⟨"l", .variable, "Line", false, none⟩]

def fallingShape : Shape :=
  ⟨.anonymous, ["x"], .anonymous [.named "A" eitherLines],
    Source.members [.named "A" eitherLines], []⟩

def fallingContext : Context :=
  Context.bind ⟨oldLines, falling.scope, []⟩ "x" (falling.elementType oldLines)

def fallingStructure : Structure :=
  Structure.ofType {}
    (resultType oldLines falling.scope fallingShape (falling.elementType oldLines))

/-- The nested structure has its value from the fallback. -/
theorem exists_fallback_value : ∃ p ∈ fallingStructure.properties, p.source.isCollection = true ∧
    p.source.expr = eitherLines ∧ ∃ nested, p.nested = some nested ∧ ∃ q ∈ nested.properties,
      q.source.isPath = true ∧ q.source.expr = priceOfLine := by
  have h : (fallingStructure.properties.any fun p => p.source.isCollection &&
      p.source.expr == eitherLines && p.nested.any fun nested => nested.properties.any fun q =>
        q.source.isPath && q.source.expr == priceOfLine) = true := by
    decide +kernel
  simpa [Option.any_eq_true, and_assoc] using h

theorem free_falling :
    "l" ∈ (falling.lowered oldLines {} fallingShape fallingStructure).value.free := by
  obtain ⟨p, hp, hc, he, nested, hnested, q, hq, hpath, hprice⟩ := exists_fallback_value
  obtain ⟨element, helement⟩ : ∃ element,
      Typing.elementType? fallingContext oldSelection.base = some element :=
    Option.isSome_iff_exists.1 (by decide +kernel)
  have hbody {depth : Nat} :
      "l" ∈ (creation {} depth fallingContext fallingStructure).value.free := by
    refine free_creation hp (free_property_of_nested oldSelection hc (he ▸ rfl) rfl
      helement hnested (free_creation hq ?_) (by decide))
    rw [property_of_isPath hpath, hprice]
    simp [priceOfLine, Lowering.expr, dot, chainOptional, node, children, withChildren]
  change "l" ∈ (Expr.lambda ["x"] (creation {} _ fallingContext fallingStructure).value).free
  simpa using hbody

/-- What is called is not handed in, names in the value of a constant are not replaced, a member
behind `this` is taken for a constant of its name, and what is selected from a fallback comes to
stand under a lambda with another parameter. -/
theorem projection_takes_more_than_parameters :
    (∃ c, calling.compile withLines {} = .compiled c ∧ c.captures.names = [] ∧
      c.projection.free = ["f", "Base"] ∧ ¬ c.SelfContained withLines calling.scope) ∧
    (∃ c, discountPair.compile withLines {} = .compiled c ∧ c.captures.names = ["discount"] ∧
      c.projection.free = ["discount"] ∧ ¬ c.SelfContained withLines discountPair.scope) ∧
    ∃ c, falling.compile oldLines {} = .compiled c ∧ c.captures.names = [] ∧
      "l" ∈ c.projection.free ∧ ¬ c.SelfContained oldLines falling.scope := by
  refine ⟨?_, ?_, ?_⟩
  · exact pairSite_not_selfContained _ _
      (by simp [ofOrder, dot, Expr.call, Lowering.expr, node, argument, chainOptional, unparen,
        children, withChildren])
      (by decide +kernel) (by decide +kernel) (by decide +kernel)
  · exact pairSite_not_selfContained _ _
      (by simp [ofOrder, dot, Lowering.expr, node, chainOptional, children, withChildren])
      (by decide +kernel) (by decide +kernel) (by decide +kernel)
  · obtain ⟨c, hc, hnames⟩ := exists_compiled falling oldLines (·.captures.names = [])
      (by decide +kernel)
    replace hnames := of_decide_eq_true hnames
    have hl : "l" ∈ c.projection.free := by
      obtain ⟨shape, hshape, rfl⟩ := eq_of_compile hc
      cases hshape
      refine mem_free_rehost (by decide +kernel) (fun t ht => ?_) (fun k value hv => ?_)
        free_falling
      · exact absurd (congrArg (·.toList.head?) ht) (by simp)
      · rw [inlined?_of_no_constants (by decide)] at hv
        cases hv
    refine ⟨c, hc, hnames, hl, fun h => ?_⟩
    have hm := selfContained_iff.1 h "l" hl
    rw [Captures.misses_eq_false_iff, hnames] at hm
    exact absurd (hm.1 "Line" (by decide +kernel)) List.not_mem_nil

end CallSite

end Projection
