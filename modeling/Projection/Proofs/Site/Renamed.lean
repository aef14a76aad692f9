import Mathlib.Logic.Equiv.Fintype
import Projection.Proofs.Structure.Renamed
import Projection.Site

/-!
The structure of a result and the names of lambda parameters. Names do not matter as long as
parameters of one name keep having one name; where only one of two such parameters gets another
name, types that were equal become different.
-/

namespace Projection

namespace Expr

def renameParameters (ρ : String → String) (e : Expr) : Expr :=
  e.rename fun n => if n ∈ e.parameters then ρ n else n

def untyped (projection : Expr) : List String :=
  projection.unparen.ownParameters.drop 1 ++ projection.nodes.flatMap (·.ownParameters.drop 2)

/-- The parameters of a projection and of the lambdas in it can have these new names. Next to what
makes them names for the same things, parameters without a type must not have the names of anything
else, now or before. -/
structure Renames (m : Model) (s : Scope) (ρ : String → String) (projection : Expr) : Prop where
  distinct : ∀ p ∈ projection.parameters, ∀ q ∈ projection.parameters, ρ p = ρ q → p = q
  fresh : ∀ p ∈ projection.parameters, ρ p ∉ projection.names
  bound : ∀ p ∈ projection.parameters, p ∉ projection.free
  unlabelled : ∀ p ∈ projection.parameters, p ∉ projection.labels
  untyped : ∀ p ∈ projection.untyped, Unresolved m s p ∧ Unresolved m s (ρ p)

/-- What inference looks up without finding a parameter is free or a parameter without a type. -/
theorem mem_free_of_mem_loose {e : Expr} {n : String} (h : n ∈ e.loose (·.take 2)) :
    n ∈ e.free ∨ n ∈ e.nodes.flatMap (·.ownParameters.drop 2) := by
  induction e using childInduction with
  | h e ih =>
      rcases mem_loose.1 h with h | ⟨⟨c, hc, h⟩, hn⟩
      · exact .inl (mem_loose.2 (.inl h))
      · rcases ih c hc h with hfree | huntyped
        · by_cases hp : n ∈ e.ownParameters
          · refine .inr (List.mem_flatMap.2 ⟨e, self_mem_nodes e, ?_⟩)
            rw [← List.take_append_drop 2 e.ownParameters, List.mem_append] at hp
            exact hp.resolve_left hn
          · exact .inl (mem_loose.2 (.inr ⟨⟨c, hc, hfree⟩, hp⟩))
        · obtain ⟨d, hd, huntyped⟩ := List.mem_flatMap.1 huntyped
          exact .inr (List.mem_flatMap.2 ⟨d, mem_nodes_of_mem_children hc hd, huntyped⟩)

theorem ownVariable_subset_names {d e : Expr} (h : d ∈ e.nodes) : d.ownVariable ⊆ e.names :=
  fun _ hn => List.mem_flatMap.2 ⟨d, h, List.mem_append_left _ hn⟩

theorem loose_subset_names {binds : List String → List String} (e : Expr) :
    e.loose binds ⊆ e.names := by
  induction e using childInduction with
  | h e ih =>
      intro n hn
      rcases mem_loose.1 hn with hn | ⟨⟨c, hc, hn⟩, -⟩
      · exact ownVariable_subset_names (self_mem_nodes e) hn
      · exact names_subset_of_child hc (ih c hc hn)

theorem labels_subset_names (e : Expr) : e.labels ⊆ e.names := by
  intro n hn
  obtain ⟨d, hd, hn⟩ := List.mem_flatMap.1 hn
  have hbelow {c : Expr} (hc : c ∈ d.children) (hn : n ∈ c.unparen.ownVariable) : n ∈ e.names :=
    ownVariable_subset_names
      (nodes_subset hd (mem_nodes_of_mem_children hc (unparen_mem_nodes c))) hn
  cases d with
  | invoke t ts as => exact hbelow (by simp [children]) hn
  | anonymous ms =>
      obtain ⟨i, hi, hn⟩ := List.mem_flatMap.1 hn
      split at hn
      · exact hbelow (List.mem_map.2 ⟨i, hi, rfl⟩) hn
      · cases hn
  | _ => cases hn

variable {m : Model} {s : Scope} {ρ : String → String} {projection : Expr}

/-- The new names come from a permutation of all names. -/
theorem Renames.exists_perm (h : projection.Renames m s ρ) :
    ∃ π : Equiv.Perm String,
      ∀ n ∈ projection.names, π n = if n ∈ projection.parameters then ρ n else n := by
  have hinj : Function.Injective fun n : {n // n ∈ projection.names} =>
      if n.1 ∈ projection.parameters then ρ n.1 else n.1 := by
    rintro ⟨p, hp⟩ ⟨q, hq⟩ heq
    refine Subtype.ext ?_
    dsimp only at heq ⊢
    split at heq <;> split at heq
    · rename_i hp' hq'
      exact h.distinct p hp' q hq' heq
    · rename_i hp' _
      exact absurd (heq ▸ hq) (h.fresh p hp')
    · rename_i _ hq'
      exact absurd (heq ▸ hp) (h.fresh q hq')
    · exact heq
  obtain ⟨π, hπ⟩ := Equiv.Perm.exists_extending_pair Subtype.val _ Subtype.val_injective hinj
  exact ⟨π, fun n hn => hπ ⟨n, hn⟩⟩

/-- Below the parameters of the projection, inference can be blind to the new names. -/
theorem Renames.context (h : projection.Renames m s ρ) {p : String} {ps : List String}
    {body : Expr} (hl : projection.unparen = .lambda (p :: ps) body) {π : String → String}
    (hπ : ∀ n ∈ projection.names, π n = if n ∈ projection.parameters then ρ n else n)
    (t : TypeRef) : Context.Renames ⟨m, s, [(p, t)]⟩ π body := by
  have hnode : lambda (p :: ps) body ∈ projection.nodes := hl ▸ unparen_mem_nodes projection
  have hbody : body ∈ projection.nodes :=
    nodes_subset hnode (mem_nodes_of_mem_children (by simp [children]) (self_mem_nodes body))
  have hnames : body.names ⊆ projection.names := by
    intro n hn
    obtain ⟨d, hd, hn⟩ := List.mem_flatMap.1 hn
    exact List.mem_flatMap.2 ⟨d, nodes_subset hbody hd, hn⟩
  refine ⟨fun n hn => ?_, fun n hn => ?_⟩
  · have hname := hπ n (hnames (loose_subset_names body hn))
    by_cases hp : n ∈ projection.parameters
    · rw [if_pos hp] at hname
      have huntyped : n = p ∨ n ∈ projection.untyped := by
        unfold Expr.untyped
        rw [hl, List.mem_append]
        rcases mem_free_of_mem_loose hn with hfree | huntyped
        · by_cases hown : n ∈ p :: ps
          · rcases List.mem_cons.1 hown with rfl | hps
            · exact .inl rfl
            · exact .inr (.inl hps)
          · refine absurd (mem_loose_of_unparen rfl ?_) (h.bound n hp)
            rw [hl]
            exact mem_loose.2 (.inr ⟨⟨body, by simp [children], hfree⟩, hown⟩)
        · obtain ⟨d, hd, hn⟩ := List.mem_flatMap.1 huntyped
          exact .inr (.inr (List.mem_flatMap.2 ⟨d, nodes_subset hbody hd, hn⟩))
      rcases huntyped with rfl | huntyped
      · exact .inl (by simp)
      · exact .inr (.inr (hname ▸ h.untyped n huntyped))
    · exact .inr (.inl (hname.trans (if_neg hp)))
  · have hlabel : n ∈ projection.labels := by
      obtain ⟨d, hd, hn⟩ := List.mem_flatMap.1 hn
      exact List.mem_flatMap.2 ⟨d, nodes_subset hbody hd, hn⟩
    rw [hπ n (labels_subset_names projection hlabel),
      if_neg fun hp => h.unlabelled n hp hlabel]

end Expr

namespace CallSite

open Projection.Expr

variable {m : Model} {s : Scope} {π : Equiv.Perm String}

/-- Source types come from text, where there are no anonymous types. -/
theorem rename_elementType (site : CallSite) (m : Model) (ρ : String → String) :
    (site.elementType m).rename ρ = site.elementType m := by
  have h := TypeRef.map_rename_parse? ρ m site.sourceType
  unfold elementType
  cases ht : TypeRef.parse? m site.sourceType with
  | none => rfl
  | some t =>
      rw [ht] at h
      exact Option.some.inj h

theorem anonymousType_rename {Γ : Context} {members : List Initializer}
    (h : Γ.Renames π (.anonymous members)) :
    Typing.anonymousType (Γ.rename π) (renameInitializers π members) =
      (Typing.anonymousType Γ members).rename π := by
  have hoperand := Typing.operand?_rename π.symm_apply_apply h
  rw [Expr.rename_anonymous, Typing.operand?_anonymous, Typing.operand?_anonymous, Option.map_some,
    Typing.Operand.rename, TypeRef.rename_anonymous] at hoperand
  injection hoperand with hoperand
  injection hoperand with hoperand
  injection hoperand with hkind
  injection hkind

/-- In an object whose type exists only named initializers count, and those keep their names. -/
theorem renames_named {Γ : Context} {type : TypeExpr} {args : List Expr}
    {initializers : List Initializer}
    (h : Γ.Renames π (.creation type args (some initializers))) :
    Γ.Renames π (.anonymous (initializers.filter (·.name.isSome))) := by
  have hchild {c : Expr} (hc : c ∈ (initializers.filter (·.name.isSome)).map (·.value)) :
      c ∈ (creation type args (some initializers)).children := by
    obtain ⟨i, hi, rfl⟩ := List.mem_map.1 hc
    exact List.mem_append_right _ (List.mem_map.2 ⟨i, (List.mem_filter.1 hi).1, rfl⟩)
  refine ⟨fun n hn => ?_, fun n hn => ?_⟩
  · rcases mem_loose.1 hn with hn | ⟨⟨c, hc, hn⟩, -⟩
    · cases hn
    · exact (h.child rfl (hchild hc)).settled n hn
  · rw [labels_eq, List.mem_append] at hn
    rcases hn with hn | hn
    · obtain ⟨i, hi, hn⟩ := List.mem_flatMap.1 hn
      rw [if_neg (Option.isSome_iff_ne_none.1 (List.mem_filter.1 hi).2)] at hn
      cases hn
    · obtain ⟨c, hc, hn⟩ := List.mem_flatMap.1 hn
      exact (h.child rfl (hchild hc)).labels n hn

theorem resultType_rename {shape shape' : Shape} {p : String} {ps ps' : List String}
    {elementType : TypeRef} (helement : elementType.rename π = elementType)
    (hparameters : shape.parameters = p :: ps) (hparameters' : shape'.parameters = π p :: ps')
    (hbody : shape'.body = shape.body.rename π)
    (h : Context.Renames ⟨m, s, [(p, elementType)]⟩ π shape.body) :
    resultType m s shape' elementType = (resultType m s shape elementType).rename π := by
  have hcontext : (Context.mk m s [(p, elementType)]).rename π = ⟨m, s, [(π p, elementType)]⟩ := by
    simp [Context.rename, helement]
  unfold resultType
  rw [hparameters, hparameters', hbody]
  dsimp only
  rw [← hcontext]
  cases hb : shape.body with
  | anonymous members =>
      rw [hb] at h
      rw [Expr.rename_anonymous]
      exact anonymousType_rename h
  | creation type args initializers =>
      rw [hb] at h
      rw [rename_creation]
      cases initializers with
      | none => rfl
      | some initializers =>
          have hnamed : (renameInitializers π initializers).filter (·.name.isSome) =
              renameInitializers π (initializers.filter (·.name.isSome)) := List.filter_map
          dsimp only [Option.map_some]
          rw [hnamed]
          exact anonymousType_rename (renames_named h)
  | _ => simp [AnonymousType.rename]

/-- The structure of a result has the same identity under new names for the parameters of all
lambdas. -/
theorem structural_id_renameParameters {site : CallSite} {m : Model} {ρ : String → String}
    (settings : Settings) (h : site.lambda.Renames m site.scope ρ) {shape : Shape}
    (hshape : Shape.ofLambda site.lambda site.typeArguments = .ok shape) :
    ∃ shape', Shape.ofLambda (site.lambda.renameParameters ρ) site.typeArguments = .ok shape' ∧
      shape'.kind = shape.kind ∧
      (Structure.ofType settings
          (resultType m site.scope shape' (site.elementType m))).id =
        (Structure.ofType settings (resultType m site.scope shape (site.elementType m))).id := by
  obtain ⟨π, hπ⟩ := h.exists_perm
  have hrename : site.lambda.renameParameters ρ = site.lambda.rename π :=
    rename_congr _ fun n hn => (hπ n hn).symm
  rw [hrename]
  unfold Shape.ofLambda at hshape ⊢
  rw [unparen_rename]
  split at hshape
  · cases hshape
  · rename_i p ps body hl
    have hcontext := (h.context hl hπ (site.elementType m)).unparen
    have hid {shape shape' : Shape} (hps : shape.parameters = p :: ps)
        (hps' : shape'.parameters = π p :: ps.map π) (hbody : shape.body = body.unparen)
        (hbody' : shape'.body = shape.body.rename π) :
        (Structure.ofType settings (resultType m site.scope shape' (site.elementType m))).id =
          (Structure.ofType settings (resultType m site.scope shape (site.elementType m))).id := by
      rw [resultType_rename (site.rename_elementType m π) hps hps' hbody' (hbody ▸ hcontext),
        Structure.id_ofType_rename]
    rw [hl, rename_lambda, List.map_cons]
    dsimp only
    rw [unparen_rename]
    split at hshape
    · rename_i members hb
      obtain ⟨kind, hk, rfl⟩ : ∃ kind, Shape.literalKind site.typeArguments = .ok kind ∧
          (⟨kind, p :: ps, .anonymous members, Source.members members, []⟩ : Shape) = shape := by
        cases hk : Shape.literalKind site.typeArguments with
        | error e =>
            rw [hk] at hshape
            cases hshape
        | ok kind =>
            rw [hk] at hshape
            exact ⟨kind, rfl, Except.ok.inj hshape⟩
      rw [hb, Expr.rename_anonymous]
      dsimp only
      rw [hk]
      exact ⟨_, rfl, rfl, hid rfl rfl hb.symm (Expr.rename_anonymous ..).symm⟩
    · rename_i type args initializers hb
      cases hshape
      rw [hb, rename_creation]
      exact ⟨_, rfl, rfl, hid rfl rfl hb.symm (rename_creation ..).symm⟩
    · cases hshape
  · cases hshape

def twoLists : Model :=
  .ofTypes [⟨"Order", none, .class, [⟨"Flag", .property, "bool", false, false, .public⟩,
      ⟨"A", .property, "List<Item>", false, false, .public⟩,
      ⟨"B", .property, "List<Item>?", false, false, .public⟩]⟩,
    ⟨"Item", none, .class, [⟨"Name", .property, "string", false, false, .public⟩]⟩]

def selectNames (list : Expr) (optional : Bool) (parameter : String) : Expr :=
  .call (.member list "Select" optional)
    [.lambda [parameter] (.anonymous [.named "N" (.dot (.ident parameter) "Name")])]

/-- `x => new { P = x.Flag ? x.A.Select(a => …) : x.B?.Select(b => …) }` -/
def eitherList (x a b : String) : Expr :=
  .lambda [x] (.anonymous [.named "P" (.conditional (.dot (.ident x) "Flag")
    (selectNames (.dot (.ident x) "A") false a) (selectNames (.dot (.ident x) "B") true b))])

def twoListsSite (lambda : Expr) : CallSite :=
  ⟨⟨"Orders.cs", 1, 1⟩, none, "Order", lambda, [], none, none, .empty⟩

theorem structural_id_renameParameters_two_lists :
    let site := twoListsSite (eitherList "x" "a" "a")
    let ρ := fun n => if n = "x" then "o" else "p"
    site.lambda.Renames twoLists site.scope ρ ∧
      site.lambda.renameParameters ρ = eitherList "o" "p" "p" ∧
      ∃ shape shape', Shape.ofLambda site.lambda [] = .ok shape ∧
        Shape.ofLambda (site.lambda.renameParameters ρ) [] = .ok shape' ∧
        (Structure.ofType {} (resultType twoLists .empty shape' (site.elementType twoLists))).id =
          (Structure.ofType {}
            (resultType twoLists .empty shape (site.elementType twoLists))).id := by
  intro site ρ
  have h : site.lambda.Renames twoLists site.scope ρ := by
    constructor
    all_goals decide +kernel
  have hshape : Shape.ofLambda site.lambda site.typeArguments = .ok ⟨.anonymous, ["x"], _, _, []⟩ :=
    rfl
  obtain ⟨shape', hshape', -, hid⟩ := structural_id_renameParameters {} h hshape
  exact ⟨h, by decide +kernel, _, shape', hshape, hshape', hid⟩

/-- One of two parameters of the same name gets another name, and the structure another identity:
the two lists no longer have one type, so that the second of them does not make the property
nullable. -/
theorem structural_id_of_split_name :
    ∃ shape shape', Shape.ofLambda (eitherList "x" "a" "a") [] = .ok shape ∧
      Shape.ofLambda (eitherList "o" "p" "q") [] = .ok shape' ∧
      (Structure.ofType {} (resultType twoLists .empty shape (.named "Order" false))).id ≠
        (Structure.ofType {} (resultType twoLists .empty shape' (.named "Order" false))).id := by
  refine ⟨⟨.anonymous, ["x"], _, _, []⟩, ⟨.anonymous, ["o"], _, _, []⟩, rfl, rfl, ?_⟩
  decide +kernel

end CallSite

end Projection
