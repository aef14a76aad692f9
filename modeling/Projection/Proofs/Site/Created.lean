import Projection.Proofs.Capture.Created
import Projection.Site

/-!
A compiled site is closed: the generated types that it mentions are those of the structures that it
registers, and so are the objects that it creates.
-/

namespace Projection

open Projection.Expr Lowering

def SiteStructure.registered (t : SiteStructure) : List Structure :=
  match t.naming with
  | .nestedOnly => t.built.inner
  | .hinted | .explicit _ => t.built.all

theorem SiteStructure.inner_subset_registered (t : SiteStructure) :
    t.built.inner ⊆ t.registered := by
  unfold registered
  split
  · exact List.Subset.refl _
  all_goals exact List.subset_cons_self _ _

theorem SiteStructure.registered_subset_all (t : SiteStructure) : t.registered ⊆ t.built.all := by
  unfold registered
  split
  · exact List.subset_cons_self _ _
  all_goals exact List.Subset.refl _

def CompiledSite.registered (c : CompiledSite) : List Structure :=
  c.structures.flatMap SiteStructure.registered

theorem CompiledSite.registered_subset {c : CompiledSite} {t : SiteStructure}
    (h : t ∈ c.structures) : t.registered ⊆ c.registered :=
  fun _ hq => List.mem_flatMap.2 ⟨t, h, hq⟩

/-- All that a site mentions and creates is registered by it. -/
structure CompiledSite.Closed (c : CompiledSite) : Prop where
  sound : ∀ t ∈ c.structures, t.built.Sound
  sourceType : c.sourceType.generatedIds = []
  resultType : ∀ id ∈ c.resultType.generatedIds, ∃ s ∈ c.registered, s.id = id
  projection : c.projection.Every (Bound c.registered)

structure Shape.Spelled (shape : Shape) : Prop where
  body : shape.body.Spelled
  args : ∀ a ∈ shape.constructorArgs, a.Spelled
  type : ∀ t, shape.kind = .named t → t.generatedIds = []

theorem Shape.literalKind_ne_named {typeArgs : List TypeExpr} {kind : ShapeKind}
    (h : literalKind typeArgs = .ok kind) (t : TypeExpr) : kind ≠ .named t := by
  rintro rfl
  unfold literalKind at h
  split at h
  · split at h <;> cases h
  · cases h

theorem Shape.spelled_ofLambda {lambda : Expr} {typeArgs : List TypeExpr} {shape : Shape}
    (hl : lambda.Spelled) (h : ofLambda lambda typeArgs = .ok shape) : shape.Spelled := by
  unfold ofLambda at h
  split at h
  · cases h
  · rename_i p ps body hu
    have hbody : body.Spelled := by
      have := hl.unparen
      rw [hu] at this
      exact this.child (by simp [children])
    have hinner := hbody.unparen
    split at h
    · rename_i members hu
      rw [hu] at hinner
      cases hk : literalKind typeArgs with
      | error e =>
          rw [hk] at h
          cases h
      | ok kind =>
          rw [hk] at h
          cases h
          exact ⟨hinner, by simp, fun t ht => absurd ht (literalKind_ne_named hk t)⟩
    · rename_i type args initializers hu
      rw [hu] at hinner
      cases h
      refine ⟨hinner, fun a ha => hinner.child ?_, ?_⟩
      · cases initializers <;> simp [children, ha]
      · rintro _ ⟨⟩
        exact hinner.self type (by simp [types])
    · cases h
  · cases h

namespace CallSite

variable {m : Model} {settings : Settings} {site : CallSite} {shape : Shape}

section Names

variable {V : Vocabulary} (hV : ∀ name, V.name name)
include hV

theorem written_elementType (site : CallSite) (m : Model) : (site.elementType m).Written V := by
  unfold elementType
  cases h : TypeRef.parse? m site.sourceType with
  | none => exact TypeRef.written_name (hV _) _
  | some t => exact TypeRef.written_parse? h

theorem inferred_empty (m : Model) (s : Scope) : (⟨m, s, []⟩ : Context).Inferred V :=
  ⟨fun t _ => hV t.name, by simp⟩

end Names

/-- The context of the result, with the first parameter bound. -/
theorem inferred_context {V : Vocabulary} {Γ : Context} {t : TypeRef} (hΓ : Γ.Inferred V)
    (ht : t.Inferred V) (parameters : List String) :
    (match parameters with
      | [] => Γ
      | p :: _ => Γ.bind p t).Inferred V := by
  split
  · exact hΓ
  · exact hΓ.bind ht

/-- The members that a body builds. -/
theorem inferred_built {Γ : Context} {body : Expr} (name : String) (hΓ : Γ.Inferred .full) :
    body.Spelled → (TypeRef.anonymous
      (match body with
        | .anonymous members => Typing.anonymousType Γ members
        | .creation _ _ (some initializers) =>
            Typing.anonymousType Γ (initializers.filter (·.name.isSome))
        | _ => ⟨name, []⟩)).Inferred .full := by
  intro hb
  split
  · exact Typing.inferred_anonymousType hΓ hb
  · refine Typing.inferred_anonymousType hΓ (every_iff.2 ⟨by simp [types], ?_⟩)
    refine List.forall_mem_map.2 fun i hi => hb.child (List.mem_append_right _ ?_)
    exact List.mem_map.2 ⟨i, (List.mem_filter.1 hi).1, rfl⟩
  · exact .anonymous (by simp) (by simp)

theorem inferred_resultType {s : Scope} {t : TypeRef} (hs : shape.Spelled)
    (ht : t.Inferred .full) : (TypeRef.anonymous (resultType m s shape t)).Inferred .full :=
  inferred_built _
    (inferred_context (Γ := ⟨m, s, []⟩) (inferred_empty (fun _ => trivial) m s) ht _) hs.body

theorem bound_nameRoot {S : List Structure} {name : String} {e : Expr} (h : e.Every (Bound S)) :
    (nameRoot (.simple name) e).Every (Bound S) := by
  unfold nameRoot
  split
  · rename_i params type args initializers
    have hc := h.child (show Expr.creation type args initializers ∈ _ by simp [children])
    refine every_iff.2 ⟨.of_spelled (by simp [types]), List.forall_mem_singleton.2 ?_⟩
    refine every_iff.2 ⟨.of_spelled (List.forall_mem_singleton.2 rfl), fun c hm => hc.child ?_⟩
    cases initializers <;> exact hm
  · exact h

theorem covers {S : List Structure} {s : Structure} (hshape : shape.Spelled) (hs : s.Sound)
    (hroot : generatesRoot shape = true → s ∈ S) (hinner : s.inner ⊆ S) :
    (createdInvariant S).Covers shape s where
  type := by
    intro type hk args initializers ha hi
    have ht : type.generatedIds = [] := hshape.type type hk
    refine every_iff.2 ⟨.of_spelled (List.forall_mem_singleton.2 ht), ?_⟩
    cases initializers with
    | none => exact ha
    | some is => exact List.forall_mem_append.2 ⟨ha, List.forall_mem_map.2 (hi is rfl)⟩
  root := by
    intro hk
    have hgenerates : generatesRoot shape = true := by
      unfold generatesRoot
      split
      · rename_i type hn
        exact absurd hn (hk type)
      all_goals rfl
    exact known_of_sound hs (List.forall_mem_cons.2 ⟨hroot hgenerates, hinner⟩)
  property := by
    intro p hp
    refine ⟨fun id hid => ?_, fun n hn => ?_⟩
    · obtain ⟨n, hn, rfl⟩ := (hs s (Structure.self_mem_all s) p hp).2 id hid
      have hm := Structure.mem_inner_of_nested hp hn (Structure.self_mem_all n)
      exact ⟨n, hinner hm, rfl⟩
    · exact known_of_sound (hs.nested hp hn) fun q hq =>
        hinner (Structure.mem_inner_of_nested hp hn hq)

theorem admits {S : List Structure} {s : Structure} (hshape : shape.Spelled) (hs : s.Sound) :
    (createdInvariant S).Admits shape s :=
  ⟨hshape.body, hshape.args, fun q hq p hp => (hs q hq p hp).1⟩

def lowered (site : CallSite) (m : Model) (settings : Settings) (shape : Shape) (s : Structure) :
    Lowered Expr :=
  lowerProjection settings ⟨m, site.scope, []⟩ shape (site.elementType m) s

def rooted (site : CallSite) (m : Model) (settings : Settings) (shape : Shape) (s : Structure) :
    RootNaming × TypeExpr × Expr :=
  site.root shape s (site.lowered m settings shape s).value

theorem root_mem_structures (site : CallSite) (m : Model) (settings : Settings) (shape : Shape)
    (s : Structure) :
    ⟨s, (site.rooted m settings shape s).1⟩ ∈ (site.compileShape m settings shape s).structures :=
  List.mem_cons_self

theorem made_mem_structures {s q : Structure}
    (h : q ∈ (site.lowered m settings shape s).structures) :
    ⟨q, .hinted⟩ ∈ (site.compileShape m settings shape s).structures :=
  List.mem_cons_of_mem _ (List.mem_map.2 ⟨q, h, rfl⟩)

theorem root_mem_registered {s : Structure} (h : generatesRoot shape = true) :
    s ∈ (site.compileShape m settings shape s).registered := by
  refine CompiledSite.registered_subset (root_mem_structures site m settings shape s) ?_
  unfold generatesRoot at h
  unfold rooted root SiteStructure.registered
  split at h
  · cases h
  all_goals
    rename_i hk
    rw [hk]
    exact Structure.self_mem_all s

theorem inferred_parameters {V : Vocabulary} (hV : ∀ name, V.name name) (site : CallSite)
    (m : Model) (parameters : List String) :
    (match parameters with
      | [] => (⟨m, site.scope, []⟩ : Context)
      | p :: _ => Context.bind ⟨m, site.scope, []⟩ p (site.elementType m)).Inferred V :=
  inferred_context (inferred_empty hV m site.scope) (.written (written_elementType hV site m))
    parameters

theorem sound_lowered {s : Structure} (hshape : shape.Spelled) (hs : s.Sound) :
    ∀ q ∈ (site.lowered m settings shape s).structures, q.Sound :=
  (createdInvariant_kept [] settings).made_body (inferred_parameters (fun _ => trivial) site m _)
    (admits hshape hs)

theorem bound_lowered {S : List Structure} {s : Structure} (hshape : shape.Spelled) (hs : s.Sound)
    (hroot : generatesRoot shape = true → s ∈ S) (hinner : s.inner ⊆ S)
    (hmade : ∀ q ∈ (site.lowered m settings shape s).structures, q.all ⊆ S) :
    (site.lowered m settings shape s).value.Every (Bound S) := by
  have rules := createdInvariant_kept S settings
  refine rules.lambda (rules.tree_body (inferred_parameters (fun _ => trivial) site m _)
    (admits hshape hs) (covers hshape hs hroot hinner) fun q hq => ?_)
  exact known_of_sound (sound_lowered hshape hs q hq) (hmade q hq)

theorem bound_projection {s : Structure} (hshape : shape.Spelled) (hs : s.Sound) :
    (site.lowered m settings shape s).value.Every
      (Bound (site.compileShape m settings shape s).registered) := by
  refine bound_lowered hshape hs root_mem_registered ?_ fun q hq => ?_
  · have hroot := CompiledSite.registered_subset
      (root_mem_structures site m settings shape s)
    exact fun q hq => hroot (SiteStructure.inner_subset_registered ⟨s, _⟩ hq)
  · exact CompiledSite.registered_subset (made_mem_structures hq)

/-- All that a site of this shape comes to is registered by it. -/
theorem closed_compileShape {s : Structure} (hshape : shape.Spelled) (hs : s.Sound) :
    (site.compileShape m settings shape s).Closed where
  sound := List.forall_mem_cons.2 ⟨hs, List.forall_mem_map.2 (sound_lowered hshape hs)⟩
  sourceType := by
    change TypeExpr.generatedIds ((site.elementType m).expr?.getD (.simple site.sourceType)) = []
    cases he : (site.elementType m).expr? with
    | none => rfl
    | some t =>
        have hw := written_elementType (V := .full) (fun _ => trivial) site m
        exact (TypeRef.generatedIds_of_expr? he).trans hw.generatedIds
  resultType := by
    change ∀ id ∈ (site.rooted m settings shape s).2.1.generatedIds, _
    intro id hid
    unfold rooted root at hid
    split at hid
    · rename_i hk
      cases List.mem_singleton.1 hid
      exact ⟨s, root_mem_registered (by simp [generatesRoot, hk]), rfl⟩
    · cases hid
    · rename_i type hk
      rw [hshape.type type hk] at hid
      cases hid
  projection := by
    change (Capture.rehost m site.scope [] (site.rooted m settings shape s).2.2).Every _
    apply Capture.bound_rehost
    have hp : (site.lowered m settings shape s).value.Every _ := bound_projection hshape hs
    unfold rooted root
    split
    · exact hp
    · exact bound_nameRoot hp
    · exact hp

/-- A site that is compiled is so from its shape and what the shape builds. -/
theorem eq_of_compile {c : CompiledSite} (h : site.compile m settings = .compiled c) :
    ∃ shape, Shape.ofLambda site.lambda site.typeArguments = .ok shape ∧
      c = site.compileShape m settings shape
        (Structure.ofType settings (resultType m site.scope shape (site.elementType m))) := by
  unfold compile at h
  split at h
  · cases h
  · rename_i shape hshape
    dsimp only at h
    split at h
    · cases h
    · cases h
      exact ⟨shape, hshape, rfl⟩

theorem closed_of_compile {c : CompiledSite} (hl : site.lambda.Spelled)
    (h : site.compile m settings = .compiled c) : c.Closed := by
  obtain ⟨shape, hshape, rfl⟩ := eq_of_compile h
  have hspelled := Shape.spelled_ofLambda hl hshape
  have hresult := inferred_resultType (m := m) (s := site.scope) hspelled
    (.written (written_elementType (fun _ => trivial) site m))
  exact closed_compileShape hspelled (Structure.sound_ofType hresult)

/-- Only a site with an explicit target has a structure with an explicit name. -/
theorem kind_of_explicit {c : CompiledSite} {t : SiteStructure} {target : Target}
    (h : site.compile m settings = .compiled c) (ht : t ∈ c.structures)
    (hn : t.naming = .explicit target) : ∃ name, c.kind = .explicit name := by
  obtain ⟨shape, _, rfl⟩ := eq_of_compile h
  change ∃ name, shape.kind = .explicit name
  rcases List.mem_cons.1 ht with rfl | ht
  · change (site.root shape _ _).1 = _ at hn
    unfold root at hn
    split at hn
    · cases hn
    · rename_i name hk
      exact ⟨name, hk⟩
    · cases hn
  · obtain ⟨q, _, rfl⟩ := List.mem_map.1 ht
    cases hn

end CallSite

end Projection
