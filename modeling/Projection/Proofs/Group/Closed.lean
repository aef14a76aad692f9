import Projection.Emission
import Projection.Proofs.Group.Atomic
import Projection.Proofs.Site.Created

/-!
Groups are closed under reference. Whatever structures the sites of a group register get a name in
the group, so that its text can be written.
-/

namespace Projection

namespace Staging

def Named (st : Staging) (id : StructuralId) : Prop := ∃ name, (id, name) ∈ st.allNames

def declarations (st : Staging) : List Declaration := st.explicit ++ st.generated

/-- Going from the one to the other names these structures, and declares no others. -/
structure Adds (st st' : Staging) (ss : List Structure) : Prop where
  kept : ∀ id, st.Named id → st'.Named id
  named : ∀ s ∈ ss, st'.Named s.id
  declared : ∀ d ∈ st'.declarations, d ∈ st.declarations ∨ d.built ∈ ss

theorem Named.lookup {st : Staging} {id : StructuralId} (h : st.Named id) :
    (st.allNames.lookup id).isSome := by
  obtain ⟨name, h⟩ := h
  exact List.lookup_isSome_iff.2 ⟨_, h, beq_self_eq_true id⟩

variable {settings : Settings} {space : String} {shared : Arena} {key : GroupKey}
  {st st' st'' : Staging} {ss ts : List Structure}

theorem Adds.refl (st : Staging) : st.Adds st [] :=
  ⟨fun _ h => h, by simp, fun _ h => .inl h⟩

theorem Adds.trans (h : st.Adds st' ss) (h' : st'.Adds st'' ts) : st.Adds st'' (ss ++ ts) where
  kept id hid := h'.kept id (h.kept id hid)
  named := List.forall_mem_append.2 ⟨fun s hs => h'.kept s.id (h.named s hs), h'.named⟩
  declared d hd := by
    rcases h'.declared d hd with hd | hd
    · rcases h.declared d hd with hd | hd
      · exact .inl hd
      · exact .inr (List.mem_append_left _ hd)
    · exact .inr (List.mem_append_right _ hd)

theorem named_of_mem_names {id : StructuralId} {name : String} (h : (id, name) ∈ st.names) :
    st.Named id :=
  ⟨name, List.mem_append_left _ h⟩

theorem Named.mono {id : StructuralId} (h : st.Named id) (hn : st.names ⊆ st'.names)
    (he : st.explicitNames ⊆ st'.explicitNames) : st'.Named id := by
  obtain ⟨name, h⟩ := h
  rcases List.mem_append.1 h with h | h
  · exact ⟨name, List.mem_append_left _ (hn h)⟩
  · exact ⟨name, List.mem_append_right _ (he h)⟩

theorem adds_add (st : Staging) (hint : String) (s : Structure) :
    st.Adds (st.add settings space shared hint s) [s] := by
  unfold add
  split
  · rename_i name hn
    exact ⟨fun _ h => h,
      List.forall_mem_singleton.2 (named_of_mem_names (Typing.mem_of_lookup hn)),
      fun _ h => .inl h⟩
  · have hkept {id : StructuralId} {name : String} {generated : List Declaration}
        (h : st.Named id) :
        Named { st with names := st.names ++ [(s.id, name)], generated := generated } id :=
      h.mono (List.subset_append_left _ _) (List.Subset.refl _)
    have hself {name : String} {generated : List Declaration} :
        Named { st with names := st.names ++ [(s.id, name)], generated := generated } s.id :=
      named_of_mem_names (List.mem_append_right _ (List.mem_singleton.2 rfl))
    split
    · exact ⟨fun _ => hkept, List.forall_mem_singleton.2 hself, fun _ h => .inl h⟩
    · refine ⟨fun _ => hkept, List.forall_mem_singleton.2 hself, fun d hd => ?_⟩
      rcases List.mem_append.1 hd with hd | hd
      · exact .inl (List.mem_append_left _ hd)
      · rcases List.mem_append.1 hd with hd | hd
        · exact .inl (List.mem_append_right _ hd)
        · cases List.mem_singleton.1 hd
          exact .inr (List.mem_singleton.2 rfl)

theorem adds_addNested (st : Staging) (s : Structure) :
    st.Adds (st.addNested settings space shared s) s.inner := by
  unfold addNested Structure.inner
  induction s.nested generalizing st with
  | nil => exact .refl st
  | cons p ps ih => exact (adds_add st p.1.name p.2).trans (ih _)

theorem adds_addExplicit {target : Target} {s : Structure}
    (h : st.addExplicit shared key target s = .ok st') : st.Adds st' [s] := by
  have hkept {id : StructuralId} {name : String} {explicit : List Declaration}
      (h : st.Named id) :
      Named { st with explicitNames := st.explicitNames ++ [(s.id, name)], explicit := explicit }
        id :=
    h.mono (List.Subset.refl _) (List.subset_append_left _ _)
  have hself {name : String} {explicit : List Declaration} :
      Named { st with explicitNames := st.explicitNames ++ [(s.id, name)], explicit := explicit }
        s.id :=
    ⟨name, List.mem_append_right _ (List.mem_append_right _ (List.mem_singleton.2 rfl))⟩
  unfold addExplicit at h
  dsimp only at h
  split at h
  · split at h
    · cases h
      exact ⟨fun _ => hkept, List.forall_mem_singleton.2 hself, fun _ h => .inl h⟩
    · cases h
  · cases h
    refine ⟨fun _ => hkept, List.forall_mem_singleton.2 hself, fun d hd => ?_⟩
    rcases List.mem_append.1 hd with hd | hd
    · rcases List.mem_append.1 hd with hd | hd
      · exact .inl (List.mem_append_left _ hd)
      · cases List.mem_singleton.1 hd
        exact .inr (List.mem_singleton.2 rfl)
    · exact .inl (List.mem_append_right _ hd)

theorem adds_addStructure {t : SiteStructure}
    (h : st.addStructure settings shared key t = .ok st') : st.Adds st' t.registered := by
  unfold addStructure at h
  unfold SiteStructure.registered
  split at h
  · rename_i hn
    cases h
    rw [hn]
    exact (adds_add st _ _).trans (adds_addNested _ _)
  · rename_i target hn
    rw [hn]
    cases he : st.addExplicit shared key target t.built with
    | error e =>
        rw [he] at h
        cases h
    | ok named =>
        rw [he] at h
        cases h
        exact (adds_addExplicit he).trans (adds_addNested _ _)
  · rename_i hn
    cases h
    rw [hn]
    exact adds_addNested st t.built

/-- Adding structures one after the other. -/
theorem adds_foldlM {sites : List SiteStructure}
    (h : sites.foldlM (addStructure settings shared key) st = .ok st') :
    st.Adds st' (sites.flatMap SiteStructure.registered) := by
  refine foldlM_addStructure (P := fun s ss => st.Adds s (ss.flatMap SiteStructure.registered))
    (fun hs ht => ?_) (Adds.refl st) h
  rw [List.flatMap_append, List.flatMap_singleton]
  exact hs.trans (adds_addStructure ht)

/-- Only explicit names can be taken already. -/
theorem exists_foldlM (settings : Settings) (shared : Arena) (key : GroupKey)
    {sites : List SiteStructure} (h : ∀ t ∈ sites, ∀ target, t.naming ≠ .explicit target)
    (st : Staging) :
    ∃ st', sites.foldlM (addStructure settings shared key) st = .ok st' := by
  induction sites generalizing st with
  | nil => exact ⟨st, rfl⟩
  | cons t ts ih =>
      obtain ⟨ht, hts⟩ := List.forall_mem_cons.1 h
      obtain ⟨next, hn⟩ : ∃ next, st.addStructure settings shared key t = .ok next := by
        unfold addStructure
        split
        · exact ⟨_, rfl⟩
        · rename_i target hn
          exact absurd hn (ht target)
        · exact ⟨_, rfl⟩
      rw [List.foldlM_cons, hn]
      exact ih hts next

end Staging

theorem Registry.exists_assemble (settings : Settings) (r : Registry) (key : GroupKey)
    {sites : List CompiledSite}
    (h : ∀ c ∈ sites, ∀ t ∈ c.structures, ∀ target, t.naming ≠ .explicit target) :
    ∃ g, (r.assemble settings key sites).1 = .ok g := by
  have hall : ∀ t ∈ sites.flatMap (·.structures), ∀ target, t.naming ≠ .explicit target := by
    intro t ht
    obtain ⟨c, hc, ht⟩ := List.mem_flatMap.1 ht
    exact h c hc t ht
  obtain ⟨st, hst⟩ := Staging.exists_foldlM settings (r.arena key.namespace) key hall .empty
  exact ⟨_, (assemble_of_staged hst).1⟩

/-- What the sites of a group register has a name in it, and it declares nothing else. -/
theorem Registry.assemble_adds {settings : Settings} {r : Registry} {key : GroupKey}
    {sites : List CompiledSite} {g : Group} (h : (r.assemble settings key sites).1 = .ok g) :
    (∀ c ∈ sites, ∀ s ∈ c.registered, (g.reference? s.id).isSome) ∧
      (∀ d ∈ g.declarations, ∃ c ∈ sites, d.built ∈ c.registered) ∧
      g.projections = sites.map Factory.ofSite := by
  obtain ⟨st, hst, rfl⟩ := staged_of_assemble h
  have hadds := Staging.adds_foldlM hst
  have hregistered : (sites.flatMap (·.structures)).flatMap SiteStructure.registered =
      sites.flatMap CompiledSite.registered := by
    rw [List.flatMap_assoc]
    rfl
  rw [hregistered] at hadds
  refine ⟨fun c hc s hs => ?_, fun d hd => ?_, rfl⟩
  · exact (hadds.named s (List.mem_flatMap.2 ⟨c, hc, hs⟩)).lookup
  · rcases hadds.declared d hd with hd | hd
    · cases hd
    · exact List.mem_flatMap.1 hd

namespace CompiledSite

theorem Closed.factoryIds {c : CompiledSite} (h : c.Closed) :
    ∀ id ∈ Emission.factoryIds (.ofSite c), ∃ s ∈ c.registered, s.id = id := by
  intro id hid
  rcases List.mem_append.1 hid with hid | hid
  · rcases List.mem_append.1 hid with hid | hid
    · rw [show (Factory.ofSite c).sourceType.generatedIds = [] from h.sourceType] at hid
      cases hid
    · exact h.resultType id hid
  · obtain ⟨n, hn, t, ht, hid⟩ := Expr.exists_node_of_mem_generatedIds hid
    exact (h.projection n hn).mentions t ht id hid

/-- What a registered structure mentions is registered too. -/
theorem Closed.property {c : CompiledSite} (h : c.Closed) {s : Structure} (hs : s ∈ c.registered)
    {p : Property} (hp : p ∈ s.properties) {id : StructuralId}
    (hid : id ∈ p.declaredType.generatedIds) : ∃ n ∈ c.registered, n.id = id := by
  obtain ⟨t, ht, hst⟩ := List.mem_flatMap.1 hs
  have hall := t.registered_subset_all hst
  obtain ⟨n, hn, rfl⟩ := (h.sound t ht s hall p hp).2 id hid
  have hinner := Structure.mem_inner_of_nested hp hn (Structure.self_mem_all n)
  exact ⟨n, registered_subset ht (t.inner_subset_registered (Structure.inner_trans hinner hall)),
    rfl⟩

end CompiledSite

namespace Emission

/-- A group that has a name for all that it mentions can be written. -/
theorem emit_of_named {settings : Settings} {g : Group}
    (h : ∀ id ∈ mentioned g, (g.reference? id).isSome) : ∃ text, emit settings g = .ok text := by
  have hnone : ((mentioned g).find? fun id => (g.reference? id).isNone) = none := by
    rw [List.find?_eq_none]
    intro id hid
    simpa using Option.isSome_iff_ne_none.1 (h id hid)
  unfold emit
  rw [hnone]
  exact ⟨_, rfl⟩

theorem mem_mentioned {g : Group} {id : StructuralId} (h : id ∈ mentioned g) :
    (∃ d ∈ g.declarations, id ∈ declarationIds d) ∨ ∃ f ∈ g.projections, id ∈ factoryIds f := by
  simp only [mentioned, ownDeclarations, declarationsIn, List.mem_append, List.mem_flatMap,
    List.mem_filter] at h
  grind

theorem mem_declarationIds {d : Declaration} {id : StructuralId} (h : id ∈ declarationIds d) :
    ∃ p ∈ d.built.properties, id ∈ p.declaredType.generatedIds := by
  obtain ⟨p, hp, hid⟩ := List.mem_flatMap.1 h
  cases he : p.declaredType.expr? with
  | none =>
      rw [he] at hid
      cases hid
  | some t =>
      rw [he] at hid
      refine ⟨p, hp, ?_⟩
      rw [← TypeRef.generatedIds_of_expr? he]
      exact hid

end Emission

/-- However a group comes about from sites whose lambdas were read from text, each generated type
that its factories and the properties of its declarations mention has a name in the group, so that
the group can be written; and each object of a generated type initializes the properties of a
structure of its site with that id, all of them and in order. -/
theorem Registry.generated_references_closed {m : Model} {settings : Settings} {r : Registry}
    {key : GroupKey} {sites : List CallSite} {compiled : List CompiledSite} {g : Group}
    (hparsed : ∀ site ∈ sites, ∃ source, Expr.parse source = .ok site.lambda)
    (hcompiled : ∀ c ∈ compiled, ∃ site ∈ sites, site.compile m settings = .compiled c)
    (h : (r.assemble settings key compiled).1 = .ok g) :
    (∀ f ∈ g.projections, ∀ id ∈ Emission.factoryIds f, (g.reference? id).isSome) ∧
    (∀ d ∈ g.declarations, ∀ p ∈ d.built.properties, ∀ id ∈ p.declaredType.generatedIds,
      (g.reference? id).isSome) ∧
    (∃ text, Emission.emit settings g = .ok text) ∧
    ∀ c ∈ compiled, ∀ n ∈ c.projection.nodes, ∀ id args initializers,
      n = .creation (.generated id) args initializers →
        ∃ t ∈ c.structures, ∃ s ∈ t.built.all, s.id = id ∧ args = [] ∧
          ∃ ms, initializers = some ms ∧
            ms.map (·.name) = s.properties.map fun p => some p.name := by
  have hclosed : ∀ c ∈ compiled, c.Closed := by
    intro c hc
    obtain ⟨site, hsite, hcompile⟩ := hcompiled c hc
    obtain ⟨source, hsource⟩ := hparsed site hsite
    exact CallSite.closed_of_compile (Expr.spelled_of_parse hsource) hcompile
  obtain ⟨hnamed, hdeclared, hprojections⟩ := Registry.assemble_adds h
  have hfactory : ∀ f ∈ g.projections, ∀ id ∈ Emission.factoryIds f, (g.reference? id).isSome := by
    rw [hprojections, List.forall_mem_map]
    intro c hc id hid
    obtain ⟨s, hs, rfl⟩ := (hclosed c hc).factoryIds id hid
    exact hnamed c hc s hs
  have hproperty : ∀ d ∈ g.declarations, ∀ p ∈ d.built.properties,
      ∀ id ∈ p.declaredType.generatedIds, (g.reference? id).isSome := by
    intro d hd p hp id hid
    obtain ⟨c, hc, hbuilt⟩ := hdeclared d hd
    obtain ⟨n, hn, rfl⟩ := (hclosed c hc).property hbuilt hp hid
    exact hnamed c hc n hn
  refine ⟨hfactory, hproperty, ?_, ?_⟩
  · refine Emission.emit_of_named fun id hid => ?_
    rcases Emission.mem_mentioned hid with ⟨d, hd, hid⟩ | ⟨f, hf, hid⟩
    · obtain ⟨p, hp, hid⟩ := Emission.mem_declarationIds hid
      exact hproperty d hd p hp id hid
    · exact hfactory f hf id hid
  · rintro c hc n hn id args initializers rfl
    obtain ⟨s, hs, rfl, ms, heq, hnames⟩ := ((hclosed c hc).projection _ hn).creates id _ _ rfl
    cases heq
    obtain ⟨t, ht, hst⟩ := List.mem_flatMap.1 hs
    exact ⟨t, ht, s, t.registered_subset_all hst, rfl, rfl, ms, rfl, hnames⟩

def orders : Model :=
  .ofTypes [⟨"Order", none, .class, [⟨"Id", .property, "int", false, false, .public⟩,
      ⟨"Items", .property, "List<Item>", false, false, .public⟩]⟩,
    ⟨"Item", none, .class, [⟨"Code", .property, "string", false, false, .public⟩]⟩]

/-- An object for each order, in which there is one for each item, in which there is one more. -/
def nestedObjects : String :=
  "o => new \x7b o.Id, Items = o.Items?.Select(i => new \x7b i.Code, At = new \x7b N = 1 \x7d " ++
    "\x7d) \x7d"

def orderSite (lambda : Expr) : CallSite :=
  ⟨⟨"Orders.cs", 1, 1⟩, none, "Order", lambda, [], none, none, .empty⟩

def Outcome.kind? : Outcome → Option ShapeKind
  | .compiled c => some c.kind
  | _ => none

theorem Outcome.compiled_of_kind? {o : Outcome} {kind : ShapeKind} (h : o.kind? = some kind) :
    ∃ c, o = .compiled c ∧ c.kind = kind := by
  cases o with
  | compiled c => exact ⟨c, rfl, Option.some.inj h⟩
  | skipped | degenerate => cases h

theorem Registry.generated_references_closed_nested_objects :
    ∃ lambda c g, Expr.parse nestedObjects = .ok lambda ∧
      (orderSite lambda).compile orders {} = .compiled c ∧
      (Registry.empty.assemble {} c.key [c]).1 = .ok g ∧
      (∀ f ∈ g.projections, ∀ id ∈ Emission.factoryIds f, (g.reference? id).isSome) ∧
      ∃ text, Emission.emit {} g = .ok text := by
  have h : ((Expr.parse nestedObjects).toOption.bind fun lambda =>
      ((orderSite lambda).compile orders {}).kind?) = some .anonymous := by decide +kernel
  cases hl : Expr.parse nestedObjects with
  | error e =>
      rw [hl] at h
      cases h
  | ok lambda =>
      rw [hl] at h
      obtain ⟨c, hc, hkind⟩ := Outcome.compiled_of_kind? h
      have hnames : ∀ d ∈ [c], ∀ t ∈ d.structures, ∀ target, t.naming ≠ .explicit target := by
        rw [List.forall_mem_singleton]
        intro t ht target hn
        obtain ⟨name, hk⟩ := CallSite.kind_of_explicit hc ht hn
        rw [hkind] at hk
        cases hk
      obtain ⟨g, hg⟩ := Registry.exists_assemble {} .empty c.key hnames
      have hsites : ∀ site ∈ [orderSite lambda], ∃ source, Expr.parse source = .ok site.lambda :=
        List.forall_mem_singleton.2 ⟨nestedObjects, hl⟩
      have hcompiled : ∀ d ∈ [c], ∃ site ∈ [orderSite lambda],
          site.compile orders {} = .compiled d :=
        List.forall_mem_singleton.2 ⟨_, List.mem_singleton.2 rfl, hc⟩
      have closed := Registry.generated_references_closed hsites hcompiled hg
      exact ⟨lambda, c, g, rfl, hc, hg, closed.1, closed.2.2.1⟩

end Projection
