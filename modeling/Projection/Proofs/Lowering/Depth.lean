import Projection.Proofs.Capture.Refers
import Projection.Proofs.Lowering.Demand
import Projection.Proofs.Lowering.Scoped
import Projection.Proofs.Site.Created
import Projection.Proofs.Structure.Settled
import Projection.Proofs.Typing.Lifted
import Projection.Proofs.Typing.Sources

/-!
How deep object literals are opened inside one another. Opening one leads to the values of its
members, and these are smaller; only where optional access hides the type of a selection does the
type of its fallback bring in values from elsewhere. As long as those have no optional access
themselves, the depth at which lowering starts is enough: no object literal is met without depth
left for it, and more depth gives the same. Types that are read from text bring in no values at all.
-/

namespace Projection

open Typing Projection.Expr

/-- The structure of a collection of objects is that of its elements. -/
theorem Structure.materialize_of_element? (settings : Settings) {t : TypeRef} {a : AnonymousType}
    (h : t.element? = some (.anonymous a)) :
    (materialize settings t).2 = some (ofType settings a) := by
  obtain ⟨kind, n⟩ := t
  rw [TypeRef.element?] at h
  split at h
  · rename_i element heq
    cases heq
    cases h
    rfl
  · rename_i name element v heq
    cases heq
    split at h
    · cases h
      rfl
    · cases h
  · cases h

/-- The expression stands below the top of another one. -/
def Expr.Below (e c : Expr) : Prop := ∃ n ∈ e.nodes, c ∈ n.children

namespace Expr.Below

variable {c e : Expr}

theorem size_lt (h : e.Below c) : c.size < e.size := by
  obtain ⟨n, hn, hc⟩ := h
  have hle : n.size ≤ e.size :=
    every_of_inherited (fun h hc => Nat.le_trans (Nat.le_of_lt (size_lt_of_mem_children hc)) h)
      (Nat.le_refl e.size) n hn
  exact Nat.lt_of_lt_of_le (size_lt_of_mem_children hc) hle

theorem plain (h : e.Below c) (hp : e.hasOptionalAccess = false) : c.hasOptionalAccess = false := by
  obtain ⟨n, hn, hc⟩ := h
  exact plain_child (every_of_inherited plain_child hp n hn) hc

theorem size_le (h : e.Below c) {n : Nat} (he : e.size ≤ n) : c.size ≤ n :=
  Nat.le_trans (Nat.le_of_lt h.size_lt) he

theorem trans {d : Expr} (h : e.Below c) (hd : c.Below d) : e.Below d := by
  obtain ⟨n, hn, hc⟩ := h
  obtain ⟨m, hm, hd⟩ := hd
  exact ⟨m, nodes_subset hn (mem_nodes_of_mem_children hc hm), hd⟩

theorem of_child (hc : c ∈ e.children) : e.Below c := ⟨e, self_mem_nodes e, hc⟩

theorem of_literal {ms : List Initializer} {i : Initializer} (hu : e.unparen = .anonymous ms)
    (hi : i ∈ ms) : e.Below i.value :=
  ⟨e.unparen, unparen_mem_nodes e, by rw [hu]; exact List.mem_map.2 ⟨i, hi, rfl⟩⟩

theorem of_function {target arg body : Expr} {typeArgs : List TypeExpr} {args : List Expr}
    {params : List String} (ha : arg ∈ args) (hu : arg.unparen = .lambda params body) :
    (Expr.invoke target typeArgs args).Below body := by
  refine ⟨arg.unparen, mem_nodes_of_mem_children ?_ (unparen_mem_nodes arg), ?_⟩
  · exact List.mem_cons_of_mem _ ha
  · rw [hu]
    exact List.mem_singleton_self _

theorem of_receiver {target receiver : Expr} {name : String} {optional : Bool}
    {typeArgs : List TypeExpr} {args : List Expr}
    (hu : target.unparen = .member receiver name optional) :
    (Expr.invoke target typeArgs args).Below receiver := by
  refine ⟨target.unparen, mem_nodes_of_mem_children ?_ (unparen_mem_nodes target), ?_⟩
  · exact List.mem_cons_self
  · rw [hu]
    exact List.mem_singleton_self _

theorem of_selection {sel : Lowering.Selection}
    (h : Lowering.SelectionForm.ofExpr e = .selection sel) :
    e.Below sel.base ∧ e.Below sel.body ∧ ∀ f ∈ sel.fallback, e.Below f := by
  obtain ⟨_, _, _, _, _, _, hfallback⟩ := Lowering.eq_of_selection h
  have hwithin := Lowering.within_of_selection h
  refine ⟨⟨_, hwithin.access, by simp [children]⟩, ⟨_, hwithin.function, by simp [children]⟩, ?_⟩
  intro f hf
  rw [hfallback, Lowering.splitFallback.eq_def] at hf
  split at hf
  · rename_i l r heq
    cases hf
    exact ⟨e.unparen, unparen_mem_nodes e, by simp [heq, children]⟩
  · cases hf

end Expr.Below

namespace Lowering

variable {settings : Settings}

/-- Values without optional access. What is nested in them was written in them. -/
def plainDemand (settings : Settings) : Demand where
  expr depth _ e := e.hasOptionalAccess = false ∧ e.size ≤ depth
  creation depth Γ s := ∃ members, s = Structure.ofType settings (anonymousType Γ members) ∧
    ∀ i ∈ members, i.value.hasOptionalAccess = false ∧ i.value.size ≤ depth
  property depth Γ p := ∃ e t, e.hasOptionalAccess = false ∧ e.size ≤ depth ∧
    infer? Γ e = some t ∧ p.source = .classify e ∧ p.nested = (Structure.materialize settings t).2

theorem plainDemand_met : (plainDemand settings).Met settings where
  child h hc :=
    have hb := Below.of_child hc
    ⟨hb.plain h.1, hb.size_le h.2⟩
  function h ha hu :=
    have hb := Below.of_function ha hu
    ⟨hb.plain h.1, hb.size_le h.2⟩
  object := by
    intro depth Γ members ⟨hplain, hsize⟩ _
    have hpos := size_pos (.anonymous members)
    obtain ⟨left, rfl⟩ : ∃ left, depth = left + 1 := Nat.exists_eq_add_one.2 (by omega)
    refine ⟨left, rfl, members, rfl, fun i hi => ?_⟩
    have hb : (Expr.anonymous members).Below i.value := .of_literal rfl hi
    have := hb.size_lt
    exact ⟨hb.plain hplain, by omega⟩
  properties := by
    rintro depth Γ _ p ⟨members, rfl, hmembers⟩ hp
    obtain ⟨i, hi, t, ht, hsource, hnested⟩ := Structure.mem_properties_literal hp
    exact ⟨i.value, t, (hmembers i hi).1, (hmembers i hi).2, ht, hsource, hnested⟩
  value := by
    rintro depth Γ p ⟨e, t, hplain, hsize, -, hsource, -⟩ -
    rw [hsource, Source.expr_classify]
    exact ⟨hplain, hsize⟩
  nested := by
    rintro depth Γ p members e s ⟨v, t, hplain, hsize, ht, hsource, hnested⟩ hobject hs
    obtain ⟨ms, hu⟩ := Source.unparen_of_object (hsource.symm.trans hobject)
    cases ht.symm.trans (infer?_literal Γ hu)
    rw [hs, TypeRef.anonymous, Structure.materialize] at hnested
    cases hnested
    refine ⟨ms, rfl, fun i hi => ?_⟩
    have hb : v.Below i.value := .of_literal hu hi
    exact ⟨hb.plain hplain, hb.size_le hsize⟩
  selection := by
    rintro depth Γ p sel ⟨v, t, hplain, hsize, -, hsource, -⟩ hform
    rw [hsource, Source.expr_classify] at hform
    obtain ⟨hbase, -, hfallback⟩ := Below.of_selection hform
    refine ⟨⟨hbase.plain hplain, hbase.size_le hsize⟩, fun f hf => ?_⟩
    exact ⟨(hfallback f hf).plain hplain, (hfallback f hf).size_le hsize⟩
  selectObjects := by
    rintro depth Γ p sel s u ⟨v, t, hplain, hsize, ht, hsource, hnested⟩ hform hbody helement hs
    rw [hsource, Source.expr_classify] at hform
    obtain ⟨hbase, hfunction, -⟩ := Below.of_selection hform
    rw [elementType?, withoutOptional_of_plain (hbase.plain hplain)] at helement
    obtain ⟨ms, hu, helements⟩ := elements_of_selection hform hbody helement
    rw [ht] at helements
    rw [hs, Structure.materialize_of_element? settings helements] at hnested
    cases hnested
    refine ⟨ms, rfl, fun i hi => ?_⟩
    have hb := hfunction.trans (.of_literal hu hi)
    exact ⟨hb.plain hplain, hb.size_le hsize⟩
  select := by
    rintro depth Γ p sel u ⟨v, t, hplain, hsize, -, hsource, -⟩ hform - -
    rw [hsource, Source.expr_classify] at hform
    have hb := (Below.of_selection hform).2.1
    exact ⟨hb.plain hplain, hb.size_le hsize⟩

/-- Values without optional access that have no more nodes than this. -/
def Modest (bound : Nat) (e : Expr) : Prop := e.hasOptionalAccess = false ∧ e.size ≤ bound

/-- What a function ranges over brings in no other values than those of the receiver, read without
optional access. -/
theorem sources_elementType? {Γ : Context} {bound : Nat} {e : Expr} {t : TypeRef}
    (hΓ : Γ.Sources (Modest bound)) (he : e.size ≤ bound) (h : elementType? Γ e = some t) :
    t.Sources (Modest bound) := by
  obtain ⟨u, hu, ht⟩ := Option.bind_eq_some_iff.1 h
  have hchild {c e : Expr} (h : Modest bound e) (hc : c ∈ e.children) : Modest bound c :=
    ⟨plain_child h.1 hc, Nat.le_trans (Nat.le_of_lt (size_lt_of_mem_children hc)) h.2⟩
  have hplain : Modest bound e.withoutOptional :=
    ⟨plain_withoutOptional e, by rwa [size_withoutOptional]⟩
  have husources : u.Sources (Modest bound) := sources_infer? hchild
    (fun h hi => hchild h (List.mem_map.2 ⟨_, hi, rfl⟩)) hΓ hplain hu
  exact (TypeRef.closed_anonymousTypes _).element? husources ht

/-- What is left of the depth is enough for the value, and with optional access also for the values
that a fallback may bring in. -/
def Affordable (bound depth : Nat) (e : Expr) : Prop :=
  e.size ≤ bound ∧ (e.hasOptionalAccess = false ∧ e.size ≤ depth ∨ e.size + bound ≤ depth)

theorem Affordable.below {bound depth : Nat} {c e : Expr} (h : Affordable bound depth e)
    (hb : e.Below c) : Affordable bound depth c := by
  have hsize := hb.size_lt
  refine ⟨hb.size_le h.1, ?_⟩
  rcases h.2 with ⟨hplain, h⟩ | h
  · exact .inl ⟨hb.plain hplain, by omega⟩
  · exact .inr (by omega)

/-- The depth is enough for all values at all levels. -/
def Affords (bound depth : Nat) (s : Structure) : Prop :=
  ∀ q ∈ s.all, ∀ p ∈ q.properties, Affordable bound depth p.source.expr

/-- Values that the depth is enough for, in places where parameters bring in modest ones only. -/
def demand (settings : Settings) (bound : Nat) : Demand where
  expr depth Γ e := (plainDemand settings).expr depth Γ e ∨
    Γ.Sources (Modest bound) ∧ Affordable bound depth e
  creation depth Γ s := (plainDemand settings).creation depth Γ s ∨
    Γ.Sources (Modest bound) ∧ Affords bound depth s
  property depth Γ p := (plainDemand settings).property depth Γ p ∨
    Γ.Sources (Modest bound) ∧ Affordable bound depth p.source.expr ∧
      ∀ n, p.nested = some n → Affords bound depth n

theorem affords_literal {Γ : Context} {bound left : Nat} {members : List Initializer}
    (hΓ : Γ.Sources (Modest bound)) (hsize : (Expr.anonymous members).size ≤ bound)
    (h : (Expr.anonymous members).size + bound ≤ left + 1) :
    Affords bound left (Structure.ofType settings (anonymousType Γ members)) := by
  have hpos := size_pos (.anonymous members)
  have hsources : (TypeRef.anonymous (anonymousType Γ members)).Sources fun v =>
      v.size < (Expr.anonymous members).size ∨ Modest bound v := by
    refine sources_infer? (S := (·.size ≤ (Expr.anonymous members).size)) ?_ ?_ ?_
      (Nat.le_refl _) (infer?_anonymous Γ members)
    · intro c e he hc
      exact Nat.le_trans (Nat.le_of_lt (size_lt_of_mem_children hc)) he
    · intro ms i hms hi
      exact .inl (Nat.lt_of_lt_of_le (Below.of_literal rfl hi).size_lt hms)
    · exact fun b hb a ha m hm => .inr (hΓ b hb a ha m hm)
  intro q hq p hp
  obtain ⟨a, ha, rfl⟩ := Structure.exists_of_mem_all hq
  obtain ⟨m, hm, t, -, rfl⟩ := Structure.mem_properties_ofType hp
  change Affordable bound left (Source.classify m.expr).expr
  rw [Source.expr_classify]
  rcases hsources a ha m hm with hlt | ⟨hplain, hle⟩
  · exact ⟨by omega, .inr (by omega)⟩
  · exact ⟨hle, .inl ⟨hplain, by omega⟩⟩

theorem demand_met (settings : Settings) (bound : Nat) : (demand settings bound).Met settings where
  child := by
    rintro depth Γ c e (h | ⟨hΓ, h⟩) hc
    · exact .inl (plainDemand_met.child h hc)
    · exact .inr ⟨hΓ, h.below (.of_child hc)⟩
  function := by
    rintro depth Γ target typeArgs args arg params body (h | ⟨hΓ, h⟩) ha hu
    · exact .inl (plainDemand_met.function h ha hu)
    · refine .inr ⟨?_, h.below (.of_function ha hu)⟩
      refine enter_argument hΓ fun receiver name optional t htarget ht => ?_
      have hb : (Expr.invoke target typeArgs args).Below receiver := .of_receiver htarget
      refine Context.forall_mem_bindAll hΓ (List.forall_mem_cons.2 ⟨?_, ?_⟩)
      · exact sources_elementType? hΓ (hb.size_le h.1) ht
      · exact List.forall_mem_singleton.2 fun a ha => by cases ha
  object := by
    rintro depth Γ members (h | ⟨hΓ, hsize, h | h⟩) hs
    · obtain ⟨left, hleft, hcreation⟩ := plainDemand_met.object h hs
      exact ⟨left, hleft, .inl hcreation⟩
    · obtain ⟨left, hleft, hcreation⟩ := plainDemand_met.object h hs
      exact ⟨left, hleft, .inl hcreation⟩
    · have hpos := size_pos (.anonymous members)
      obtain ⟨left, rfl⟩ : ∃ left, depth = left + 1 := Nat.exists_eq_add_one.2 (by omega)
      exact ⟨left, rfl, .inr ⟨hΓ, affords_literal hΓ hsize h⟩⟩
  properties := by
    rintro depth Γ s p (h | ⟨hΓ, h⟩) hp
    · exact .inl (plainDemand_met.properties h hp)
    · refine .inr ⟨hΓ, h s s.self_mem_all p hp, fun n hn q hq => h q ?_⟩
      exact Structure.mem_all_of_mem_inner (Structure.mem_inner_of_nested hp hn hq)
  value := by
    rintro depth Γ p (h | ⟨hΓ, h, -⟩) hp
    · exact .inl (plainDemand_met.value h hp)
    · exact .inr ⟨hΓ, h⟩
  nested := by
    rintro depth Γ p members e s (h | ⟨hΓ, -, h⟩) hsource hs
    · exact .inl (plainDemand_met.nested h hsource hs)
    · exact .inr ⟨hΓ, h s hs⟩
  selection := by
    rintro depth Γ p sel (h | ⟨hΓ, h, -⟩) hform
    · obtain ⟨hbase, hfallback⟩ := plainDemand_met.selection h hform
      exact ⟨.inl hbase, fun f hf => .inl (hfallback f hf)⟩
    · obtain ⟨hbase, -, hfallback⟩ := Below.of_selection hform
      refine ⟨.inr ⟨hΓ, h.below hbase⟩, fun f hf => ?_⟩
      exact .inr ⟨hΓ, h.below (hfallback f hf)⟩
  selectObjects := by
    rintro depth Γ p sel s t (h | ⟨hΓ, h, hn⟩) hform hbody helement hs
    · exact .inl (plainDemand_met.selectObjects h hform hbody helement hs)
    · have hbase := (Below.of_selection hform).1
      refine .inr ⟨List.forall_mem_cons.2 ⟨?_, hΓ⟩, hn s hs⟩
      exact sources_elementType? hΓ (hbase.size_le h.1) helement
  select := by
    rintro depth Γ p sel t (h | ⟨hΓ, h, -⟩) hform hbody helement
    · exact .inl (plainDemand_met.select h hform hbody helement)
    · obtain ⟨hbase, hfunction, -⟩ := Below.of_selection hform
      refine .inr ⟨List.forall_mem_cons.2 ⟨?_, hΓ⟩, h.below hfunction⟩
      exact sources_elementType? hΓ (hbase.size_le h.1) helement

theorem sources_modest {Γ : Context} {bound : Nat} (hΓ : Γ.Sources (·.hasOptionalAccess = false))
    (h : Γ.weight ≤ bound) : Γ.Sources (Modest bound) := by
  intro b hb a ha m hm
  refine ⟨hΓ b hb a ha m hm, Nat.le_trans (TypeRef.size_le_weights _ a ?_ m hm) h⟩
  rw [TypeRef.anonymousTypesAll_eq]
  exact List.mem_flatMap.2 ⟨b.2, List.mem_map.2 ⟨b, hb, rfl⟩, ha⟩

theorem affordable_of_size_le {bound : Nat} {e : Expr} (hsize : e.size ≤ bound) :
    Affordable bound (2 * bound) e :=
  ⟨hsize, .inr (by omega)⟩

theorem affords_of_weight_le {bound : Nat} {s : Structure} (h : s.weight ≤ bound) :
    Affords bound (2 * bound) s := fun q hq p hp =>
  affordable_of_size_le (Nat.le_trans (s.size_le_weight q hq p hp) h)

variable {Γ : Context} {bound depth : Nat}

/-- From the sizes at the start on, more depth changes nothing. -/
theorem stable_of_le (settings : Settings) (hΓ : Γ.Sources (·.hasOptionalAccess = false))
    (hbound : Γ.weight ≤ bound) (hdepth : 2 * bound ≤ depth) :
    (∀ e declared, e.size ≤ bound →
      expr settings depth Γ e declared = expr settings (2 * bound) Γ e declared) ∧
    (∀ s, s.weight ≤ bound → creation settings depth Γ s = creation settings (2 * bound) Γ s) ∧
    ∀ p, Structure.propertyWeights [p] ≤ bound →
      property settings depth Γ p = property settings (2 * bound) Γ p := by
  obtain ⟨more, rfl⟩ := Nat.exists_eq_add_of_le hdepth
  have hmodest := sources_modest hΓ hbound
  obtain ⟨hexpr, -, hcreation, hproperty, -⟩ := (demand_met settings bound).all more
  refine ⟨fun e declared he => ?_, fun s hs => ?_, fun p hp => ?_⟩
  · exact hexpr _ Γ e declared (.inr ⟨hmodest, affordable_of_size_le he⟩)
  · exact hcreation _ Γ s (.inr ⟨hmodest, affords_of_weight_le hs⟩)
  · rw [Structure.propertyWeights_singleton] at hp
    refine hproperty _ Γ p (.inr ⟨hmodest, ?_, fun n hn => affords_of_weight_le ?_⟩)
    · exact affordable_of_size_le (by omega)
    · rw [hn, Option.map_some, Option.getD_some] at hp
      omega

theorem expr_eq_lower (hΓ : Γ.Sources (·.hasOptionalAccess = false)) {e : Expr}
    (h : 2 * (e.size + Γ.weight) ≤ depth) (declared : Option TypeRef) :
    expr settings depth Γ e declared = lower settings Γ e declared :=
  (stable_of_le settings hΓ (Nat.le_add_left _ _) h).1 e declared (Nat.le_add_right _ _)

theorem property_eq_lowerProperty (hΓ : Γ.Sources (·.hasOptionalAccess = false)) {p : Property}
    (h : 2 * (Structure.propertyWeights [p] + Γ.weight) ≤ depth) :
    property settings depth Γ p = lowerProperty settings Γ p :=
  (stable_of_le settings hΓ (Nat.le_add_left _ _) h).2.2 p (Nat.le_add_right _ _)

/-- Types that are read from text bring in no values. -/
theorem sources_of_parse (hΓ : ∀ b ∈ Γ.bindings, ∃ text, TypeRef.parse? Γ.model text = some b.2)
    (P : Expr → Prop) : Γ.Sources P := by
  intro b hb a ha
  obtain ⟨text, htext⟩ := hΓ b hb
  rw [TypeRef.anonymousTypes_of_parse? htext] at ha
  cases ha

/-- Where the types of parameters are read from text, lowering never uses up the depth at which it
starts. -/
theorem eq_lower_of_parse (settings : Settings)
    (hΓ : ∀ b ∈ Γ.bindings, ∃ text, TypeRef.parse? Γ.model text = some b.2) :
    (∀ depth e declared, 2 * (e.size + Γ.weight) ≤ depth →
      expr settings depth Γ e declared = lower settings Γ e declared) ∧
    ∀ depth p, 2 * (Structure.propertyWeights [p] + Γ.weight) ≤ depth →
      property settings depth Γ p = lowerProperty settings Γ p :=
  ⟨fun _ _ declared h => expr_eq_lower (sources_of_parse hΓ _) h declared,
    fun _ _ h => property_eq_lowerProperty (sources_of_parse hΓ _) h⟩

/-- The body of a projection that was read from a lambda. -/
theorem body_of_le {lambda : Expr} {typeArgs : List TypeExpr} {shape : Shape}
    (hshape : Shape.ofLambda lambda typeArgs = .ok shape) {s : Structure}
    (hΓ : Γ.Sources (·.hasOptionalAccess = false))
    (hbound : shape.body.size + s.weight + Γ.weight ≤ bound) (hdepth : 2 * bound ≤ depth) :
    body settings depth Γ shape s = body settings (2 * bound) Γ shape s := by
  obtain ⟨hexpr, hcreation, hproperty⟩ :=
    stable_of_le settings hΓ (show Γ.weight ≤ bound by omega) hdepth
  obtain ⟨_, _, _, _, hargs⟩ := Shape.eq_of_ofLambda hshape
  have hchild {c : Expr} (hc : c ∈ shape.body.children) :
      expr settings depth Γ c none = expr settings (2 * bound) Γ c none := by
    have := size_lt_of_mem_children hc
    exact hexpr c none (by omega)
  have hinitializer {i : Initializer} (hi : i.value ∈ shape.body.children) :
      initializer settings depth Γ s i = initializer settings (2 * bound) Γ s i := by
    unfold initializer
    split
    · rename_i p hp
      obtain ⟨name, -, hp⟩ := Option.bind_eq_some_iff.1 hp
      have := Structure.propertyWeights_le (List.mem_of_find?_eq_some hp)
      rw [hproperty p (by omega)]
    · rw [hchild hi]
  unfold body
  split
  · exact hcreation s (by omega)
  · exact hcreation s (by omega)
  · rw [List.map_congr_left fun a ha => hchild (hargs a ha)]
    split
    · rename_i is hbody
      rw [List.map_congr_left fun i hi => hinitializer (i := i) ?_]
      rw [hbody]
      exact List.mem_append_right _ (List.mem_map.2 ⟨i, hi, rfl⟩)
    · rfl

theorem projection_eq_lowerProjection {lambda : Expr} {typeArgs : List TypeExpr} {shape : Shape}
    (hshape : Shape.ofLambda lambda typeArgs = .ok shape) {s : Structure} {elementType : TypeRef}
    (hΓ : Γ.Sources (·.hasOptionalAccess = false))
    (helement : elementType.Sources (·.hasOptionalAccess = false))
    (h : 2 * (shape.body.size + s.weight + (projectionContext Γ shape elementType).weight) ≤
      depth) :
    projection settings depth Γ shape elementType s =
      lowerProjection settings Γ shape elementType s := by
  have hinner : (projectionContext Γ shape elementType).Sources (·.hasOptionalAccess = false) := by
    unfold projectionContext
    split
    · exact hΓ
    · exact List.forall_mem_cons.2 ⟨helement, hΓ⟩
  unfold projection
  rw [body_of_le hshape hinner (Nat.le_refl _) h]
  rfl

end Lowering

/-- At a call site the type of the elements brings in no values, so the projection that compiling
gives is the one at every greater depth. -/
theorem CallSite.projection_eq_lowered (site : CallSite) (m : Model) (settings : Settings)
    {shape : Shape} (hshape : Shape.ofLambda site.lambda site.typeArguments = .ok shape)
    (s : Structure) {depth : Nat}
    (h : 2 * (shape.body.size + s.weight + (Lowering.projectionContext ⟨m, site.scope, []⟩ shape
      (site.elementType m)).weight) ≤ depth) :
    Lowering.projection settings depth ⟨m, site.scope, []⟩ shape (site.elementType m) s =
      site.lowered m settings shape s := by
  have htype : (site.elementType m).anonymousTypes = [] := by
    rw [elementType.eq_def]
    cases h : TypeRef.parse? m site.sourceType with
    | none => rfl
    | some t => exact TypeRef.anonymousTypes_of_parse? h
  refine Lowering.projection_eq_lowerProjection hshape (fun b hb => by cases hb) (fun a ha => ?_) h
  rw [htype] at ha
  cases ha

end Projection
