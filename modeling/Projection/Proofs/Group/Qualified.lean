import Mathlib.Data.List.Flatten
import Mathlib.Data.List.Perm.Basic
import Projection.Emission
import Projection.Proofs.Group.Conflict
import Projection.Proofs.Text.Name

/-!
Full names of declared types. Authors' names never meet among themselves, but nothing holds them
apart from generated names, and these tell structures apart by the suffix of their ids alone. So the
types of a namespace have different names exactly where neither happens.
-/

namespace Projection

open Occurrence Text

def Declaration.qualified (space : String) (d : Declaration) : String :=
  join "." (d.name.namespace.getD space :: (Emission.enclosing d.origin ++ [d.name.simple]))

def Declaration.authored (target : Target) (s : Structure) : Declaration :=
  ⟨⟨target.name, none, target.reference⟩, .explicit target, s⟩

def Occurrence.title (settings : Settings) (o : Occurrence) : String :=
  match settings.nestedNaming with
  | .suffixedClassName => TypeName.hinted o.hint ++ "_" ++ o.built.id.suffix
  | .suffixNamespace => "Generated_" ++ o.built.id.suffix ++ "." ++ TypeName.hinted o.hint

theorem join_cons_append (sep s last : String) (names : List String) :
    join sep (s :: (names ++ [last])) = s ++ sep ++ join sep (names ++ [last]) := by
  cases names <;> rfl

theorem Declaration.qualified_authored (space : String) (target : Target) (s : Structure) :
    (authored target s).qualified space = space ++ "." ++ target.reference :=
  join_cons_append "." space target.name target.enclosing

theorem Occurrence.qualified_declaration (settings : Settings) (space : String) (o : Occurrence) :
    (o.declaration settings space).qualified space = space ++ "." ++ o.title settings := by
  unfold declaration name Declaration.qualified TypeName.generated title
  cases settings.nestedNaming with
  | suffixedClassName => rfl
  | suffixNamespace =>
      have hpoint : ".Generated_" = "." ++ "Generated_" := rfl
      simp only [Option.getD_some, Emission.enclosing, List.nil_append, join_cons_cons,
        join_singleton, hpoint, String.append_assoc]

namespace Staging

variable {settings : Settings} {space : String} {shared : Arena} {key : GroupKey}
  {taken given : List (String × StructuralId)} {st st' : Staging} {t : SiteStructure}

def Formed (st : Staging) : Prop :=
  ∀ d ∈ st.explicit ++ st.generated, d.origin = .generated ∨ ∃ target s, d = .authored target s

theorem Formed.add (h : st.Formed) (settings : Settings) (space : String) (shared : Arena)
    (hint : String) (s : Structure) : (st.add settings space shared hint s).Formed := by
  unfold Staging.add
  split
  · exact h
  · split
    · exact h
    · unfold Formed
      dsimp only
      rw [← List.append_assoc]
      exact List.forall_mem_append.2 ⟨h, List.forall_mem_singleton.2 (.inl rfl)⟩

theorem Formed.addNested (h : st.Formed) (settings : Settings) (space : String) (shared : Arena)
    (s : Structure) : (st.addNested settings space shared s).Formed := by
  unfold Staging.addNested
  induction s.nested generalizing st with
  | nil => exact h
  | cons p ps ih => exact ih (h.add settings space shared p.1.name p.2)

theorem named_addNested (settings : Settings) (space : String) (shared : Arena) (s : Structure) :
    (st.addNested settings space shared s).named = st.named := by
  unfold Staging.addNested
  induction s.nested generalizing st with
  | nil => rfl
  | cons p ps ih => rw [List.foldl_cons, ih, named_add]

/-- A name is declared where nobody has it. -/
theorem addExplicit_cases {target : Target} {s : Structure}
    (h : st.addExplicit shared key target s = .ok st') :
    st'.generated = st.generated ∧ (st'.explicit = st.explicit ∨
      claimed? shared st target.reference = none ∧
        st'.explicit = st.explicit ++ [.authored target s]) := by
  unfold Staging.addExplicit at h
  dsimp only at h
  split at h
  · split at h
    · cases h
      exact ⟨rfl, .inl rfl⟩
    · cases h
  · rename_i hclaimed
    cases h
    exact ⟨rfl, .inr ⟨hclaimed, rfl⟩⟩

theorem Formed.addExplicit (h : st.Formed) {target : Target} {s : Structure}
    (hst : st.addExplicit shared key target s = .ok st') : st'.Formed := by
  obtain ⟨hgenerated, hexplicit | ⟨-, hexplicit⟩⟩ := addExplicit_cases hst
  · unfold Formed
    rw [hgenerated, hexplicit]
    exact h
  · obtain ⟨hold, hrest⟩ := List.forall_mem_append.1 h
    unfold Formed
    rw [hgenerated, hexplicit, List.append_assoc]
    exact List.forall_mem_append.2 ⟨hold,
      List.forall_mem_cons.2 ⟨.inr ⟨target, s, rfl⟩, hrest⟩⟩

theorem named_addExplicit {target : Target} {s : Structure}
    (h : st.addExplicit shared key target s = .ok st') : st'.named = st.named ∨
      claimed? shared st target.reference = none ∧
        st'.named.Perm ((target.reference, s.id) :: st.named) := by
  obtain ⟨hgenerated, hexplicit | ⟨hclaimed, hexplicit⟩⟩ := addExplicit_cases h
  · refine .inl ?_
    rw [named, hgenerated, hexplicit, named]
  · refine .inr ⟨hclaimed, ?_⟩
    have hnew : Declaration.named? (.authored target s) = some (target.reference, s.id) := rfl
    rw [named, hgenerated, hexplicit, List.append_assoc, List.singleton_append,
      List.filterMap_append, List.filterMap_cons_some hnew, named, List.filterMap_append]
    exact List.perm_middle

/-- What a structure does to the names of a group. -/
theorem addStructure_cases (h : st.addStructure settings shared key t = .ok st') :
    (st.Formed → st'.Formed) ∧ (st'.named = st.named ∨ ∃ name id,
      claimed? shared st name = none ∧ st'.named.Perm ((name, id) :: st.named)) := by
  unfold Staging.addStructure at h
  cases hn : t.naming with
  | hinted =>
      rw [hn] at h
      cases h
      refine ⟨fun hformed => (hformed.add _ _ _ _ _).addNested _ _ _ _, .inl ?_⟩
      rw [named_addNested, named_add]
  | nestedOnly =>
      rw [hn] at h
      cases h
      exact ⟨fun hformed => hformed.addNested _ _ _ _, .inl (named_addNested ..)⟩
  | explicit target =>
      simp only [hn] at h
      cases hexplicit : st.addExplicit shared key target t.built with
      | error e =>
          rw [hexplicit] at h
          cases h
      | ok next =>
          rw [hexplicit] at h
          cases h
          refine ⟨fun hformed => (hformed.addExplicit hexplicit).addNested _ _ _ _, ?_⟩
          rw [named_addNested]
          exact (named_addExplicit hexplicit).imp_right fun hnew => ⟨_, _, hnew⟩

theorem Owns.addStructure (h : st.Owns shared taken given)
    (hst : st.addStructure settings shared key t = .ok st') :
    st'.Owns shared taken (given ++ t.named) := by
  have hone := h.foldlM settings key [t]
  have hrun : [t].foldlM (Staging.addStructure settings shared key) st = .ok st' := by
    rw [List.foldlM_cons, hst]
    rfl
  rw [hrun] at hone
  split at hone
  · cases hone
  · obtain ⟨_, heq, howns⟩ := hone
    cases heq
    simpa using howns

/-- A group whose names are all different, and different from those taken before it. -/
structure Distinct (shared : Arena) (taken given : List (String × StructuralId)) (st : Staging) :
    Prop where
  owns : st.Owns shared taken given
  formed : st.Formed
  nodup : ((taken ++ st.named).map (·.1)).Nodup

theorem Distinct.addStructure (h : st.Distinct shared taken given)
    (hst : st.addStructure settings shared key t = .ok st') :
    st'.Distinct shared taken (given ++ t.named) := by
  obtain ⟨hformed, hnamed⟩ := addStructure_cases hst
  refine ⟨h.owns.addStructure hst, hformed h.formed, ?_⟩
  rcases hnamed with hnamed | ⟨name, id, hclaimed, hnamed⟩
  · rw [hnamed]
    exact h.nodup
  · have hnew : name ∉ (taken ++ st.named).map (·.1) := by
      intro hmem
      obtain ⟨⟨_, owner⟩, howner, rfl⟩ := List.mem_map.1 hmem
      have hsome := (h.owns.claimed _ owner).2 ((h.owns.declared _).1 howner)
      rw [hclaimed] at hsome
      cases hsome
    have hperm : (taken ++ st'.named).Perm ((name, id) :: (taken ++ st.named)) :=
      (hnamed.append_left taken).trans List.perm_middle
    exact (hperm.map (·.1)).nodup_iff.2 (List.nodup_cons.2 ⟨hnew, h.nodup⟩)

theorem Distinct.foldlM (h : st.Distinct shared taken given) {ts : List SiteStructure}
    (hst : ts.foldlM (Staging.addStructure settings shared key) st = .ok st') :
    st'.Distinct shared taken (given ++ ts.flatMap SiteStructure.named) := by
  refine Staging.foldlM_addStructure (P := fun s ss =>
    s.Distinct shared taken (given ++ ss.flatMap SiteStructure.named))
    (fun hs ht => ?_) (by simpa using h) hst
  rw [List.flatMap_append, List.flatMap_singleton, ← List.append_assoc]
  exact hs.addStructure ht

end Staging

/-- Groups whose authored names are all different, and different from those taken before them.
They are the names that the sites of the groups give. -/
structure Authored (taken : List (String × StructuralId))
    (groups : List (List CompiledSite × Group)) : Prop where
  nodup : ((taken ++ groups.flatMap (·.2.named)).map (·.1)).Nodup
  given : ∀ x, x ∈ taken ++ groups.flatMap (·.2.named) ↔
    x ∈ taken ++ groups.flatMap fun group => namedBy group.1
  formed : ∀ group ∈ groups, ∀ d ∈ group.2.declarations,
    d.origin = .generated ∨ ∃ target s, d = .authored target s

namespace Registry

variable {settings : Settings} {space : String} {r : Registry} {key : GroupKey}
  {taken : List (String × StructuralId)} {sites : List CompiledSite} {g : Group}

theorem assemble_authored (h : (r.assemble settings key sites).1 = .ok g)
    (howns : (r.arena key.namespace).Owns taken) (hnodup : (taken.map (·.1)).Nodup) :
    ((r.assemble settings key sites).2.arena key.namespace).Owns (taken ++ g.named) ∧
      Authored taken [(sites, g)] := by
  obtain ⟨st, hst, rfl⟩ := staged_of_assemble h
  have hempty : Staging.Distinct (r.arena key.namespace) taken [] .empty :=
    ⟨Staging.owns_empty howns, nofun, by simpa [Staging.named, Staging.empty] using hnodup⟩
  have hdistinct := hempty.foldlM hst
  refine ⟨?_, ?_, fun x => ?_, List.forall_mem_singleton.2 hdistinct.formed⟩
  · rw [(assemble_of_staged hst).2.1]
    exact hdistinct.owns.commit
  · rw [List.flatMap_singleton]
    exact hdistinct.nodup
  · rw [List.flatMap_singleton, List.flatMap_singleton]
    exact hdistinct.owns.declared x

theorem authored_assembledIn (howns : (r.arena space).Owns taken)
    (hnodup : (taken.map (·.1)).Nodup) (settings : Settings)
    (calls : List (GroupKey × List CompiledSite)) :
    Authored taken (r.assembledIn settings space calls) := by
  induction calls generalizing r taken with
  | nil => exact ⟨by simpa [assembledIn, assembled] using hnodup, fun _ => Iff.rfl, nofun⟩
  | cons call calls ih =>
      obtain ⟨g, hassemble, rfl, hgroups⟩ | ⟨harena, hgroups⟩ :=
        assembledIn_cons settings space r call.1 call.2 calls
      · obtain ⟨howns', hone⟩ := assemble_authored hassemble howns hnodup
        have hrest := ih howns' (by simpa using hone.nodup)
        rw [hgroups]
        refine ⟨?_, fun x => ?_, ?_⟩
        · rw [List.flatMap_cons, ← List.append_assoc]
          exact hrest.nodup
        · have hx := hone.given x
          have hx' := hrest.given x
          simp only [List.flatMap_cons, List.flatMap_nil, List.append_nil, List.mem_append]
            at hx hx' ⊢
          grind
        · exact List.forall_mem_cons.2
            ⟨hone.formed _ (List.mem_singleton.2 rfl), hrest.formed⟩
      · rw [hgroups]
        exact ih (harena ▸ howns) hnodup

theorem authored_empty (settings : Settings) (space : String)
    (calls : List (GroupKey × List CompiledSite)) :
    Authored [] (Registry.empty.assembledIn settings space calls) :=
  authored_assembledIn (owns_arena_empty space) List.nodup_nil settings calls

end Registry

/-- The full names of declarations that are not generated are made of the names that were given. -/
theorem map_qualified_authored (space : String) {ds : List Declaration}
    (h : ∀ d ∈ ds, d.origin = .generated ∨ ∃ target s, d = .authored target s) :
    (ds.filter fun d => !decide (d.origin = .generated)).map (·.qualified space) =
      (ds.filterMap Declaration.named?).map fun x => space ++ "." ++ x.1 := by
  induction ds with
  | nil => rfl
  | cons d ds ih =>
      obtain ⟨hd, hds⟩ := List.forall_mem_cons.1 h
      rcases hd with hd | ⟨target, s, rfl⟩
      · rw [List.filter_cons_of_neg (by simp [hd]), ih hds, List.filterMap_cons_none]
        rw [Declaration.named?, hd]
      · rw [List.filter_cons_of_pos (by simp [Declaration.authored]), List.map_cons, ih hds,
          Declaration.qualified_authored]
        rfl

namespace Occurrence

variable {settings : Settings} {os : List Occurrence} {o p : Occurrence}

theorem point_not_mem_hinted (hint : String) : '.' ∉ (TypeName.hinted hint).toList := by
  have hfilter : ∀ c ∈ hint.toList.filter (fun c => c.isAlphanum || c = '_'), c ≠ '.' := by
    rintro c hc rfl
    exact absurd (List.mem_filter.1 hc).2 (by decide)
  unfold TypeName.hinted
  split
  · decide
  · rename_i c rest hchars
    rw [hchars] at hfilter
    obtain ⟨hc, hrest⟩ := List.forall_mem_cons.1 hfilter
    have hnot : '.' ∉ rest := fun hmem => hrest '.' hmem rfl
    split <;> simp [Ne.symm hc, hnot]

/-- Where the suffix of an id can be told from what is before it, a generated name tells the suffix
and what the hint is made into. -/
theorem title_eq_iff (h : settings.nestedNaming = .suffixedClassName →
      '_' ∉ o.built.id.suffix.toList ∧ '_' ∉ p.built.id.suffix.toList) :
    o.title settings = p.title settings ↔ o.built.id.suffix = p.built.id.suffix ∧
      TypeName.hinted o.hint = TypeName.hinted p.hint := by
  unfold title
  cases hnaming : settings.nestedNaming with
  | suffixedClassName =>
      obtain ⟨ho, hp⟩ := h hnaming
      dsimp only
      rw [append_append_inj_of_last rfl ho hp, and_comm]
  | suffixNamespace =>
      dsimp only
      rw [append_append_inj_of_last rfl (point_not_mem_hinted _) (point_not_mem_hinted _),
        String.append_right_inj]

theorem underscore_mem_title (settings : Settings) (o : Occurrence) :
    '_' ∈ (o.title settings).toList := by
  unfold title
  cases settings.nestedNaming <;> simp

theorem eq_of_mem_fresh {seen : List Occurrence} (ho : o ∈ fresh seen os) (hp : p ∈ fresh seen os)
    (hid : o.built.id = p.built.id) : o = p := by
  have hfirst := (mem_fresh.1 ho).2
  rw [hid, (mem_fresh.1 hp).2] at hfirst
  exact (Option.some.inj hfirst).symm

theorem mem_of_mem_fresh {seen : List Occurrence} (h : o ∈ fresh seen os) : o ∈ os :=
  List.mem_of_find?_eq_some (mem_fresh.1 h).2

theorem nodup_titles_iff (seen os : List Occurrence) :
    ((fresh seen os).map (title settings)).Nodup ↔
      ∀ o ∈ fresh seen os, ∀ p ∈ fresh seen os,
        o.title settings = p.title settings → o.built.id = p.built.id := by
  rw [List.nodup_map_iff_inj_on (.of_map _ (nodup_fresh seen os))]
  constructor
  · intro hinj o ho p hp htitle
    rw [hinj o ho p hp htitle]
  · intro hids o ho p hp htitle
    exact eq_of_mem_fresh ho hp (hids o ho p hp htitle)

end Occurrence

/-- The full names of a namespace's types, up to order. -/
theorem Registry.qualified_perm (settings : Settings) (space : String)
    (calls : List (GroupKey × List CompiledSite)) :
    let groups := Registry.empty.assembledIn settings space calls
    ((groups.flatMap (·.2.declarations)).map (·.qualified space)).Perm
      (((fresh [] (reached groups)).map (title settings) ++
        (groups.flatMap (·.2.named)).map (·.1)).map fun name => space ++ "." ++ name) := by
  intro groups
  have haccounted : Accounted settings space [] groups :=
    accounted_assembledIn (fun _ => rfl) calls
  have hauthored : Authored [] groups := authored_empty settings space calls
  have hformed : ∀ d ∈ groups.flatMap (·.2.declarations),
      d.origin = .generated ∨ ∃ target s, d = .authored target s := by
    intro d hd
    obtain ⟨group, hgroup, hd⟩ := List.mem_flatMap.1 hd
    exact hauthored.formed group hgroup d hd
  have hgenerated : (groups.flatMap (·.2.declarations)).filter (fun d => d.origin = .generated) =
      declared groups := List.filter_flatMap
  have hnamed : (groups.flatMap (·.2.declarations)).filterMap Declaration.named? =
      groups.flatMap (·.2.named) := List.filterMap_flatMap
  have hsplit := (List.filter_append_perm (fun d : Declaration => decide (d.origin = .generated))
    (groups.flatMap (·.2.declarations))).symm.map (Declaration.qualified space)
  rw [List.map_append, map_qualified_authored space hformed, hnamed, hgenerated,
    haccounted.declared_eq, List.map_map] at hsplit
  have htitles : Declaration.qualified space ∘ declaration settings space =
      (fun name => space ++ "." ++ name) ∘ title settings :=
    funext fun o => qualified_declaration settings space o
  rw [htitles] at hsplit
  rw [List.map_append, List.map_map, List.map_map]
  exact hsplit

/-- However groups are assembled one after the other, the types that the successful ones declare in
a namespace have different full names exactly where generated names of different structures differ
and no site gives one of them to its own structure. Generated names tell the suffix of the id and
what the hint is made into, so neither happens where suffixes tell ids apart and authors' names are
without underscores. -/
theorem Registry.qualified_names_distinct_iff (settings : Settings) (space : String)
    (calls : List (GroupKey × List CompiledSite)) :
    let groups := Registry.empty.assembledIn settings space calls
    let firsts := fresh [] (reached groups)
    let given := groups.flatMap fun group => namedBy group.1
    let names := (groups.flatMap (·.2.declarations)).map (·.qualified space)
    (names.Nodup ↔
      (∀ o ∈ firsts, ∀ p ∈ firsts,
        o.title settings = p.title settings → o.built.id = p.built.id) ∧
      ∀ o ∈ firsts, ∀ x ∈ given, x.1 ≠ o.title settings) ∧
    (∀ o ∈ firsts, ∀ p ∈ firsts,
      (settings.nestedNaming = .suffixedClassName →
        '_' ∉ o.built.id.suffix.toList ∧ '_' ∉ p.built.id.suffix.toList) →
      (o.title settings = p.title settings ↔ o.built.id.suffix = p.built.id.suffix ∧
        TypeName.hinted o.hint = TypeName.hinted p.hint)) ∧
    ((∀ o ∈ reached groups, '_' ∉ o.built.id.suffix.toList) →
      (∀ o ∈ reached groups, ∀ p ∈ reached groups,
        o.built.id.suffix = p.built.id.suffix → o.built.id = p.built.id) →
      (∀ x ∈ given, '_' ∉ x.1.toList) → names.Nodup) := by
  intro groups firsts given names
  have hauthored : Authored [] groups := authored_empty settings space calls
  have hgiven : ∀ x, x ∈ groups.flatMap (·.2.named) ↔ x ∈ given := hauthored.given
  have hinj : Function.Injective fun name : String => space ++ "." ++ name :=
    fun _ _ h => (String.append_right_inj _).1 h
  have hiff : names.Nodup ↔
      (∀ o ∈ firsts, ∀ p ∈ firsts,
        o.title settings = p.title settings → o.built.id = p.built.id) ∧
      ∀ o ∈ firsts, ∀ x ∈ given, x.1 ≠ o.title settings := by
    rw [(qualified_perm settings space calls).nodup_iff, List.nodup_map_iff hinj,
      List.nodup_append, nodup_titles_iff]
    refine and_congr_right fun _ => ⟨fun h o ho x hx => ?_, fun h => ⟨hauthored.nodup, ?_⟩⟩
    · exact (h.2 _ (List.mem_map_of_mem ho) _ (List.mem_map_of_mem ((hgiven x).2 hx))).symm
    · intro title htitle name hname
      obtain ⟨o, ho, rfl⟩ := List.mem_map.1 htitle
      obtain ⟨x, hx, rfl⟩ := List.mem_map.1 hname
      exact (h o ho x ((hgiven x).1 hx)).symm
  refine ⟨hiff, fun o _ p _ h => title_eq_iff h, fun hplain hsuffix hauthors => hiff.2 ⟨?_, ?_⟩⟩
  · intro o ho p hp htitle
    have ho := mem_of_mem_fresh ho
    have hp := mem_of_mem_fresh hp
    exact hsuffix o ho p hp ((title_eq_iff fun _ => ⟨hplain o ho, hplain p hp⟩).1 htitle).1
  · intro o _ x hx htitle
    exact hauthors x hx (htitle ▸ underscore_mem_title settings o)

theorem Registry.qualified_names_distinct_iff_two_files :
    let groups := Registry.empty.assembledIn {} "Shop"
      [(⟨"Shop", "A.cs"⟩, [rootSite .hinted "0123456789ABCDEF",
        rootSite (.explicit (.ofName "Row")) "0123456789ABCDEF"]),
      (⟨"Shop", "B.cs"⟩, [rootSite .hinted "FEDCBA9876543210"])]
    let names := (groups.flatMap (·.2.declarations)).map (·.qualified "Shop")
    (∀ o ∈ reached groups, '_' ∉ o.built.id.suffix.toList) ∧
      (∀ o ∈ reached groups, ∀ p ∈ reached groups,
        o.built.id.suffix = p.built.id.suffix → o.built.id = p.built.id) ∧
      (∀ x ∈ groups.flatMap fun group => namedBy group.1, '_' ∉ x.1.toList) ∧
      names = ["Shop.Row", "Shop.OrderDto_01234567", "Shop.OrderDto_FEDCBA98"] ∧ names.Nodup := by
  intro groups names
  have hplain : ∀ o ∈ reached groups, '_' ∉ o.built.id.suffix.toList := by decide +kernel
  have hsuffix : ∀ o ∈ reached groups, ∀ p ∈ reached groups,
      o.built.id.suffix = p.built.id.suffix → o.built.id = p.built.id := by decide +kernel
  have hauthors : ∀ x ∈ groups.flatMap fun group => namedBy group.1, '_' ∉ x.1.toList := by
    decide +kernel
  have h := Registry.qualified_names_distinct_iff {} "Shop"
    [(⟨"Shop", "A.cs"⟩, [rootSite .hinted "0123456789ABCDEF",
      rootSite (.explicit (.ofName "Row")) "0123456789ABCDEF"]),
    (⟨"Shop", "B.cs"⟩, [rootSite .hinted "FEDCBA9876543210"])]
  exact ⟨hplain, hsuffix, hauthors, by decide +kernel, h.2.2 hplain hsuffix hauthors⟩

theorem Registry.qualified_names_meet :
    let named (calls : List (GroupKey × List CompiledSite)) :=
      ((Registry.empty.assembledIn {} "Shop" calls).flatMap (·.2.declarations)).map
        fun d => (d.qualified "Shop", d.built.id.text)
    named [(⟨"Shop", "A.cs"⟩, [rootSite .hinted "0123456789ABCDEF",
        rootSite (.explicit (.ofName "OrderDto_01234567")) "FEDCBA9876543210"])] =
      [("Shop.OrderDto_01234567", "FEDCBA9876543210"),
        ("Shop.OrderDto_01234567", "0123456789ABCDEF")] ∧
    named [(⟨"Shop", "A.cs"⟩, [rootSite .hinted "0123456789ABCDEF"]),
        (⟨"Shop", "B.cs"⟩, [rootSite .hinted "01234567FEDCBA98"])] =
      [("Shop.OrderDto_01234567", "0123456789ABCDEF"),
        ("Shop.OrderDto_01234567", "01234567FEDCBA98")] := by
  decide +kernel

end Projection
