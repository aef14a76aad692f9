import Mathlib.Data.List.Nodup
import Projection.Proofs.Group.Atomic

/-!
One declaration for each structure of a namespace, whatever groups are assembled one after the
other. The order in which the sites of the groups come upon structures settles which group declares
one and what its name is made from.
-/

namespace Projection

/-- A structure in need of a generated type, with what its name is made from. -/
structure Occurrence where
  hint : String
  built : Structure

namespace Occurrence

def name (settings : Settings) (space : String) (o : Occurrence) : TypeName :=
  .generated settings o.hint o.built.id space

def declaration (settings : Settings) (space : String) (o : Occurrence) : Declaration :=
  ⟨o.name settings space, .generated, o.built⟩

def first? (id : StructuralId) (os : List Occurrence) : Option Occurrence :=
  os.find? (·.built.id == id)

/-- The occurrences of structures that were not seen before. -/
def fresh (seen : List Occurrence) : List Occurrence → List Occurrence
  | [] => []
  | o :: os =>
      match first? o.built.id seen with
      | some _ => fresh (seen ++ [o]) os
      | none => o :: fresh (seen ++ [o]) os

variable {id : StructuralId} {o : Occurrence} {seen os : List Occurrence}

@[simp]
theorem first?_nil (id : StructuralId) : first? id [] = none := rfl

theorem first?_append (id : StructuralId) (os os' : List Occurrence) :
    first? id (os ++ os') = (first? id os).or (first? id os') :=
  List.find?_append

theorem first?_cons (id : StructuralId) (o : Occurrence) (os : List Occurrence) :
    first? id (o :: os) = if o.built.id = id then some o else first? id os := by
  by_cases h : o.built.id = id <;> simp [first?, h]

theorem id_of_first? (h : first? id os = some o) : o.built.id = id := by
  simpa using List.find?_some h

theorem first?_eq_none : first? id os = none ↔ ∀ o ∈ os, o.built.id ≠ id := by
  simp [first?, List.find?_eq_none]

theorem exists_first? (h : o ∈ os) : ∃ p, first? o.built.id os = some p := by
  rw [← Option.ne_none_iff_exists', Ne, first?_eq_none]
  exact fun hnone => hnone o h rfl

theorem fresh_append (seen os os' : List Occurrence) :
    fresh seen (os ++ os') = fresh seen os ++ fresh (seen ++ os) os' := by
  induction os generalizing seen with
  | nil => simp [fresh]
  | cons o os ih =>
      rw [List.cons_append, fresh, fresh]
      split <;> simp [ih]

theorem mem_fresh : o ∈ fresh seen os ↔
    first? o.built.id seen = none ∧ first? o.built.id os = some o := by
  induction os generalizing seen with
  | nil => simp [fresh, first?]
  | cons p os ih =>
      rw [fresh, first?_cons]
      by_cases hid : p.built.id = o.built.id
      · have hlater : o ∉ fresh (seen ++ [p]) os := by
          simp [ih, first?_append, first?_cons, hid]
        rw [hid, if_pos rfl]
        cases hseen : first? o.built.id seen with
        | some q => simp [hlater]
        | none => simp [hlater, eq_comm]
      · have hlater : o ∈ fresh (seen ++ [p]) os ↔
            first? o.built.id seen = none ∧ first? o.built.id os = some o := by
          simp [ih, first?_append, first?_cons, hid]
        have hne : o ≠ p := fun h => hid (h ▸ rfl)
        rw [if_neg hid]
        split <;> simp [hlater, hne]

theorem first?_fresh (h : first? id seen = none) : first? id (fresh seen os) = first? id os := by
  induction os generalizing seen with
  | nil => rfl
  | cons o os ih =>
      rw [fresh, first?_cons]
      by_cases hid : o.built.id = id
      · simp [hid, h, first?_cons]
      · have hlater : first? id (fresh (seen ++ [o]) os) = first? id os :=
          ih (by simp [first?_append, first?_cons, h, hid])
        split <;> simp [first?_cons, hid, hlater]

theorem lookup_map_name (settings : Settings) (space : String) (os : List Occurrence)
    (id : StructuralId) :
    (os.map fun o => (o.built.id, o.name settings space)).lookup id =
      (first? id os).map (name settings space) := by
  induction os with
  | nil => rfl
  | cons o os ih =>
      rw [List.map_cons, List.lookup_cons, ih, first?_cons]
      by_cases hid : o.built.id = id
      · simp [hid]
      · rw [if_neg hid, beq_eq_false_iff_ne.2 (Ne.symm hid)]

theorem nodup_fresh (seen os : List Occurrence) : ((fresh seen os).map (·.built.id)).Nodup := by
  induction os generalizing seen with
  | nil => exact List.nodup_nil
  | cons o os ih =>
      rw [fresh]
      split
      · exact ih _
      · refine List.nodup_cons.2 ⟨?_, ih _⟩
        rw [List.mem_map]
        rintro ⟨p, hp, hid⟩
        have hnone := (mem_fresh.1 hp).1
        simp [first?_append, first?_cons, hid] at hnone

end Occurrence

open Occurrence

/-- What a site needs generated types for, in order. A root that has a type or a name of its own
is not among it. -/
def SiteStructure.occurrences (t : SiteStructure) : List Occurrence :=
  (match t.naming with
    | .hinted => [⟨t.built.sourceType, t.built⟩]
    | .explicit _ | .nestedOnly => []) ++
    t.built.nested.map fun (p, n) => ⟨p.name, n⟩

def occurrences (sites : List CompiledSite) : List Occurrence :=
  (sites.flatMap (·.structures)).flatMap SiteStructure.occurrences

def Arena.Records (settings : Settings) (space : String) (seen : List Occurrence) (a : Arena) :
    Prop :=
  ∀ id, a.generated.lookup id = (first? id seen).map (name settings space)

namespace Staging

/-- A group that has come upon `os` so far, in a namespace that came upon `seen` before. -/
structure Staged (settings : Settings) (space : String) (seen os : List Occurrence)
    (st : Staging) : Prop where
  generated : st.generated = (fresh seen os).map (declaration settings space)
  names : ∀ id, st.names.lookup id =
    (first? id os).map fun o => (((first? id seen).getD o).name settings space).reference
  explicit : ∀ d ∈ st.explicit, d.origin ≠ .generated

variable {settings : Settings} {space : String} {shared : Arena} {key : GroupKey}
  {seen os : List Occurrence} {st st' : Staging}

theorem staged_empty : Staged settings space seen [] .empty :=
  ⟨rfl, fun _ => rfl, by simp [empty]⟩

/-- An occurrence of a structure that the group came upon before changes nothing. -/
theorem Staged.again (h : st.Staged settings space seen os) {o p : Occurrence}
    (hp : first? o.built.id os = some p) : st.Staged settings space seen (os ++ [o]) where
  generated := by
    rw [h.generated, fresh_append]
    simp [fresh, first?_append, hp]
  names id := by
    rw [h.names, first?_append, first?_cons]
    split
    · rename_i hid
      rw [← hid, hp, Option.some_or]
    · rw [first?_nil, Option.or_none]
  explicit := h.explicit

theorem Staged.lookup_names (h : st.Staged settings space seen os) {o : Occurrence}
    (ho : first? o.built.id os = none) (id : StructuralId) :
    (st.names ++ [(o.built.id,
        (((first? o.built.id seen).getD o).name settings space).reference)]).lookup id =
      (first? id (os ++ [o])).map
        fun p => (((first? id seen).getD p).name settings space).reference := by
  rw [List.lookup_append, h.names, first?_append, first?_cons]
  by_cases hid : o.built.id = id
  · subst hid
    simp [ho]
  · rw [if_neg hid, List.lookup_cons, beq_eq_false_iff_ne.2 (Ne.symm hid)]
    simp

theorem Staged.add (h : st.Staged settings space seen os)
    (hshared : shared.Records settings space seen) (o : Occurrence) :
    (st.add settings space shared o.hint o.built).Staged settings space seen (os ++ [o]) := by
  have hnames := h.names o.built.id
  have hrecord := hshared o.built.id
  unfold Staging.add
  split
  · rename_i name hname
    obtain ⟨p, hp, -⟩ := Option.map_eq_some_iff.1 (hnames.symm.trans hname)
    exact h.again hp
  · rename_i hname
    have ho := Option.map_eq_none_iff.1 (hnames.symm.trans hname)
    split
    · rename_i name hname
      obtain ⟨p, hp, rfl⟩ := Option.map_eq_some_iff.1 (hrecord.symm.trans hname)
      refine ⟨?_, fun id => ?_, h.explicit⟩
      · rw [h.generated, fresh_append]
        simp [fresh, first?_append, hp]
      · rw [← h.lookup_names ho id, hp, Option.getD_some]
    · rename_i hname
      have hp := Option.map_eq_none_iff.1 (hrecord.symm.trans hname)
      refine ⟨?_, fun id => ?_, h.explicit⟩
      · rw [h.generated, fresh_append]
        simp [fresh, first?_append, hp, ho, declaration, name]
      · rw [← h.lookup_names ho id, hp, Option.getD_none]
        rfl

theorem Staged.addNested (h : st.Staged settings space seen os)
    (hshared : shared.Records settings space seen) (s : Structure) :
    (st.addNested settings space shared s).Staged settings space seen
      (os ++ s.nested.map fun (p, n) => ⟨p.name, n⟩) := by
  unfold Staging.addNested
  induction s.nested generalizing st os with
  | nil => simpa using h
  | cons p ps ih =>
      have := ih (h.add hshared ⟨p.1.name, p.2⟩)
      simpa using this

theorem Staged.addExplicit (h : st.Staged settings space seen os) {target : Target} {s : Structure}
    (hst : st.addExplicit shared key target s = .ok st') :
    st'.Staged settings space seen os := by
  unfold Staging.addExplicit at hst
  dsimp only at hst
  split at hst
  · split at hst
    · cases hst
      exact ⟨h.generated, h.names, h.explicit⟩
    · cases hst
  · cases hst
    refine ⟨h.generated, h.names, ?_⟩
    rw [List.forall_mem_append, List.forall_mem_singleton]
    exact ⟨h.explicit, nofun⟩

theorem Staged.addStructure (h : st.Staged settings key.namespace seen os)
    (hshared : shared.Records settings key.namespace seen) {t : SiteStructure}
    (hst : st.addStructure settings shared key t = .ok st') :
    st'.Staged settings key.namespace seen (os ++ t.occurrences) := by
  unfold Staging.addStructure at hst
  unfold SiteStructure.occurrences
  cases hn : t.naming with
  | hinted =>
      rw [hn] at hst
      cases hst
      rw [← List.append_assoc]
      exact (h.add hshared ⟨t.built.sourceType, t.built⟩).addNested hshared t.built
  | explicit target =>
      rw [hn] at hst
      cases he : st.addExplicit shared key target t.built with
      | error e =>
          simp only [he] at hst
          cases hst
      | ok named =>
          simp only [he] at hst
          cases hst
          exact (h.addExplicit he).addNested hshared t.built
  | nestedOnly =>
      rw [hn] at hst
      cases hst
      exact h.addNested hshared t.built

/-- Staging structures one after the other. -/
theorem Staged.foldlM (h : st.Staged settings key.namespace seen os)
    (hshared : shared.Records settings key.namespace seen) {ts : List SiteStructure}
    (hst : ts.foldlM (Staging.addStructure settings shared key) st = .ok st') :
    st'.Staged settings key.namespace seen (os ++ ts.flatMap SiteStructure.occurrences) := by
  refine Staging.foldlM_addStructure (P := fun s ss =>
    s.Staged settings key.namespace seen (os ++ ss.flatMap SiteStructure.occurrences))
    (fun hs ht => ?_) (by simpa using h) hst
  rw [List.flatMap_append, List.flatMap_singleton, ← List.append_assoc]
  exact hs.addStructure hshared ht

/-- What a group declares is on record for the groups after it. -/
theorem Staged.commit (h : st.Staged settings space seen os)
    (hshared : shared.Records settings space seen) :
    (st.commit shared).Records settings space (seen ++ os) := by
  intro id
  have hdeclared : ((st.generated.map fun d => (d.built.id, d.name)).lookup id) =
      (first? id (fresh seen os)).map (name settings space) := by
    rw [h.generated, List.map_map]
    exact lookup_map_name settings space _ id
  rw [Staging.commit, List.lookup_append, hshared, hdeclared, first?_append]
  cases hseen : first? id seen with
  | none => simp [first?_fresh hseen]
  | some p =>
      have hnone : first? id (fresh seen os) = none := by
        rw [first?_eq_none]
        rintro o ho rfl
        rw [(mem_fresh.1 ho).1] at hseen
        cases hseen
      simp [hnone]

end Staging

def Group.generated (g : Group) : List Declaration :=
  g.declarations.filter fun d => d.origin = .generated

/-- How a group declares and names what it comes upon, in a namespace that came upon `seen`
before. -/
structure Group.Declares (settings : Settings) (space : String) (seen os : List Occurrence)
    (g : Group) : Prop where
  generated : g.generated = (fresh seen os).map (declaration settings space)
  reference : ∀ id o, first? id os = some o →
    g.reference? id = some (((first? id seen).getD o).name settings space).reference

theorem Staging.Staged.declares {settings : Settings} {space : String} {seen os : List Occurrence}
    {st : Staging} {g : Group} (h : st.Staged settings space seen os)
    (hdeclarations : g.declarations = st.explicit ++ st.generated)
    (hnames : g.names = st.allNames) : g.Declares settings space seen os where
  generated := by
    have hexplicit : st.explicit.filter (fun d => d.origin = .generated) = [] := by
      simpa using h.explicit
    have hgenerated : st.generated.filter (fun d => d.origin = .generated) = st.generated := by
      rw [h.generated, List.filter_eq_self, List.forall_mem_map]
      exact fun o _ => decide_eq_true rfl
    rw [Group.generated, hdeclarations, List.filter_append, hexplicit, hgenerated, h.generated,
      List.nil_append]
  reference id o ho := by
    rw [Group.reference?, hnames, Staging.allNames, List.lookup_append, h.names, ho]
    rfl

namespace Registry

variable {settings : Settings} {space : String} {r : Registry} {key : GroupKey}
  {seen : List Occurrence} {sites : List CompiledSite} {g : Group}

theorem assemble_declares (h : (r.assemble settings key sites).1 = .ok g)
    (hseen : (r.arena key.namespace).Records settings key.namespace seen) :
    g.Declares settings key.namespace seen (occurrences sites) ∧
      ((r.assemble settings key sites).2.arena key.namespace).Records settings key.namespace
        (seen ++ occurrences sites) := by
  obtain ⟨st, hst, rfl⟩ := staged_of_assemble h
  have hstaged := Staging.staged_empty.foldlM hseen hst
  rw [List.nil_append] at hstaged
  refine ⟨hstaged.declares rfl rfl, ?_⟩
  rw [(assemble_of_staged hst).2.1]
  exact hstaged.commit hseen

/-- The groups that come of assembling one after the other, with their sites. A group that fails
is left out. -/
def assembled (settings : Settings) :
    Registry → List (GroupKey × List CompiledSite) → List (List CompiledSite × Group)
  | _, [] => []
  | r, (key, sites) :: calls =>
      match r.assemble settings key sites with
      | (.ok g, r') => (sites, g) :: assembled settings r' calls
      | (.error _, r') => assembled settings r' calls

def assembledIn (settings : Settings) (space : String) (r : Registry)
    (calls : List (GroupKey × List CompiledSite)) : List (List CompiledSite × Group) :=
  (r.assembled settings calls).filter fun group => group.2.key.namespace = space

/-- The next group is one of the namespace, or it leaves the arena of the namespace alone. -/
theorem assembledIn_cons (settings : Settings) (space : String) (r : Registry) (key : GroupKey)
    (sites : List CompiledSite) (calls : List (GroupKey × List CompiledSite)) :
    let r' := (r.assemble settings key sites).2
    (∃ g, (r.assemble settings key sites).1 = .ok g ∧ key.namespace = space ∧
      r.assembledIn settings space ((key, sites) :: calls) =
        (sites, g) :: r'.assembledIn settings space calls) ∨
    (r'.arena space = r.arena space ∧
      r.assembledIn settings space ((key, sites) :: calls) =
        r'.assembledIn settings space calls) := by
  intro r'
  unfold assembledIn
  rw [assembled]
  cases hassemble : (r.assemble settings key sites).1 with
  | error e =>
      refine .inr ⟨arena_assemble_of_error hassemble space, ?_⟩
      rw [← Prod.eta (r.assemble settings key sites), hassemble]
  | ok g =>
      obtain ⟨st, -, hg⟩ := staged_of_assemble hassemble
      have hkey : g.key = key := by rw [hg]
      rw [← Prod.eta (r.assemble settings key sites), hassemble]
      dsimp only
      by_cases hspace : key.namespace = space
      · rw [List.filter_cons_of_pos (by simp [hkey, hspace])]
        exact .inl ⟨g, rfl, hspace, rfl⟩
      · rw [List.filter_cons_of_neg (by simp [hkey, hspace])]
        exact .inr ⟨assemble_elsewhere settings r sites (Ne.symm hspace), rfl⟩

end Registry

def reached (groups : List (List CompiledSite × Group)) : List Occurrence :=
  groups.flatMap fun group => occurrences group.1

def declared (groups : List (List CompiledSite × Group)) : List Declaration :=
  groups.flatMap fun group => group.2.generated

/-- Each group declares and names what those before it leave to it. -/
def Accounted (settings : Settings) (space : String) :
    List Occurrence → List (List CompiledSite × Group) → Prop
  | _, [] => True
  | seen, (sites, g) :: groups =>
      g.Declares settings space seen (occurrences sites) ∧
        Accounted settings space (seen ++ occurrences sites) groups

theorem Registry.accounted_assembledIn {settings : Settings} {space : String} {r : Registry}
    {seen : List Occurrence} (h : (r.arena space).Records settings space seen)
    (calls : List (GroupKey × List CompiledSite)) :
    Accounted settings space seen (r.assembledIn settings space calls) := by
  induction calls generalizing r seen with
  | nil => trivial
  | cons call calls ih =>
      obtain ⟨g, hassemble, rfl, hgroups⟩ | ⟨harena, hgroups⟩ :=
        assembledIn_cons settings space r call.1 call.2 calls
      · rw [hgroups]
        obtain ⟨hdeclares, hrecords⟩ := assemble_declares hassemble h
        exact ⟨hdeclares, ih hrecords⟩
      · rw [hgroups]
        exact ih (harena ▸ h)

namespace Accounted

variable {settings : Settings} {space : String} {seen : List Occurrence}
  {groups : List (List CompiledSite × Group)}

theorem declared_eq (h : Accounted settings space seen groups) :
    declared groups = (fresh seen (reached groups)).map (declaration settings space) := by
  induction groups generalizing seen with
  | nil => rfl
  | cons group groups ih =>
      obtain ⟨hdeclares, hrest⟩ := h
      unfold declared reached at ih ⊢
      rw [List.flatMap_cons, List.flatMap_cons, hdeclares.generated, ih hrest, fresh_append,
        List.map_append]

theorem reference_eq (h : Accounted settings space seen groups)
    {group : List CompiledSite × Group} (hgroup : group ∈ groups) {id : StructuralId}
    {o : Occurrence} (ho : first? id (occurrences group.1) = some o) :
    ∃ p, first? id (seen ++ reached groups) = some p ∧
      group.2.reference? id = some (p.name settings space).reference := by
  induction groups generalizing seen with
  | nil => cases hgroup
  | cons head groups ih =>
      obtain ⟨hdeclares, hrest⟩ := h
      rcases List.mem_cons.1 hgroup with rfl | hgroup
      · refine ⟨(first? id seen).getD o, ?_, hdeclares.reference id o ho⟩
        rw [reached, List.flatMap_cons, first?_append, first?_append, ho]
        cases first? id seen <;> rfl
      · obtain ⟨p, hp, hreference⟩ := ih hrest hgroup
        rw [List.append_assoc] at hp
        exact ⟨p, hp, hreference⟩

/-- The first group that comes upon a structure declares it. -/
theorem exists_declares (h : Accounted settings space seen groups) {id : StructuralId}
    {o : Occurrence} (hseen : first? id seen = none) (ho : first? id (reached groups) = some o) :
    ∃ before sites g after, groups = before ++ (sites, g) :: after ∧
      first? id (reached before) = none ∧ first? id (occurrences sites) = some o ∧
      o.declaration settings space ∈ g.generated := by
  induction groups generalizing seen with
  | nil => cases ho
  | cons head groups ih =>
      obtain ⟨sites, g⟩ := head
      obtain ⟨hdeclares, hrest⟩ := h
      rw [reached, List.flatMap_cons, first?_append] at ho
      cases hfirst : first? id (occurrences sites) with
      | some p =>
          rw [hfirst] at ho
          cases ho
          refine ⟨[], sites, g, groups, rfl, rfl, hfirst, ?_⟩
          rw [hdeclares.generated]
          refine List.mem_map_of_mem (mem_fresh.2 ?_)
          rw [id_of_first? hfirst]
          exact ⟨hseen, hfirst⟩
      | none =>
          rw [hfirst, Option.none_or] at ho
          have hnext : first? id (seen ++ occurrences sites) = none := by
            rw [first?_append, hseen, hfirst]
            rfl
          obtain ⟨before, sites', g', after, rfl, hbefore, hsites', hdeclared⟩ := ih hrest hnext ho
          refine ⟨(sites, g) :: before, sites', g', after, rfl, ?_, hsites', hdeclared⟩
          rw [reached, List.flatMap_cons, first?_append, hfirst]
          exact hbefore

end Accounted

/-- However groups are assembled one after the other, those of one namespace that succeed declare
generated types for different structures. What their sites come upon is declared once, by the first
of them that comes upon it and with a name made from the hint that stands there first; and each of
them that comes upon it refers to it by that name. -/
theorem Registry.one_declaration_for_each_structure (settings : Settings) (space : String)
    (calls : List (GroupKey × List CompiledSite)) :
    let groups := Registry.empty.assembledIn settings space calls
    ((declared groups).map (·.built.id)).Nodup ∧
    ∀ id, (∃ o ∈ reached groups, o.built.id = id) →
      ((declared groups).map (·.built.id)).count id = 1 ∧
      ∃ before sites g after o d, groups = before ++ (sites, g) :: after ∧
        (∀ p ∈ reached before, p.built.id ≠ id) ∧
        (occurrences sites).find? (·.built.id == id) = some o ∧
        d ∈ g.generated ∧ d.built.id = id ∧
        d.name = .generated settings o.hint id space ∧
        ∀ group ∈ groups, (∃ p ∈ occurrences group.1, p.built.id = id) →
          group.2.reference? id = some d.name.reference := by
  intro groups
  have haccounted : Accounted settings space [] groups :=
    accounted_assembledIn (fun _ => rfl) calls
  have hids : (declared groups).map (·.built.id) =
      (fresh [] (reached groups)).map (·.built.id) := by
    rw [haccounted.declared_eq, List.map_map]
    rfl
  have hnodup : ((declared groups).map (·.built.id)).Nodup := hids ▸ nodup_fresh [] _
  refine ⟨hnodup, ?_⟩
  rintro id ⟨q, hq, rfl⟩
  obtain ⟨o, ho⟩ := exists_first? hq
  obtain ⟨before, sites, g, after, hgroups, hbefore, hsites, hdeclared⟩ :=
    haccounted.exists_declares rfl ho
  have hid := id_of_first? ho
  have hmem : q.built.id ∈ (declared groups).map (·.built.id) := by
    refine List.mem_map.2 ⟨_, List.mem_flatMap.2 ⟨(sites, g), ?_, hdeclared⟩, hid⟩
    rw [hgroups]
    exact List.mem_append_right _ List.mem_cons_self
  refine ⟨List.count_eq_one_of_mem hnodup hmem, before, sites, g, after, o,
    o.declaration settings space, hgroups, first?_eq_none.1 hbefore, hsites, hdeclared, hid,
    hid ▸ rfl, ?_⟩
  rintro group hgroup ⟨p, hp, hpid⟩
  obtain ⟨p', hp'⟩ := exists_first? hp
  rw [hpid] at hp'
  obtain ⟨o', ho', hreference⟩ := haccounted.reference_eq hgroup hp'
  rw [List.nil_append, ho] at ho'
  cases ho'
  exact hreference

def siteFrom (sourceType : String) : CompiledSite :=
  ⟨⟨"Orders.cs", 1, 1⟩, ⟨"Shop", "Orders.cs"⟩, .anonymous, .simple sourceType, .simple sourceType,
    [⟨⟨sourceType, [], ⟨"0123456789ABCDEF"⟩⟩, .hinted⟩], .null, ⟨[], [], []⟩, []⟩

theorem Registry.one_declaration_for_each_structure_two_files :
    let groups := Registry.empty.assembledIn {} "Shop"
      [(⟨"Shop", "A.cs"⟩, [siteFrom "Order"]), (⟨"Shop", "B.cs"⟩, [siteFrom "Invoice"])]
    groups.length = 2 ∧ (∃ o ∈ reached groups, o.built.id = ⟨"0123456789ABCDEF"⟩) ∧
      ((declared groups).map (·.built.id)).count ⟨"0123456789ABCDEF"⟩ = 1 := by
  intro groups
  have h := Registry.one_declaration_for_each_structure {} "Shop"
    [(⟨"Shop", "A.cs"⟩, [siteFrom "Order"]), (⟨"Shop", "B.cs"⟩, [siteFrom "Invoice"])]
  have hreached : ∃ o ∈ reached groups, o.built.id = ⟨"0123456789ABCDEF"⟩ :=
    ⟨⟨"Order", ⟨"Order", [], ⟨"0123456789ABCDEF"⟩⟩⟩, List.mem_cons_self, rfl⟩
  exact ⟨rfl, hreached, (h.2 _ hreached).1⟩

end Projection
