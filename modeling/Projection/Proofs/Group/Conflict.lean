import Projection.Proofs.Group.Declared

/-!
Names that authors give to structures. A group fails on the first of its names that another
structure has already, and on nothing else; and for the groups after it a group that fails is as if
it had never been there.
-/

namespace Projection

/-- The first name that is given to a structure while it is another's, one of `taken` or one from
further up the list. -/
def firstClash? (taken : List (String × StructuralId)) :
    List (String × StructuralId) → Option String
  | [] => none
  | (name, id) :: rest =>
      if taken.any fun (other, owner) => other = name ∧ owner ≠ id then some name
      else firstClash? (taken ++ [(name, id)]) rest

def SiteStructure.named (t : SiteStructure) : List (String × StructuralId) :=
  match t.naming with
  | .explicit target => [(target.reference, t.built.id)]
  | .hinted | .nestedOnly => []

def namedBy (sites : List CompiledSite) : List (String × StructuralId) :=
  (sites.flatMap (·.structures)).flatMap SiteStructure.named

def Declaration.named? (d : Declaration) : Option (String × StructuralId) :=
  match d.origin with
  | .explicit _ => some (d.name.reference, d.built.id)
  | .generated => none

def Group.named (g : Group) : List (String × StructuralId) :=
  g.declarations.filterMap Declaration.named?

def Arena.Owns (taken : List (String × StructuralId)) (a : Arena) : Prop :=
  ∀ name id, a.explicit.lookup name = some id ↔ (name, id) ∈ taken

theorem firstClash?_cons_of_clash {taken rest : List (String × StructuralId)} {name : String}
    {id owner : StructuralId} (h : (name, owner) ∈ taken) (hne : owner ≠ id) :
    firstClash? taken ((name, id) :: rest) = some name := by
  rw [firstClash?, if_pos]
  exact List.any_eq_true.2 ⟨_, h, decide_eq_true ⟨rfl, hne⟩⟩

theorem firstClash?_cons {taken rest : List (String × StructuralId)} {name : String}
    {id : StructuralId} (h : ∀ owner, (name, owner) ∈ taken → owner = id) :
    firstClash? taken ((name, id) :: rest) = firstClash? (taken ++ [(name, id)]) rest := by
  rw [firstClash?, if_neg]
  rintro hany
  obtain ⟨⟨other, owner⟩, hmem, hclash⟩ := List.any_eq_true.1 hany
  obtain ⟨rfl, hne⟩ := of_decide_eq_true hclash
  exact hne (h owner hmem)

namespace Staging

def named (st : Staging) : List (String × StructuralId) :=
  (st.explicit ++ st.generated).filterMap Declaration.named?

/-- A group that has given these names so far, in a namespace where others were taken before. Only
the names that were not taken are declared. -/
structure Owns (shared : Arena) (taken given : List (String × StructuralId)) (st : Staging) :
    Prop where
  claimed : ∀ name id, claimed? shared st name = some id ↔ (name, id) ∈ taken ++ given
  declared : ∀ x, x ∈ taken ++ st.named ↔ x ∈ taken ++ given

variable {settings : Settings} {space : String} {shared : Arena} {key : GroupKey}
  {taken given : List (String × StructuralId)} {st st' : Staging}

theorem owns_empty (h : shared.Owns taken) : Owns shared taken [] .empty :=
  ⟨fun name id => by simpa [claimed?, empty] using h name id, fun _ => Iff.rfl⟩

theorem explicit_add (hint : String) (s : Structure) :
    (st.add settings space shared hint s).explicit = st.explicit := by
  unfold Staging.add
  split
  · rfl
  · split <;> rfl

theorem named_add (hint : String) (s : Structure) :
    (st.add settings space shared hint s).named = st.named := by
  unfold Staging.add
  split
  · rfl
  · split
    · rfl
    · simp [named, Declaration.named?]

theorem Owns.add (h : st.Owns shared taken given) (settings : Settings) (space hint : String)
    (s : Structure) : (st.add settings space shared hint s).Owns shared taken given := by
  refine ⟨?_, ?_⟩
  · unfold claimed?
    rw [explicit_add]
    exact h.claimed
  · rw [named_add]
    exact h.declared

theorem Owns.addNested (h : st.Owns shared taken given) (settings : Settings) (space : String)
    (s : Structure) : (st.addNested settings space shared s).Owns shared taken given := by
  unfold Staging.addNested
  induction s.nested generalizing st with
  | nil => exact h
  | cons p ps ih => exact ih (h.add settings space p.1.name p.2)

/-- A name that is another structure's cannot be given. -/
theorem Owns.addExplicit_of_clash (h : st.Owns shared taken given) {target : Target}
    {s : Structure} {owner : StructuralId} (howner : (target.reference, owner) ∈ taken ++ given)
    (hne : owner ≠ s.id) : st.addExplicit shared key target s =
      .error (.nameConflict target.reference key.display) := by
  unfold Staging.addExplicit
  dsimp only
  rw [(h.claimed _ _).2 howner]
  exact if_neg hne

theorem claimed?_declare {d : Declaration} (h : claimed? shared st d.name.reference = none)
    (names : List (StructuralId × String)) (name : String) :
    claimed? shared { st with explicit := st.explicit ++ [d], explicitNames := names } name =
      if name = d.name.reference then some d.built.id else claimed? shared st name := by
  unfold claimed? at h ⊢
  rw [List.find?_append]
  split
  · rename_i heq
    subst heq
    rw [Option.or_eq_none_iff, Option.map_eq_none_iff] at h
    simp [h.1]
  · rename_i hne
    have hlast : [d].find? (·.name.reference == name) = none := by
      simpa using Ne.symm hne
    rw [hlast, Option.or_none]

/-- Any other name can be given, also once more to the structure that has it. -/
theorem Owns.addExplicit (h : st.Owns shared taken given) (key : GroupKey) {target : Target}
    {s : Structure} (hfree : ∀ owner, (target.reference, owner) ∈ taken ++ given → owner = s.id) :
    ∃ st', st.addExplicit shared key target s = .ok st' ∧
      st'.Owns shared taken (given ++ [(target.reference, s.id)]) := by
  unfold Staging.addExplicit
  dsimp only
  cases hc : claimed? shared st target.reference with
  | some owner =>
      have howner := (h.claimed _ _).1 hc
      obtain rfl := hfree owner howner
      have hagain : ∀ x, x ∈ taken ++ (given ++ [(target.reference, s.id)]) ↔
          x ∈ taken ++ given := by
        intro x
        rw [← List.append_assoc, List.mem_append, List.mem_singleton]
        exact ⟨fun hx => hx.elim id fun heq => heq ▸ howner, .inl⟩
      exact ⟨_, if_pos rfl, fun name id => (h.claimed name id).trans (hagain _).symm,
        fun x => (h.declared x).trans (hagain x).symm⟩
  | none =>
      refine ⟨_, rfl, fun name id => ?_, fun x => ?_⟩
      · rw [claimed?_declare hc, ← List.append_assoc, List.mem_append, List.mem_singleton,
          ← h.claimed]
        dsimp only
        split
        · rename_i heq
          simp [heq, hc, eq_comm]
        · rename_i hne
          simp [hne]
      · have hnamed : x ∈ taken ++ named { st with
            explicit := st.explicit ++
              [⟨⟨target.name, none, target.reference⟩, .explicit target, s⟩]
            explicitNames := st.explicitNames ++ [(s.id, target.reference)] } ↔
            x ∈ taken ++ st.named ∨ x = (target.reference, s.id) := by
          simp only [named, List.filterMap_append, List.mem_append, Declaration.named?,
            List.filterMap_cons, List.filterMap_nil, List.mem_singleton]
          tauto
        rw [hnamed, h.declared, ← List.append_assoc, List.mem_append (t := [_]),
          List.mem_singleton]

/-- What becomes of structures that are staged one after the other. -/
theorem Owns.foldlM (h : st.Owns shared taken given) (settings : Settings) (key : GroupKey)
    (ts : List SiteStructure) :
    match firstClash? (taken ++ given) (ts.flatMap SiteStructure.named) with
    | some name => ts.foldlM (Staging.addStructure settings shared key) st =
        .error (.nameConflict name key.display)
    | none => ∃ st', ts.foldlM (Staging.addStructure settings shared key) st = .ok st' ∧
        st'.Owns shared taken (given ++ ts.flatMap SiteStructure.named) := by
  induction ts generalizing st given with
  | nil => exact ⟨st, rfl, by simpa using h⟩
  | cons t ts ih =>
      rw [List.flatMap_cons, List.foldlM_cons]
      unfold SiteStructure.named Staging.addStructure
      cases hn : t.naming with
      | hinted =>
          exact ih ((h.add settings key.namespace t.built.sourceType t.built).addNested settings
            key.namespace t.built)
      | nestedOnly => exact ih (h.addNested settings key.namespace t.built)
      | explicit target =>
          dsimp only
          rw [List.singleton_append]
          by_cases hclash : ∃ owner, (target.reference, owner) ∈ taken ++ given ∧ owner ≠ t.built.id
          · obtain ⟨owner, howner, hne⟩ := hclash
            rw [firstClash?_cons_of_clash howner hne, h.addExplicit_of_clash howner hne]
            rfl
          · have hfree : ∀ owner, (target.reference, owner) ∈ taken ++ given →
                owner = t.built.id := by
              intro owner howner
              by_contra hne
              exact hclash ⟨owner, howner, hne⟩
            obtain ⟨named, hnamed, howns⟩ := h.addExplicit key hfree
            have hrest := ih (howns.addNested settings key.namespace t.built)
            rw [firstClash?_cons hfree, hnamed, List.append_assoc]
            rw [List.append_assoc] at hrest
            exact hrest

theorem lookup_map_explicit (ds : List Declaration) (name : String) :
    (ds.map fun d => (d.name.reference, d.built.id)).lookup name =
      (ds.find? (·.name.reference == name)).map (·.built.id) := by
  induction ds with
  | nil => rfl
  | cons d ds ih =>
      rw [List.map_cons, List.lookup_cons, ih, List.find?_cons]
      by_cases hname : d.name.reference = name
      · simp [hname]
      · rw [beq_eq_false_iff_ne.2 hname, beq_eq_false_iff_ne.2 (Ne.symm hname)]

/-- The names that a group declares are taken for the groups after it. -/
theorem Owns.commit (h : st.Owns shared taken given) :
    (st.commit shared).Owns (taken ++ st.named) := by
  intro name id
  rw [h.declared, ← h.claimed, Staging.commit, List.lookup_append, lookup_map_explicit]
  rfl

end Staging

namespace Registry

variable {settings : Settings} {space : String} {r r' : Registry} {key : GroupKey}
  {taken : List (String × StructuralId)} {sites : List CompiledSite} {g : Group}

theorem owns_arena_empty (space : String) : (Registry.empty.arena space).Owns [] :=
  fun _ _ => ⟨nofun, nofun⟩

/-- A group is assembled exactly where none of its names clashes. -/
theorem assemble_of_owns (h : (r.arena key.namespace).Owns taken) (settings : Settings)
    (sites : List CompiledSite) :
    match firstClash? taken (namedBy sites) with
    | some name => (r.assemble settings key sites).1 = .error (.nameConflict name key.display)
    | none => ∃ g, (r.assemble settings key sites).1 = .ok g ∧
        ((r.assemble settings key sites).2.arena key.namespace).Owns (taken ++ g.named) := by
  have hstaged := (Staging.owns_empty h).foldlM settings key (sites.flatMap (·.structures))
  rw [List.append_nil] at hstaged
  unfold namedBy
  split
  · rename_i name hclash
    rw [hclash] at hstaged
    exact (assemble_of_staged_error hstaged).1
  · rename_i hclash
    rw [hclash] at hstaged
    obtain ⟨st, hst, howns⟩ := hstaged
    obtain ⟨hok, harena, -⟩ := assemble_of_staged hst
    refine ⟨_, hok, ?_⟩
    rw [harena]
    exact howns.commit

/-- The registry after groups were submitted one after the other. -/
def after (settings : Settings) : Registry → List (GroupKey × List CompiledSite) → Registry
  | r, [] => r
  | r, (key, sites) :: calls => after settings (r.assemble settings key sites).2 calls

def results (settings : Settings) :
    Registry → List (GroupKey × List CompiledSite) → List (Except GenerateError Group)
  | _, [] => []
  | r, (key, sites) :: calls =>
      (r.assemble settings key sites).1 :: results settings (r.assemble settings key sites).2 calls

theorem results_append (r : Registry) (calls calls' : List (GroupKey × List CompiledSite)) :
    r.results settings (calls ++ calls') =
      r.results settings calls ++ (r.after settings calls).results settings calls' := by
  induction calls generalizing r with
  | nil => rfl
  | cons call calls ih => exact congrArg (_ :: ·) (ih _)

@[simp]
theorem length_results (r : Registry) (calls : List (GroupKey × List CompiledSite)) :
    (r.results settings calls).length = calls.length := by
  induction calls generalizing r with
  | nil => rfl
  | cons call calls ih => exact congrArg (· + 1) (ih _)

/-- What comes of groups depends on the registry only through its arenas. -/
theorem results_congr (h : ∀ space, r.arena space = r'.arena space) (settings : Settings)
    (calls : List (GroupKey × List CompiledSite)) :
    r.results settings calls = r'.results settings calls := by
  induction calls generalizing r r' with
  | nil => rfl
  | cons call calls ih =>
      obtain ⟨key, sites⟩ := call
      obtain ⟨hresult, harena⟩ := assemble_congr (h key.namespace) settings sites
      rw [results, results, hresult]
      refine congrArg (_ :: ·) (ih fun space => ?_)
      by_cases hspace : space = key.namespace
      · rw [hspace, harena]
      · rw [assemble_elsewhere settings r sites hspace, assemble_elsewhere settings r' sites hspace,
          h space]

/-- The arena of a namespace knows the names that its groups have declared. -/
theorem owns_after (h : (r.arena space).Owns taken) (settings : Settings)
    (calls : List (GroupKey × List CompiledSite)) :
    ((r.after settings calls).arena space).Owns
      (taken ++ (r.assembledIn settings space calls).flatMap (·.2.named)) := by
  induction calls generalizing r taken with
  | nil => simpa [assembledIn, assembled, after] using h
  | cons call calls ih =>
      obtain ⟨key, sites⟩ := call
      rw [after]
      obtain ⟨g, hassemble, rfl, hgroups⟩ | ⟨harena, hgroups⟩ :=
        assembledIn_cons settings space r key sites calls
      · have howns := assemble_of_owns h settings sites
        rw [hassemble] at howns
        split at howns
        · cases howns
        · obtain ⟨_, heq, howns⟩ := howns
          cases heq
          rw [hgroups, List.flatMap_cons, ← List.append_assoc]
          exact ih howns
      · rw [hgroups]
        exact ih (harena ▸ h)

/-- After any groups, the next one fails exactly where an author's name in it is another structure's
by then, and the error is about the first such name. A group that fails leaves what is registered in
every namespace as it was, and all groups after it come out as if it had been left out. -/
theorem assemble_fails_exactly_on_clash (settings : Settings)
    (history : List (GroupKey × List CompiledSite)) (key : GroupKey) (sites : List CompiledSite) :
    let r := Registry.empty.after settings history
    let taken := (Registry.empty.assembledIn settings key.namespace history).flatMap (·.2.named)
    ∀ e, ((r.assemble settings key sites).1 = .error e ↔
        ∃ name, firstClash? taken (namedBy sites) = some name ∧
          e = .nameConflict name key.display) ∧
      ((r.assemble settings key sites).1 = .error e →
        (∀ space, (r.assemble settings key sites).2.arena space = r.arena space) ∧
        ∀ later, (Registry.empty.results settings (history ++ (key, sites) :: later)).eraseIdx
            history.length =
          Registry.empty.results settings (history ++ later)) := by
  intro r taken e
  have howns : (r.arena key.namespace).Owns taken := by
    have hempty : (Registry.empty.arena key.namespace).Owns [] :=
      fun name id => ⟨nofun, nofun⟩
    simpa using owns_after hempty settings history
  have hassemble := assemble_of_owns howns settings sites
  refine ⟨?_, fun hfail => ⟨arena_assemble_of_error hfail, fun later => ?_⟩⟩
  · split at hassemble
    · rename_i name hclash
      rw [hassemble, hclash]
      constructor
      · rintro ⟨⟩
        exact ⟨name, rfl, rfl⟩
      · rintro ⟨_, ⟨⟩, rfl⟩
        rfl
    · rename_i hclash
      obtain ⟨g, hok, -⟩ := hassemble
      rw [hok, hclash]
      constructor
      · rintro ⟨⟩
      · rintro ⟨_, ⟨⟩, _⟩
  · have hlater := results_congr (arena_assemble_of_error hfail) settings later
    rw [results_append, results_append, List.eraseIdx_append_of_length_le (by simp),
      length_results, Nat.sub_self, results, List.eraseIdx_cons_zero]
    exact congrArg (_ ++ ·) hlater

end Registry

def rootSite (naming : RootNaming) (id : String) : CompiledSite :=
  ⟨⟨"Orders.cs", 1, 1⟩, ⟨"Shop", "Orders.cs"⟩, .anonymous, .simple "Order", .simple "Order",
    [⟨⟨"Order", [], ⟨id⟩⟩, naming⟩], .null, ⟨[], [], []⟩, []⟩

theorem Registry.assemble_fails_exactly_on_clash_second_file :
    let row (id : String) := rootSite (.explicit (.ofName "Row")) id
    let first : GroupKey × List CompiledSite := (⟨"Shop", "A.cs"⟩, [row "0123456789ABCDEF"])
    let second : GroupKey × List CompiledSite :=
      (⟨"Shop", "B.cs"⟩, [rootSite .hinted "AAAABBBBCCCCDDDD", row "FEDCBA9876543210"])
    let third : GroupKey × List CompiledSite :=
      (⟨"Shop", "C.cs"⟩, [rootSite .hinted "AAAABBBBCCCCDDDD"])
    ((Registry.empty.after {} [first]).assemble {} second.1 second.2).1 =
        .error (.nameConflict "Row" "Shop (B.cs)") ∧
      (Registry.empty.results {} [first, second, third]).eraseIdx 1 =
        Registry.empty.results {} [first, third] := by
  intro row first second third
  have h := Registry.assemble_fails_exactly_on_clash {} [first] second.1 second.2
    (.nameConflict "Row" "Shop (B.cs)")
  have hfail := h.1.2 ⟨"Row", by decide +kernel, rfl⟩
  exact ⟨hfail, (h.2 hfail).2 [third]⟩

end Projection
