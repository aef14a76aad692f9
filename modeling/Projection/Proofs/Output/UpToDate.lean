import Projection.Proofs.Group.Qualified
import Projection.Proofs.Output.Settled
import Projection.Proofs.Pass.HintNames
import Projection.Proofs.Site.Created

/-!
Generating and validating, one after the other. Validation passes exactly where what was generated
is settled and there is a directory; generating a second time never changes a file.
-/

namespace Projection

open Text

/-- A way of telling what things come to, while the files are `s`. -/
structure Shelf.Told (s : Shelf) {m : Type → Type} [Monad m] [Files m]
    (comesTo : ∀ {α : Type}, m α → α → Prop) : Prop where
  pure {α : Type} (a : α) : comesTo (pure a) a
  bind {α β : Type} {x : m α} {f : α → m β} {a : α} {b : β} :
    comesTo x a → comesTo (f a) b → comesTo (x >>= f) b
  read (path : String) : comesTo (Files.read path) (s.read path)

namespace Shelf.Told

open Output

variable {s : Shelf} {m : Type → Type} [Monad m] [Files m]
  {comesTo : ∀ {α : Type}, m α → α → Prop}

theorem isCurrent (h : s.Told comesTo) (dir : String) (a : Artifact) :
    comesTo (isCurrent (pathIn dir a.hintName) a.content) (s.holds dir a) := by
  unfold Output.isCurrent holds
  refine h.bind (h.read _) ?_
  unfold Shelf.read
  cases s.file (pathIn dir a.hintName) with
  | none => exact h.pure false
  | some existing =>
      rw [isText_some]
      exact h.pure _

theorem stale [LawfulMonad m] (h : s.Told comesTo) (dir : String) (artifacts : List Artifact) :
    comesTo (stale dir artifacts) (s.outdated dir artifacts) := by
  unfold Output.stale
  induction artifacts with
  | nil => exact h.pure []
  | cons a artifacts ih =>
      rw [List.map_cons, List.filterMapM_cons]
      refine h.bind (h.bind (h.isCurrent dir a) (h.pure _)) ?_
      unfold outdated
      cases hholds : s.holds dir a with
      | true =>
          rw [List.filter_cons_of_neg (by simp [hholds])]
          exact ih
      | false =>
          rw [List.filter_cons_of_pos (by simp [hholds])]
          exact h.bind ih (h.pure _)

end Shelf.Told

namespace Run

open Output Projection.Shelf

variable {s : Shelf} {path dir : String} {config : Option String} {c : Configuration}
  {manifests : List String} {m : Manifest}

theorem told_ends (s : Shelf) :
    s.Told fun {α} (x : Run (StateM Shelf) α) a => x.Ends s (.ok a) s where
  pure a := ends_pure a s
  bind hx hf := hx.bind hf
  read path := ends_read path s

theorem told_run (s : Shelf) : s.Told fun {α} (x : StateM Shelf α) a => x.run s = (a, s) where
  pure _ := rfl
  bind hx hf := by
    rw [StateT.run_bind, hx]
    exact hf
  read _ := rfl

theorem withDirectory_of_directory (h : s.directory dir = true) : s.withDirectory dir = s := by
  have hsame : (fun p => decide (p = dir) || s.directory p) = s.directory := by
    funext p
    by_cases hp : p = dir
    · simp [hp, h]
    · simp [hp]
  rw [withDirectory, hsame]

theorem kind?_eq_directory : s.kind? dir = some .directory ↔ s.directory dir = true := by
  unfold Shelf.kind?
  split
  · simp [*]
  · split <;> simp [*]

theorem ends_ensureDirectory (dir : String) (s : Shelf) :
    Ends (ensureDirectory dir) s (.ok ()) (s.withDirectory dir) := by
  unfold ensureDirectory
  refine (ends_kind? dir s).bind ?_
  split
  · rename_i hkind
    rw [withDirectory_of_directory (kind?_eq_directory.1 hkind)]
    exact ends_pure () s
  · exact (ends_makeDirectories dir s).bind (ends_pure () _)

theorem ends_place (dir : String) (a : Artifact) (s : Shelf) :
    ∃ placed, Ends (place dir false a) s (.ok placed) (s.take dir a) := by
  unfold place
  cases h : s.holds dir a with
  | true =>
      rw [take_of_holds h]
      refine ⟨.unchanged, ((told_ends s).isCurrent dir a).bind ?_⟩
      rw [if_pos h]
      exact ends_pure _ s
  | false =>
      rw [take_of_not_holds h]
      refine ⟨.written, ((told_ends s).isCurrent dir a).bind ?_⟩
      rw [if_neg (by simp [h])]
      exact (ends_ensureDirectory dir s).bind ((ends_write _ _ _).bind (ends_pure _ _))

theorem ends_compile (h : s.Reads path config c manifests m) (settings : Settings) :
    Ends (compile path none settings) s (.ok (outputOf settings m).1) s := by
  unfold compile
  refine h.found.bind ((ends_say _ s).bind (h.manifest.bind ((ends_say _ s).bind ?_)))
  exact (ends_sayAll _ s).bind (ends_pure _ s)

theorem ends_generate (h : s.Reads path config c manifests m) :
    Ends (generate path config none {} false) s (.ok ())
      (s.takeAll c.dir (chosen c.writeDiagnostics (outputOf c.settings m).1)) := by
  unfold generate
  have hplace : ∀ a ∈ chosen c.writeDiagnostics (outputOf c.settings m).1, ∀ s : Shelf,
      Ends (do
        let placed ← place c.dir false a
        for line in placedLines (pathIn c.dir a.hintName) a placed do
          say line
        pure (ForInStep.yield PUnit.unit)) s (.ok (.yield ⟨⟩)) (s.take c.dir a) := by
    intro a _ s
    obtain ⟨placed, hplaced⟩ := ends_place c.dir a s
    exact hplaced.bind ((ends_sayAll _ _).bind (ends_pure _ _))
  refine h.configuration.bind ((ends_compile h c.settings).bind ((ends_forIn hplace s).bind ?_))
  split
  · exact ends_say _ _
  · exact ends_pure _ _

/-- Validation passes exactly where the directory is there and nothing in it is out of date. -/
theorem ends_validate (h : s.Reads path config c manifests m) (dir : String) :
    ∃ r, Ends (validate path dir config) s r s ∧
      (r = .ok () ↔ s.directory dir = true ∧ s.outdated dir (outputOf c.settings m).1 = []) := by
  unfold validate
  by_cases hdir : s.kind? dir = some .directory
  · cases houtdated : s.outdated dir (outputOf c.settings m).1 with
    | nil =>
      have hstale := (told_ends s).stale dir (outputOf c.settings m).1
      rw [houtdated] at hstale
      refine ⟨.ok (), (ends_say _ s).bind ((ends_kind? dir s).bind ?_),
        by simp [kind?_eq_directory.1 hdir]⟩
      rw [if_neg (not_not.2 hdir)]
      exact h.configuration.bind ((ends_compile h c.settings).bind (hstale.bind (ends_say _ s)))
    | cons p ps =>
      have hstale := (told_ends s).stale dir (outputOf c.settings m).1
      rw [houtdated] at hstale
      refine ⟨.error (.outOfDate (p :: ps).length),
        (ends_say _ s).bind ((ends_kind? dir s).bind ?_), by simp⟩
      rw [if_neg (not_not.2 hdir)]
      refine h.configuration.bind ((ends_compile h c.settings).bind (hstale.bind ?_))
      exact (ends_sayAll _ s).bind ((ends_say _ s).bind (ends_throw _ s))
  · refine ⟨.error (.outputMissing dir), (ends_say _ s).bind ((ends_kind? dir s).bind ?_), ?_⟩
    · rw [if_pos hdir]
      exact (ends_throw _ s).bind_error
    · simp [← kind?_eq_directory, hdir]

end Run

namespace Shelf

open Output

variable {s : Shelf} {path dir : String} {config : Option String} {c : Configuration}
  {manifests : List String} {m : Manifest}

/-- Placing artifacts does not touch what lies elsewhere. -/
theorem agree_takeAll {places : List String} {artifacts : List Artifact}
    (h : ∀ p ∈ places, (∀ a ∈ artifacts, pathIn dir a.hintName ≠ p) ∧
      (p = dir → s.directory p = true)) : s.Agree places (s.takeAll dir artifacts) := by
  have hfile : ∀ p ∈ places, (s.takeAll dir artifacts).file p = s.file p :=
    fun p hp => file_takeAll_elsewhere (h p hp).1
  refine ⟨below_takeAll dir s artifacts, fun p hp => ?_, hfile⟩
  have hdirectory : (s.takeAll dir artifacts).directory p = s.directory p := by
    rw [directory_takeAll]
    by_cases hdir : p = dir
    · rw [(h p hp).2 hdir, Bool.or_true]
    · simp [hdir]
  rw [kind?, kind?, hdirectory, hfile p hp]

/-- Where everything is written and no two artifacts go to one path, all is settled. -/
theorem settled_of_nodup {writeDiagnostics : Bool} {sent : List Artifact}
    (hchosen : writeDiagnostics = true ∨ ∀ a ∈ sent, a.isDiagnostic = false)
    (hnodup : (sent.map fun a => pathIn dir a.hintName).Nodup) :
    s.Settled dir writeDiagnostics sent where
  agree a ha b hb hpath := by
    rw [List.inj_on_of_nodup_map hnodup ha hb hpath]
  present hoff a ha hdiagnostic := by
    rcases hchosen with hon | hnone
    · rw [hon] at hoff
      cases hoff
    · rw [hnone a ha] at hdiagnostic
      cases hdiagnostic

/-- The output does not go to the places that the configuration and the manifests are read from. -/
def Apart (s : Shelf) (path : String) (config : Option String) (c : Configuration)
    (manifests : List String) (m : Manifest) : Prop :=
  ∀ p ∈ readFrom path config manifests,
    (∀ a ∈ (Run.outputOf c.settings m).1, pathIn c.dir a.hintName ≠ p) ∧
      (p = c.dir → s.directory p = true)

theorem call_generate (h : s.Reads path config c manifests m) :
    (s.call (.generate path config none {} false)).1.exitCode = 0 ∧
      (s.call (.generate path config none {} false)).2 =
        s.takeAll c.dir (chosen c.writeDiagnostics (Run.outputOf c.settings m).1) := by
  obtain ⟨hafter, hexit⟩ := Run.call_of_ends (c := .generate path config none {} false)
    (Run.ends_generate h)
  exact ⟨hexit.2 rfl, hafter⟩

theorem call_validate (h : s.Reads path config c manifests m) (dir : String) :
    (s.call (.validate path dir config)).1.exitCode = 0 ↔
      s.directory dir = true ∧ s.outdated dir (Run.outputOf c.settings m).1 = [] := by
  obtain ⟨r, hvalidate, hpasses⟩ := Run.ends_validate h dir
  exact (Run.call_of_ends (c := .validate path dir config) hvalidate).2.trans hpasses

/-- After generating, the same configuration and manifests are read. -/
theorem reads_takeAll (h : s.Reads path config c manifests m)
    (hapart : s.Apart path config c manifests m) :
    (s.takeAll c.dir (chosen c.writeDiagnostics (Run.outputOf c.settings m).1)).Reads path config c
      manifests m := by
  refine h.of_agree (agree_takeAll fun p hp => ⟨fun a ha => ?_, (hapart p hp).2⟩)
  exact (hapart p hp).1 a (mem_chosen.1 ha).1

/-- For all files, configurations and manifests where the output does not go to the places that
these are read from: generating succeeds. After it no generated file is stale exactly where texts
for one path agree up to blanks and each diagnostic that is not written is there already, or another
artifact takes its place. That is so where everything is written and no two artifacts go to one
path. Validating then passes, if the directory was there or something was written to it. Generating
a second time leaves all files as they are, settled or not. -/
theorem validate_accepts_generated_iff (h : s.Reads path config c manifests m)
    (hapart : s.Apart path config c manifests m) :
    let sent := (Run.outputOf c.settings m).1
    let generate : Command := .generate path config none {} false
    let s' := (s.call generate).2
    (s.call generate).1.exitCode = 0 ∧
      ((stale (m := StateM Shelf) c.dir sent).run s' = ([], s') ↔
        s.Settled c.dir c.writeDiagnostics sent) ∧
      (c.writeDiagnostics = true ∨ (∀ a ∈ sent, a.isDiagnostic = false) →
        (sent.map fun a => pathIn c.dir a.hintName).Nodup →
        s.Settled c.dir c.writeDiagnostics sent) ∧
      ((s'.call (.validate path c.dir config)).1.exitCode = 0 ↔
        s.Settled c.dir c.writeDiagnostics sent ∧
          (s.directory c.dir = true ∨
            ∃ a ∈ chosen c.writeDiagnostics sent, s.holds c.dir a = false)) ∧
      (s'.call generate).1.exitCode = 0 ∧ (s'.call generate).2 = s' := by
  intro sent generate s'
  have hs' : s' = s.takeAll c.dir (chosen c.writeDiagnostics sent) := (call_generate h).2
  have hreads : s'.Reads path config c manifests m := by
    rw [hs']
    exact reads_takeAll h hapart
  have hsettled : s'.outdated c.dir sent = [] ↔ s.Settled c.dir c.writeDiagnostics sent := by
    rw [hs']
    exact outdated_takeAll_iff s c.dir c.writeDiagnostics sent
  have hdirectory : s'.directory c.dir = true ↔ s.directory c.dir = true ∨
      ∃ a ∈ chosen c.writeDiagnostics sent, s.holds c.dir a = false := by
    rw [hs', directory_takeAll]
    simp [or_comm]
  obtain ⟨hexit, hagain⟩ := call_generate hreads
  refine ⟨(call_generate h).1, ?_, settled_of_nodup, ?_, hexit, ?_⟩
  · rw [(Run.told_run s').stale, ← hsettled, Prod.mk.injEq]
    exact and_iff_left rfl
  · rw [call_validate hreads, hsettled, hdirectory]
    exact and_comm
  · rw [hagain]
    change s'.takeAll c.dir (chosen c.writeDiagnostics sent) = s'
    rw [hs', takeAll_takeAll]

end Shelf

/-- A compiled site gives no name but that of its root. -/
theorem CallSite.namedBy_of_compile {site : CallSite} {m : Model} {settings : Settings}
    {c : CompiledSite} (h : site.compile m settings = .compiled c) :
    namedBy [c] = c.structures.head?.elim [] SiteStructure.named := by
  obtain ⟨shape, -, rfl⟩ := eq_of_compile h
  unfold namedBy compileShape
  simp [SiteStructure.named]

theorem Pass.exists_of_mem_compiled {m : Model} {settings : Settings} {sites : List CallSite}
    {c : CompiledSite} (h : c ∈ compiled (outcomes m settings sites)) :
    ∃ site ∈ sites, site.compile m settings = .compiled c := by
  obtain ⟨⟨location, outcome⟩, houtcome, hc⟩ := List.mem_filterMap.1 h
  obtain ⟨site, hsite, heq⟩ := List.mem_map.1 houtcome
  obtain ⟨-, hcompile⟩ := Prod.mk.inj heq
  cases outcome with
  | skipped _ | degenerate => cases hc
  | compiled c' =>
      cases hc
      exact ⟨site, hsite, hcompile⟩

/-- A group fails where a group before it gives its name to another structure. -/
theorem Pass.exists_diagnostic_of_clash (settings : Settings) (emitter : Emitter)
    {a b : CompiledSite} {name : String} {id id' : StructuralId}
    (hspace : a.key.namespace = b.key.namespace) (ha : namedBy [a] = [(name, id)])
    (hb : namedBy [b] = [(name, id')]) (hne : id ≠ id') :
    ∃ x ∈ artifacts settings emitter .empty [(a.key, [a]), (b.key, [b])],
      x.isDiagnostic = true := by
  have howns := Registry.owns_arena_empty a.key.namespace
  have hfirst := Registry.assemble_of_owns howns settings [a]
  rw [ha] at hfirst
  obtain ⟨g, hg, howns'⟩ := hfirst
  have hgiven := (Registry.assemble_authored hg howns List.nodup_nil).2.given (name, id)
  have hmem : (name, id) ∈ [] ++ g.named := by
    simpa [ha] using hgiven
  rw [hspace] at howns'
  have hsecond := Registry.assemble_of_owns howns' settings [b]
  rw [hb, firstClash?_cons_of_clash hmem hne] at hsecond
  rw [artifacts, artifacts, hsecond]
  exact ⟨_, List.mem_cons_of_mem _ List.mem_cons_self, rfl⟩

namespace Shelf

open Output

variable {s : Shelf} {path : String} {c : Configuration} {m : Manifest}

def rowSpec (file member : String) : SiteSpec :=
  ⟨⟨file, 1, 1⟩, none, "int", "x=>new\x7b" ++ member ++ "=1\x7d", ["T", "R"], none, none, .empty⟩

def rowText (file member : String) : String :=
  "\x7b\"call_sites\":[\x7b\"file\":\"" ++ file ++ "\",\"line\":1,\"column\":1," ++
    "\"source_type\":\"int\",\"lambda\":\"x=>new\x7b" ++ member ++ "=1\x7d\"," ++
    "\"type_arguments\":[\"T\",\"R\"]\x7d]\x7d"

def rows : Manifest := ⟨[], [rowSpec "A.cs" "A", rowSpec "B.cs" "B"]⟩

def rowShelf (config : String) : Shelf where
  file p :=
    if p = "in/a.shapes.json" then some (rowText "A.cs" "A")
    else if p = "in/b.shapes.json" then some (rowText "B.cs" "B")
    else if p = "shapegen.toml" then some config
    else none
  directory p := p = "in" || p = "./generated"
  below _ := [["a.shapes.json"], ["b.shapes.json"]]

theorem parse_rowText : Manifest.parse? (rowText "A.cs" "A") = some ⟨[], [rowSpec "A.cs" "A"]⟩ ∧
    Manifest.parse? (rowText "B.cs" "B") = some ⟨[], [rowSpec "B.cs" "B"]⟩ ∧
    Configuration.parse? "output.write_diagnostics=false" =
      some { writeDiagnostics := false } := by
  refine ⟨?_, ?_, ?_⟩ <;> decide +kernel

/-- The key of each group of the two files, and the name its site gives. -/
theorem compiled_rows : (Pass.compiled (Pass.outcomes rows.model {} rows.callSites)).map
    (fun c => (c.key, c.structures.head?.elim [] SiteStructure.named)) =
      [(⟨"Generated", "A.cs"⟩, [("R", ⟨"5070EE0157933D93"⟩)]),
        (⟨"Generated", "B.cs"⟩, [("R", ⟨"FDEDE56A173E1D12"⟩)])] := by
  decide +kernel

theorem ends_load {text : String} (hfile : s.file path = some text)
    (hparse : Manifest.parse? text = some m) : Run.Ends (Manifest.load path) s (.ok m) s := by
  unfold Manifest.load
  refine (Run.ends_read path s).bind ?_
  rw [read, hfile]
  dsimp only
  rw [hparse]
  exact Run.ends_pure m s

theorem reads_rowShelf {text : String} (h : Configuration.parse? text = some c) :
    (rowShelf text).Reads "in" none c ["in/a.shapes.json", "in/b.shapes.json"] rows where
  configuration := by
    unfold Configuration.load
    refine (Run.ends_kind? _ _).bind ((Run.ends_read _ _).bind ?_)
    have hread : (rowShelf text).read ((none : Option String).getD Configuration.fileName) =
        .ok text := rfl
    rw [hread]
    dsimp only
    rw [h]
    exact Run.ends_pure c _
  found := by
    have hwanted : Manifest.wanted none [["a.shapes.json"], ["b.shapes.json"]] =
        [["a.shapes.json"], ["b.shapes.json"]] := by
      have hall : [["a.shapes.json"], ["b.shapes.json"]].filter (Manifest.isWanted none) =
          [["a.shapes.json"], ["b.shapes.json"]] := by decide
      rw [Manifest.wanted, hall]
      exact List.mergeSort_of_pairwise (by decide)
    have hcandidates : Run.Ends (Manifest.candidates "in") (rowShelf text)
        (.ok [["a.shapes.json"], ["b.shapes.json"]]) (rowShelf text) := by
      rw [Manifest.candidates, if_neg (by decide)]
      exact fun lines => ⟨lines, rfl⟩
    have hpaths : [["a.shapes.json"], ["b.shapes.json"]].map
        (fun names => pathIn "in" (join "/" names)) = ["in/a.shapes.json", "in/b.shapes.json"] := by
      decide
    unfold Manifest.find
    refine (Run.ends_pure none _).bind ((Run.ends_kind? _ _).bind (hcandidates.bind ?_))
    rw [hwanted, ← hpaths]
    exact Run.ends_pure _ _
  manifest := by
    unfold Manifest.loadAll
    rw [List.foldlM_cons]
    refine Run.Ends.bind ((ends_load rfl parse_rowText.1).bind (Run.ends_pure _ _)) ?_
    rw [List.foldlM_cons]
    refine Run.Ends.bind ((ends_load rfl parse_rowText.2.1).bind (Run.ends_pure _ _)) ?_
    exact Run.ends_pure rows _

theorem paths_rows : (Run.outputOf {} rows).1.map (fun a => pathIn "./generated" a.hintName) =
    ["./generated/Generated.A.g.cs", "./generated/Generated.B.g.cs"] := by
  have hkeys : (Run.outputOf {} rows).1.map (·.key) =
      [⟨"Generated", "A.cs"⟩, ⟨"Generated", "B.cs"⟩] := by
    have hfound := congrArg (List.map Prod.fst) compiled_rows
    rw [List.map_map] at hfound
    unfold Run.outputOf
    rw [Pass.keys_run]
    exact (congrArg Ordered.ofList hfound).trans (by decide)
  have hnames : (Run.outputOf {} rows).1.map (·.hintName) =
      ["Generated.A.g.cs", "Generated.B.g.cs"] := by
    unfold Run.outputOf at hkeys ⊢
    rw [Pass.hintNames_run, hkeys]
    decide
  have hpaths := congrArg (List.map (pathIn "./generated")) hnames
  rw [List.map_map] at hpaths
  exact hpaths.trans (by decide)

theorem nodup_paths_rows :
    ((Run.outputOf {} rows).1.map fun a => pathIn "./generated" a.hintName).Nodup := by
  rw [paths_rows]
  decide

theorem apart_rowShelf (text : String) {c : Configuration} (hdir : c.dir = "./generated")
    (hsettings : c.settings = {}) :
    (rowShelf text).Apart "in" none c ["in/a.shapes.json", "in/b.shapes.json"] rows := by
  intro p hp
  refine ⟨fun a ha heq => ?_, fun hpdir => ?_⟩
  · rw [hsettings] at ha
    rw [hdir] at heq
    have hpath := List.mem_map_of_mem (f := fun a => pathIn "./generated" a.hintName) ha
    rw [paths_rows, heq] at hpath
    have hdisjoint : ∀ p ∈ readFrom "in" none ["in/a.shapes.json", "in/b.shapes.json"],
        p ∉ ["./generated/Generated.A.g.cs", "./generated/Generated.B.g.cs"] := by decide
    exact hdisjoint p hp hpath
  · rw [hpdir, hdir]
    rfl

theorem validate_accepts_generated_iff_failed_group :
    let s := rowShelf ""
    let generate : Command := .generate "in" none none {} false
    let s' := (s.call generate).2
    s.Reads "in" none {} ["in/a.shapes.json", "in/b.shapes.json"] rows ∧
      s.Apart "in" none {} ["in/a.shapes.json", "in/b.shapes.json"] rows ∧
      (s'.call (.validate "in" "./generated" none)).1.exitCode = 0 ∧
      (s'.call generate).2 = s' := by
  intro s generate s'
  have hreads : s.Reads "in" none {} ["in/a.shapes.json", "in/b.shapes.json"] rows :=
    reads_rowShelf (by decide)
  have hapart : s.Apart "in" none {} ["in/a.shapes.json", "in/b.shapes.json"] rows :=
    apart_rowShelf "" rfl rfl
  obtain ⟨-, -, hsettled, hvalidate, -, hagain⟩ := validate_accepts_generated_iff hreads hapart
  exact ⟨hreads, hapart, hvalidate.2 ⟨hsettled (.inl rfl) nodup_paths_rows, .inl rfl⟩, hagain⟩

/-- The name of the second file is taken by the first one. -/
theorem exists_diagnostic_rows : ∃ a ∈ (Run.outputOf {} rows).1, a.isDiagnostic = true := by
  have hsites := compiled_rows
  have hcompiled : ∀ c ∈ Pass.compiled (Pass.outcomes rows.model {} rows.callSites),
      namedBy [c] = c.structures.head?.elim [] SiteStructure.named := by
    intro c hc
    obtain ⟨site, -, hsite⟩ := Pass.exists_of_mem_compiled hc
    exact CallSite.namedBy_of_compile hsite
  change ∃ a ∈ Pass.artifacts {} Emission.emitter .empty
    (Pass.groups (Pass.compiled (Pass.outcomes rows.model {} rows.callSites))), _
  generalize Pass.compiled (Pass.outcomes rows.model {} rows.callSites) = found
    at hsites hcompiled ⊢
  obtain ⟨a, rest, rfl, ha, hrest⟩ := List.map_eq_cons_iff.1 hsites
  obtain ⟨b, rest, rfl, hb, hrest⟩ := List.map_eq_cons_iff.1 hrest
  obtain rfl := List.map_eq_nil_iff.1 hrest
  obtain ⟨hkey, hnamed⟩ := Prod.mk.inj ha
  obtain ⟨hkey', hnamed'⟩ := Prod.mk.inj hb
  have hgroups : Pass.groups [a, b] = [(a.key, [a]), (b.key, [b])] := by
    have hkeys : Ordered.ofList ([a, b].map (·.key)) = [a.key, b.key] := by
      rw [List.map_cons, List.map_singleton, hkey, hkey']
      decide
    rw [Pass.groups, hkeys]
    simp [hkey, hkey', List.filter_cons]
  rw [hgroups]
  exact Pass.exists_diagnostic_of_clash {} Emission.emitter (by rw [hkey, hkey'])
    ((hcompiled a (by simp)).trans hnamed) ((hcompiled b (by simp)).trans hnamed') (by decide)

theorem validate_refuses_unwritten_diagnostic :
    let s := rowShelf "output.write_diagnostics=false"
    let s' := (s.call (.generate "in" none none {} false)).2
    (s.call (.generate "in" none none {} false)).1.exitCode = 0 ∧
      (s'.call (.validate "in" "./generated" none)).1.exitCode ≠ 0 := by
  intro s s'
  let c : Configuration := { writeDiagnostics := false }
  have hreads : s.Reads "in" none c ["in/a.shapes.json", "in/b.shapes.json"] rows :=
    reads_rowShelf parse_rowText.2.2
  have hs' : s' = s.takeAll c.dir (chosen c.writeDiagnostics (Run.outputOf c.settings rows).1) :=
    (call_generate hreads).2
  have hreads' : s'.Reads "in" none c ["in/a.shapes.json", "in/b.shapes.json"] rows := by
    rw [hs']
    exact reads_takeAll hreads (apart_rowShelf _ rfl rfl)
  refine ⟨(call_generate hreads).1, fun hvalid => ?_⟩
  have hcurrent := ((call_validate hreads' "./generated").1 hvalid).2
  rw [hs'] at hcurrent
  have hsettled := (outdated_takeAll_iff s "./generated" false _).1 hcurrent
  obtain ⟨a, ha, hdiagnostic⟩ := exists_diagnostic_rows
  obtain hholds | ⟨b, hb, hsource, hpath⟩ := hsettled.present rfl a ha hdiagnostic
  · have hpath := List.mem_map_of_mem (f := fun a => pathIn "./generated" a.hintName) ha
    have habsent : ∀ p ∈ ["./generated/Generated.A.g.cs", "./generated/Generated.B.g.cs"],
        s.file p = none := by decide
    rw [paths_rows] at hpath
    rw [holds, habsent _ hpath] at hholds
    cases hholds
  · rw [List.inj_on_of_nodup_map nodup_paths_rows hb ha hpath, hdiagnostic] at hsource
    cases hsource

end Shelf

end Projection
