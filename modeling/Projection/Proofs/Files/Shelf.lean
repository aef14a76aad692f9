import Mathlib.Data.List.Basic
import Projection.Command.Run

/-!
Commands on files that are a map from paths to contents, where nothing goes wrong between a command
and a file. What a command does there is told by how it ends and by what it leaves; the lines that
it says matter to neither. Reading the configuration and the manifests looks at a few places only,
so it comes out alike wherever these are alike.
-/

namespace Projection

@[ext]
structure Shelf where
  file : String → Option String
  directory : String → Bool
  /-- The files inside a directory that can be manifests, as names from the directory on. -/
  below : String → List (List String)

namespace Shelf

def kind? (s : Shelf) (path : String) : Option FileKind :=
  if s.directory path then some .directory
  else if (s.file path).isSome then some .file
  else none

def read (s : Shelf) (path : String) : Except FileError String :=
  match s.file path with
  | some content => .ok content
  | none => .error .missing

def put (s : Shelf) (path content : String) : Shelf :=
  { s with file := fun p => if p = path then some content else s.file p }

def withDirectory (s : Shelf) (dir : String) : Shelf :=
  { s with directory := fun p => p = dir || s.directory p }

instance : Files (StateM Shelf) where
  kind? path := do return (← get).kind? path
  read path := do return (← get).read path
  write path content := do
    modify (·.put path content)
    return .ok ()
  makeDirectories path := do
    modify (·.withDirectory path)
    return .ok ()
  filesBelow path := do return (← get).below path

def call (s : Shelf) (c : Command) : Transcript × Shelf :=
  (Run.transcript (m := StateM Shelf) (Run.command c)).run s

/-- Both have the same in these places, and the same manifests everywhere. -/
structure Agree (places : List String) (s s' : Shelf) : Prop where
  below : s'.below = s.below
  kind? : ∀ p ∈ places, s'.kind? p = s.kind? p
  file : ∀ p ∈ places, s'.file p = s.file p

theorem Agree.mono {places fewer : List String} {s s' : Shelf} (h : Agree places s s')
    (hsub : ∀ p ∈ fewer, p ∈ places) : Agree fewer s s' :=
  ⟨h.below, fun p hp => h.kind? p (hsub p hp), fun p hp => h.file p (hsub p hp)⟩

end Shelf

namespace Run

variable {α β : Type} {s s' s'' : Shelf}

def runOn (x : Run (StateM Shelf) α) (lines : List String) (s : Shelf) :
    (Except Failure α × List String) × Shelf :=
  ((x.run).run lines).run s

theorem runOn_bind (x : Run (StateM Shelf) α) (f : α → Run (StateM Shelf) β)
    (lines : List String) (s : Shelf) :
    runOn (x >>= f) lines s =
      match x.runOn lines s with
      | ((.ok a, lines'), s') => (f a).runOn lines' s'
      | ((.error e, lines'), s') => ((.error e, lines'), s') := by
  unfold runOn ExceptT.run StateT.run
  simp only [bind, ExceptT.bind, ExceptT.mk, StateT.bind, ExceptT.bindCont]
  cases x lines s with
  | mk said s' =>
      cases said with
      | mk result lines' => cases result <;> rfl

section Ends

/-- Begun on `s`, it comes to the result `r` and leaves `s'`, whatever was said before. -/
def Ends (x : Run (StateM Shelf) α) (s : Shelf) (r : Except Failure α) (s' : Shelf) : Prop :=
  ∀ lines, ∃ lines', x.runOn lines s = ((r, lines'), s')

variable {x : Run (StateM Shelf) α} {f : α → Run (StateM Shelf) β} {a : α}
  {r : Except Failure β}

theorem ends_pure (a : α) (s : Shelf) : Ends (pure a) s (.ok a) s := fun lines => ⟨lines, rfl⟩

theorem ends_throw (e : Failure) (s : Shelf) :
    Ends (throw e : Run (StateM Shelf) α) s (.error e) s := fun lines => ⟨lines, rfl⟩

theorem ends_say (line : String) (s : Shelf) : Ends (say line) s (.ok ()) s :=
  fun lines => ⟨lines ++ [line], rfl⟩

theorem ends_kind? (path : String) (s : Shelf) :
    Ends (Files.kind? path) s (.ok (s.kind? path)) s :=
  fun lines => ⟨lines, rfl⟩

theorem ends_read (path : String) (s : Shelf) : Ends (Files.read path) s (.ok (s.read path)) s :=
  fun lines => ⟨lines, rfl⟩

theorem ends_write (path content : String) (s : Shelf) :
    Ends (Files.write path content) s (.ok (.ok ())) (s.put path content) :=
  fun lines => ⟨lines, rfl⟩

theorem ends_makeDirectories (path : String) (s : Shelf) :
    Ends (Files.makeDirectories path) s (.ok (.ok ())) (s.withDirectory path) :=
  fun lines => ⟨lines, rfl⟩

theorem Ends.bind (hx : x.Ends s (.ok a) s') (hf : (f a).Ends s' r s'') :
    Ends (x >>= f) s r s'' := by
  intro lines
  obtain ⟨lines', hx⟩ := hx lines
  obtain ⟨lines'', hf⟩ := hf lines'
  refine ⟨lines'', ?_⟩
  rw [runOn_bind, hx]
  exact hf

theorem Ends.bind_error {e : Failure} (hx : x.Ends s (.error e) s') :
    Ends (x >>= f) s (.error e) s' := by
  intro lines
  obtain ⟨lines', hx⟩ := hx lines
  refine ⟨lines', ?_⟩
  rw [runOn_bind, hx]

/-- A loop takes the files along from round to round. -/
theorem ends_forIn {bs : List β} {body : β → Run (StateM Shelf) (ForInStep PUnit)}
    {next : Shelf → β → Shelf}
    (h : ∀ b ∈ bs, ∀ s, (body b).Ends s (.ok (.yield ⟨⟩)) (next s b)) (s : Shelf) :
    Ends (forIn bs PUnit.unit fun b _ => body b) s (.ok ⟨⟩) (bs.foldl next s) := by
  induction bs generalizing s with
  | nil => exact ends_pure _ s
  | cons b bs ih =>
      rw [List.forIn_cons]
      obtain ⟨hb, hbs⟩ := List.forall_mem_cons.1 h
      exact (hb s).bind (ih hbs (next s b))

theorem ends_sayAll {line : β → String} (bs : List β) (s : Shelf) :
    Ends (forIn bs PUnit.unit fun b _ => do
      say (line b)
      pure (ForInStep.yield PUnit.unit)) s (.ok ⟨⟩) s := by
  have hone : ∀ b ∈ bs, ∀ s : Shelf, Ends (do
      say (line b)
      pure (ForInStep.yield PUnit.unit)) s (.ok (.yield ⟨⟩)) s :=
    fun b _ s => (ends_say (line b) s).bind (ends_pure (ForInStep.yield PUnit.unit) s)
  have hall := ends_forIn hone s
  rwa [List.foldl_fixed] at hall

/-- The transcript of a command tells how it ended. -/
theorem call_of_ends {c : Command} {r : Except Failure Unit} (h : (command c).Ends s r s') :
    (s.call c).2 = s' ∧ ((s.call c).1.exitCode = 0 ↔ r = .ok ()) := by
  obtain ⟨lines, hrun⟩ := h []
  have hcall : s.call c = (match r with
      | .ok _ => ⟨0, lines, []⟩
      | .error e => ⟨e.exitCode, lines, ["Error: " ++ e.message]⟩, s') := by
    unfold runOn at hrun
    unfold Shelf.call transcript
    rw [StateT.run_bind, hrun]
    cases r <;> rfl
  rw [hcall]
  cases r with
  | ok _ => simp
  | error e => cases e <;> simp [Failure.exitCode]

end Ends

section Looks

/-- It leaves the files alone, and what it comes to depends on these places only. -/
def Looks (places : List String) (x : Run (StateM Shelf) α) : Prop :=
  ∀ lines s s', s.Agree places s' → x.runOn lines s' = ((x.runOn lines s).1, s')

variable {places : List String} {x : Run (StateM Shelf) α} {f : α → Run (StateM Shelf) β}

theorem looks_pure (a : α) : Looks places (pure a) := fun _ _ _ _ => rfl

theorem looks_throw (e : Failure) : Looks places (throw e : Run (StateM Shelf) α) :=
  fun _ _ _ _ => rfl

theorem looks_kind? {path : String} (h : path ∈ places) : Looks places (Files.kind? path) := by
  intro lines s s' hagree
  change ((Except.ok (s'.kind? path), lines), s') = ((.ok (s.kind? path), lines), s')
  rw [hagree.kind? path h]

theorem looks_read {path : String} (h : path ∈ places) : Looks places (Files.read path) := by
  intro lines s s' hagree
  change ((Except.ok (s'.read path), lines), s') = ((.ok (s.read path), lines), s')
  unfold Shelf.read
  rw [hagree.file path h]

theorem looks_filesBelow (path : String) : Looks places (Files.filesBelow path) := by
  intro lines s s' hagree
  change ((Except.ok (s'.below path), lines), s') = ((.ok (s.below path), lines), s')
  rw [hagree.below]

theorem Looks.bind (hx : Looks places x) (hf : ∀ a, Looks places (f a)) :
    Looks places (x >>= f) := by
  intro lines s s' hagree
  have hrefl : s.Agree places s := ⟨rfl, fun _ _ => rfl, fun _ _ => rfl⟩
  rw [runOn_bind, runOn_bind, hx lines s s' hagree, hx lines s s hrefl]
  cases (x.runOn lines s).1 with
  | mk result lines' =>
      cases result with
      | ok a => exact hf a lines' s s' hagree
      | error e => rfl

theorem Ends.of_looks {r : Except Failure α} (hends : x.Ends s r s) (hlooks : Looks places x)
    (hagree : s.Agree places s') : x.Ends s' r s' := by
  intro lines
  obtain ⟨lines', hrun⟩ := hends lines
  refine ⟨lines', ?_⟩
  rw [hlooks lines s s' hagree, hrun]

theorem looks_load (config : Option String) :
    Looks [config.getD Configuration.fileName] (Configuration.load config) := by
  unfold Configuration.load
  refine (looks_kind? List.mem_cons_self).bind fun kind => ?_
  cases kind with
  | none =>
      dsimp only
      split
      · exact (looks_throw _).bind fun _ => looks_pure _
      · exact looks_pure _
  | some _ =>
      refine (looks_read List.mem_cons_self).bind fun contents => ?_
      cases contents with
      | error e => exact looks_throw _
      | ok text =>
          dsimp only
          split
          · exact looks_throw _
          · exact looks_pure _

theorem looks_find (path : String) (filter : Option String) :
    Looks [path] (Manifest.find path filter) := by
  unfold Manifest.find
  have hfilter : Looks [path] (liftM (Manifest.filter? filter) : Run (StateM Shelf) _) := by
    cases Manifest.filter? filter with
    | ok g => exact looks_pure g
    | error e => exact looks_throw e
  refine hfilter.bind fun g => (looks_kind? List.mem_cons_self).bind fun kind => ?_
  cases kind with
  | none => exact looks_throw _
  | some kind =>
      cases kind with
      | file => exact looks_pure _
      | directory =>
          have hcandidates : Looks [path] (Manifest.candidates path : Run (StateM Shelf) _) := by
            unfold Manifest.candidates
            split
            · exact looks_pure _
            · exact looks_filesBelow path
          refine hcandidates.bind fun files => ?_
          split
          · exact looks_throw _
          · exact looks_pure _

theorem looks_load_manifest {places : List String} {path : String} (h : path ∈ places) :
    Looks places (Manifest.load path) := by
  unfold Manifest.load
  refine (looks_read h).bind fun contents => ?_
  cases contents with
  | error e => exact looks_throw _
  | ok text =>
      dsimp only
      split
      · exact looks_throw _
      · exact looks_pure _

theorem looks_loadAll {places paths : List String} (h : ∀ p ∈ paths, p ∈ places) (all : Manifest) :
    Looks places (paths.foldlM (fun all path => return all.append (← Manifest.load path)) all) := by
  induction paths generalizing all with
  | nil => exact looks_pure _
  | cons path paths ih =>
      obtain ⟨hpath, hpaths⟩ := List.forall_mem_cons.1 h
      rw [List.foldlM_cons]
      refine Looks.bind ?_ (ih hpaths)
      exact (looks_load_manifest hpath).bind fun _ => looks_pure _

end Looks

end Run

namespace Shelf

structure Reads (s : Shelf) (path : String) (config : Option String) (c : Configuration)
    (manifests : List String) (m : Manifest) : Prop where
  configuration : Run.Ends (Configuration.load config) s (.ok c) s
  found : Run.Ends (Manifest.find path none) s (.ok manifests) s
  manifest : Run.Ends (Manifest.loadAll manifests) s (.ok m) s

def readFrom (path : String) (config : Option String) (manifests : List String) : List String :=
  config.getD Configuration.fileName :: path :: manifests

theorem Reads.of_agree {s s' : Shelf} {path : String} {config : Option String} {c : Configuration}
    {manifests : List String} {m : Manifest} (h : s.Reads path config c manifests m)
    (hagree : s.Agree (readFrom path config manifests) s') :
    s'.Reads path config c manifests m where
  configuration := h.configuration.of_looks (Run.looks_load config)
    (hagree.mono (by simp [readFrom]))
  found := h.found.of_looks (Run.looks_find path none) (hagree.mono (by simp [readFrom]))
  manifest := h.manifest.of_looks (Run.looks_loadAll (fun _ hp => hp) .empty)
    (hagree.mono (by simp +contextual [readFrom]))

end Shelf

end Projection
