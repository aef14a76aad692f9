import Projection.Proofs.Pass.Conserved
import Projection.Proofs.Text.Name

/-!
Names of generated files. The name of a group's file tells its namespace and the identifier that is
made of its path, and no more: two groups of a pass get one name exactly where they are of one
namespace and their paths give one identifier. Paths of plain words with one ending never do.
-/

namespace Projection

open Text

theorem isAlphanum_or_underscore_identifierChar (c : Char) :
    ((identifierChar c).isAlphanum || identifierChar c = '_') = true := by
  unfold identifierChar
  split
  · assumption
  · rfl

theorem point_not_mem_fileIdent (file : String) : '.' ∉ (fileIdent file).toList := by
  unfold fileIdent
  dsimp only
  split
  · decide
  · rw [String.toList_ofList]
    intro hmem
    obtain ⟨c, -, hc⟩ := List.mem_map.1 hmem
    have hident := isAlphanum_or_underscore_identifierChar c
    rw [hc] at hident
    exact absurd hident (by decide)

/-- The name of a file tells the namespace and the identifier of the path. -/
theorem GroupKey.hintName_eq_iff {k k' : GroupKey} {ext : String} :
    k.hintName ext = k'.hintName ext ↔
      k.namespace = k'.namespace ∧ k.fileIdent = k'.fileIdent := by
  constructor
  · intro h
    have hchars := congrArg String.toList h
    simp only [hintName, String.toList_append, List.append_left_inj] at hchars
    have hpoint : ".".toList = ['.'] := rfl
    rw [hpoint, List.append_assoc, List.append_assoc] at hchars
    obtain ⟨hspace, hident⟩ := append_cons_inj_of_last (point_not_mem_fileIdent k.file)
      (point_not_mem_fileIdent k'.file) hchars
    exact ⟨String.toList_inj.1 hspace, String.toList_inj.1 hident⟩
  · rintro ⟨hspace, hident⟩
    rw [hintName, hintName, hspace, hident]

def IsWord (word : String) : Prop := word ≠ "" ∧ word.toList.all Char.isAlphanum = true

instance (word : String) : Decidable (IsWord word) :=
  inferInstanceAs (Decidable (word ≠ "" ∧ word.toList.all Char.isAlphanum = true))

theorem IsWord.isAlphanum {word : String} (h : IsWord word) {c : Char} (hc : c ∈ word.toList) :
    c.isAlphanum = true :=
  List.all_eq_true.1 h.2 c hc

theorem IsWord.not_mem {word : String} (h : IsWord word) {c : Char} (hc : c.isAlphanum = false) :
    c ∉ word.toList :=
  fun hmem => absurd (h.isAlphanum hmem) (by simp [hc])

theorem IsWord.exists_mem {word : String} (h : IsWord word) :
    ∃ c ∈ word.toList, c.isAlphanum = true := by
  cases hword : word.toList with
  | nil => exact absurd (String.toList_inj.1 hword) h.1
  | cons c cs =>
      exact ⟨c, List.mem_cons_self, h.isAlphanum (hword ▸ List.mem_cons_self)⟩

theorem isNamedStep_of_mem {step : String} (h : ∃ c ∈ step.toList, c.isAlphanum = true) :
    isNamedStep step = true := by
  obtain ⟨c, hmem, hc⟩ := h
  have hne {other : String} (hother : other.toList.any Char.isAlphanum = false) :
      step ≠ other := by
    rintro rfl
    exact List.any_eq_false.1 hother c hmem hc
  have hempty : step ≠ "" := hne rfl
  have hhere : step ≠ "." := hne rfl
  have habove : step ≠ ".." := hne rfl
  simp [isNamedStep, hempty, hhere, habove]

def IsPlainPath (ending file : String) : Prop :=
  ∃ (directories : List String) (name : String),
    (∀ word ∈ directories ++ [name], IsWord word) ∧ IsWord ending ∧
      file = join "/" (directories ++ [name ++ "." ++ ending])

theorem stem_of_words {name ending : String} (hname : IsWord name) (hending : IsWord ending) :
    stem (name ++ "." ++ ending) = name := by
  have hwhole : name ++ "." ++ ending = join "." [name, ending] := rfl
  have hsplit : splitAt '.' (join "." [name, ending]) = [name, ending] := by
    refine splitAt_join rfl (List.cons_ne_nil _ _) fun n hn => ?_
    rcases List.mem_pair.1 hn with rfl | rfl
    · exact hname.not_mem rfl
    · exact hending.not_mem rfl
  rw [hwhole, stem, hsplit]
  simp [hname.1]

theorem pathNames_plain {directories : List String} {name ending : String}
    (hwords : ∀ word ∈ directories ++ [name], IsWord word) (hending : IsWord ending) :
    pathNames (join "/" (directories ++ [name ++ "." ++ ending])) = directories ++ [name] := by
  obtain ⟨hdirectories, hname⟩ := List.forall_mem_append.1 hwords
  replace hname := List.forall_mem_singleton.1 hname
  have hlast : isNamedStep (name ++ "." ++ ending) = true := by
    obtain ⟨c, hmem, hc⟩ := hname.exists_mem
    exact isNamedStep_of_mem ⟨c, by simp [hmem], hc⟩
  have hsplit : splitAt '/' (join "/" (directories ++ [name ++ "." ++ ending])) =
      directories ++ [name ++ "." ++ ending] := by
    refine splitAt_join rfl (by simp) (List.forall_mem_append.2 ⟨fun n hn => ?_, ?_⟩)
    · exact (hdirectories n hn).not_mem rfl
    · simp [hname.not_mem (c := '/') rfl, hending.not_mem (c := '/') rfl]
  have hnamed : ∀ step ∈ directories ++ [name ++ "." ++ ending], isNamedStep step = true :=
    List.forall_mem_append.2 ⟨fun n hn => isNamedStep_of_mem (hdirectories n hn).exists_mem,
      List.forall_mem_singleton.2 hlast⟩
  have hfilter : (directories ++ [name ++ "." ++ ending]).filter
      (fun step => step != "" && step != ".") = directories ++ [name ++ "." ++ ending] :=
    List.filter_eq_self.2 fun step hstep => by
      have := hnamed step hstep
      simp_all [isNamedStep]
  unfold pathNames
  rw [hsplit, hfilter]
  simp only [List.getLast?_concat, List.dropLast_concat]
  split
  · contradiction
  · rename_i heq
    rw [Option.some.inj heq] at hlast
    exact absurd hlast (by decide)
  · rename_i last _ heq
    rw [← Option.some.inj heq, stem_of_words hname hending]
    refine List.filter_eq_self.2 fun step hstep => ?_
    exact isNamedStep_of_mem (hwords step hstep).exists_mem

theorem mem_join {sep : String} {c d : Char} (hsep : sep.toList = [c]) {names : List String}
    (h : d ∈ (join sep names).toList) : d = c ∨ ∃ n ∈ names, d ∈ n.toList := by
  cases names with
  | nil => simp at h
  | cons first rest =>
      rw [toList_join hsep] at h
      simp only [List.mem_append, List.mem_flatMap, List.mem_cons] at h
      grind

/-- Words with underscores between them fall apart into the words. -/
theorem splitAt_join_words {words : List String} (hne : words ≠ [])
    (hwords : ∀ word ∈ words, IsWord word) : splitAt '_' (join "_" words) = words :=
  splitAt_join rfl hne fun word hword => (hwords word hword).not_mem rfl

/-- The identifier of a plain path has the words of the path between underscores. -/
theorem fileIdent_plain {directories : List String} {name ending : String}
    (hwords : ∀ word ∈ directories ++ [name], IsWord word) (hending : IsWord ending) :
    fileIdent (join "/" (directories ++ [name ++ "." ++ ending])) =
      join "_" (directories ++ [name]) := by
  have hslashed : (join "/" (directories ++ [name ++ "." ++ ending])).toList.map
      (fun c => if c = '\\' then '/' else c) =
        (join "/" (directories ++ [name ++ "." ++ ending])).toList := by
    refine (List.map_congr_left fun d hd => if_neg ?_).trans (List.map_id _)
    rintro rfl
    obtain hslash | ⟨step, hstep, hd⟩ := mem_join rfl hd
    · cases hslash
    · rcases List.mem_append.1 hstep with hstep | hstep
      · exact (hwords step (List.mem_append_left _ hstep)).not_mem rfl hd
      · rw [List.mem_singleton.1 hstep] at hd
        have hname : IsWord name := hwords name (by simp)
        simp [hname.not_mem (c := '\\') rfl, hending.not_mem (c := '\\') rfl] at hd
  have hident : (join "_" (directories ++ [name])).toList.map identifierChar =
      (join "_" (directories ++ [name])).toList := by
    refine (List.map_congr_left fun d hd => if_pos ?_).trans (List.map_id _)
    obtain rfl | ⟨word, hword, hd⟩ := mem_join rfl hd
    · rfl
    · simp [(hwords word hword).isAlphanum hd]
  have hne : join "_" (directories ++ [name]) ≠ "" := by
    intro h
    have hsplit := splitAt_join_words (by simp) hwords
    rw [h] at hsplit
    have hname : name ∈ [""] := by
      change name ∈ splitAt '_' ""
      rw [hsplit]
      simp
    exact (hwords name (by simp)).1 (List.mem_singleton.1 hname)
  unfold fileIdent
  dsimp only
  rw [hslashed, String.ofList_toList, pathNames_plain hwords hending, hident, String.ofList_toList,
    if_neg hne]

/-- Plain paths with one ending have different identifiers. -/
theorem fileIdent_inj_of_plain {ending file file' : String} (h : IsPlainPath ending file)
    (h' : IsPlainPath ending file') (hident : fileIdent file = fileIdent file') : file = file' := by
  obtain ⟨directories, name, hwords, hending, rfl⟩ := h
  obtain ⟨directories', name', hwords', -, rfl⟩ := h'
  rw [fileIdent_plain hwords hending, fileIdent_plain hwords' hending] at hident
  have hsteps := congrArg (splitAt '_') hident
  rw [splitAt_join_words (by simp) hwords, splitAt_join_words (by simp) hwords'] at hsteps
  obtain ⟨rfl, hname⟩ := List.append_inj' hsteps rfl
  rw [List.singleton_inj.1 hname]

namespace Pass

def IdentsApart (sites : List CompiledSite) : Prop :=
  ∀ a ∈ sites, ∀ b ∈ sites, a.key.namespace = b.key.namespace →
    fileIdent a.key.file = fileIdent b.key.file → a.key.file = b.key.file

theorem hintName_of_shows {settings : Settings} {emitter : Emitter} {r : Registry}
    {sites : List CompiledSite} {a : Artifact} (h : Shows settings emitter r sites a) :
    a.hintName = a.key.hintName emitter.ext := by
  cases h <;> rfl

theorem hintNames_run (m : Model) (settings : Settings) (emitter : Emitter)
    (sites : List CallSite) :
    (run m settings emitter sites).1.map (·.hintName) =
      ((run m settings emitter sites).1.map (·.key)).map (·.hintName emitter.ext) := by
  rw [List.map_map]
  refine List.map_congr_left fun a ha => ?_
  obtain ⟨_, _, -, hshows⟩ := run_shows ha
  exact hintName_of_shows hshows

/-- The artifacts of a pass have different names exactly where no two files of one namespace have
one identifier, and plain paths with one ending never do. -/
theorem hint_names_distinct_iff (m : Model) (settings : Settings) (emitter : Emitter)
    (sites : List CallSite) :
    let found := compiled (outcomes m settings sites)
    (((run m settings emitter sites).1.map (·.hintName)).Nodup ↔ IdentsApart found) ∧
      ∀ ending, (∀ site ∈ found, IsPlainPath ending site.key.file) →
        ((run m settings emitter sites).1.map (·.hintName)).Nodup := by
  intro found
  have hkeys : (run m settings emitter sites).1.map (·.key) =
      Ordered.ofList (found.map (·.key)) := keys_run m settings emitter sites
  have hnodup : (Ordered.ofList (found.map (·.key))).Nodup :=
    (Ordered.increasing_ofList _).nodup
  have hiff : ((run m settings emitter sites).1.map (·.hintName)).Nodup ↔ IdentsApart found := by
    rw [hintNames_run, hkeys, List.nodup_map_iff_inj_on hnodup]
    constructor
    · intro hinj a ha b hb hspace hident
      have hmem {site : CompiledSite} (hsite : site ∈ found) :
          site.key ∈ Ordered.ofList (found.map (·.key)) :=
        Ordered.mem_ofList.2 (List.mem_map_of_mem hsite)
      have hkey := hinj _ (hmem ha) _ (hmem hb) (GroupKey.hintName_eq_iff.2 ⟨hspace, hident⟩)
      rw [hkey]
    · intro hapart k hk k' hk' hname
      obtain ⟨a, ha, rfl⟩ := List.mem_map.1 (Ordered.mem_ofList.1 hk)
      obtain ⟨b, hb, rfl⟩ := List.mem_map.1 (Ordered.mem_ofList.1 hk')
      obtain ⟨hspace, hident⟩ := GroupKey.hintName_eq_iff.1 hname
      have hfile : a.key.file = b.key.file := hapart a ha b hb hspace hident
      calc a.key = ⟨a.key.namespace, a.key.file⟩ := rfl
        _ = ⟨b.key.namespace, b.key.file⟩ := by rw [hspace, hfile]
  refine ⟨hiff, fun ending hplain => hiff.2 fun a ha b hb _ hident => ?_⟩
  exact fileIdent_inj_of_plain (hplain a ha) (hplain b hb) hident

def orderModel : Model :=
  .ofTypes [⟨"Order", none, .class, [⟨"Id", .property, "int", false, false, .public⟩]⟩]

def numberSite (file : String) : CallSite :=
  orderSite file "Shop" (.anonymous [.named "Id" (.dot (.ident "x") "Id")])

theorem hint_names_distinct_iff_same_name :
    let sites := [numberSite "A/Orders.cs", numberSite "B/Orders.cs"]
    (∀ site ∈ compiled (outcomes orderModel {} sites), IsPlainPath "cs" site.key.file) ∧
      ((run orderModel {} Emission.emitter sites).1.map (·.hintName)).Nodup := by
  intro sites
  have hfiles : (compiled (outcomes orderModel {} sites)).map (·.key.file) =
      ["A/Orders.cs", "B/Orders.cs"] := by decide +kernel
  have hplain : ∀ site ∈ compiled (outcomes orderModel {} sites),
      IsPlainPath "cs" site.key.file := by
    intro site hsite
    have hfile := List.mem_map_of_mem (f := (·.key.file)) hsite
    rw [hfiles] at hfile
    rcases List.mem_pair.1 hfile with hfile | hfile
    · rw [hfile]
      exact ⟨["A"], "Orders", by decide, by decide, rfl⟩
    · rw [hfile]
      exact ⟨["B"], "Orders", by decide, by decide, rfl⟩
  exact ⟨hplain, (hint_names_distinct_iff orderModel {} Emission.emitter sites).2 "cs" hplain⟩

theorem hint_names_of_step_and_underscore :
    let sites := [numberSite "Api/Orders.cs", numberSite "Api_Orders.cs"]
    (run orderModel {} Emission.emitter sites).1.map (·.key) =
        [⟨"Shop", "Api/Orders.cs"⟩, ⟨"Shop", "Api_Orders.cs"⟩] ∧
      (run orderModel {} Emission.emitter sites).1.map (·.hintName) =
        ["Shop.Api_Orders.g.cs", "Shop.Api_Orders.g.cs"] ∧
      ¬ ((run orderModel {} Emission.emitter sites).1.map (·.hintName)).Nodup := by
  intro sites
  have hkeys : (run orderModel {} Emission.emitter sites).1.map (·.key) =
      [⟨"Shop", "Api/Orders.cs"⟩, ⟨"Shop", "Api_Orders.cs"⟩] := by
    rw [keys_run]
    decide +kernel
  have hnames : (run orderModel {} Emission.emitter sites).1.map (·.hintName) =
      ["Shop.Api_Orders.g.cs", "Shop.Api_Orders.g.cs"] := by
    rw [hintNames_run, hkeys]
    decide +kernel
  refine ⟨hkeys, hnames, ?_⟩
  rw [hnames]
  decide

end Pass

end Projection
