import Projection.Proofs.Files.Shelf

/-!
Artifacts on their way to files. What becomes of a file is settled by the texts that are sent to its
path, one after the other, and sending them once more changes nothing. After artifacts are placed
all files are up to date exactly where texts for one path agree, and where diagnostics that are not
written are there all the same.
-/

namespace Projection

open Text

namespace Output

def isText (content : String) (cell : Option String) : Bool :=
  cell.any fun existing => trim existing = trim content

def sendOne (cell : Option String) (content : String) : Option String :=
  if isText content cell then cell else some content

def send (cell : Option String) (contents : List String) : Option String :=
  contents.foldl sendOne cell

variable {content : String} {contents : List String} {cell : Option String}

@[simp]
theorem isText_some (content existing : String) :
    isText content (some existing) = decide (trim existing = trim content) := by
  rw [isText, Option.any_some]

theorem send_cons (cell : Option String) (content : String) (contents : List String) :
    send cell (content :: contents) = send (sendOne cell content) contents := rfl

theorem sendOne_of_isText (h : isText content cell = true) : sendOne cell content = cell :=
  if_pos h

theorem sendOne_of_not_isText (h : isText content cell = false) :
    sendOne cell content = some content :=
  if_neg (by simp [h])

theorem isText_sendOne (cell : Option String) (content : String) :
    isText content (sendOne cell content) = true := by
  cases h : isText content cell with
  | true => rw [sendOne_of_isText h, h]
  | false => simp [sendOne_of_not_isText h]

/-- The last text is in the file. -/
theorem exists_isText_send (cell : Option String) (h : contents ≠ []) :
    ∃ content ∈ contents, isText content (send cell contents) = true := by
  induction contents generalizing cell with
  | nil => exact absurd rfl h
  | cons content contents ih =>
      by_cases hlast : contents = []
      · subst hlast
        exact ⟨content, List.mem_cons_self, isText_sendOne cell content⟩
      · obtain ⟨last, hmem, htext⟩ := ih (sendOne cell content) hlast
        exact ⟨last, List.mem_cons_of_mem _ hmem, htext⟩

/-- Files that differ in blanks only are both left alone, or nothing of them is left. -/
theorem send_of_trim_eq {a b : String} (h : trim a = trim b) (contents : List String) :
    send (some a) contents = send (some b) contents ∨
      send (some a) contents = some a ∧ send (some b) contents = some b := by
  induction contents with
  | nil => exact .inr ⟨rfl, rfl⟩
  | cons content contents ih =>
      rw [send_cons, send_cons]
      by_cases ha : trim a = trim content
      · rw [sendOne_of_isText (by simp [ha]), sendOne_of_isText (by simp [← h, ha])]
        exact ih
      · rw [sendOne_of_not_isText (by simp [ha]), sendOne_of_not_isText (by simp [← h, ha])]
        exact .inl rfl

/-- Texts that were sent change nothing when they are sent again, even where they overwrite one
another on the way. -/
theorem send_send (cell : Option String) (contents : List String) :
    send (send cell contents) contents = send cell contents := by
  induction contents generalizing cell with
  | nil => rfl
  | cons content contents ih =>
      rw [send_cons, send_cons]
      have hheld := isText_sendOne cell content
      generalize hfirst : sendOne cell content = first at hheld ⊢
      cases hagain : isText content (send first contents) with
      | true => rw [sendOne_of_isText hagain, ih]
      | false =>
          rw [sendOne_of_not_isText hagain]
          cases first with
          | none => cases hheld
          | some existing =>
              have htrim : trim existing = trim content := by simpa using hheld
              obtain hlost | ⟨hkept, -⟩ := send_of_trim_eq htrim contents
              · exact hlost.symm
              · rw [hkept, hheld] at hagain
                cases hagain

end Output

namespace Shelf

open Output

def holds (s : Shelf) (dir : String) (a : Artifact) : Bool :=
  isText a.content (s.file (pathIn dir a.hintName))

def take (dir : String) (s : Shelf) (a : Artifact) : Shelf :=
  if s.holds dir a then s else (s.withDirectory dir).put (pathIn dir a.hintName) a.content

def takeAll (dir : String) (s : Shelf) (artifacts : List Artifact) : Shelf :=
  artifacts.foldl (take dir) s

def sentTo (dir path : String) (artifacts : List Artifact) : List String :=
  (artifacts.filter fun a => pathIn dir a.hintName = path).map (·.content)

def outdated (s : Shelf) (dir : String) (artifacts : List Artifact) : List String :=
  (artifacts.filter fun a => !s.holds dir a).map fun a => pathIn dir a.hintName

variable {dir path : String} {s : Shelf} {a : Artifact} {artifacts : List Artifact}

theorem take_of_holds (h : s.holds dir a = true) : s.take dir a = s := if_pos h

theorem take_of_not_holds (h : s.holds dir a = false) :
    s.take dir a = (s.withDirectory dir).put (pathIn dir a.hintName) a.content :=
  if_neg (by simp [h])

theorem takeAll_cons (dir : String) (s : Shelf) (a : Artifact) (artifacts : List Artifact) :
    s.takeAll dir (a :: artifacts) = (s.take dir a).takeAll dir artifacts := rfl

section Files

theorem file_take (dir : String) (s : Shelf) (a : Artifact) (path : String) :
    (s.take dir a).file path =
      if pathIn dir a.hintName = path then sendOne (s.file path) a.content else s.file path := by
  cases h : s.holds dir a with
  | true =>
      rw [take_of_holds h]
      split
      · rename_i hpath
        rw [← hpath, sendOne_of_isText h]
      · rfl
  | false =>
      rw [take_of_not_holds h]
      by_cases hpath : pathIn dir a.hintName = path
      · subst hpath
        rw [if_pos rfl, sendOne_of_not_isText h]
        exact if_pos rfl
      · rw [if_neg hpath]
        exact if_neg (Ne.symm hpath)

/-- What becomes of a file is settled by the texts that go to it. -/
theorem file_takeAll (dir : String) (s : Shelf) (artifacts : List Artifact) (path : String) :
    (s.takeAll dir artifacts).file path = send (s.file path) (sentTo dir path artifacts) := by
  induction artifacts generalizing s with
  | nil => rfl
  | cons a artifacts ih =>
      rw [takeAll_cons, ih, file_take]
      unfold sentTo
      by_cases hpath : pathIn dir a.hintName = path
      · rw [if_pos hpath, List.filter_cons_of_pos (by simp [hpath])]
        rfl
      · rw [if_neg hpath, List.filter_cons_of_neg (by simp [hpath])]

theorem sentTo_eq_nil : sentTo dir path artifacts = [] ↔
    ∀ a ∈ artifacts, pathIn dir a.hintName ≠ path := by
  simp [sentTo]

theorem file_takeAll_elsewhere (h : ∀ a ∈ artifacts, pathIn dir a.hintName ≠ path) :
    (s.takeAll dir artifacts).file path = s.file path := by
  rw [file_takeAll, sentTo_eq_nil.2 h]
  rfl

end Files

section Directories

theorem below_take (dir : String) (s : Shelf) (a : Artifact) : (s.take dir a).below = s.below := by
  unfold take
  split <;> rfl

theorem below_takeAll (dir : String) (s : Shelf) (artifacts : List Artifact) :
    (s.takeAll dir artifacts).below = s.below := by
  induction artifacts generalizing s with
  | nil => rfl
  | cons a artifacts ih => rw [takeAll_cons, ih, below_take]

/-- The only directory that can come about is the one for the artifacts, and it does when there is
something to write. -/
theorem directory_take (dir : String) (s : Shelf) (a : Artifact) (path : String) :
    (s.take dir a).directory path =
      (decide (path = dir) && !s.holds dir a || s.directory path) := by
  cases h : s.holds dir a with
  | true => simp [take_of_holds h]
  | false => simp [take_of_not_holds h, put, withDirectory]

theorem directory_takeAll (dir : String) (s : Shelf) (artifacts : List Artifact) (path : String) :
    (s.takeAll dir artifacts).directory path =
      (decide (path = dir) && artifacts.any (fun a => !s.holds dir a) || s.directory path) := by
  induction artifacts generalizing s with
  | nil => simp [takeAll]
  | cons a artifacts ih =>
      rw [takeAll_cons, ih, directory_take, List.any_cons]
      cases h : s.holds dir a with
      | true => simp [take_of_holds h]
      | false => cases decide (path = dir) <;> simp

/-- Where there is nothing to write, all is left as it was. -/
theorem takeAll_of_holds (h : ∀ a ∈ artifacts, s.holds dir a = true) :
    s.takeAll dir artifacts = s := by
  induction artifacts with
  | nil => rfl
  | cons a artifacts ih =>
      obtain ⟨ha, hrest⟩ := List.forall_mem_cons.1 h
      rw [takeAll_cons, take_of_holds ha, ih hrest]

/-- Placing the same artifacts again changes nothing. -/
theorem takeAll_takeAll (dir : String) (s : Shelf) (artifacts : List Artifact) :
    (s.takeAll dir artifacts).takeAll dir artifacts = s.takeAll dir artifacts := by
  have hfile : ((s.takeAll dir artifacts).takeAll dir artifacts).file =
      (s.takeAll dir artifacts).file := by
    funext path
    rw [file_takeAll, file_takeAll, send_send]
  have hdirectory : ((s.takeAll dir artifacts).takeAll dir artifacts).directory =
      (s.takeAll dir artifacts).directory := by
    funext path
    by_cases hall : ∀ a ∈ artifacts, s.holds dir a = true
    · rw [takeAll_of_holds hall, takeAll_of_holds hall]
    · have hany : artifacts.any (fun a => !s.holds dir a) = true := by simpa using hall
      rw [directory_takeAll, directory_takeAll, hany]
      cases decide (path = dir) <;> simp
  have hbelow : ((s.takeAll dir artifacts).takeAll dir artifacts).below =
      (s.takeAll dir artifacts).below := below_takeAll ..
  exact Shelf.ext hfile hdirectory hbelow

end Directories

section Settled

variable {writeDiagnostics : Bool}

theorem outdated_eq_nil : s.outdated dir artifacts = [] ↔
    ∀ a ∈ artifacts, s.holds dir a = true := by
  simp [outdated]

theorem holds_congr {b : Artifact} (hpath : pathIn dir a.hintName = pathIn dir b.hintName)
    (htrim : trim a.content = trim b.content) : s.holds dir a = s.holds dir b := by
  unfold holds isText
  rw [hpath, htrim]

theorem trim_eq_of_holds {b : Artifact} (hpath : pathIn dir a.hintName = pathIn dir b.hintName)
    (ha : s.holds dir a = true) (hb : s.holds dir b = true) :
    trim a.content = trim b.content := by
  unfold holds at ha hb
  rw [hpath] at ha
  cases hfile : s.file (pathIn dir b.hintName) with
  | none =>
      rw [hfile] at hb
      cases hb
  | some existing =>
      rw [hfile, isText_some, decide_eq_true_eq] at ha hb
      exact ha.symm.trans hb

/-- Of the artifacts that go to a path one is held. -/
theorem exists_holds_takeAll (dir : String) (s : Shelf) (h : a ∈ artifacts) :
    ∃ b ∈ artifacts, pathIn dir b.hintName = pathIn dir a.hintName ∧
      (s.takeAll dir artifacts).holds dir b = true := by
  have hne : sentTo dir (pathIn dir a.hintName) artifacts ≠ [] :=
    fun hnil => sentTo_eq_nil.1 hnil a h rfl
  obtain ⟨content, hcontent, htext⟩ := exists_isText_send (s.file (pathIn dir a.hintName)) hne
  obtain ⟨b, hb, rfl⟩ := List.mem_map.1 hcontent
  obtain ⟨hb, hpath⟩ := List.mem_filter.1 hb
  have hpath := of_decide_eq_true hpath
  refine ⟨b, hb, hpath, ?_⟩
  rw [holds, hpath, file_takeAll]
  exact htext

/-- Texts for one path agree up to blanks, and a diagnostic that is not written is there already,
or another artifact takes its place. -/
structure Settled (s : Shelf) (dir : String) (writeDiagnostics : Bool) (sent : List Artifact) :
    Prop where
  agree : ∀ a ∈ sent, ∀ b ∈ sent, pathIn dir a.hintName = pathIn dir b.hintName →
    trim a.content = trim b.content
  present : writeDiagnostics = false → ∀ a ∈ sent, a.isDiagnostic = true →
    s.holds dir a = true ∨
      ∃ b ∈ sent, b.isDiagnostic = false ∧ pathIn dir b.hintName = pathIn dir a.hintName

theorem mem_chosen : a ∈ chosen writeDiagnostics artifacts ↔
    a ∈ artifacts ∧ (writeDiagnostics = true ∨ a.isDiagnostic = false) := by
  simp [chosen]

/-- An artifact that is not chosen and has no chosen one in its place. -/
theorem holds_takeAll_chosen (h : ∀ b ∈ chosen writeDiagnostics artifacts,
      pathIn dir b.hintName ≠ pathIn dir a.hintName) :
    (s.takeAll dir (chosen writeDiagnostics artifacts)).holds dir a = s.holds dir a := by
  unfold holds
  rw [file_takeAll_elsewhere h]

/-- After the chosen artifacts are placed, nothing is out of date exactly where all was settled. -/
theorem outdated_takeAll_iff (s : Shelf) (dir : String) (writeDiagnostics : Bool)
    (sent : List Artifact) :
    (s.takeAll dir (chosen writeDiagnostics sent)).outdated dir sent = [] ↔
      s.Settled dir writeDiagnostics sent := by
  rw [outdated_eq_nil]
  constructor
  · intro hall
    refine ⟨fun a ha b hb hpath => trim_eq_of_holds hpath (hall a ha) (hall b hb), ?_⟩
    intro hoff a ha _
    by_cases hplace : ∃ b ∈ chosen writeDiagnostics sent,
        pathIn dir b.hintName = pathIn dir a.hintName
    · obtain ⟨b, hb, hpath⟩ := hplace
      obtain ⟨hb, hchosen⟩ := mem_chosen.1 hb
      exact .inr ⟨b, hb, hchosen.resolve_left (by simp [hoff]), hpath⟩
    · refine .inl ?_
      rw [← holds_takeAll_chosen fun b hb hpath => hplace ⟨b, hb, hpath⟩]
      exact hall a ha
  · intro hsettled a ha
    by_cases hplace : ∃ b ∈ chosen writeDiagnostics sent,
        pathIn dir b.hintName = pathIn dir a.hintName
    · obtain ⟨b, hb, hpath⟩ := hplace
      obtain ⟨held, hheld, hsame, hholds⟩ := exists_holds_takeAll dir s hb
      have hplaced := hsame.trans hpath
      rw [← hholds]
      exact holds_congr hplaced.symm
        (hsettled.agree a ha held (mem_chosen.1 hheld).1 hplaced.symm)
    · have hunchosen : ¬ (writeDiagnostics = true ∨ a.isDiagnostic = false) :=
        fun hchosen => hplace ⟨a, mem_chosen.2 ⟨ha, hchosen⟩, rfl⟩
      rw [not_or, Bool.not_eq_true, Bool.not_eq_false] at hunchosen
      rw [holds_takeAll_chosen fun b hb hpath => hplace ⟨b, hb, hpath⟩]
      obtain hholds | ⟨b, hb, hsource, hpath⟩ := hsettled.present hunchosen.1 a ha hunchosen.2
      · exact hholds
      · exact absurd ⟨b, mem_chosen.2 ⟨hb, .inr hsource⟩, hpath⟩ hplace

end Settled

end Shelf

end Projection
