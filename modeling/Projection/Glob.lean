/-!
Patterns for paths. A question mark stands for any character and a star for any run of characters,
slashes included; two stars stand for whole leading directories.
-/

namespace Projection

/-- An inclusive range of characters. -/
structure CharRange where
  first : Char
  last : Char
  deriving DecidableEq, Repr

namespace CharRange

def contains (r : CharRange) (c : Char) : Bool := r.first ≤ c && c ≤ r.last

/-- The ranges between brackets: `a-z` is a range and everything else stands for itself. -/
def ofChars : List Char → List CharRange
  | a :: '-' :: b :: rest => ⟨a, b⟩ :: ofChars rest
  | c :: rest => ⟨c, c⟩ :: ofChars rest
  | [] => []

end CharRange

namespace Glob

inductive Piece where
  | char (c : Char)
  | anyChar
  /-- A character inside the ranges, or outside of them when `inverted`. -/
  | oneOf (inverted : Bool) (ranges : List CharRange)
  /-- Any run of characters. -/
  | anyRun
  /-- Nothing, everything, or a run of characters that ends with a slash. -/
  | anyDirectories
  deriving DecidableEq, Repr

/-- The text up to the first closing bracket, and what comes after it. -/
def upToBracket : List Char → Option (List Char × List Char)
  | [] => none
  | ']' :: rest => some ([], rest)
  | c :: rest => (upToBracket rest).map fun (inside, after) => (c :: inside, after)

theorem length_upToBracket {cs inside after : List Char}
    (h : upToBracket cs = some (inside, after)) :
    after.length < cs.length := by
  fun_induction upToBracket cs generalizing inside with
  | case1 => simp at h
  | case2 rest =>
      simp only [Option.some.injEq, Prod.mk.injEq] at h
      simp [h.2]
  | case3 c rest _ ih =>
      obtain ⟨⟨i, a⟩, hr, heq⟩ := Option.map_eq_some_iff.1 h
      simp only [Prod.mk.injEq] at heq
      obtain ⟨-, rfl⟩ := heq
      exact Nat.lt_succ_of_lt (ih hr)

/-- What stands between brackets, where the first character is never the closing one. -/
def brackets? : List Char → Option (Piece × List Char)
  | '!' :: c :: rest =>
      (upToBracket rest).map fun (inside, after) =>
        (.oneOf true (CharRange.ofChars (c :: inside)), after)
  | ['!'] => none
  | c :: rest =>
      (upToBracket rest).map fun (inside, after) =>
        (.oneOf false (CharRange.ofChars (c :: inside)), after)
  | [] => none

theorem length_brackets? {cs after : List Char} {p : Piece} (h : brackets? cs = some (p, after)) :
    after.length < cs.length := by
  fun_cases brackets? cs with
  | case1 c rest | case3 c rest =>
      simp only [brackets?] at h
      obtain ⟨⟨i, a⟩, hr, heq⟩ := Option.map_eq_some_iff.1 h
      simp only [Prod.mk.injEq] at heq
      obtain ⟨-, rfl⟩ := heq
      have := length_upToBracket hr
      simp only [List.length_cons]
      omega
  | case2 | case4 => simp [brackets?] at h

/-- Reads a pattern; `before` is the character in front of it. Two stars have to be a whole
component of the path, and a bracket has to be closed. -/
def pieces? (before : Option Char) (cs : List Char) : Option (List Piece) :=
  match cs with
  | [] => some []
  | '?' :: rest => (pieces? (some '?') rest).map (.anyChar :: ·)
  | '*' :: '*' :: rest =>
      if before.all (· == '/') then
        match rest with
        | [] => some [.anyDirectories]
        | '/' :: rest => (pieces? (some '/') rest).map (.anyDirectories :: ·)
        | _ => none
      else none
  | '*' :: rest => (pieces? (some '*') rest).map (.anyRun :: ·)
  | '[' :: rest =>
      match _h : brackets? rest with
      | none => none
      | some (piece, after) => (pieces? (some ']') after).map (piece :: ·)
  | c :: rest => (pieces? (some c) rest).map (.char c :: ·)
termination_by cs.length
decreasing_by
  all_goals simp only [List.length_cons]
  all_goals try omega
  have := length_brackets? _h
  omega

/-- Whether a piece for one character stands for this one. -/
def Piece.accepts : Piece → Char → Bool
  | char c, d => c == d
  | anyChar, _ => true
  | oneOf inverted ranges, d => ranges.any (·.contains d) != inverted
  | anyRun, _ | anyDirectories, _ => false

/-!
A row has an entry for every rest of a text, the text itself first and the empty rest last. Rows are
built from the last piece to the first, so that no rest is looked at twice for the same piece.
-/

/-- The row of no pieces: only the empty rest is matched. -/
def emptyRow (cs : List Char) : List Bool := cs.map (fun _ => false) ++ [true]

/-- One character, and then a rest that was matched before. -/
def afterOne (accepts : Char → Bool) : List Char → List Bool → List Bool
  | c :: cs, _ :: next :: row => (accepts c && next) :: afterOne accepts cs (next :: row)
  | _, _ => [false]

/-- A rest that was matched before, or a later one. -/
def afterAny (row : List Bool) : List Bool :=
  row.foldr (fun entry later => (entry || later.headD false) :: later) []

/-- A later rest that was matched before and stands behind a slash, or the empty one. -/
def afterSlash : List Char → List Bool → List Bool
  | c :: cs, _ :: next :: row =>
      let later := afterSlash cs (next :: row)
      ((c == '/' && next) || later.headD false) :: later
  | _, row => row

/-- The row of a piece in front of pieces whose row is known. -/
def Piece.before (p : Piece) (cs : List Char) (row : List Bool) : List Bool :=
  match p with
  | anyRun => afterAny row
  | anyDirectories => row.zipWith (· || ·) (afterSlash cs row)
  | char _ | anyChar | oneOf _ _ => afterOne p.accepts cs row

/-- Whether the pieces stand for all of the text. -/
def matchesAll (ps : List Piece) (cs : List Char) : Bool :=
  (ps.foldr (fun p row => p.before cs row) (emptyRow cs)).headD false

end Glob

structure Glob where
  pieces : List Glob.Piece
  deriving DecidableEq, Repr

namespace Glob

def parse? (pattern : String) : Option Glob := (pieces? none pattern.toList).map (⟨·⟩)

def isMatch (g : Glob) (path : String) : Bool := matchesAll g.pieces path.toList

end Glob

end Projection
