/-!
Texts cut at every occurrence of one character.
-/

namespace Projection.Text

/-- The pieces between occurrences of `separator`; there is always at least one. -/
def pieces (separator : Char) : List Char → List (List Char)
  | [] => [[]]
  | c :: rest =>
      if c = separator then [] :: pieces separator rest
      else
        match pieces separator rest with
        | [] => [[c]]
        | piece :: more => (c :: piece) :: more

theorem pieces_ne_nil (separator : Char) (cs : List Char) : pieces separator cs ≠ [] := by
  fun_cases pieces separator cs <;> simp

def splitAt (separator : Char) (s : String) : List String :=
  (pieces separator s.toList).map String.ofList

/-- What follows the last occurrence of `separator`, or everything. -/
def lastPiece (separator : Char) (s : String) : String :=
  (splitAt separator s).getLastD s

end Projection.Text
