import Projection.Text.Split

/-!
The lines of a text. A line ends with a newline, which a carriage return may precede.
-/

namespace Projection.Text

def stripReturn (line : List Char) : List Char :=
  if line.getLast? = some '\r' then line.dropLast else line

/-- All lines; what follows the last newline is a line unless it is empty. -/
def lines (s : String) : List String :=
  let all := pieces '\n' s.toList
  let ended := all.dropLast.map stripReturn
  (match all.getLast? with
    | none | some [] => ended
    | some last => ended ++ [last]).map String.ofList

end Projection.Text
