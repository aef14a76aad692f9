/-!
Fixed texts at the front and at the end of a text.
-/

namespace Projection.Text

def startsWith (front s : String) : Bool := front.toList.isPrefixOf s.toList

def endsWith (back s : String) : Bool := back.toList.isSuffixOf s.toList

/-- Without `front`, if the text begins with it; taken off once. -/
def dropFront (front s : String) : String :=
  if startsWith front s then String.ofList (s.toList.drop front.toList.length) else s

@[simp] theorem dropFront_append (front s : String) : dropFront front (front ++ s) = s := by
  simp [dropFront, startsWith]

end Projection.Text
