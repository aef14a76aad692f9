import Projection.Text.CharClass

/-!
Texts without the blanks around them.
-/

namespace Projection.Text

def trim (s : String) : String :=
  .ofList ((s.toList.dropWhile isBlank).reverse.dropWhile isBlank).reverse

end Projection.Text
