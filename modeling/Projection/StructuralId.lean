/-!
Names of structures by content: sixteen upper-case hexadecimal digits in practice, any text in
principle.
-/

namespace Projection

structure StructuralId where
  text : String
  deriving DecidableEq, Repr

namespace StructuralId

/-- Reads an id in either case of letters. -/
def ofHex (hex : String) : StructuralId := ⟨String.ofList (hex.toList.map Char.toUpper)⟩

/-- The characters that fill exactly `bytes` bytes, if some front part does. -/
def frontBytes? : Nat → List Char → Option (List Char)
  | 0, _ => some []
  | _ + 1, [] => none
  | n + 1, c :: rest =>
      if c.utf8Size ≤ n + 1 then (frontBytes? (n + 1 - c.utf8Size) rest).map (c :: ·) else none
termination_by _ cs => cs.length

/-- The first eight bytes, which tell generated names apart. An id without such a front part is
used whole. -/
def suffix (id : StructuralId) : String :=
  ((frontBytes? 8 id.text.toList).map String.ofList).getD id.text

/-- Stands for a structure that has no name yet. -/
def placeholder (id : StructuralId) : String := "Generated_" ++ id.text

end StructuralId

end Projection
