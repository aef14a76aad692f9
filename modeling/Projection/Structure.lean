import Projection.Digest
import Projection.Source
import Projection.TypeRef

/-!
Structures: the types that are generated for object literals. A structure is identified by what its
properties look like from outside, not by where their values come from.
-/

namespace Projection

mutual

structure Property where
  name : String
  declaredType : TypeRef
  nullable : Bool
  /-- The structure that the declared type refers to. -/
  nested : Option Structure
  source : Source

structure Structure where
  /-- Simple name of the type that the properties are read from. -/
  sourceType : String
  properties : List Property
  id : StructuralId

end

deriving instance Repr for Property, Structure

namespace StructuralId

def hexDigit (n : Nat) : Char := if n < 10 then Char.ofNat (48 + n) else Char.ofNat (55 + n)

def hexByte (b : UInt8) : List Char := [hexDigit (b.toNat / 16), hexDigit (b.toNat % 16)]

def ofDigest (bytes : List UInt8) : StructuralId :=
  ⟨String.ofList ((bytes.take 8).flatMap hexByte)⟩

/-- Names what a sequence of bytes encodes. -/
def ofBytes (bytes : List UInt8) : StructuralId := ofDigest (Digest.sha256 bytes)

end StructuralId

namespace Structure

def utf8 (s : String) : List UInt8 := s.toUTF8.toList

/-- Stands behind each part of a property. -/
def unitSeparator : UInt8 := 0x1F

/-- Stands behind each property. -/
def recordSeparator : UInt8 := 0x1E

/-- The outside of one property. A nested structure counts by its id. -/
def encodeProperty (p : Property) : List UInt8 :=
  utf8 p.name ++ unitSeparator ::
    (utf8 p.declaredType.nonNullable.display ++ unitSeparator ::
      (if p.nullable then 1 else 0) :: unitSeparator ::
        ((match p.nested with
          | some s => utf8 s.id.text
          | none => []) ++ [recordSeparator]))

def encode (properties : List Property) : List UInt8 := properties.flatMap encodeProperty

def ofProperties (sourceType : String) (properties : List Property) : Structure :=
  ⟨sourceType, properties, .ofBytes (encode properties)⟩

/-- Nothing of the literal could be typed. -/
def isDegenerate (s : Structure) : Bool := s.properties.isEmpty

def property? (s : Structure) (name : String) : Option Property :=
  s.properties.find? (·.name == name)

mutual

/-- All structures below this one with the property they belong to, each before those below it. -/
def nested : Structure → List (Property × Structure)
  | ⟨_, properties, _⟩ => nestedOf properties

def nestedOf : List Property → List (Property × Structure)
  | [] => []
  | ⟨name, type, nullable, some s, source⟩ :: ps =>
      (⟨name, type, nullable, some s, source⟩, s) :: (nested s ++ nestedOf ps)
  | ⟨_, _, _, none, _⟩ :: ps => nestedOf ps

end

end Structure

end Projection
