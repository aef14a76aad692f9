import Projection.Text.Affix

/-!
The types that have a keyword of their own.
-/

namespace Projection

inductive Primitive where
  | bool | char | string | object
  | sbyte | byte | short | ushort | int | uint | long | ulong | float | double | decimal
  deriving DecidableEq, Repr

namespace Primitive

/-- Keyword, framework name and type. -/
def table : List (String × String × Primitive) :=
  [("bool", "Boolean", bool), ("char", "Char", char), ("string", "String", string),
    ("object", "Object", object), ("sbyte", "SByte", sbyte), ("byte", "Byte", byte),
    ("short", "Int16", short), ("ushort", "UInt16", ushort), ("int", "Int32", int),
    ("uint", "UInt32", uint), ("long", "Int64", long), ("ulong", "UInt64", ulong),
    ("float", "Single", float), ("double", "Double", double), ("decimal", "Decimal", decimal)]

/-- Reads a keyword or a framework name, the latter also with its namespace. -/
def ofName? (name : String) : Option Primitive :=
  let bare := Text.dropFront "System." name
  (table.find? fun row => row.1 == bare || row.2.1 == bare).map (·.2.2)

def keyword : Primitive → String
  | bool => "bool"
  | char => "char"
  | string => "string"
  | object => "object"
  | sbyte => "sbyte"
  | byte => "byte"
  | short => "short"
  | ushort => "ushort"
  | int => "int"
  | uint => "uint"
  | long => "long"
  | ulong => "ulong"
  | float => "float"
  | double => "double"
  | decimal => "decimal"

theorem ofName?_keyword (p : Primitive) : ofName? p.keyword = some p := by
  cases p <;> decide

def isValueType : Primitive → Bool
  | string | object => false
  | _ => true

/-- Order in which arithmetic widens; only numbers have a rank. -/
def rank? : Primitive → Option Nat
  | sbyte | byte => some 1
  | short | ushort => some 2
  | int => some 3
  | uint => some 4
  | long => some 5
  | ulong => some 6
  | float => some 7
  | double => some 8
  | decimal => some 9
  | bool | char | string | object => none

end Primitive

end Projection
