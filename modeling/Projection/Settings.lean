/-!
Choices that shape what is generated.
-/

namespace Projection

inductive DeclarationKind where
  | record | «class»
  deriving DecidableEq, Repr

def DeclarationKind.spelling : DeclarationKind → String
  | record => "record"
  | «class» => "class"

inductive AccessorStyle where
  | getSet | getInit
  deriving DecidableEq, Repr

def AccessorStyle.spelling : AccessorStyle → String
  | getSet => "\x7b get; set; \x7d"
  | getInit => "\x7b get; init; \x7d"

/-- How generated types are kept apart: by a suffix of the name or by a namespace of their own. -/
inductive NestedNaming where
  | suffixedClassName | suffixNamespace
  deriving DecidableEq, Repr

inductive Indent where
  | spaces2 | spaces4 | tabs
  deriving DecidableEq, Repr

def Indent.unit : Indent → String
  | spaces2 => "  "
  | spaces4 => "    "
  | tabs => "\t"

inductive LineEnding where
  | lf | crLf
  deriving DecidableEq, Repr

def LineEnding.text : LineEnding → String
  | lf => "\n"
  | crLf => "\r\n"

structure Settings where
  /-- Namespace of call sites that have none. -/
  defaultNamespace : String := "Generated"
  declarationKind : DeclarationKind := .record
  accessorStyle : AccessorStyle := .getSet
  requiredMembers : Bool := false
  /-- Whether a sequence that is absent only through optional access is declared non-nullable. -/
  removeSequenceNullability : Bool := true
  nestedNaming : NestedNaming := .suffixedClassName
  indent : Indent := .spaces4
  lineEnding : LineEnding := .lf
  deriving DecidableEq, Repr

end Projection
