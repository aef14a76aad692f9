import Projection.Data
import Projection.Settings

/-!
Settings as documents write them. Every choice is a word, and a document may leave any of them out.
-/

namespace Projection

open Data

def DeclarationKind.words : List (String × DeclarationKind) :=
  [("record", .record), ("class", .class)]

def AccessorStyle.words : List (String × AccessorStyle) :=
  [("get_set", .getSet), ("get_init", .getInit)]

def NestedNaming.words : List (String × NestedNaming) :=
  [("suffixed_class_name", .suffixedClassName), ("suffix_namespace", .suffixNamespace)]

def Indent.words : List (String × Indent) :=
  [("spaces2", .spaces2), ("spaces4", .spaces4), ("tabs", .tabs)]

def LineEnding.words : List (String × LineEnding) := [("lf", .lf), ("cr_lf", .crLf)]

/-- Settings that differ from the usual ones where the document says so. -/
def Settings.ofData? (d : Data) : Option Settings :=
  match record? ["default_namespace", "declaration_kind", "accessor_style", "required_members",
      "remove_sequence_nullability", "nested_naming", "indent", "line_ending"] d with
  | some [space, kind, accessors, requiredMembers, removeNullability, naming, indent, ending] => do
      let usual : Settings := {}
      some
        { defaultNamespace := ← given? text? usual.defaultNamespace space
          declarationKind := ← given? (word? DeclarationKind.words) usual.declarationKind kind
          accessorStyle := ← given? (word? AccessorStyle.words) usual.accessorStyle accessors
          requiredMembers := ← given? flag? usual.requiredMembers requiredMembers
          removeSequenceNullability :=
            ← given? flag? usual.removeSequenceNullability removeNullability
          nestedNaming := ← given? (word? NestedNaming.words) usual.nestedNaming naming
          indent := ← given? (word? Indent.words) usual.indent indent
          lineEnding := ← given? (word? LineEnding.words) usual.lineEnding ending }
  | _ => none

end Projection
