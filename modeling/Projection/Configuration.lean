import Projection.Settings.Decode

/-!
The configuration file: where the output goes, what is generated and how it is laid out.
Everything in it may be left out.
-/

namespace Projection

open Data

structure Configuration where
  /-- Where generated files go. -/
  dir : String := "./generated"
  /-- Whether diagnostics are written like other artifacts. -/
  writeDiagnostics : Bool := true
  settings : Settings := {}
  deriving DecidableEq, Repr

namespace Configuration

/-- One of a fixed set of words. The word may also be the name of an empty table. -/
def choice? {α : Type} (words : List (String × α)) : Data → Option α
  | .string s => words.lookup s
  | .object [(s, .object [])] => words.lookup s
  | _ => none

def output? (d : Data) : Option (String × Bool) :=
  match record? ["dir", "write_diagnostics"] d with
  | some [dir, write] => do
      let usual : Configuration := {}
      some (← given? text? usual.dir dir, ← given? flag? usual.writeDiagnostics write)
  | _ => none

def generation? (d : Data) : Option Settings :=
  match record? ["default_namespace", "declaration_kind", "accessor_style", "required_members",
      "remove_sequence_nullability", "nested_naming"] d with
  | some [space, kind, accessors, requiredMembers, removeNullability, naming] => do
      let usual : Settings := {}
      some
        { defaultNamespace := ← given? text? usual.defaultNamespace space
          declarationKind := ← given? (choice? DeclarationKind.words) usual.declarationKind kind
          accessorStyle := ← given? (choice? AccessorStyle.words) usual.accessorStyle accessors
          requiredMembers := ← given? flag? usual.requiredMembers requiredMembers
          removeSequenceNullability :=
            ← given? flag? usual.removeSequenceNullability removeNullability
          nestedNaming := ← given? (choice? NestedNaming.words) usual.nestedNaming naming }
  | _ => none

def format? (d : Data) : Option (Indent × LineEnding) :=
  match record? ["indent", "line_ending"] d with
  | some [indent, ending] => do
      let usual : Settings := {}
      some (← given? (choice? Indent.words) usual.indent indent,
        ← given? (choice? LineEnding.words) usual.lineEnding ending)
  | _ => none

def ofData? (d : Data) : Option Configuration :=
  match record? ["output", "generation", "format"] d with
  | some [output, generation, format] => do
      let empty : Data := .object []
      let (dir, writeDiagnostics) ← output? (output.getD empty)
      let settings ← generation? (generation.getD empty)
      let (indent, lineEnding) ← format? (format.getD empty)
      some ⟨dir, writeDiagnostics, { settings with indent, lineEnding }⟩
  | _ => none

/-- What a command says about the configuration itself. -/
structure Overrides where
  dir : Option String := none
  defaultNamespace : Option String := none
  declarationKind : Option DeclarationKind := none
  nestedNaming : Option NestedNaming := none
  deriving DecidableEq, Repr

/-- What the command says wins. -/
def override (c : Configuration) (o : Overrides) : Configuration :=
  { c with
    dir := o.dir.getD c.dir
    settings :=
      { c.settings with
        defaultNamespace := o.defaultNamespace.getD c.settings.defaultNamespace
        declarationKind := o.declarationKind.getD c.settings.declarationKind
        nestedNaming := o.nestedNaming.getD c.settings.nestedNaming } }

def fileName : String := "shapegen.toml"

/-- A configuration file that says how things are anyway. -/
def initialLines : List String :=
  ["# shapegen configuration file",
    "",
    "[output]",
    "# Directory generated sources are written to",
    "dir = \"./generated\"",
    "",
    "# Write a diagnostic file (with an #error directive) for groups that fail",
    "write_diagnostics = true",
    "",
    "[generation]",
    "# Namespace for call sites declared outside any namespace",
    "default_namespace = \"Generated\"",
    "",
    "# Declaration keyword for generated types: \"record\" or \"class\"",
    "declaration_kind = \"record\"",
    "",
    "# Property accessors: \"get_set\" or \"get_init\"",
    "accessor_style = \"get_set\"",
    "",
    "# Emit the `required` modifier on generated properties",
    "required_members = false",
    "",
    "# Make `x.Items?.Select(...)` produce a non-nullable sequence with an empty fallback",
    "remove_sequence_nullability = true",
    "",
    "# Naming of anonymous shapes: \"suffixed_class_name\" (ItemsDto_1A2B3C4D)",
    "# or \"suffix_namespace\" (Generated_1A2B3C4D.ItemsDto)",
    "nested_naming = \"suffixed_class_name\"",
    "",
    "[format]",
    "# Indentation: \"spaces2\", \"spaces4\" or \"tabs\"",
    "indent = \"spaces4\"",
    "",
    "# Line endings: \"lf\" or \"cr_lf\"",
    "line_ending = \"lf\""]

def initialText : String := String.join (initialLines.map (· ++ "\n"))

end Configuration

end Projection
