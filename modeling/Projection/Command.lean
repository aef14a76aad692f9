import Projection.Configuration
import Projection.Text.Affix
import Projection.Text.Split

/-!
Commands and how they are spelled.
-/

namespace Projection

inductive Command where
  | help
  | version
  /-- Compiles manifests and writes what comes out. -/
  | generate (manifest : String) (config filter : Option String)
      (overrides : Configuration.Overrides) (dryRun : Bool)
  /-- Writes a configuration file. -/
  | init (path : String) (force : Bool)
  /-- Checks that generated files are up to date. -/
  | validate (manifest dir : String) (config : Option String)
  deriving DecidableEq, Repr

namespace Command

/-- An option: its long name, its letter, and which values it takes. A flag takes none. -/
structure Spec where
  name : String
  letter : Option Char := none
  accepts? : Option (String → Bool) := none

inductive Argument where
  | endOfOptions
  | long (name : String) (value : Option String)
  /-- A letter and what is written against it. -/
  | short (letter : Char) (behind : List Char)
  | plain (text : String)
  deriving DecidableEq, Repr

def Argument.ofString (s : String) : Argument :=
  match s.toList with
  | ['-', '-'] => .endOfOptions
  | '-' :: '-' :: cs =>
      match Text.pieces '=' cs with
      | [] | [_] => .long (.ofList cs) none
      | name :: _ => .long (.ofList name) (some (.ofList (cs.drop (name.length + 1))))
  | '-' :: c :: cs => .short c cs
  | _ => .plain s

abbrev Given := List (String × String)

/-- Adds an option that was not given before. A value that it does not take is refused at once, so
that a call for help behind it comes too late. -/
def Given.add? (given : Given) (spec : Spec) (value : String) : Option Given :=
  if (given.lookup spec.name).isSome then none
  else if spec.accepts?.all (· value) then some ((spec.name, value) :: given)
  else none

/-- The value that is written against a letter, if there is one. -/
def attached? : List Char → Option String
  | [] => none
  | '=' :: cs => some (.ofList cs)
  | cs => some (.ofList cs)

def option? (specs : List Spec) : Argument → Option (Spec × Option String)
  | .long name value => (specs.find? (·.name == name)).map (·, value)
  | .short letter behind => (specs.find? (·.letter == some letter)).map (·, attached? behind)
  | .endOfOptions | .plain _ => none

/-- Reads the options behind the name of a command; `none` inside stands for a call for help.
`open?` is an option that waits for its value, which does not look like an option itself. -/
def options? (specs : List Spec) (given : Given) (open? : Option Spec) :
    List String → Option (Option Given)
  | [] => if open?.isSome then none else some (some given)
  | arg :: rest =>
      match open?, Argument.ofString arg with
      | some spec, .plain value => (given.add? spec value).bind (options? specs · none rest)
      | some _, _ => none
      | none, .endOfOptions => if rest.isEmpty then some (some given) else none
      | none, .long "help" none | none, .short 'h' _ => some none
      | none, a =>
          match option? specs a with
          | none => none
          | some (spec, value) =>
              match spec.accepts?.isSome, value with
              | true, some value => (given.add? spec value).bind (options? specs · none rest)
              | true, none => options? specs given (some spec) rest
              | false, some _ => none
              | false, none => (given.add? spec "").bind (options? specs · none rest)

/-- A path is never empty. -/
def isPath (value : String) : Bool := !value.isEmpty

def isText (_ : String) : Bool := true

/-- One of a fixed set of words, in which dashes stand for underscores. -/
def word? {α : Type} (words : List (String × α)) (value : String) : Option α :=
  (words.map fun (w, a) => (w.map fun c => if c = '_' then '-' else c, a)).lookup value

def isWord {α : Type} (words : List (String × α)) (value : String) : Bool :=
  (word? words value).isSome

def generateOptions : List Spec :=
  [⟨"manifest", 'm', isPath⟩, ⟨"output", 'o', isPath⟩, ⟨"dry-run", none, none⟩,
    ⟨"config", 'c', isPath⟩, ⟨"filter", none, isText⟩, ⟨"namespace", none, isText⟩,
    ⟨"declaration", none, isWord DeclarationKind.words⟩,
    ⟨"naming", none, isWord NestedNaming.words⟩]

def generate? (given : Given) : Option Command := do
  let manifest ← given.lookup "manifest"
  let overrides : Configuration.Overrides :=
    { dir := given.lookup "output"
      defaultNamespace := given.lookup "namespace"
      declarationKind := (given.lookup "declaration").bind (word? DeclarationKind.words)
      nestedNaming := (given.lookup "naming").bind (word? NestedNaming.words) }
  return .generate manifest (given.lookup "config") (given.lookup "filter") overrides
    (given.lookup "dry-run").isSome

def initOptions : List Spec := [⟨"output", 'o', isPath⟩, ⟨"force", none, none⟩]

def init? (given : Given) : Option Command :=
  some (.init ((given.lookup "output").getD Configuration.fileName) (given.lookup "force").isSome)

def validateOptions : List Spec :=
  [⟨"manifest", 'm', isPath⟩, ⟨"path", 'p', isPath⟩, ⟨"config", 'c', isPath⟩]

def validate? (given : Given) : Option Command := do
  return .validate (← given.lookup "manifest") (← given.lookup "path") (given.lookup "config")

def withOptions (specs : List Spec) (command? : Given → Option Command) (args : List String) :
    Option Command :=
  match options? specs [] none args with
  | none => none
  | some none => some .help
  | some (some given) => command? given

def ofArguments? : List String → Option Command
  | "generate" :: args => withOptions generateOptions generate? args
  | "init" :: args => withOptions initOptions init? args
  | "validate" :: args => withOptions validateOptions validate? args
  | ["help"] | ["help", "generate"] | ["help", "init"] | ["help", "validate"] | ["help", "help"] =>
      some .help
  | arg :: _ =>
      match Argument.ofString arg with
      | .long "help" none | .short 'h' _ => some .help
      | .long "version" none | .short 'V' _ => some .version
      | _ => none
  | [] => none

end Command

end Projection
