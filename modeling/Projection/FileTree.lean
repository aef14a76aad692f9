import Projection.Files
import Projection.Text.Join

/-!
A directory and everything in it, as a value. Paths start at the directory, and what lies outside
of it is not there.
-/

namespace Projection

/-- A file, or a directory with what it holds under each name. -/
inductive FileTree where
  | file (content : String)
  | directory (entries : List (String × FileTree))
  deriving Repr

namespace FileTree

def empty : FileTree := .directory []

def kind : FileTree → FileKind
  | file _ => .file
  | directory _ => .directory

def insert (new : FileTree) : List String → FileTree → FileTree
  | [], _ => new
  | _ :: _, file content => file content
  | name :: rest, directory entries =>
      directory (entries.filter (·.1 != name) ++
        [(name, insert new rest ((entries.lookup name).getD empty))])

def erase : List String → FileTree → FileTree
  | [], t => t
  | _ :: _, file content => file content
  | [name], directory entries => directory (entries.filter (·.1 != name))
  | name :: rest, directory entries =>
      directory (entries.map fun e => if e.1 = name then (e.1, erase rest e.2) else e)

mutual

/-- Everything inside a directory at any depth, by its names from the directory on. -/
def contents : FileTree → List (List String × FileTree)
  | file _ => []
  | directory entries => contentsOf entries

def contentsOf : List (String × FileTree) → List (List String × FileTree)
  | [] => []
  | (name, t) :: entries =>
      ([name], t) :: (contents t).map (fun e => (name :: e.1, e.2)) ++ contentsOf entries

end

/-- A place in a tree: the names that lead to it, and what is there. -/
structure Spot where
  names : List String
  content? : Option FileTree
  deriving Repr

/-- Follows names. `trail` holds the names passed so far, the last one first, each with the
directory that it was looked up in. Only the last name may lead to something that is not there. -/
def follow (trail : List (String × FileTree)) (here : Option FileTree) :
    List String → Except FileError Spot
  | [] => .ok ⟨(trail.map (·.1)).reverse, here⟩
  | name :: rest =>
      match here with
      | none => .error .missing
      | some (file _) => .error .notDirectory
      | some (directory entries) =>
          if name = "" ∨ name = "." then follow trail here rest
          else if name = ".." then
            match trail with
            | [] => .error .missing
            | (_, above) :: trail => follow trail (some above) rest
          else if maxNameSize < name.utf8ByteSize then .error .nameTooLong
          else follow ((name, directory entries) :: trail) (entries.lookup name) rest

/-- The names that a path spells, and whether it ends with a slash. -/
def names (path : String) : List String × Bool :=
  let parts := Text.splitAt '/' path
  let kept := (parts.reverse.dropWhile (·.isEmpty)).reverse
  (kept, kept.length < parts.length)

/-- Where some of the names of a path lead. -/
def walk (t : FileTree) (path : String) (names : List String) : Except FileError Spot :=
  match FileError.ofPath? path with
  | some e => .error e
  | none => if Text.startsWith "/" path then .error .missing else follow [] (some t) names

def locate (t : FileTree) (path : String) : Except FileError Spot := t.walk path (names path).1

def find (t : FileTree) (path : String) : Except FileError FileTree :=
  match t.locate path with
  | .error e => .error e
  | .ok spot =>
      match spot.content? with
      | none => .error .missing
      | some (directory entries) => .ok (directory entries)
      | some (file content) => if (names path).2 then .error .notDirectory else .ok (file content)

def kind? (t : FileTree) (path : String) : Option FileKind := (t.find path).toOption.map (·.kind)

def read (t : FileTree) (path : String) : Except FileError String :=
  match t.find path with
  | .error e => .error e
  | .ok (directory _) => .error .isDirectory
  | .ok (file content) => .ok content

/-- Where a file can be written. A path that ends with a slash is for a directory, whatever is
there, if only the way to its last name can be followed. -/
def writable (t : FileTree) (path : String) : Except FileError Spot :=
  if (names path).2 then
    match t.walk path ((names path).1.dropLast ++ ["."]) with
    | .error e => .error e
    | .ok _ => .error .isDirectory
  else t.locate path

def write (t : FileTree) (path content : String) : Except FileError FileTree :=
  match t.writable path with
  | .error e => .error e
  | .ok spot =>
      match spot.content? with
      | some (directory _) => .error .isDirectory
      | _ => .ok (insert (file content) spot.names t)

def makeDirectory (t : FileTree) (path : String) : Except FileError FileTree :=
  match t.locate path with
  | .error e => .error e
  | .ok spot =>
      match spot.content? with
      | some _ => .error .alreadyExists
      | none => .ok (insert empty spot.names t)

/-- A directory that is there already is as good as one that was made. -/
def ensureDirectory (t : FileTree) (path : String) : FileTree × Except FileError Unit :=
  match t.makeDirectory path with
  | .ok t => (t, .ok ())
  | .error e => (t, if t.kind? path = some .directory then .ok () else .error e)

/-- Makes a directory, and first those that lead to it if the way is missing. `above` holds their
names from the last to the first. -/
def makeAlong (t : FileTree) (path : String) : List String → FileTree × Except FileError Unit
  | [] => t.ensureDirectory path
  | name :: above =>
      match t.ensureDirectory path with
      | (t, .error e) =>
          if e = .missing then
            match t.makeAlong (Text.join "/" (name :: above).reverse) above with
            | (t, .ok _) => t.ensureDirectory path
            | (t, .error e) => (t, .error e)
          else (t, .error e)
      | done => done

def makeDirectories (t : FileTree) (path : String) : FileTree × Except FileError Unit :=
  if path.isEmpty then (t, .ok ()) else t.makeAlong path (pathSteps path).reverse.tail

def filesBelow (t : FileTree) (path : String) : List (List String) :=
  match t.find path with
  | .error _ => []
  | .ok dir =>
      dir.contents.filterMap fun
        | (names, file _) => some names
        | (_, directory _) => none

def put (t : FileTree) (path content : String) : FileTree :=
  let (t, _) := t.makeDirectories (Text.join "/" (pathSteps path).dropLast)
  (t.write path content).toOption.getD t

def remove (t : FileTree) (path : String) : FileTree :=
  match t.locate path with
  | .error _ => t
  | .ok spot => erase spot.names t

instance : Files (StateM FileTree) where
  kind? path := do return (← get).kind? path
  read path := do return (← get).read path
  write path content := do
    match (← get).write path content with
    | .ok t => set t; return .ok ()
    | .error e => return .error e
  makeDirectories path := modifyGet fun t => let (t, r) := t.makeDirectories path; (r, t)
  filesBelow path := do return (← get).filesBelow path

end FileTree

end Projection
