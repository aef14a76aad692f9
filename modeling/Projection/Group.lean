import Projection.Site
import Projection.TypeName

/-!
Groups of sites with the types they declare. A namespace spans files, so a structure is declared
by the first group of the namespace that reaches it, and groups after it only refer to it.
-/

namespace Projection

inductive GenerateError where
  /-- Two different structures are to have one name. -/
  | nameConflict (name group : String)
  /-- A structure is mentioned that the group has no name for. -/
  | unknownStructure (id : StructuralId)
  | emitFailed (emitter message : String)
  /-- The emitter broke off with words of its own. -/
  | aborted (message : String)
  deriving DecidableEq, Repr

def GenerateError.message : GenerateError → String
  | nameConflict name group =>
      "type name '" ++ name ++ "' is claimed by two different shapes in group '" ++ group ++ "'"
  | unknownStructure id => "no generated type registered for structural id " ++ id.text
  | emitFailed emitter message => "emitter '" ++ emitter ++ "' failed: " ++ message
  | aborted message => message

inductive Origin where
  | generated
  | explicit (target : Target)
  deriving DecidableEq, Repr

structure Declaration where
  name : TypeName
  origin : Origin
  built : Structure

/-- A method that gives a projection as an expression tree. -/
structure Factory where
  location : Location
  method : String
  kind : ShapeKind
  sourceType : TypeExpr
  resultType : TypeExpr
  captures : Captures
  lambda : Expr

def Factory.ofSite (s : CompiledSite) : Factory :=
  ⟨s.location, s.location.factoryName, s.kind, s.sourceType, s.resultType, s.captures, s.projection⟩

structure Group where
  key : GroupKey
  declarations : List Declaration
  projections : List Factory
  namespaces : List String
  names : List (StructuralId × String)

namespace Group

def reference? (g : Group) (id : StructuralId) : Option String := g.names.lookup id

def nameOf (g : Group) (id : StructuralId) : String := (g.reference? id).getD id.placeholder

end Group

/-- What earlier groups have declared in one namespace. -/
structure Arena where
  generated : List (StructuralId × TypeName)
  explicit : List (String × StructuralId)

def Arena.empty : Arena := ⟨[], []⟩

structure Registry where
  arenas : List (String × Arena)

namespace Registry

def empty : Registry := ⟨[]⟩

def arena (r : Registry) (space : String) : Arena := (r.arenas.lookup space).getD .empty

def put (r : Registry) (space : String) (a : Arena) : Registry :=
  ⟨(space, a) :: r.arenas.filter (·.1 != space)⟩

/-- Gives a namespace its arena when the first group asks for it. -/
def enter (r : Registry) (space : String) : Registry :=
  match r.arenas.lookup space with
  | some _ => r
  | none => r.put space .empty

end Registry

/-- What one group adds to its namespace; nothing counts until the whole group is assembled. -/
structure Staging where
  generated : List Declaration
  explicit : List Declaration
  names : List (StructuralId × String)
  explicitNames : List (StructuralId × String)

namespace Staging

def empty : Staging := ⟨[], [], [], []⟩

/-- Names a structure, and declares it unless that was done before. -/
def add (settings : Settings) (space : String) (shared : Arena) (st : Staging) (hint : String)
    (s : Structure) : Staging :=
  match st.names.lookup s.id with
  | some _ => st
  | none =>
      match shared.generated.lookup s.id with
      | some name => { st with names := st.names ++ [(s.id, name.reference)] }
      | none =>
          let name := TypeName.generated settings hint s.id space
          { st with
            names := st.names ++ [(s.id, name.reference)]
            generated := st.generated ++ [⟨name, .generated, s⟩] }

/-- Adds all that is nested in a structure, each named after the property that holds it. -/
def addNested (settings : Settings) (space : String) (shared : Arena) (st : Staging)
    (s : Structure) : Staging :=
  s.nested.foldl (fun st (p, n) => st.add settings space shared p.name n) st

/-- The structure that has taken an explicit name, in this group or before it. -/
def claimed? (shared : Arena) (st : Staging) (reference : String) : Option StructuralId :=
  ((st.explicit.find? (·.name.reference == reference)).map (·.built.id)).or
    (shared.explicit.lookup reference)

def addExplicit (shared : Arena) (key : GroupKey) (st : Staging) (target : Target) (s : Structure) :
    Except GenerateError Staging :=
  let reference := target.reference
  let named := { st with explicitNames := st.explicitNames ++ [(s.id, reference)] }
  match claimed? shared st reference with
  | some id => if id = s.id then .ok named else .error (.nameConflict reference key.display)
  | none =>
      .ok { named with
        explicit := st.explicit ++ [⟨⟨target.name, none, reference⟩, .explicit target, s⟩] }

def addStructure (settings : Settings) (shared : Arena) (key : GroupKey) (st : Staging)
    (s : SiteStructure) : Except GenerateError Staging :=
  match s.naming with
  | .hinted =>
      .ok ((st.add settings key.namespace shared s.built.sourceType s.built).addNested settings
        key.namespace shared s.built)
  | .explicit target =>
      (st.addExplicit shared key target s.built).map
        (·.addNested settings key.namespace shared s.built)
  | .nestedOnly => .ok (st.addNested settings key.namespace shared s.built)

/-- What is kept whenever a structure is staged is kept by staging one after the other. -/
theorem foldlM_addStructure {settings : Settings} {shared : Arena} {key : GroupKey}
    {P : Staging → List SiteStructure → Prop}
    (step : ∀ {st st' ss t}, P st ss → st.addStructure settings shared key t = .ok st' →
      P st' (ss ++ [t]))
    {st st' : Staging} {ts : List SiteStructure} (h : P st [])
    (hst : ts.foldlM (addStructure settings shared key) st = .ok st') : P st' ts := by
  suffices hrun : ∀ ss, P st ss → P st' (ss ++ ts) from hrun [] h
  clear h
  induction ts generalizing st with
  | nil =>
      intro ss h
      cases hst
      rwa [List.append_nil]
  | cons t ts ih =>
      intro ss h
      rw [List.foldlM_cons] at hst
      cases ht : st.addStructure settings shared key t with
      | error e =>
          rw [ht] at hst
          cases hst
      | ok next =>
          rw [ht] at hst
          rw [List.append_cons]
          exact ih hst (ss ++ [t]) (step h ht)

/-- All names of the group. A generated name of a structure goes before an explicit one. -/
def allNames (st : Staging) : List (StructuralId × String) := st.names ++ st.explicitNames

def commit (st : Staging) (shared : Arena) : Arena :=
  ⟨st.generated.map (fun d => (d.built.id, d.name)) ++ shared.generated,
    st.explicit.map (fun d => (d.name.reference, d.built.id)) ++ shared.explicit⟩

end Staging

namespace Registry

/-- Assembles a group, and gives the registry that the next group finds, whether this one fails or
not. -/
def assemble (settings : Settings) (r : Registry) (key : GroupKey) (sites : List CompiledSite) :
    Except GenerateError Group × Registry :=
  let r := r.enter key.namespace
  let shared := r.arena key.namespace
  match (sites.flatMap (·.structures)).foldlM (Staging.addStructure settings shared key) .empty with
  | .error e => (.error e, r)
  | .ok st =>
      (.ok ⟨key, st.explicit ++ st.generated, sites.map Factory.ofSite,
          Ordered.ofList (sites.flatMap (·.namespaces)), st.allNames⟩,
        r.put key.namespace (st.commit shared))

end Registry

end Projection
