import Projection.TypeRef

/-!
Types of the base library that no model describes: which names are known, and what their members and
methods give. A table row covers a set of type names and a set of member names; the first row that
covers both decides.
-/

namespace Projection.Framework

def valueTypes : List String :=
  ["DateTime", "DateTimeOffset", "DateOnly", "TimeOnly", "TimeSpan", "Guid", "Half", "Int128",
    "UInt128", "BigInteger", "KeyValuePair", "DayOfWeek"]

/-- Types that are used only through their static members. -/
def staticTypes : List String :=
  ["Math", "Convert", "Enumerable", "Queryable", "Array", "Environment", "Uri"]

def isValueType (name : String) : Bool := valueTypes.contains (Text.lastPiece '.' name)

/-- Whether `name` is a library type that can stand before a static member. -/
def isKnown (name : String) : Bool :=
  TypeExpr.isKeyword name || (Primitive.ofName? name).isSome || isValueType name ||
    staticTypes.contains (Text.lastPiece '.' name)

def type? (name : String) : Option TypeRef :=
  match Primitive.ofName? name with
  | some p => some (.primitive p)
  | none =>
      if isKnown name then some (.named (Text.lastPiece '.' name) (isValueType name)) else none

def dateTime : TypeRef := .named "DateTime" true

def dateTimeOffset : TypeRef := .named "DateTimeOffset" true

def timeSpan : TypeRef := .named "TimeSpan" true

def guid : TypeRef := .named "Guid" true

def double : TypeRef := .primitive .double

def long : TypeRef := .primitive .long

def decimal : TypeRef := .primitive .decimal

/-- What members of a group of types give, from data of type `α` about their use. -/
structure Row (α : Type) where
  owners : List String
  members : List String
  result : α → Option TypeRef

/-- A row whose members always have one type. -/
def Row.fixed {α : Type} (owners members : List String) (type : TypeRef) : Row α :=
  ⟨owners, members, fun _ => some type⟩

def Row.lookup {α : Type} (rows : List (Row α)) (owner member : String) (use : α) :
    Option TypeRef :=
  (rows.find? fun row => row.owners.contains owner && row.members.contains member).bind
    (·.result use)

/-! Members of a type as such. -/

def staticMembers : List (Row Unit) :=
  [.fixed ["DateTime"] ["Now", "UtcNow", "Today", "MinValue", "MaxValue"] dateTime,
    .fixed ["DateTimeOffset"] ["Now", "UtcNow", "MinValue", "MaxValue"] dateTimeOffset,
    .fixed ["TimeSpan"] ["Zero", "MaxValue", "MinValue"] timeSpan,
    .fixed ["Guid"] ["Empty"] guid,
    .fixed ["Math"] ["PI", "E", "Tau"] double,
    .fixed ["Environment"] ["NewLine", "MachineName"] .string]

def primitiveMember? (p : Primitive) (member : String) : Option TypeRef :=
  if p = .string ∧ member = "Empty" then some .string
  else if p.rank?.isSome ∧ (member = "MaxValue" ∨ member = "MinValue") then some (.primitive p)
  else if (p = .double ∨ p = .float) ∧ ["NaN", "Epsilon", "PositiveInfinity"].contains member then
    some (.primitive p)
  else none

def staticMember? (type : TypeRef) (member : String) : Option TypeRef :=
  match type.kind with
  | .primitive p => primitiveMember? p member
  | .named name _ _ => Row.lookup staticMembers (Text.lastPiece '.' name) member ()
  | _ => none

/-! Methods of a type as such. -/

/-- Type arguments and the types of the arguments, as far as known. -/
structure Call where
  typeArgs : List TypeRef
  argTypes : List (Option TypeRef)

def Call.firstArg? (c : Call) : Option TypeRef := c.argTypes.head?.join

def staticCalls : List (Row Call) :=
  [⟨["Math"], ["Abs", "Max", "Min", "Clamp", "Truncate"], Call.firstArg?⟩,
    ⟨["Math"], ["Round", "Floor", "Ceiling"],
      fun c => (c.firstArg?.filter (·.isPrimitive .decimal)).or (some double)⟩,
    .fixed ["Math"] ["Sign"] .int,
    .fixed ["Math"] ["Pow", "Sqrt", "Log", "Log10", "Exp", "Sin", "Cos", "Tan"] double,
    .fixed ["Convert"] ["ToInt32"] .int,
    .fixed ["Convert"] ["ToInt64"] long,
    .fixed ["Convert"] ["ToDecimal"] decimal,
    .fixed ["Convert"] ["ToDouble"] double,
    .fixed ["Convert"] ["ToBoolean"] .bool,
    .fixed ["Convert"] ["ToString", "ToBase64String"] .string,
    ⟨["Enumerable"], ["Empty"], fun c => c.typeArgs.head?.map (.sequence "IEnumerable")⟩,
    .fixed ["Enumerable"] ["Range"] (.sequence "IEnumerable" .int),
    ⟨["Array"], ["Empty"], fun c => c.typeArgs.head?.map .array⟩,
    .fixed ["Guid"] ["NewGuid", "Parse"] guid,
    .fixed ["DateTime"] ["Parse", "SpecifyKind"] dateTime,
    .fixed ["TimeSpan"] ["FromDays", "FromHours", "FromMinutes", "FromSeconds"] timeSpan]

def stringStatics : List (List String × TypeRef) :=
  [(["Join", "Concat", "Format"], .string),
    (["IsNullOrEmpty", "IsNullOrWhiteSpace", "Equals"], .bool),
    (["Compare", "CompareOrdinal"], .int)]

def primitiveStatics (p : Primitive) : List (List String × TypeRef) :=
  [(["Parse"], .primitive p), (["IsNaN", "IsInfinity"], .bool)]

/-- The type that the first covering entry gives. -/
def pick? (entries : List (List String × TypeRef)) (name : String) : Option TypeRef :=
  (entries.find? (·.1.contains name)).map (·.2)

def staticCall? (type : TypeRef) (method : String) (call : Call) : Option TypeRef :=
  match type.kind with
  | .primitive .string => pick? stringStatics method
  | .primitive p => pick? (primitiveStatics p) method
  | .named name _ _ => Row.lookup staticCalls (Text.lastPiece '.' name) method call
  | _ => none

/-! Members of a value. -/

def countedTypes : List String :=
  ["List", "IList", "ICollection", "IReadOnlyCollection", "IReadOnlyList", "HashSet", "ISet",
    "SortedSet", "Dictionary", "IDictionary", "IReadOnlyDictionary", "Queue", "Stack",
    "Collection", "ReadOnlyCollection"]

def dictionaries : List String := ["Dictionary", "IDictionary", "IReadOnlyDictionary"]

/-- Rows over the generic arguments of the receiver. -/
def instanceMembers : List (Row (List TypeRef)) :=
  [.fixed countedTypes ["Count"] .int,
    ⟨dictionaries, ["Keys"], fun args => args[0]?.map (.sequence "ICollection")⟩,
    ⟨dictionaries, ["Values"], fun args => args[1]?.map (.sequence "ICollection")⟩,
    ⟨["KeyValuePair"], ["Key"], fun args => args[0]?⟩,
    ⟨["KeyValuePair"], ["Value"], fun args => args[1]?⟩,
    .fixed ["DateTime", "DateTimeOffset", "DateOnly"] ["Year", "Month", "Day", "DayOfYear"] .int,
    .fixed ["DateTime", "DateTimeOffset", "TimeOnly"]
      ["Hour", "Minute", "Second", "Millisecond"] .int,
    .fixed ["DateTime", "DateTimeOffset"] ["Date"] dateTime,
    .fixed ["DateTime", "DateTimeOffset"] ["TimeOfDay"] timeSpan,
    .fixed ["DateTime", "DateTimeOffset", "DateOnly"] ["DayOfWeek"] (.named "DayOfWeek" true),
    .fixed ["DateTimeOffset"] ["UtcDateTime", "DateTime", "LocalDateTime"] dateTime,
    .fixed ["TimeSpan"] ["Days", "Hours", "Minutes", "Seconds", "Milliseconds"] .int,
    .fixed ["TimeSpan"]
      ["TotalDays", "TotalHours", "TotalMinutes", "TotalSeconds", "TotalMilliseconds"] double,
    .fixed ["TimeSpan", "DateTime"] ["Ticks"] long]

/-- Members of a nullable value itself, as opposed to those of the value in it. -/
def nullableMember? (receiver : TypeRef) (member : String) : Option TypeRef :=
  if member = "HasValue" then some .bool
  else if member = "Value" then some receiver.nonNullable
  else none

def instanceMember? (receiver : TypeRef) (member : String) : Option TypeRef :=
  if receiver.isNullableValue then nullableMember? receiver member
  else
    match receiver.kind with
    | .primitive .string => if member = "Length" then some .int else none
    | .array _ =>
        if member = "Length" then some .int
        else if member = "LongLength" then some long
        else none
    | .named name args _ => Row.lookup instanceMembers (Text.lastPiece '.' name) member args
    | _ => none

/-! Methods of a value. -/

def commonCalls : List (List String × TypeRef) :=
  [(["ToString"], .string), (["Equals", "HasFlag"], .bool), (["GetHashCode", "CompareTo"], .int)]

def stringCalls : List (List String × TypeRef) :=
  [(["ToUpper", "ToLower", "ToUpperInvariant", "ToLowerInvariant", "Trim", "TrimStart", "TrimEnd",
      "Substring", "Replace", "PadLeft", "PadRight", "Insert", "Remove", "Normalize"], .string),
    (["StartsWith", "EndsWith", "Contains"], .bool),
    (["IndexOf", "LastIndexOf"], .int),
    (["Split"], .array .string),
    (["ToCharArray"], .array (.primitive .char))]

def instanceCalls : List (Row (List TypeRef)) :=
  [.fixed ["DateTime"] ["ToUniversalTime", "ToLocalTime"] dateTime,
    .fixed ["DateTime", "DateTimeOffset"] ["Subtract"] timeSpan,
    .fixed dictionaries ["ContainsKey", "ContainsValue"] .bool,
    ⟨dictionaries, ["GetValueOrDefault"], fun args => args[1]?.map TypeRef.asNullable⟩]

def instanceCall? (receiver : TypeRef) (method : String) : Option TypeRef :=
  match pick? commonCalls method with
  | some type => some type
  | none =>
      if method = "GetValueOrDefault" ∧ receiver.isNullableValue then some receiver.nonNullable
      else
        match receiver.kind with
        | .primitive .string => pick? stringCalls method
        | .named name args _ =>
            let owner := Text.lastPiece '.' name
            if ["DateTime", "DateTimeOffset"].contains owner ∧ Text.startsWith "Add" method then
              some receiver
            else Row.lookup instanceCalls owner method args
        | _ => none

def indexed? (receiver : TypeRef) : Option TypeRef :=
  if receiver.isPrimitive .string then some (.primitive .char)
  else
    match receiver.element? with
    | some element => some element
    | none =>
        match receiver.kind with
        | .named name args _ =>
            if dictionaries.contains (Text.lastPiece '.' name) then args[1]? else none
        | _ => none

end Projection.Framework
