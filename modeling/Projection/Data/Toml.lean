import Projection.Data
import Projection.Text.Hex
import Projection.Text.Split
import Projection.Text.Taken

/-!
Reading TOML documents that hold tables, dotted keys, strings in double quotes, whole numbers and
flags. Each line is read by itself; a name that is used twice, or in two ways, spoils the
document.
-/

namespace Projection.Data.Toml

open Text (Taken hex? length_lt_cons length_lt_cons_of_lt length_lt_cons_of_lt_of_lt)

def isSpace (c : Char) : Bool := c = ' ' || c = '\t'

def skip (cs : List Char) : List Char := cs.dropWhile isSpace

theorem length_skip_le (cs : List Char) : (skip cs).length ≤ cs.length :=
  (List.dropWhile_suffix isSpace).length_le

/-- A character that may stand in a comment or a string. -/
def isPlain (c : Char) : Bool := c = '\t' || (0x20 ≤ c.toNat && c.toNat ≠ 0x7f)

def isKeyChar (c : Char) : Bool := c.isAlphanum || c = '_' || c = '-'

/-- The character with this code, unless no character has it. -/
def scalar? (code : Nat) : Option Char :=
  if code.isValidChar then some (Char.ofNat code) else none

/-- An escape by code, `width` digits wide. -/
def coded (width : Nat) (cs : List Char) : Option (Taken Char (cs.length + 1)) :=
  if width ≤ cs.length then
    ((hex? (cs.take width)).bind scalar?).map fun c =>
      ⟨c, cs.drop width, by rw [List.length_drop]; omega⟩
  else none

/-- The character that an escape stands for; the backslash is already read. -/
def escape (cs : List Char) : Option (Taken Char cs.length) :=
  match cs with
  | '"' :: rest => some ⟨'"', rest, length_lt_cons rest⟩
  | '\\' :: rest => some ⟨'\\', rest, length_lt_cons rest⟩
  | 'b' :: rest => some ⟨'\x08', rest, length_lt_cons rest⟩
  | 'e' :: rest => some ⟨'\x1b', rest, length_lt_cons rest⟩
  | 'f' :: rest => some ⟨'\x0c', rest, length_lt_cons rest⟩
  | 'n' :: rest => some ⟨'\n', rest, length_lt_cons rest⟩
  | 'r' :: rest => some ⟨'\r', rest, length_lt_cons rest⟩
  | 't' :: rest => some ⟨'\t', rest, length_lt_cons rest⟩
  | 'x' :: rest => coded 2 rest
  | 'u' :: rest => coded 4 rest
  | 'U' :: rest => coded 8 rest
  | _ => none

def text (cs : List Char) : Option (Taken (List Char) cs.length) :=
  match cs with
  | [] => none
  | '"' :: rest => some ⟨[], rest, length_lt_cons rest⟩
  | '\\' :: rest =>
      match escape rest with
      | none => none
      | some ⟨c, more, h⟩ =>
          match text more with
          | none => none
          | some ⟨s, behind, h'⟩ => some ⟨c :: s, behind, length_lt_cons_of_lt_of_lt h h'⟩
  | c :: rest =>
      if isPlain c then
        match text rest with
        | none => none
        | some ⟨s, behind, h⟩ => some ⟨c :: s, behind, length_lt_cons_of_lt h⟩
      else none
termination_by cs.length
decreasing_by all_goals simp; try omega

def name (cs : List Char) : Option (Taken String cs.length) :=
  match cs with
  | [] => none
  | '"' :: rest => (text rest).map fun t => ⟨.ofList t.value, t.rest, Nat.lt_succ_of_lt t.bound⟩
  | c :: rest =>
      if isKeyChar c then
        some ⟨.ofList (c :: rest.takeWhile isKeyChar), rest.dropWhile isKeyChar,
          Nat.lt_succ_of_le (List.dropWhile_suffix isKeyChar).length_le⟩
      else none

def key (cs : List Char) : Option (Taken (List String) cs.length) :=
  match name (skip cs) with
  | none => none
  | some ⟨first, rest, h⟩ =>
      have hs := length_skip_le cs
      have hr := length_skip_le rest
      match hm : skip rest with
      | '.' :: more =>
          have : more.length < cs.length := by
            rw [hm] at hr
            simp only [List.length_cons] at hr
            omega
          match key more with
          | none => none
          | some ⟨others, behind, h'⟩ => some ⟨first :: others, behind, by omega⟩
      | more => some ⟨[first], more, by rw [← hm]; omega⟩
termination_by cs.length

/-- Digits of base `base` with single underscores between them. -/
def digits? (base : Nat) (cs : List Char) : Option Nat :=
  (Text.pieces '_' cs).foldlM
    (fun n piece => if piece.isEmpty then none else piece.foldlM digit n) 0
where
  digit (n : Nat) (c : Char) : Option Nat :=
    (Text.hexDigit? c).bind fun d => if d < base then some (n * base + d) else none

/-- A decimal number without leading zeros. -/
def decimal? : List Char → Option Nat
  | ['0'] => some 0
  | '0' :: _ => none
  | cs => digits? 10 cs

def integer? : List Char → Option Int
  | '0' :: 'x' :: cs => (digits? 16 cs).map Int.ofNat
  | '0' :: 'o' :: cs => (digits? 8 cs).map Int.ofNat
  | '0' :: 'b' :: cs => (digits? 2 cs).map Int.ofNat
  | '+' :: cs => (decimal? cs).map Int.ofNat
  | '-' :: cs => (decimal? cs).map fun n => -Int.ofNat n
  | cs => (decimal? cs).map Int.ofNat

/-- A flag, or a whole number that fits into sixteen bytes. -/
def word? (cs : List Char) : Option Data :=
  if cs = "true".toList then some (.bool true)
  else if cs = "false".toList then some (.bool false)
  else
    (integer? cs).bind fun i =>
      if -Int.pow 2 127 ≤ i ∧ i < Int.pow 2 128 then some (.int i) else none

def isWordChar (c : Char) : Bool := isKeyChar c || c = '+'

def value (cs : List Char) : Option (Data × List Char) :=
  match cs with
  | '"' :: rest => (text rest).map fun t => (.string (.ofList t.value), t.rest)
  | _ => (word? (cs.takeWhile isWordChar)).map fun d => (d, cs.dropWhile isWordChar)

/-- Whether nothing but blanks and a comment is left. -/
def isDone (cs : List Char) : Bool :=
  match skip cs with
  | [] => true
  | '#' :: comment => comment.all isPlain
  | _ => false

/-- How many names a key may have in front of its last one. -/
def maxDepth : Nat := 80

/-- A key that does not lead too deep. -/
def boundedKey (cs : List Char) : Option (Taken (List String) cs.length) :=
  (key cs).filter fun k => k.value.length ≤ maxDepth + 1

inductive Line where
  | blank
  /-- The head of a table. -/
  | table (path : List String)
  | entry (path : List String) (value : Data)
  deriving Repr

def line (cs : List Char) : Option Line :=
  if isDone cs then some .blank
  else
    match skip cs with
    | '[' :: rest =>
        match boundedKey rest with
        | some ⟨path, ']' :: behind, _⟩ => if isDone behind then some (.table path) else none
        | _ => none
    | rest =>
        match boundedKey rest with
        | some ⟨path, '=' :: behind, _⟩ =>
            (value (skip behind)).bind fun (d, behind) =>
              if isDone behind then some (.entry path d) else none
        | _ => none

/-- The lines of a text. A carriage return belongs to the end of a line only in front of a line
feed. -/
def lines (cs : List Char) : List (List Char) :=
  match Text.pieces '\n' cs with
  | [] => []
  | first :: rest => go first rest
where
  go (current : List Char) : List (List Char) → List (List Char)
    | [] => [current]
    | next :: rest =>
        (if current.getLast? = some '\r' then current.dropLast else current) :: go next rest

/-- What a path of names is used for. -/
inductive Use where
  | value
  /-- A table with a head of its own. -/
  | head
  /-- A table on the way to a head. -/
  | onTheWay
  /-- A table that dotted keys made. -/
  | dotted
  deriving DecidableEq, Repr

/-- Whether a table in use may be passed by a path that makes tables of the other kind. -/
def Use.letsPass : Use → Use → Bool
  | .value, _ => false
  | .head, made => made != .dotted
  | .onTheWay, _ | .dotted, _ => true

/-- Gives every name of the path but the last a use. -/
def pass (made : Use) (uses : List (List String × Use)) (base : List String) :
    List String → Option (List (List String × Use))
  | [] | [_] => some uses
  | k :: rest =>
      match uses.lookup (base ++ [k]) with
      | none => pass made ((base ++ [k], made) :: uses) (base ++ [k]) rest
      | some use => if use.letsPass made then pass made uses (base ++ [k]) rest else none

/-- Changes the value of a field, which is an empty table when it is not there. -/
def alterField (k : String) (f : Data → Data) : List (String × Data) → List (String × Data)
  | [] => [(k, f (.object []))]
  | (k', d) :: rest => if k' = k then (k', f d) :: rest else (k', d) :: alterField k f rest

/-- Changes what the path leads to. -/
def alter (f : Data → Data) : List String → Data → Data
  | [], d => f d
  | k :: rest, .object fields => .object (alterField k (alter f rest) fields)
  | _ :: _, d => d

structure Document where
  /-- The table that entries go to. -/
  base : List String
  uses : List (List String × Use)
  root : Data

def Document.empty : Document := ⟨[], [], .object []⟩

namespace Document

/-- A head opens a table that no head and no dotted key has made. -/
def openTable (doc : Document) (path : List String) : Option Document :=
  (pass .onTheWay doc.uses [] path).bind fun uses =>
    match uses.lookup path with
    | none | some .onTheWay => some ⟨path, (path, .head) :: uses, alter id path doc.root⟩
    | _ => none

/-- An entry goes to the table of the last head, or to one that dotted keys made in it. -/
def add (doc : Document) (path : List String) (value : Data) : Option Document :=
  (pass .dotted doc.uses doc.base path).bind fun uses =>
    let full := doc.base ++ path
    if uses.lookup full = none ∧
        (path.length ≤ 1 ∨ uses.lookup full.dropLast = some .dotted) then
      some ⟨doc.base, (full, .value) :: uses, alter (fun _ => value) full doc.root⟩
    else none

def addLine (doc : Document) (cs : List Char) : Option Document :=
  (line cs).bind fun
    | .blank => some doc
    | .table path => doc.openTable path
    | .entry path value => doc.add path value

end Document

def parse (s : String) : Option Data :=
  let cs := match s.toList with
    | '\ufeff' :: cs => cs
    | cs => cs
  ((lines cs).foldlM Document.addLine .empty).map (·.root)

end Projection.Data.Toml
