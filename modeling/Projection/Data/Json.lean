import Projection.Data
import Projection.Text.Hex
import Projection.Text.Taken

/-!
Reading JSON documents. Every rule hands back what it did not use, with the proof that it used
something. Half of a character that needs two escapes spoils only the text or the object that it
stands in, so that it does no harm where nobody reads it.
-/

namespace Projection.Data.Json

open Text (Taken hex? length_cons_lt_cons)

def isSpace (c : Char) : Bool := c = ' ' || c = '\t' || c = '\n' || c = '\r'

def skip (cs : List Char) : List Char := cs.dropWhile isSpace

theorem length_skip_le (cs : List Char) : (skip cs).length ≤ cs.length :=
  (List.dropWhile_suffix isSpace).length_le

def isHighSurrogate (n : Nat) : Bool := 0xD800 ≤ n && n < 0xDC00

def isLowSurrogate (n : Nat) : Bool := 0xDC00 ≤ n && n < 0xE000

/-- The second half of a character that needs two escapes. -/
def lowHalf? : List Char → Option Nat
  | '\\' :: 'u' :: a :: b :: c :: d :: _ =>
      match hex? [a, b, c, d] with
      | some n => if isLowSurrogate n then some n else none
      | none => none
  | _ => none

/-- The character that an escape stands for, unless it is half of one; the backslash is already
read. -/
def escape (cs : List Char) : Option (Taken (Option Char) cs.length) :=
  match cs with
  | '"' :: rest => some ⟨some '"', rest, by simp⟩
  | '\\' :: rest => some ⟨some '\\', rest, by simp⟩
  | '/' :: rest => some ⟨some '/', rest, by simp⟩
  | 'b' :: rest => some ⟨some '\x08', rest, by simp⟩
  | 'f' :: rest => some ⟨some '\x0c', rest, by simp⟩
  | 'n' :: rest => some ⟨some '\n', rest, by simp⟩
  | 'r' :: rest => some ⟨some '\r', rest, by simp⟩
  | 't' :: rest => some ⟨some '\t', rest, by simp⟩
  | 'u' :: a :: b :: c :: d :: rest =>
      match hex? [a, b, c, d] with
      | none => none
      | some n =>
          if isLowSurrogate n then some ⟨none, rest, by simp; omega⟩
          else if isHighSurrogate n then
            match lowHalf? rest with
            | none => some ⟨none, rest, by simp; omega⟩
            | some m =>
                some ⟨some (Char.ofNat (0x10000 + (n - 0xD800) * 0x400 + (m - 0xDC00))),
                  rest.drop 6, by simp; omega⟩
          else some ⟨some (Char.ofNat n), rest, by simp; omega⟩
  | _ => none

def before (c : Option Char) (s : Option (List Char)) : Option (List Char) :=
  c.bind fun c => s.map (c :: ·)

def text (cs : List Char) : Option (Taken (Option (List Char)) cs.length) :=
  match cs with
  | [] => none
  | '"' :: rest => some ⟨some [], rest, by simp⟩
  | '\\' :: rest =>
      match escape rest with
      | none => none
      | some ⟨c, more, h⟩ =>
          match text more with
          | none => none
          | some ⟨s, behind, h'⟩ => some ⟨before c s, behind, by simp; omega⟩
  | c :: rest =>
      if c.toNat < 0x20 then none
      else
        match text rest with
        | none => none
        | some ⟨s, behind, h⟩ => some ⟨before (some c) s, behind, by simp; omega⟩
termination_by cs.length
decreasing_by all_goals simp; try omega

/-- Digits at the front; a number needs at least one at each place. -/
def digits (cs : List Char) : List Char × List Char :=
  (cs.takeWhile Char.isDigit, cs.dropWhile Char.isDigit)

theorem length_digits_le (cs : List Char) : (digits cs).2.length ≤ cs.length :=
  (List.dropWhile_suffix Char.isDigit).length_le

def fraction (cs : List Char) : Option (List Char × List Char) :=
  match cs with
  | '.' :: rest =>
      if (digits rest).1.isEmpty then none else some ('.' :: (digits rest).1, (digits rest).2)
  | _ => some ([], cs)

theorem length_fraction_le {cs f rest : List Char} (h : fraction cs = some (f, rest)) :
    rest.length ≤ cs.length := by
  unfold fraction at h
  split at h
  · split at h
    · cases h
    · cases h
      have := length_digits_le (by assumption)
      simp; omega
  · cases h
    exact Nat.le_refl _

def signed (cs : List Char) : List Char × List Char :=
  match cs with
  | '+' :: rest => (['+'], rest)
  | '-' :: rest => (['-'], rest)
  | _ => ([], cs)

theorem length_signed_le (cs : List Char) : (signed cs).2.length ≤ cs.length := by
  unfold signed
  split <;> simp

def exponent (cs : List Char) : Option (List Char × List Char) :=
  match cs with
  | c :: rest =>
      if c = 'e' ∨ c = 'E' then
        let (sign, more) := signed rest
        if (digits more).1.isEmpty then none
        else some (c :: sign ++ (digits more).1, (digits more).2)
      else some ([], cs)
  | [] => some ([], [])

theorem length_exponent_le {cs e rest : List Char} (h : exponent cs = some (e, rest)) :
    rest.length ≤ cs.length := by
  unfold exponent at h
  split at h
  · rename_i c tail
    split at h
    · have hs := length_signed_le tail
      have hd := length_digits_le (signed tail).2
      simp only at h
      split at h
      · cases h
      · cases h
        simp; omega
    · cases h
      exact Nat.le_refl _
  · cases h
    exact Nat.le_refl _

theorem length_digits_lt_cons (rest : List Char) : (digits rest).2.length < rest.length + 1 :=
  Nat.lt_succ_of_le (length_digits_le rest)

def whole (cs : List Char) : Option (Taken (List Char) cs.length) :=
  match cs with
  | ['0'] => some ⟨['0'], [], Nat.zero_lt_one⟩
  | '0' :: c :: rest =>
      if c.isDigit then none else some ⟨['0'], c :: rest, length_cons_lt_cons c rest⟩
  | c :: rest =>
      if c.isDigit then some ⟨c :: (digits rest).1, (digits rest).2, length_digits_lt_cons rest⟩
      else none
  | [] => none

def natOf (digits : List Char) : Nat :=
  digits.foldl (fun n c => n * 10 + (c.toNat - '0'.toNat)) 0

/-- What a spelled number is. Negative zero is no integer. -/
def numberOf (negative : Bool) (whole tail : List Char) : Data :=
  if tail.isEmpty ∧ ¬ (negative ∧ natOf whole = 0) then
    .int (if negative then - (natOf whole : Int) else natOf whole)
  else .real (String.ofList ((if negative then ['-'] else []) ++ whole ++ tail))

def number (negative : Bool) (cs : List Char) : Option (Taken Data cs.length) :=
  match whole cs with
  | none => none
  | some ⟨w, rest, h⟩ =>
      match hf : fraction rest with
      | none => none
      | some (f, more) =>
          match he : exponent more with
          | none => none
          | some (e, behind) =>
              some ⟨numberOf negative w (f ++ e), behind, by
                have := length_fraction_le hf
                have := length_exponent_le he
                omega⟩

def word (spelling : List Char) (d : Data) (cs : List Char) : Option (Taken Data cs.length) :=
  if h : spelling.isPrefixOf cs ∧ spelling ≠ [] then
    some ⟨d, cs.drop spelling.length, by
      obtain ⟨hp, hn⟩ := h
      have hl := (List.isPrefixOf_iff_prefix.1 hp).length_le
      have := List.length_pos_iff.2 hn
      simp; omega⟩
  else none

def stringOf : Option (List Char) → Data
  | some s => .string (String.ofList s)
  | none => .unreadable

def objectOf : Option (List (String × Data)) → Data
  | some fields => .object fields
  | none => .unreadable

/-- A field in front of others; a key that is spoiled spoils them all. -/
def member (key : Option (List Char)) (d : Data) (fields : Option (List (String × Data))) :
    Option (List (String × Data)) :=
  key.bind fun key => fields.map ((String.ofList key, d) :: ·)

mutual

def value (cs : List Char) : Option (Taken Data cs.length) :=
  match _hc : cs with
  | '"' :: rest =>
      match text rest with
      | none => none
      | some ⟨s, behind, h⟩ => some ⟨stringOf s, behind, by simp; omega⟩
  | '-' :: rest => (number true rest).map (·.widen (by simp))
  | '[' :: rest =>
      match _hs : skip rest with
      | ']' :: behind =>
          some ⟨.array [], behind, by
            have := length_skip_le rest
            simp_all; omega⟩
      | more =>
          match items more with
          | none => none
          | some ⟨ds, behind, h⟩ =>
              some ⟨.array ds, behind, by
                have := length_skip_le rest
                simp_all; omega⟩
  | '{' :: rest =>
      match _hs : skip rest with
      | '}' :: behind =>
          some ⟨.object [], behind, by
            have := length_skip_le rest
            simp_all; omega⟩
      | more =>
          match members more with
          | none => none
          | some ⟨ds, behind, h⟩ =>
              some ⟨objectOf ds, behind, by
                have := length_skip_le rest
                simp_all; omega⟩
  | 't' :: _ => word "true".toList (.bool true) cs |>.map (·.widen (by simp [_hc]))
  | 'f' :: _ => word "false".toList (.bool false) cs |>.map (·.widen (by simp [_hc]))
  | 'n' :: _ => word "null".toList .null cs |>.map (·.widen (by simp [_hc]))
  | _ => number false cs |>.map (·.widen (by simp [_hc]))
termination_by cs.length * 4
decreasing_by
  all_goals
    have := length_skip_le rest
    simp_all
    omega

def items (cs : List Char) : Option (Taken (List Data) cs.length) :=
  match value cs with
  | none => none
  | some ⟨d, rest, h⟩ =>
      match _hs : skip rest with
      | ']' :: behind =>
          some ⟨[d], behind, by
            have := length_skip_le rest
            simp_all; omega⟩
      | ',' :: more =>
          match items (skip more) with
          | none => none
          | some ⟨ds, behind, h'⟩ =>
              some ⟨d :: ds, behind, by
                have := length_skip_le rest
                have := length_skip_le more
                simp_all; omega⟩
      | _ => none
termination_by cs.length * 4 + 1
decreasing_by
  · omega
  · have := length_skip_le rest
    have := length_skip_le more
    simp_all
    omega

/-- The rest of an object from its next key on, unless a key is spoiled. -/
def members (cs : List Char) : Option (Taken (Option (List (String × Data))) cs.length) :=
  match cs with
  | '"' :: afterQuote =>
      match text afterQuote with
      | none => none
      | some ⟨key, afterKey, hk⟩ =>
          match _hc : skip afterKey with
          | ':' :: afterColon =>
              match value (skip afterColon) with
              | none => none
              | some ⟨d, rest, h⟩ =>
                  match _hs : skip rest with
                  | '}' :: behind =>
                      some ⟨member key d (some []), behind, by
                        have := length_skip_le afterKey
                        have := length_skip_le afterColon
                        have := length_skip_le rest
                        simp_all; omega⟩
                  | ',' :: more =>
                      match members (skip more) with
                      | none => none
                      | some ⟨ds, behind, h'⟩ =>
                          some ⟨member key d ds, behind, by
                            have := length_skip_le afterKey
                            have := length_skip_le afterColon
                            have := length_skip_le rest
                            have := length_skip_le more
                            simp_all; omega⟩
                  | _ => none
          | _ => none
  | _ => none
termination_by cs.length * 4 + 2
decreasing_by
  · have := length_skip_le afterKey
    have := length_skip_le afterColon
    simp_all
    omega
  · have := length_skip_le afterKey
    have := length_skip_le afterColon
    have := length_skip_le rest
    have := length_skip_le more
    simp_all
    omega

end

def parse (source : String) : Option Data :=
  match value (skip source.toList) with
  | none => none
  | some t => if (skip t.rest).isEmpty then some t.value else none

end Projection.Data.Json
