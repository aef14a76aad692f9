import Projection.Proofs.Text.Name
import Projection.Token.Scan

/-!
Scanning again. What a scanner took is taken again, whole and no further, in front of any text that
breaks names and numbers off.
-/

namespace Projection.Lexer

open Text

/-- Text in front of which names and numbers end. -/
def Breaks (cs : List Char) : Prop :=
  ∀ c rest, cs = c :: rest →
    isNamePart c = false ∧ c ≠ '+' ∧ c ≠ '-' ∧ (c = '.' → startsWithDigit rest = false)

theorem breaks_nil : Breaks [] := by
  intro c rest h
  cases h

theorem breaks_cons {c : Char} (h : isNamePart c = false ∧ c ≠ '+' ∧ c ≠ '-' ∧ c ≠ '.')
    (cs : List Char) : Breaks (c :: cs) := by
  rintro _ _ ⟨⟩
  exact ⟨h.1, h.2.1, h.2.2.1, fun hc => absurd hc h.2.2.2⟩

theorem isNamePart_of_isDigit {c : Char} (h : c.isDigit = true) : isNamePart c = true := by
  have hlt : c.toNat < 128 := by
    simp only [Char.isDigit, Bool.and_eq_true, decide_eq_true_eq, UInt32.le_iff_toNat_le] at h
    have : ('9' : Char).val.toNat = 57 := rfl
    have : c.toNat = c.val.toNat := rfl
    omega
  simp [isNamePart, isNumeral, hlt, h]

theorem isNamePart_of_isAlpha {c : Char} (h : c.isAlpha = true) : isNamePart c = true := by
  have hz : c.val ≤ 'z'.val := by
    rcases Bool.or_eq_true_iff.1 h with hu | hl
    · exact UInt32.le_trans (of_decide_eq_true hu).2 (by decide)
    · exact of_decide_eq_true (Bool.and_eq_true_iff.1 hl).2
  have hlt : c.toNat < 128 := Nat.lt_of_le_of_lt (UInt32.le_iff_toNat_le.1 hz) (by decide)
  simp [isNamePart, isLetter, hlt, h]

theorem isNamePart_of_isDigitPart {c : Char} (h : isDigitPart c = true) : isNamePart c = true := by
  rcases Bool.or_eq_true _ _ ▸ h with h | h
  · exact isNamePart_of_isDigit h
  · simp [isNamePart, h]

theorem isNamePart_of_isHexPart {c : Char} (h : isHexPart c = true) : isNamePart c = true := by
  simp only [isHexPart, Bool.or_eq_true, Bool.and_eq_true, decide_eq_true_eq] at h
  rcases h with ((h | h) | h) | h
  · exact isNamePart_of_isDigit h
  · refine isNamePart_of_isAlpha ?_
    have hz : c ≤ 'z' := Char.le_trans h.2 (by decide)
    have hlower : c.isLower = true :=
      Bool.and_eq_true_iff.2 ⟨decide_eq_true h.1, decide_eq_true hz⟩
    exact Bool.or_eq_true_iff.2 (.inr hlower)
  · refine isNamePart_of_isAlpha ?_
    have hz : c ≤ 'Z' := Char.le_trans h.2 (by decide)
    have hupper : c.isUpper = true := decide_eq_true ⟨h.1, hz⟩
    exact Bool.or_eq_true_iff.2 (.inl hupper)
  · simp [isNamePart, h]

theorem takeWhile_again {p : Char → Bool} {ys : List Char} (hy : ∀ c ∈ ys.head?, p c = false)
    (xs : List Char) : (xs.takeWhile p ++ ys).takeWhile p = xs.takeWhile p ∧
      (xs.takeWhile p ++ ys).dropWhile p = ys := by
  have hpos : ∀ c ∈ xs.takeWhile p, p c = true := by
    intro c hc
    exact List.all_eq_true.1 List.all_takeWhile c hc
  rw [List.takeWhile_append_of_pos hpos, List.dropWhile_append_of_pos hpos]
  cases ys with
  | nil => simp
  | cons c ys => simp [hy c rfl]

theorem Breaks.head {p : Char → Bool} (hp : ∀ {c}, p c = true → isNamePart c = true)
    {cs : List Char} (h : Breaks cs) : ∀ c ∈ cs.head?, p c = false := by
  intro c hc
  obtain ⟨rest, rfl⟩ := List.head?_eq_some_iff.1 hc
  have h' := (h c rest rfl).1
  refine Bool.eq_false_iff.2 fun hpc => ?_
  rw [hp hpc] at h'
  cases h'

theorem name_again {cs : List Char} (h : Breaks cs) {name : List Char}
    (hname : ∀ c ∈ name, isNamePart c = true) :
    Lexer.name (name ++ cs) = ⟨.ident (String.ofList name), name, cs⟩ := by
  have hall : name.takeWhile isNamePart = name := by
    simpa using @List.takeWhile_append_of_pos _ isNamePart name [] hname
  obtain ⟨htake, hdrop⟩ := takeWhile_again (h.head id) name
  rw [hall] at htake hdrop
  rw [Lexer.name, htake, hdrop]

theorem quoted_cons {quote c : Char} (h : ¬(c = '\n' ∨ c = '\\')) (rest : List Char) :
    quoted quote (c :: rest) =
      if c = quote then some ([], rest) else (quoted quote rest).map fun r => (c :: r.1, r.2) := by
  rw [quoted, if_neg h]
  rintro _ _ rfl
  exact absurd (Or.inr rfl) h

theorem quoted_again {quote : Char} {xs : List Char} {r : List Char × List Char}
    (h : quoted quote xs = some r) (ys : List Char) :
    quoted quote (r.1 ++ quote :: ys) = some (r.1, ys) := by
  fun_induction quoted quote xs generalizing r with
  | case1 c rest ih =>
      obtain ⟨s, hs, rfl⟩ := Option.map_eq_some_iff.1 h
      simp [quoted, ih hs]
  | case2 => cases h
  | case3 rest _ hplain =>
      cases h
      rw [List.nil_append, quoted_cons hplain, if_pos rfl]
  | case4 c rest _ hplain hend ih =>
      obtain ⟨s, hs, rfl⟩ := Option.map_eq_some_iff.1 h
      rw [List.cons_append, quoted_cons hplain, if_neg hend, ih hs]
      rfl
  | case5 => cases h

def isSuffixChar (c : Char) : Bool :=
  ['u', 'U', 'l', 'L', 'f', 'F', 'd', 'D', 'm', 'M'].contains c

theorem toLower_cases {c d : Char} (h : c.toLower = d) : c = d ∨ c.toNat + 32 = d.toNat := by
  unfold Char.toLower at h
  split at h
  · rename_i hc
    right
    rw [← h]
    have hsum : (c.val + ('a'.val - 'A'.val)).toNat = c.val.toNat + 32 := by
      have : ('Z' : Char).val.toNat = 90 := rfl
      have := UInt32.le_iff_toNat_le.1 hc.2
      rw [UInt32.toNat_add]
      have : ('a'.val - 'A'.val).toNat = 32 := rfl
      omega
    exact hsum.symm
  · exact .inl h

theorem isSuffixChar_of_toLower {c : Char}
    (h : c.toLower = 'u' ∨ c.toLower = 'l' ∨ c.toLower = 'f' ∨ c.toLower = 'd' ∨
      c.toLower = 'm') : isSuffixChar c = true := by
  have hcases : ∀ {d : Char} (u : Char), c.toLower = d → u.toNat + 32 = d.toNat →
      c = d ∨ c = u := by
    intro d u hd hu
    rcases toLower_cases hd with h | h
    · exact .inl h
    · exact .inr (Char.toNat_inj.1 (by omega))
  rcases h with h | h | h | h | h
  · rcases hcases 'U' h rfl with rfl | rfl <;> rfl
  · rcases hcases 'L' h rfl with rfl | rfl <;> rfl
  · rcases hcases 'F' h rfl with rfl | rfl <;> rfl
  · rcases hcases 'D' h rfl with rfl | rfl <;> rfl
  · rcases hcases 'M' h rfl with rfl | rfl <;> rfl

/-- Text that carries no number on, behind the digits of one. -/
structure Halts (cs : List Char) : Prop where
  digit : ∀ c ∈ cs.head?, isDigitPart c = false
  fraction : fraction cs = ([], cs)
  exponent : exponent cs = ([], cs)
  radix : ∀ c ∈ cs.head?, ¬(c = 'x' ∨ c = 'X' ∨ c = 'b' ∨ c = 'B')

theorem startsWithDigit_takeWhile {cs : List Char} (h : startsWithDigit cs = true)
    (ys : List Char) : startsWithDigit (cs.takeWhile isDigitPart ++ ys) = true := by
  cases cs with
  | nil => cases h
  | cons c cs =>
      have hc : c.isDigit = true := h
      simp [isDigitPart, hc, startsWithDigit]

theorem fraction_again {ys : List Char} (hdigit : ∀ c ∈ ys.head?, isDigitPart c = false)
    (hpoint : fraction ys = ([], ys)) (xs : List Char) :
    fraction ((fraction xs).1 ++ ys) = ((fraction xs).1, ys) := by
  fun_cases fraction xs with
  | case1 rest hd =>
      obtain ⟨htake, hdrop⟩ := takeWhile_again hdigit rest
      rw [List.cons_append, fraction, if_pos (startsWithDigit_takeWhile hd ys), htake, hdrop]
  | case2 | case3 => exact hpoint

theorem sign_again {ys : List Char} (h : startsWithDigit ys = true) (xs : List Char) :
    sign ((sign xs).1 ++ ys) = ((sign xs).1, ys) := by
  have hnone : sign ys = ([], ys) := by
    cases ys with
    | nil => rfl
    | cons c ys =>
        rw [sign, if_neg]
        rintro (rfl | rfl) <;> cases h
  fun_cases sign xs with
  | case1 c rest hc => rw [List.cons_append, List.nil_append, sign, if_pos hc]
  | case2 | case3 => exact hnone

theorem exponent_again {ys : List Char} (h : Halts ys) (xs : List Char) :
    exponent ((exponent xs).1 ++ ys) = ((exponent xs).1, ys) := by
  fun_cases exponent xs with
  | case1 c rest hc =>
      obtain ⟨hmark, hd⟩ := hc
      obtain ⟨htake, hdrop⟩ := takeWhile_again h.digit (sign rest).2
      have hs := startsWithDigit_takeWhile hd ys
      rw [List.cons_append, List.append_assoc, exponent, sign_again hs, if_pos ⟨hmark, hs⟩, htake,
        hdrop]
  | case2 | case3 => exact h.exponent

theorem fraction_of_ne_point {c : Char} (h : c ≠ '.') (cs : List Char) :
    fraction (c :: cs) = ([], c :: cs) := by
  rw [fraction]
  rintro _ ⟨⟩
  exact h rfl

theorem decimal_again {ys : List Char} (h : Halts ys) (xs : List Char) :
    decimal ((decimal xs).text ++ ys) = ⟨(decimal xs).text, (decimal xs).isReal, ys⟩ := by
  let part := fraction (xs.dropWhile isDigitPart)
  let power := exponent part.2
  have hpower : exponent (power.1 ++ ys) = (power.1, ys) := exponent_again h part.2
  have hletter : (∀ c ∈ (power.1 ++ ys).head?, isDigitPart c = false) ∧
      fraction (power.1 ++ ys) = ([], power.1 ++ ys) := by
    change (∀ c ∈ ((exponent part.2).1 ++ ys).head?, isDigitPart c = false) ∧
      fraction ((exponent part.2).1 ++ ys) = ([], (exponent part.2).1 ++ ys)
    fun_cases exponent part.2 with
    | case1 c rest hc =>
        constructor
        · rintro _ ⟨⟩
          rcases hc.1 with rfl | rfl <;> rfl
        · refine fraction_of_ne_point ?_ _
          rcases hc.1 with rfl | rfl <;> decide
    | case2 | case3 => exact ⟨h.digit, h.fraction⟩
  have hpart : fraction (part.1 ++ (power.1 ++ ys)) = (part.1, power.1 ++ ys) :=
    fraction_again hletter.1 hletter.2 _
  have hpoint : ∀ c ∈ (part.1 ++ (power.1 ++ ys)).head?, isDigitPart c = false := by
    change ∀ c ∈ ((fraction (xs.dropWhile isDigitPart)).1 ++ (power.1 ++ ys)).head?, _
    fun_cases fraction (xs.dropWhile isDigitPart) with
    | case1 rest hd =>
        rintro _ ⟨⟩
        rfl
    | case2 | case3 => exact hletter.1
  obtain ⟨htake, hdrop⟩ := takeWhile_again hpoint xs
  have htext : (decimal xs).text ++ ys =
      xs.takeWhile isDigitPart ++ (part.1 ++ (power.1 ++ ys)) := by
    simp [decimal, part, power]
  rw [htext, decimal, htake, hdrop, hpart, hpower]
  rfl

theorem numeral_eq_decimal {cs : List Char}
    (h : ∀ c rest, cs = '0' :: c :: rest → ¬(c = 'x' ∨ c = 'X' ∨ c = 'b' ∨ c = 'B')) :
    numeral cs = decimal cs := by
  unfold numeral
  split
  · rename_i c rest
    rw [if_neg (h c rest rfl)]
  · rfl

theorem numeral_decimal_again {xs ys : List Char} (h : Halts ys)
    (hx : ∀ c rest, xs = '0' :: c :: rest → ¬(c = 'x' ∨ c = 'X' ∨ c = 'b' ∨ c = 'B')) :
    numeral ((decimal xs).text ++ ys) = ⟨(decimal xs).text, (decimal xs).isReal, ys⟩ := by
  rw [← decimal_again h xs]
  apply numeral_eq_decimal
  intro c rest hcs
  have hsplit := decimal_split xs
  match htext : (decimal xs).text with
  | [] =>
      rw [htext, List.nil_append] at hcs
      exact absurd (h.digit '0' (by rw [hcs]; rfl)) (by decide)
  | [a] =>
      rw [htext, List.singleton_append, List.cons.injEq] at hcs
      exact h.radix c (by rw [hcs.2]; rfl)
  | a :: b :: more =>
      rw [htext] at hcs hsplit
      cases hcs
      exact hx c _ hsplit.symm

theorem numeral_again {xs ys : List Char} (h : Halts ys)
    (hrest : ∀ c ∈ ys.head?, isNamePart c = false ∨ c ∈ (numeral xs).rest.head?) :
    numeral ((numeral xs).text ++ ys) = ⟨(numeral xs).text, (numeral xs).isReal, ys⟩ := by
  revert hrest
  fun_cases numeral xs with
  | case1 c rest hc =>
      intro hrest
      have hhex : ∀ d ∈ ys.head?, isHexPart d = false := by
        intro d hd
        refine Bool.eq_false_iff.2 fun hpart => ?_
        rcases hrest d hd with hname | hdrop
        · rw [isNamePart_of_isHexPart hpart] at hname
          cases hname
        · have hnot := List.head?_dropWhile_not isHexPart rest
          rw [Option.mem_def.1 hdrop] at hnot
          exact absurd hpart (Bool.eq_false_iff.1 hnot)
      obtain ⟨htake, hdrop⟩ := takeWhile_again hhex rest
      simp only [List.cons_append]
      rw [numeral, if_pos hc, htake, hdrop]
  | case2 c rest hc =>
      intro _
      refine numeral_decimal_again h ?_
      rintro _ _ ⟨⟩
      exact hc
  | case3 _ hno =>
      intro _
      exact numeral_decimal_again h fun c rest hx => absurd hx (hno c rest)

theorem isNamePart_of_isSuffixChar {c : Char} (h : isSuffixChar c = true) :
    isNamePart c = true := by
  have hall : ['u', 'U', 'l', 'L', 'f', 'F', 'd', 'D', 'm', 'M'].all isNamePart = true := by decide
  exact List.all_eq_true.1 hall c (List.contains_iff_mem.1 h)

theorem suffix_again {ys : List Char} (h : Breaks ys) (isReal : Bool) (xs : List Char) :
    suffix isReal ((suffix isReal xs).text ++ ys) =
      ⟨(suffix isReal xs).text, (suffix isReal xs).isReal, ys⟩ := by
  have hnone : suffix isReal ys = ⟨[], isReal, ys⟩ := by
    cases ys with
    | nil => rfl
    | cons c ys =>
        have hc := h.head isNamePart_of_isSuffixChar c rfl
        rw [suffix, if_neg, if_neg]
        · intro hlast
          rw [isSuffixChar_of_toLower (.inr (.inr hlast))] at hc
          cases hc
        · rintro ⟨hmore | hmore, _⟩
          · rw [isSuffixChar_of_toLower (.inl hmore)] at hc
            cases hc
          · rw [isSuffixChar_of_toLower (.inr (.inl hmore))] at hc
            cases hc
  fun_induction suffix isReal xs with
  | case1 c rest hc more ih =>
      rw [List.cons_append, suffix, if_pos hc, ih]
  | case2 c rest hi hr => rw [List.cons_append, List.nil_append, suffix, if_neg hi, if_pos hr]
  | case3 | case4 => exact hnone

theorem suffix_head {isReal : Bool} {xs : List Char} :
    ∀ c ∈ (suffix isReal xs).text.head?, isSuffixChar c = true ∧ c ∈ xs.head? := by
  fun_cases suffix isReal xs with
  | case1 c rest hc =>
      rintro _ ⟨⟩
      refine ⟨isSuffixChar_of_toLower ?_, rfl⟩
      exact hc.1.elim .inl fun h => .inr (.inl h)
  | case2 c rest _ hc =>
      rintro _ ⟨⟩
      exact ⟨isSuffixChar_of_toLower (.inr (.inr hc)), rfl⟩
  | case3 | case4 =>
      intro c hc
      cases hc

theorem Breaks.halts {ys : List Char} (h : Breaks ys) : Halts ys where
  digit := h.head isNamePart_of_isDigitPart
  fraction := by
    fun_cases fraction ys with
    | case1 rest hd => rw [(h '.' rest rfl).2.2.2 rfl] at hd; cases hd
    | case2 | case3 => rfl
  exponent := by
    fun_cases exponent ys with
    | case1 c rest hc =>
        have hname := (h c rest rfl).1
        rcases hc.1 with rfl | rfl <;> cases hname
    | case2 | case3 => rfl
  radix := by
    intro c hc hradix
    have hname := h.head id c hc
    rcases hradix with rfl | rfl | rfl | rfl <;> cases hname

theorem halts_of_isSuffixChar {c : Char} (h : isSuffixChar c = true) (cs : List Char) :
    Halts (c :: cs) := by
  have hall : ['u', 'U', 'l', 'L', 'f', 'F', 'd', 'D', 'm', 'M'].all (fun c =>
      isDigitPart c = false ∧ c ≠ '.' ∧ ¬(c = 'e' ∨ c = 'E') ∧
        ¬(c = 'x' ∨ c = 'X' ∨ c = 'b' ∨ c = 'B')) = true := by decide
  obtain ⟨hdigit, hpoint, hpower, hradix⟩ :=
    of_decide_eq_true (List.all_eq_true.1 hall c (List.contains_iff_mem.1 h))
  refine ⟨?_, fraction_of_ne_point hpoint cs, ?_, ?_⟩
  · rintro _ ⟨⟩
    exact hdigit
  · rw [exponent, if_neg fun hc => hpower hc.1]
  · rintro _ ⟨⟩
    exact hradix

theorem number_again {ys : List Char} (h : Breaks ys) (xs : List Char) :
    number ((number xs).text ++ ys) = ⟨(number xs).token, (number xs).text, ys⟩ := by
  let digits := numeral xs
  let tail := suffix digits.isReal digits.rest
  have htail : suffix digits.isReal (tail.text ++ ys) = ⟨tail.text, tail.isReal, ys⟩ :=
    suffix_again h digits.isReal digits.rest
  have hdigits : numeral (digits.text ++ (tail.text ++ ys)) =
      ⟨digits.text, digits.isReal, tail.text ++ ys⟩ := by
    cases htext : tail.text with
    | nil => exact numeral_again h.halts fun c hc => .inl (h.head id c hc)
    | cons c more =>
        obtain ⟨hsuffix, hhead⟩ := suffix_head c (by rw [htext]; rfl)
        refine numeral_again (halts_of_isSuffixChar hsuffix _) ?_
        rintro _ ⟨⟩
        exact .inr hhead
  have htext : (number xs).text ++ ys = digits.text ++ (tail.text ++ ys) := by
    simp [number, digits, tail]
  rw [htext, number, hdigits]
  dsimp only
  rw [htail]
  rfl

end Projection.Lexer
