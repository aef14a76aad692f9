import Projection.Token
import Projection.SyntaxError

/-!
From characters to tokens. Every scanner returns the characters it took and those it left, and
`lexeme_split` says that the two make up what it was given. Gaps between tokens are blanks and
comments.
-/

namespace Projection.Lexer

open Text

/-- The rest of a block comment, its end mark included. An open comment runs to the end. -/
def blockComment : List Char → List Char × List Char
  | '*' :: '/' :: rest => (['*', '/'], rest)
  | c :: rest =>
      let after := blockComment rest
      (c :: after.1, after.2)
  | [] => ([], [])

theorem blockComment_split (cs : List Char) :
    (blockComment cs).1 ++ (blockComment cs).2 = cs := by
  fun_induction blockComment cs with
  | case1 => rfl
  | case2 c rest _ after ih => simpa [after] using ih
  | case3 => rfl

theorem length_blockComment_le (cs : List Char) : (blockComment cs).2.length ≤ cs.length := by
  have h := congrArg List.length (blockComment_split cs)
  simp only [List.length_append] at h
  omega

theorem length_dropWhile_le (p : Char → Bool) (cs : List Char) :
    (cs.dropWhile p).length ≤ cs.length :=
  (List.dropWhile_suffix p).length_le

def inLine (c : Char) : Bool := c != '\n'

/-- Blanks and comments before the next token. -/
def gap : List Char → List Char × List Char
  | '/' :: '/' :: rest =>
      let after := gap (rest.dropWhile inLine)
      ('/' :: '/' :: (rest.takeWhile inLine ++ after.1), after.2)
  | '/' :: '*' :: rest =>
      let after := gap (blockComment rest).2
      ('/' :: '*' :: ((blockComment rest).1 ++ after.1), after.2)
  | c :: rest =>
      if isBlank c then
        let after := gap rest
        (c :: after.1, after.2)
      else ([], c :: rest)
  | [] => ([], [])
termination_by cs => cs.length
decreasing_by
  · have := length_dropWhile_le inLine rest
    simp only [List.length_cons]
    omega
  · have := length_blockComment_le rest
    simp only [List.length_cons]
    omega
  all_goals simp

theorem gap_split (cs : List Char) : (gap cs).1 ++ (gap cs).2 = cs := by
  fun_induction gap cs with
  | case1 rest after ih => simp [after, ih]
  | case2 rest after ih => simp [after, ih, blockComment_split]
  | case3 c rest _ _ _ after ih => simpa [after] using ih
  | case4 => rfl
  | case5 => rfl

theorem length_gap_le (cs : List Char) : (gap cs).2.length ≤ cs.length := by
  have h := congrArg List.length (gap_split cs)
  simp only [List.length_append] at h
  omega

def isDigitPart (c : Char) : Bool := c.isDigit || c == '_'

def isHexPart (c : Char) : Bool :=
  c.isDigit || ('a' ≤ c && c ≤ 'f') || ('A' ≤ c && c ≤ 'F') || c == '_'

def startsWithDigit : List Char → Bool
  | c :: _ => c.isDigit
  | [] => false

/-- A point counts only when a digit follows it. -/
def fraction : List Char → List Char × List Char
  | '.' :: rest =>
      if startsWithDigit rest then
        ('.' :: rest.takeWhile isDigitPart, rest.dropWhile isDigitPart)
      else ([], '.' :: rest)
  | cs => ([], cs)

def sign : List Char → List Char × List Char
  | c :: rest => if c = '+' ∨ c = '-' then ([c], rest) else ([], c :: rest)
  | [] => ([], [])

/-- An exponent mark counts only when digits follow it, with or without a sign. -/
def exponent : List Char → List Char × List Char
  | c :: rest =>
      if (c = 'e' ∨ c = 'E') ∧ startsWithDigit (sign rest).2 then
        (c :: ((sign rest).1 ++ (sign rest).2.takeWhile isDigitPart),
          (sign rest).2.dropWhile isDigitPart)
      else ([], c :: rest)
  | [] => ([], [])

/-- What a scanned number is made of: its characters, whether it is real, and the rest. -/
structure Numeral where
  text : List Char
  isReal : Bool
  rest : List Char

def decimal (cs : List Char) : Numeral :=
  let whole := cs.takeWhile isDigitPart
  let part := fraction (cs.dropWhile isDigitPart)
  let power := exponent part.2
  ⟨whole ++ part.1 ++ power.1, !part.1.isEmpty || !power.1.isEmpty, power.2⟩

/-- The digits of a number, without its suffix. -/
def numeral : List Char → Numeral
  | '0' :: c :: rest =>
      if c = 'x' ∨ c = 'X' ∨ c = 'b' ∨ c = 'B' then
        ⟨'0' :: c :: rest.takeWhile isHexPart, false, rest.dropWhile isHexPart⟩
      else decimal ('0' :: c :: rest)
  | cs => decimal cs

/-- `u` and `l` may repeat behind an integer; one of `f`, `d` and `m` ends any number and makes it
real. -/
def suffix (isReal : Bool) : List Char → Numeral
  | c :: rest =>
      if (c.toLower = 'u' ∨ c.toLower = 'l') ∧ isReal = false then
        let more := suffix isReal rest
        ⟨c :: more.text, more.isReal, more.rest⟩
      else if c.toLower = 'f' ∨ c.toLower = 'd' ∨ c.toLower = 'm' then ⟨[c], true, rest⟩
      else ⟨[], isReal, c :: rest⟩
  | [] => ⟨[], isReal, []⟩

/-- What stands before the closing quote and what follows it. A backslash keeps the next character,
and a line break outside such a pair leaves the literal open. -/
def quoted (quote : Char) : List Char → Option (List Char × List Char)
  | '\\' :: c :: rest => (quoted quote rest).map fun r => ('\\' :: c :: r.1, r.2)
  | c :: rest =>
      if c = '\n' ∨ c = '\\' then none
      else if c = quote then some ([], rest)
      else (quoted quote rest).map fun r => (c :: r.1, r.2)
  | [] => none

theorem quoted_split {q : Char} {cs : List Char} {r : List Char × List Char}
    (h : quoted q cs = some r) : r.1 ++ q :: r.2 = cs := by
  fun_induction quoted q cs generalizing r with
  | case1 c rest ih =>
      obtain ⟨s, hs, rfl⟩ := Option.map_eq_some_iff.1 h
      simp [ih hs]
  | case2 => simp at h
  | case3 =>
      cases h
      rfl
  | case4 c rest _ _ _ ih =>
      obtain ⟨s, hs, rfl⟩ := Option.map_eq_some_iff.1 h
      simp [ih hs]
  | case5 => simp at h

theorem length_quoted_lt {q : Char} {cs : List Char} {r : List Char × List Char}
    (h : quoted q cs = some r) : r.2.length < cs.length := by
  have := congrArg List.length (quoted_split h)
  simp only [List.length_append, List.length_cons] at this
  omega

/-- What stands before the closing quote of an interpolated string, and what follows it. At depth 0
the text is literal; a single opening brace enters a hole, where quotes and braces nest. -/
def interpolated (depth : Nat) (cs : List Char) : Option (List Char × List Char) :=
  match depth, cs with
  | _, [] => none
  | 0, '\n' :: _ => none
  | 0, '"' :: rest => some ([], rest)
  | 0, '\\' :: c :: rest => (interpolated 0 rest).map fun r => ('\\' :: c :: r.1, r.2)
  | 0, ['\\'] => none
  | 0, '{' :: '{' :: rest => (interpolated 0 rest).map fun r => ('{' :: '{' :: r.1, r.2)
  | 0, '{' :: rest => (interpolated 1 rest).map fun r => ('{' :: r.1, r.2)
  | 0, c :: rest => (interpolated 0 rest).map fun r => (c :: r.1, r.2)
  | d + 1, c :: rest =>
      if c = '{' then (interpolated (d + 2) rest).map fun r => (c :: r.1, r.2)
      else if c = '}' then (interpolated d rest).map fun r => (c :: r.1, r.2)
      else if c = '"' ∨ c = '\'' then
        match _h : quoted c rest with
        | none => none
        | some inner =>
            (interpolated (d + 1) inner.2).map fun r => (c :: (inner.1 ++ c :: r.1), r.2)
      else (interpolated (d + 1) rest).map fun r => (c :: r.1, r.2)
termination_by cs.length
decreasing_by
  all_goals simp only [List.length_cons]
  all_goals first
    | omega
    | exact Nat.lt_succ_of_lt (length_quoted_lt _h)

theorem interpolated_split {depth : Nat} {cs : List Char} {r : List Char × List Char}
    (h : interpolated depth cs = some r) : r.1 ++ '"' :: r.2 = cs := by
  fun_induction interpolated depth cs generalizing r
  all_goals first
    | (simp at h; done)
    | (cases h; rfl)
    | (rename_i ih
       obtain ⟨s, hs, rfl⟩ := Option.map_eq_some_iff.1 h
       have := ih hs
       simp_all; done)
    | skip
  rename_i hq ih
  obtain ⟨s, hs, rfl⟩ := Option.map_eq_some_iff.1 h
  simp [ih hs, ← quoted_split hq]

/-- The longest mark at the front, except that closing angle brackets stay apart and `?.` is not
read before a digit. -/
def punct : List Char → Option (Punct × List Char)
  | '?' :: '.' :: rest =>
      if startsWithDigit rest then some (.question, '.' :: rest) else some (.questionDot, rest)
  | '?' :: '[' :: rest => some (.questionBracket, rest)
  | '?' :: '?' :: rest => some (.coalesce, rest)
  | '?' :: rest => some (.question, rest)
  | '=' :: '>' :: rest => some (.arrow, rest)
  | '=' :: '=' :: rest => some (.equal, rest)
  | '=' :: rest => some (.assign, rest)
  | '!' :: '=' :: rest => some (.notEqual, rest)
  | '!' :: rest => some (.bang, rest)
  | '<' :: '=' :: rest => some (.lessEqual, rest)
  | '<' :: rest => some (.less, rest)
  | '>' :: '=' :: rest => some (.greaterEqual, rest)
  | '>' :: rest => some (.greater, rest)
  | '&' :: '&' :: rest => some (.andAnd, rest)
  | '&' :: rest => some (.amp, rest)
  | '|' :: '|' :: rest => some (.orOr, rest)
  | '|' :: rest => some (.pipe, rest)
  | '(' :: rest => some (.openParen, rest)
  | ')' :: rest => some (.closeParen, rest)
  | '{' :: rest => some (.openBrace, rest)
  | '}' :: rest => some (.closeBrace, rest)
  | '[' :: rest => some (.openBracket, rest)
  | ']' :: rest => some (.closeBracket, rest)
  | ',' :: rest => some (.comma, rest)
  | '.' :: rest => some (.dot, rest)
  | ':' :: rest => some (.colon, rest)
  | '^' :: rest => some (.caret, rest)
  | '+' :: rest => some (.plus, rest)
  | '-' :: rest => some (.minus, rest)
  | '*' :: rest => some (.star, rest)
  | '/' :: rest => some (.slash, rest)
  | '%' :: rest => some (.percent, rest)
  | '~' :: rest => some (.tilde, rest)
  | _ => none

theorem punct_split {cs : List Char} {p : Punct} {rest : List Char}
    (h : punct cs = some (p, rest)) : p.spelling.toList ++ rest = cs := by
  fun_cases punct cs
  all_goals simp_all [punct, Punct.spelling]
  all_goals (obtain ⟨rfl, rfl⟩ := h; rfl)

/-- A token with the characters that spell it and those behind. -/
structure Lexeme where
  token : Token
  text : List Char
  rest : List Char

/-- What can be wrong at the front of the remaining characters. -/
inductive Fault where
  | stray (c : Char)
  | openLiteral
  deriving DecidableEq, Repr

def Fault.error (p : Position) : Fault → SyntaxError
  | .stray c => .unexpectedChar c p
  | .openLiteral => .unterminatedLiteral p

def name (cs : List Char) : Lexeme :=
  ⟨.ident (String.ofList (cs.takeWhile isNamePart)), cs.takeWhile isNamePart,
    cs.dropWhile isNamePart⟩

def number (cs : List Char) : Lexeme :=
  let digits := numeral cs
  let tail := suffix digits.isReal digits.rest
  let text := digits.text ++ tail.text
  ⟨if tail.isReal then .float (String.ofList text) else .int (String.ofList text), text, tail.rest⟩

def literal (quote : Char) (make : String → Token) (cs : List Char) : Except Fault Lexeme :=
  match quoted quote cs with
  | some r => .ok ⟨make (String.ofList r.1), quote :: (r.1 ++ [quote]), r.2⟩
  | none => .error .openLiteral

/-- The token at the front. -/
def lexeme (c : Char) (rest : List Char) : Except Fault Lexeme :=
  if c = '$' ∧ rest.head? = some '"' then
    match interpolated 0 rest.tail with
    | some r => .ok ⟨.interpolated (String.ofList r.1), '$' :: '"' :: (r.1 ++ ['"']), r.2⟩
    | none => .error .openLiteral
  else if c = '@' ∧ rest.head?.any isNameStart then
    let bare := name rest
    .ok ⟨bare.token, '@' :: bare.text, bare.rest⟩
  else if isNameStart c then .ok (name (c :: rest))
  else if c.isDigit ∨ c = '.' ∧ startsWithDigit rest then .ok (number (c :: rest))
  else if c = '"' then literal '"' .str rest
  else if c = '\'' then literal '\'' .char rest
  else
    match punct (c :: rest) with
    | some (p, behind) => .ok ⟨.punct p, p.spelling.toList, behind⟩
    | none => .error (.stray c)

theorem fraction_split (cs : List Char) : (fraction cs).1 ++ (fraction cs).2 = cs := by
  fun_cases fraction cs <;> simp

theorem sign_split (cs : List Char) : (sign cs).1 ++ (sign cs).2 = cs := by
  fun_cases sign cs <;> simp

theorem exponent_split (cs : List Char) : (exponent cs).1 ++ (exponent cs).2 = cs := by
  fun_cases exponent cs <;> simp [sign_split]

theorem decimal_split (cs : List Char) : (decimal cs).text ++ (decimal cs).rest = cs := by
  simp [decimal, fraction_split, exponent_split]

theorem numeral_split (cs : List Char) : (numeral cs).text ++ (numeral cs).rest = cs := by
  fun_cases numeral cs <;> simp [decimal_split]

theorem suffix_split (real : Bool) (cs : List Char) :
    (suffix real cs).text ++ (suffix real cs).rest = cs := by
  fun_induction suffix real cs with
  | case1 c rest _ more ih => simpa [more] using ih
  | case2 => rfl
  | case3 => rfl
  | case4 => rfl

theorem number_split (cs : List Char) : (number cs).text ++ (number cs).rest = cs := by
  simp [number, suffix_split, numeral_split]

theorem name_split (cs : List Char) : (name cs).text ++ (name cs).rest = cs := by
  simp [name]

theorem literal_split {q : Char} {make : String → Token} {cs : List Char} {l : Lexeme}
    (h : literal q make cs = .ok l) : l.text ++ l.rest = q :: cs := by
  unfold literal at h
  split at h
  · rename_i r hr
    cases h
    simp [← quoted_split hr]
  · cases h

theorem lexeme_split {c : Char} {rest : List Char} {l : Lexeme} (h : lexeme c rest = .ok l) :
    l.text ++ l.rest = c :: rest := by
  unfold lexeme at h
  split at h
  · rename_i hc
    obtain ⟨rfl, hq⟩ := hc
    split at h
    · rename_i r hr
      cases h
      cases rest with
      | nil => cases hq
      | cons d rest =>
          cases hq
          simpa using interpolated_split hr
    · cases h
  · split at h
    · rename_i hc
      cases h
      simp [name_split, hc.1]
    · split at h
      · cases h
        exact name_split _
      · split at h
        · cases h
          exact number_split _
        · split at h
          · rename_i hc
            exact hc ▸ literal_split h
          · split at h
            · rename_i hc
              exact hc ▸ literal_split h
            · split at h
              · rename_i hp
                cases h
                exact punct_split hp
              · cases h

end Projection.Lexer
