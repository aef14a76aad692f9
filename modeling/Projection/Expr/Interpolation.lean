/-!
The inside of an interpolated string: literal text and holes. A hole ends at its closing brace,
where braces and quotes nest, and may carry an alignment or a format behind its expression.
-/

namespace Projection.Interpolation

inductive Segment where
  | text (chars : List Char)
  | hole (source : List Char) (format : Option (List Char))
  deriving DecidableEq, Repr

/-- Everything up to and with the closing quote. -/
def throughQuote (quote : Char) : List Char → List Char × List Char
  | '\\' :: c :: rest =>
      let after := throughQuote quote rest
      ('\\' :: c :: after.1, after.2)
  | c :: rest =>
      if c = quote then ([c], rest)
      else
        let after := throughQuote quote rest
        (c :: after.1, after.2)
  | [] => ([], [])

theorem throughQuote_split (q : Char) (cs : List Char) :
    (throughQuote q cs).1 ++ (throughQuote q cs).2 = cs := by
  fun_induction throughQuote q cs with
  | case1 c rest after ih => simpa [after] using ih
  | case2 => rfl
  | case3 c rest _ _ after ih => simpa [after] using ih
  | case4 => rfl

theorem length_throughQuote_le (q : Char) (cs : List Char) :
    (throughQuote q cs).2.length ≤ cs.length := by
  have h := congrArg List.length (throughQuote_split q cs)
  simp only [List.length_append] at h
  omega

/-- The text of a hole and what follows its closing brace; `depth` braces are open inside it. -/
def readHole (depth : Nat) : List Char → List Char × List Char
  | [] => ([], [])
  | c :: rest =>
      if c = '"' ∨ c = '\'' then
        let quoted := throughQuote c rest
        let after := readHole depth quoted.2
        (c :: (quoted.1 ++ after.1), after.2)
      else if c = '{' then
        let after := readHole (depth + 1) rest
        (c :: after.1, after.2)
      else if c = '}' then
        match depth with
        | 0 => ([], rest)
        | d + 1 =>
            let after := readHole d rest
            (c :: after.1, after.2)
      else
        let after := readHole depth rest
        (c :: after.1, after.2)
termination_by cs => cs.length
decreasing_by
  · have := length_throughQuote_le c rest
    simp only [List.length_cons]
    omega
  all_goals simp

theorem length_readHole_le (depth : Nat) (cs : List Char) :
    (readHole depth cs).1.length + (readHole depth cs).2.length ≤ cs.length := by
  fun_induction readHole depth cs with
  | case1 => simp
  | case2 depth c rest _ quoted after ih =>
      have h := congrArg List.length (throughQuote_split c rest)
      simp only [List.length_append] at h
      simp only [quoted] at ih
      simp only [after, quoted, List.length_cons, List.length_append]
      omega
  | case4 => simp
  | case3 | case5 | case6 =>
      simp +zetaDelta only [List.length_cons]
      omega

/-- Cuts before the first comma or colon that no bracket or quote encloses. A quote ends at the next
mark of its kind. -/
def cutFormat (depth : Int) (quote : Option Char) : List Char → List Char × List Char
  | [] => ([], [])
  | c :: rest =>
      match quote with
      | some q =>
          let after := cutFormat depth (if c = q then none else some q) rest
          (c :: after.1, after.2)
      | none =>
          if (c = ',' ∨ c = ':') ∧ depth = 0 then ([], c :: rest)
          else
            let inside := if c = '"' ∨ c = '\'' then some c else none
            let depth' :=
              if c = '(' ∨ c = '[' ∨ c = '{' then depth + 1
              else if c = ')' ∨ c = ']' ∨ c = '}' then depth - 1
              else depth
            let after := cutFormat depth' inside rest
            (c :: after.1, after.2)

theorem cutFormat_split (depth : Int) (quote : Option Char) (cs : List Char) :
    (cutFormat depth quote cs).1 ++ (cutFormat depth quote cs).2 = cs := by
  induction cs generalizing depth quote with
  | nil => rfl
  | cons c cs ih =>
      cases quote with
      | some q => simp [cutFormat, ih]
      | none =>
          simp only [cutFormat]
          split
          · rfl
          · simp [ih]

theorem length_cutFormat_le (depth : Int) (quote : Option Char) (cs : List Char) :
    (cutFormat depth quote cs).1.length ≤ cs.length := by
  have h := congrArg List.length (cutFormat_split depth quote cs)
  simp only [List.length_append] at h
  omega

def holeSegment (chars : List Char) : Segment :=
  let cut := cutFormat 0 none chars
  .hole cut.1 (if cut.2.isEmpty then none else some cut.2)

/-- Puts literal text in front, as part of the text that is there already. -/
def addText (chars : List Char) : List Segment → List Segment
  | .text more :: rest => .text (chars ++ more) :: rest
  | rest => .text chars :: rest

/-- Splits the contents of an interpolated string. Doubled braces and escapes are text. -/
def segments : List Char → List Segment
  | '{' :: '{' :: rest => addText ['{', '{'] (segments rest)
  | '}' :: '}' :: rest => addText ['}', '}'] (segments rest)
  | '\\' :: c :: rest => addText ['\\', c] (segments rest)
  | '{' :: rest => holeSegment (readHole 0 rest).1 :: segments (readHole 0 rest).2
  | c :: rest => addText [c] (segments rest)
  | [] => []
termination_by cs => cs.length
decreasing_by
  all_goals simp only [List.length_cons]
  all_goals first
    | omega
    | exact Nat.lt_succ_of_le (Nat.le_trans (Nat.le_add_left ..) (length_readHole_le 0 rest))

/-- Characters a segment needs at least. -/
def Segment.cost : Segment → Nat
  | text _ => 1
  | hole source _ => source.length + 1

def cost (ss : List Segment) : Nat := (ss.map Segment.cost).foldr (· + ·) 0

@[simp] theorem cost_nil : cost [] = 0 := rfl

@[simp] theorem cost_cons (s : Segment) (ss : List Segment) :
    cost (s :: ss) = s.cost + cost ss := by
  simp [cost]

theorem cost_addText_le (chars : List Char) (ss : List Segment) :
    cost (addText chars ss) ≤ cost ss + 1 := by
  fun_cases addText chars ss <;> simp only [cost_cons, Segment.cost]
  all_goals omega

theorem cost_segments_le (cs : List Char) : cost (segments cs) ≤ cs.length := by
  fun_induction segments cs with
  | case1 rest ih | case2 rest ih | case3 _ rest ih =>
      refine Nat.le_trans (cost_addText_le _ _) ?_
      simp only [List.length_cons]
      omega
  | case4 rest _ ih =>
      have h := length_readHole_le 0 rest
      have hc := length_cutFormat_le 0 none (readHole 0 rest).1
      simp only [cost_cons, holeSegment, Segment.cost, List.length_cons]
      omega
  | case5 c rest _ _ _ _ ih =>
      have := cost_addText_le [c] (segments rest)
      simp only [List.length_cons]
      omega
  | case6 => simp

end Projection.Interpolation
