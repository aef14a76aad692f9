import Projection.Proofs.Cursor.Agreement
import Projection.Proofs.Cursor.Progress
import Projection.Proofs.Expr.Refused

/-!
Reading ends. A cursor that moves over the tokens of a source has an answer as soon as calls may
nest as deep as a multiple of the length of the source, whatever the source, and it is the answer of
the reader.
-/

namespace Projection

open Grammar Reading Interpolation

def Grammar.complete {α : Type} {limit : Nat} : Result α limit → Except Fault α
  | .error f => .error f
  | .ok p => if p.rest.isEmpty then .ok p.value else .error (.expected "end of input" p.rest.length)

theorem Expr.parseChars_eq_complete {source : List Char} {s : Scan}
    (hs : Scan.ofChars source = .ok s) :
    parseChars source = (complete (Grammar.expression s.words)).mapError (·.resolve s) := by
  rw [parseChars, hs]
  dsimp only
  cases Grammar.expression s.words with
  | error f => rfl
  | ok p =>
      simp only [complete]
      split <;> rfl

theorem TypeExpr.parse_eq_complete {source : String} {s : Scan}
    (hs : Scan.ofString source = .ok s) :
    parse source = (complete (Grammar.type s.words)).mapError (·.resolve s) := by
  rw [parse, hs]
  dsimp only
  have hwhole : wholeType s.words = complete (Grammar.type s.words) := by
    rw [wholeType]
    cases Grammar.type s.words <;> rfl
  rw [hwhole]
  cases complete (Grammar.type s.words) <;> rfl

namespace Reading

variable {α : Type} {source : List Char} {x : Reading α}

theorem whole_of_scan_error {e : SyntaxError} (hs : Scan.ofChars source = .error e) :
    x.whole source = some (.error e) := by
  rw [whole, hs]

variable {s : Scan}

theorem whole_of_apply {o : Except SyntaxError α} {c : Cursor} (hs : Scan.ofChars source = .ok s)
    (hrun : (x >>= fun a => expectEnd >>= fun _ => pure a) ⟨s, 0⟩ = some (o, c)) :
    x.whole source = some o := by
  rw [whole, hs]
  dsimp only
  rw [hrun]
  rfl

theorem Gives.whole {limit : Nat} {q : Result α limit} (hs : Scan.ofChars source = .ok s)
    (h : Gives s x s.words id q) :
    x.whole source = some ((complete q).mapError (·.resolve s)) := by
  have hstart : Cursor.At ⟨s, 0⟩ s s.words := ⟨rfl, rfl⟩
  cases q with
  | error f =>
      obtain ⟨c, hrun, -⟩ := Fails.bind h _ hstart
      exact whole_of_apply hs hrun
  | ok p =>
      obtain ⟨a, rest, hb⟩ := p
      cases rest with
      | nil =>
          have hend : Reads s (x >>= fun a => expectEnd >>= fun _ => pure a) s.words a [] :=
            Reads.bind h (reads_expectEnd.bind (reads_pure a))
          obtain ⟨c, hrun, -⟩ := hend _ hstart
          exact whole_of_apply hs hrun
      | cons t rest =>
          have hend : Fails s (x >>= fun a => expectEnd >>= fun _ => pure a) s.words
              (.expected "end of input" (rest.length + 1)) :=
            Reads.bind_fails h fails_expectEnd.bind
          obtain ⟨c, hrun, -⟩ := hend _ hstart
          exact whole_of_apply hs hrun

end Reading

/-- The grammar with a cursor follows the reader as deep as its calls may nest, if holes are
answered like sources. -/
theorem follows_rules {ask : List Char → Option (Except SyntaxError Expr)} {s : Scan}
    (hask : ∀ {raw source format}, .interpolated raw ∈ s.words →
      .hole source format ∈ segments raw.toList → ask source = some (Expr.parseChars source))
    (depth : Nat) : (rules ask depth).Follows s depth := by
  induction depth with
  | zero =>
      exact {
        ask := hask
        type hm := absurd hm (Nat.not_lt_zero _)
        nameFrom hm := absurd hm (Nat.not_lt_zero _)
        marksFrom hm := absurd hm (Nat.not_lt_zero _)
        nextTypes hm := absurd hm (Nat.not_lt_zero _)
        lastType hm := absurd hm (Nat.not_lt_zero _)
        noTypes hm := absurd hm (Nat.not_lt_zero _)
        closeHeader hm := absurd hm (Nat.not_lt_zero _)
        expression hm := absurd hm (Nat.not_lt_zero _)
        binary hm := absurd hm (Nat.not_lt_zero _)
        operandsFrom hm := absurd hm (Nat.not_lt_zero _)
        unary hm := absurd hm (Nat.not_lt_zero _)
        trailersFrom hm := absurd hm (Nat.not_lt_zero _)
        itemsFrom hm := absurd hm (Nat.not_lt_zero _)
        initializersFrom hm := absurd hm (Nat.not_lt_zero _) }
  | succ depth ih => exact ih.unfold

/-- A hole is shorter than the text that it is in, so the depth that is enough for the text is
enough for its holes. -/
theorem Expr.parseWithin_eq {depth : Nat} {source : List Char}
    (hdepth : 16 * (source.length + 1) ≤ depth) :
    parseWithin depth source = some (parseChars source) := by
  rw [parseWithin]
  cases hs : Scan.ofChars source with
  | error e =>
      rw [whole_of_scan_error hs, parseChars, hs]
  | ok s =>
      have hweight := Scan.weight_ofChars_le hs
      rw [parseChars_eq_complete hs]
      refine Gives.whole hs ((follows_rules ?_ depth).expression (by omega))
      intro raw hole format hraw hsegment
      obtain ⟨front, hhole⟩ := exists_holeAt hs hraw hsegment
      have hlt := hhole.length_lt
      rw [dif_pos hlt]
      exact parseWithin_eq (by omega)
termination_by source.length

theorem TypeExpr.parseWithin_eq {depth : Nat} {source : String}
    (hdepth : 16 * (source.length + 1) ≤ depth) :
    parseWithin depth source.toList = some (parse source) := by
  rw [parseWithin]
  cases hs : Scan.ofString source with
  | error e => rw [whole_of_scan_error hs, parse, hs]
  | ok s =>
      have hweight := Scan.weight_ofChars_le hs
      rw [String.length_toList] at hweight
      rw [parse_eq_complete hs]
      refine Gives.whole hs ((follows_rules ?_ depth).type (by omega))
      intro raw hole format hraw hsegment
      obtain ⟨front, hhole⟩ := Expr.exists_holeAt hs hraw hsegment
      have hlt := hhole.length_lt
      rw [String.length_toList] at hlt
      exact Expr.parseWithin_eq (by omega)

/-- Every source has an answer, which is that of the reader, and more depth does not change it. On
the way each turn of a loop takes a token or stops, each trial that is given up leaves the cursor
where it was, and each hole is shorter than the text that it is in. -/
theorem parseWithin_answers (source : String) (more : Nat) :
    let depth := 16 * (source.length + 1) + more
    Expr.parseWithin depth source.toList = some (Expr.parse source) ∧
      TypeExpr.parseWithin depth source.toList = some (TypeExpr.parse source) ∧
      (∀ ask n, (rules ask n).Progresses) ∧
      ∀ text front hole, Expr.HoleAt text front hole → hole.length < text.length := by
  intro depth
  have hdepth : 16 * (source.length + 1) ≤ depth := Nat.le_add_right _ _
  refine ⟨?_, TypeExpr.parseWithin_eq hdepth, fun ask n => (forward_rules ask n).progresses,
    fun text front hole hhole => hhole.length_lt⟩
  rw [← String.length_toList] at hdepth
  exact Expr.parseWithin_eq hdepth

theorem parseWithin_answers_open_hole :
    let source := "$\"\x7b(int)x +\x7d\""
    let hole := "(int)x +".toList
    Expr.parseWithin 224 source.toList = some (.error (.unexpectedEnd "expression")) ∧
      ∃ front, Expr.HoleAt source.toList front hole ∧ hole.length < source.toList.length := by
  intro source hole
  let s : Scan := ⟨[⟨.interpolated "\x7b(int)x +\x7d", ⟨1, 1⟩⟩], ⟨1, 14⟩⟩
  have hs : Scan.ofChars source.toList = .ok s := ok_of_toOption (by decide +kernel)
  have hsegment : .hole hole none ∈ segments "\x7b(int)x +\x7d".toList := by decide +kernel
  obtain ⟨front, hhole⟩ := Expr.exists_holeAt hs List.mem_cons_self hsegment
  obtain ⟨hanswer, -, -, hshorter⟩ := parseWithin_answers source 0
  have herror : Expr.parse source = .error (.unexpectedEnd "expression") :=
    error_of_tryCatch (by decide +kernel)
  have hlength : source.length = 13 := by decide
  rw [herror, hlength] at hanswer
  exact ⟨hanswer, front, hhole, hshorter _ front hole hhole⟩

end Projection
