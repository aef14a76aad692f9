import Projection.Proofs.Token.Lexed

/-!
Tokens with a blank between them. A blank carries no token on, so the spellings of any tokens of a
source, set apart by blanks, are read as these tokens again.
-/

namespace Projection

open Text Lexer

theorem Punct.stands_nil (p : Punct) : p.Stands [] := by
  cases p <;> simp [Stands, startsWithDigit]

theorem Token.stands_nil (t : Token) : t.Stands [] := by
  cases t with
  | ident | int | float => exact breaks_nil
  | str | char | interpolated => trivial
  | punct p => exact p.stands_nil

theorem Token.stands_blank (t : Token) (cs : List Char) : t.Stands (' ' :: cs) := by
  cases t with
  | ident | int | float => exact breaks_cons (by decide) cs
  | str | char | interpolated => trivial
  | punct p => exact p.stands_blank cs

namespace Scan

theorem Lexed.join {ts : List Token} (h : ∀ t ∈ ts, t.Valid) :
    Lexed (Text.join " " (ts.map Token.describe)).toList ts := by
  induction ts with
  | nil => exact .nil
  | cons t ts ih =>
      obtain ⟨ht, hts⟩ := List.forall_mem_cons.1 h
      cases ts with
      | nil => simpa using Lexed.token ht t.stands_nil .nil
      | cons u us =>
          have hwhole := Lexed.token ht (t.stands_blank _) (ih hts).blank
          rw [List.map_cons, List.map_cons, join_cons_cons, String.toList_append,
            String.toList_append, List.append_assoc]
          exact hwhole

/-- The spellings of the tokens of a source, joined by blanks, are a source of the same tokens. -/
theorem words_ofString_join_describe {source : String} {s : Scan} (h : ofString source = .ok s) :
    ∃ again, ofString (Text.join " " (s.words.map Token.describe)) = .ok again ∧
      again.words = s.words :=
  Lexed.join (valid_run h) .start

theorem words_ofString_join_describe_crowded :
    let source := "x?.5/@new.1.e??$\"\x7b\"\x7d\"\x7d\x7b\x7b\\\"\"0xFuL'\\''"
    let words : List Token := [.ident "x", .punct .question, .float ".5", .punct .slash,
      .ident "new", .float ".1", .punct .dot, .ident "e", .punct .coalesce,
      .interpolated "\x7b\"\x7d\"\x7d\x7b\x7b\\\"", .int "0xFuL", .char "\\'"]
    ∃ s, ofString source = .ok s ∧ s.words = words ∧
      ∃ again, ofString (Text.join " " (s.words.map Token.describe)) = .ok again ∧
        again.words = s.words := by
  intro source words
  have hscan : (ofString source).toOption.map Scan.words = some words := by decide +kernel
  obtain ⟨s, hs, hwords⟩ := Option.map_eq_some_iff.1 hscan
  have h := ok_of_toOption hs
  exact ⟨s, h, hwords, words_ofString_join_describe h⟩

end Scan

end Projection
