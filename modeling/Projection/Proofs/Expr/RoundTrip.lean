import Projection.Proofs.Expr.Lexed
import Projection.Proofs.Grammar.ReadBack

/-!
Printing and reading back. An expression that was read prints as a text that is read again, as an
expression that prints the same and differs from the first in parentheses only.
-/

namespace Projection.Expr

theorem parse_source_of_parse {source : String} {e : Expr} (h : parse source = .ok e)
    (hplain : e.Every fun n => n.isInterpolated = false) :
    ∃ e', parse e.source = .ok e' ∧ e'.source = e.source ∧
      e'.withoutParens = e.withoutParens := by
  obtain ⟨s, hs, hread⟩ := parse_eq_ok_iff.1 h
  obtain ⟨hlexical, hecho⟩ := Grammar.echo_of_expression (Scan.valid_run hs) hplain hread
  have hlexed := (scans_of_lexical e hlexical).lexed Lexer.breaks_nil Scan.Lexed.nil
  rw [List.append_nil, List.append_nil] at hlexed
  obtain ⟨s', hs', hwords⟩ := hlexed .start
  refine ⟨e.bracketed, ?_, print_bracketed _ e, withoutParens_bracketed e⟩
  exact parse_eq_ok_iff.2 ⟨s', hs', hwords ▸ hecho⟩

theorem parse_source_of_parse_doubled_sign :
    let text := "x => x.A ? y => - -y : new T<int?[]>() \x7b N = (C)(-x), \x7d"
    let e := lambda ["x"] (conditional (member (ident "x") "A" false)
      (lambda ["y"] (unary .neg (unary .neg (ident "y"))))
      (creation (.named "T" [.array (.nullable (.named "int" []))]) []
        (some [⟨some "N", cast (.named "C" []) (paren (unary .neg (ident "x")))⟩])))
    parse text = .ok e ∧ (e.Every fun n => n.isInterpolated = false) ∧ e.source ≠ text ∧
      ∃ e', parse e.source = .ok e' ∧ e'.source = e.source ∧
        e'.withoutParens = e.withoutParens := by
  intro text e
  have hread : (parse text).toOption = some e := by decide +kernel
  have hparse : parse text = .ok e := by
    cases h : parse text with
    | error fault =>
        rw [h] at hread
        cases hread
    | ok value =>
        rw [h] at hread
        exact congrArg Except.ok (Option.some.inj hread)
  have hplain : e.Every fun n => n.isInterpolated = false :=
    (by decide +kernel : ∀ n ∈ e.nodes, n.isInterpolated = false)
  exact ⟨hparse, hplain, by decide +kernel, parse_source_of_parse hparse hplain⟩

end Projection.Expr
