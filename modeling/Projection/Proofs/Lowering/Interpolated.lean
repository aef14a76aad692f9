import Projection.Proofs.Interpolation.ReadBack
import Projection.Proofs.Lowering.RoundTrip

/-!
Interpolated strings after lowering. What was lowered comes back with the texts, formats and holes
of all its strings if and only if each hole is split where its format begins.
-/

namespace Projection.Lowering

open Projection.Expr Text

theorem readsBack_lower_iff {text : String} {e : Expr} {settings : Settings} {depth : Nat}
    {Γ : Context} {declared : Option TypeRef} (h : parse text = .ok e)
    (hshaped : e.withoutOptional.Every Shaped) (hmodel : ∀ t ∈ Γ.model.types, IsDotted t.name)
    (hbindings : ∀ b ∈ Γ.bindings, ∃ text, TypeRef.parse Γ.model text = .ok b.2)
    (hdeclared : ∀ t ∈ declared, ∃ text, TypeRef.parse Γ.model text = .ok t)
    (hclear : Grammar.Clear (Lowering.expr settings depth Γ e declared).value.inked.printed [])
    (hholes : ∀ o ∈ (Lowering.expr settings depth Γ e declared).value.holes,
      o.Ends ∧ Grammar.Clear o.expr.inked.printed []) :
    (Lowering.expr settings depth Γ e declared).value.ReadsBack ↔
      ∀ o ∈ (Lowering.expr settings depth Γ e declared).value.holes, o.Splits := by
  have hΓ : Γ.Inferred (.readableWith .laid) := by
    refine ⟨hmodel, fun b hb => ?_⟩
    obtain ⟨text, htext⟩ := hbindings b hb
    exact .written (TypeRef.written_parse htext)
  have hd : ∀ t ∈ declared, t.Declared := by
    intro t ht
    obtain ⟨text, htext⟩ := hdeclared t ht
    exact (TypeRef.written_parse htext).declared
  have hsteady := steady_of_shaped (every_formed_laid h) hshaped
  exact readsBack_iff (every_sayable_expr hΓ hsteady hd) (fun o ho => (hholes o ho).1) hclear
    fun o ho => (hholes o ho).2

theorem readsBack_lower_argument :
    let text := "$\"age: \x7bf(u?.Age, $\"\x7by\x7d\"):N2\x7d!\""
    let e := interpolated [.text "age: ", .hole (call (ident "f") [member (ident "u") "Age" true,
      interpolated [.hole (ident "y") none]]) (some ":N2"), .text "!"]
    let x := (lower {} users e none).value
    parse text = .ok e ∧ e.withoutOptional.Every Shaped ∧ Grammar.Clear x.inked.printed [] ∧
      x.source = "$\"age: \x7bf(u != null ? (int?)u.Age : null, $\"\x7by\x7d\"):N2\x7d!\"" ∧
      x.holes.length = 2 ∧ (∀ o ∈ x.holes, o.Ends ∧ Grammar.Clear o.expr.inked.printed []) ∧
      x.ReadsBack := by
  intro text e x
  have hparse : parse text = .ok e := ok_of_toOption (by decide +kernel)
  have hshaped : e.withoutOptional.Every Shaped :=
    (by decide +kernel : ∀ n ∈ e.withoutOptional.nodes, n.Shaped)
  have hchain : closeChain users (member (ident "u") "Age" true) none
      ((present users (ident "u") true (.plain (ident "u"))).mapExpr (·.dot "Age")) =
      conditional (notNull (ident "u")) (cast (.nullable (.simple "int")) (dot (ident "u") "Age"))
        .null := by decide +kernel
  have hlowered : x = interpolated [.text "age: ", .hole (call (ident "f")
      [conditional (notNull (ident "u"))
        (cast (.nullable (.simple "int")) (dot (ident "u") "Age")) .null,
        interpolated [.hole (ident "y") none]]) (some ":N2"), .text "!"] := by
    simp [e, x, call, lower, Lowering.expr, argument, node, spine, chainOptional, unparen, children,
      withChildren, refill, List.filterMap, Part.expr?, hchain]
  have hclear : Grammar.Clear x.inked.printed [] := by
    rw [hlowered]
    decide +kernel
  have hholes : ∀ o ∈ x.holes, o.Ends ∧ Grammar.Clear o.expr.inked.printed [] := by
    rw [hlowered]
    decide +kernel
  have hsplits : ∀ o ∈ x.holes, o.Splits := by
    rw [hlowered]
    decide +kernel
  refine ⟨hparse, hshaped, hclear, ?_, ?_, hholes, ?_⟩
  · rw [hlowered]
    decide +kernel
  · rw [hlowered]
    decide +kernel
  · have hmodel : ∀ t ∈ users.model.types, IsDotted t.name :=
      List.forall_mem_singleton.2 (by decide : IsName "User").isDotted
    have hbindings : ∀ b ∈ users.bindings, ∃ text, TypeRef.parse users.model text = .ok b.2 :=
      List.forall_mem_singleton.2 ⟨"User?", ok_of_toOption (by decide +kernel)⟩
    exact (readsBack_lower_iff hparse hshaped hmodel hbindings (by simp) hclear hholes).2 hsplits

/-- The test is all of the hole. Its colon is taken for the one of a format, and what stands before
it is no expression. -/
theorem lower_optional_hole_unreadable :
    let e := interpolated [.hole (member (ident "x") "A" true) none]
    let x := (lower {} ⟨.empty, .empty, []⟩ e none).value
    parse "$\"\x7bx?.A\x7d\"" = .ok e ∧
      x.source = "$\"\x7bx != null ? x.A : default\x7d\"" ∧ ¬ x.ReadsBack := by
  intro e x
  have hchain : closeChain ⟨.empty, .empty, []⟩ (member (ident "x") "A" true) none
      ((present ⟨.empty, .empty, []⟩ (ident "x") true (.plain (ident "x"))).mapExpr (·.dot "A")) =
      conditional (notNull (ident "x")) (dot (ident "x") "A") (.defaultValue none) := by
    decide +kernel
  have hlowered : x = interpolated [.hole (conditional (notNull (ident "x")) (dot (ident "x") "A")
      (.defaultValue none)) none] := by
    simp [e, x, lower, Lowering.expr, node, spine, chainOptional, children, withChildren, refill,
      List.filterMap, Part.expr?, hchain]
  refine ⟨ok_of_toOption (by decide +kernel), ?_, ?_⟩
  · rw [hlowered]
    decide +kernel
  · rintro ⟨e', he', -⟩
    have hnone : (parse x.source).toOption.isNone = true := by
      rw [hlowered]
      decide +kernel
    rw [he'] at hnone
    cases hnone

end Projection.Lowering
