import Projection.Proofs.Grammar.Shaped
import Projection.Proofs.Lowering.Sayable

/-!
Printing what was lowered and reading it back. The tree comes back up to parentheses and notes, as
long as no comparison in it happens to be spelled like a call with generic arguments.
-/

namespace Projection.Lowering

open Projection.Expr Text

theorem every_sayable_expr {S : Strings} {settings : Settings} {depth : Nat} {Γ : Context}
    {e : Expr} {declared : Option TypeRef} (hΓ : Γ.Inferred (.readableWith S)) (he : e.Steady S)
    (hd : ∀ t ∈ declared, t.Declared) :
    (Lowering.expr settings depth Γ e declared).value.Every (Sayable S) :=
  ((sayingRelation_kept S settings).expr depth Γ e declared hΓ he hd).1

theorem parse_source_lower {text : String} {e : Expr} {settings : Settings} {depth : Nat}
    {Γ : Context} {declared : Option TypeRef} (h : parse text = .ok e)
    (hplain : e.Every fun n => n.isInterpolated = false) (hshaped : e.withoutOptional.Every Shaped)
    (hmodel : ∀ t ∈ Γ.model.types, IsDotted t.name)
    (hbindings : ∀ b ∈ Γ.bindings, ∃ text, TypeRef.parse Γ.model text = .ok b.2)
    (hdeclared : ∀ t ∈ declared, ∃ text, TypeRef.parse Γ.model text = .ok t)
    (hclear : Grammar.Clear (Lowering.expr settings depth Γ e declared).value.printed []) :
    ∃ e', parse (Lowering.expr settings depth Γ e declared).value.source = .ok e' ∧
      e'.bare = (Lowering.expr settings depth Γ e declared).value.bare := by
  have hΓ : Γ.Inferred .readable := by
    refine ⟨hmodel, fun b hb => ?_⟩
    obtain ⟨text, htext⟩ := hbindings b hb
    exact .written (TypeRef.written_parse htext)
  have hd : ∀ t ∈ declared, t.Declared := by
    intro t ht
    obtain ⟨text, htext⟩ := hdeclared t ht
    exact (TypeRef.written_parse htext).declared
  have hsteady := steady_of_shaped (every_formed_of_parse h hplain) hshaped
  exact ⟨_, parse_source_of_sayable (every_sayable_expr hΓ hsteady hd) hclear⟩

def users : Context :=
  ⟨.ofTypes [⟨"User", none, .class, [⟨"Age", .property, "int", false, false, .public⟩]⟩], .empty,
    [("u", .asNullable (.named "User" false))]⟩

theorem parse_source_lower_signed_comparison :
    let text := "f(-u?.Age < 3, new \x7b A = q \x7d)"
    let e := call (ident "f") [binary .lt (unary .neg (member (ident "u") "Age" true))
      (literal (.int "3")), anonymous [.named "A" (ident "q")]]
    let x := (lower {} users e none).value
    parse text = .ok e ∧ (e.Every fun n => n.isInterpolated = false) ∧
      e.withoutOptional.Every Shaped ∧ Grammar.Clear x.printed [] ∧
      x.source = "f(-(u != null ? (int?)u.Age : null) < 3, /* shapegen: conversion failed: " ++
        "anonymous object has no resolvable members */ new \x7b A = q \x7d)" ∧
      ∃ e', parse x.source = .ok e' ∧ e'.bare = x.bare := by
  intro text e x
  have hparse : parse text = .ok e := ok_of_toOption (by decide +kernel)
  have hplain : e.Every fun n => n.isInterpolated = false :=
    (by decide +kernel : ∀ n ∈ e.nodes, n.isInterpolated = false)
  have hshaped : e.withoutOptional.Every Shaped :=
    (by decide +kernel : ∀ n ∈ e.withoutOptional.nodes, n.Shaped)
  have hchain : closeChain users (member (ident "u") "Age" true) none
      ((present users (ident "u") true (.plain (ident "u"))).mapExpr (·.dot "Age")) =
      conditional (notNull (ident "u")) (cast (.nullable (.simple "int")) (dot (ident "u") "Age"))
        .null := by decide +kernel
  have hobject : (Structure.ofType {} (Typing.anonymousType users
      [.named "A" (ident "q")])).isDegenerate = true := by decide +kernel
  have hnode (depth : Nat) : (node {} depth users (anonymous [.named "A" (ident "q")]) none).value =
      marked "anonymous object has no resolvable members" (anonymous [.named "A" (ident "q")]) := by
    unfold node
    dsimp only
    rw [if_pos hobject]
    rfl
  have hlowered : x = call (ident "f")
      [binary .lt (unary .neg (conditional (notNull (ident "u"))
        (cast (.nullable (.simple "int")) (dot (ident "u") "Age")) .null)) (literal (.int "3")),
        marked "anonymous object has no resolvable members"
          (anonymous [.named "A" (ident "q")])] := by
    simp [e, x, call, lower, Lowering.expr, argument, node, spine, chainOptional, unparen, children,
      withChildren, hchain, hnode]
  have hclear : Grammar.Clear x.printed [] := by
    rw [hlowered]
    decide +kernel
  refine ⟨hparse, hplain, hshaped, hclear, ?_, ?_⟩
  · rw [hlowered]
    decide +kernel
  · exact parse_source_lower hparse hplain hshaped
      (List.forall_mem_singleton.2 (by decide : IsName "User").isDotted)
      (List.forall_mem_singleton.2 ⟨"User?", ok_of_toOption (by decide +kernel)⟩) (by simp) hclear

/-- The tested chain is put in parentheses, and the comparisons before it become a call of `a` with
two types. -/
theorem lower_comparisons_read_as_call :
    let e := call (ident "f") [binary .lt (ident "a") (ident "b"),
      binary .gt (ident "c") (member (ident "x") "y" true)]
    let x := (lower {} ⟨.empty, .empty, []⟩ e none).value
    parse "f(a < b, c > x?.y)" = .ok e ∧ (e.Every fun n => n.isInterpolated = false) ∧
      ∃ e', parse x.source = .ok e' ∧ e'.bare ≠ x.bare := by
  intro e x
  have hchain : closeChain ⟨.empty, .empty, []⟩ (member (ident "x") "y" true) none
      ((present ⟨.empty, .empty, []⟩ (ident "x") true (.plain (ident "x"))).mapExpr (·.dot "y")) =
      conditional (notNull (ident "x")) (dot (ident "x") "y") (.defaultValue none) := by
    decide +kernel
  have hlowered : x = call (ident "f") [binary .lt (ident "a") (ident "b"),
      binary .gt (ident "c") (conditional (notNull (ident "x")) (dot (ident "x") "y")
        (.defaultValue none))] := by
    simp [e, x, call, lower, Lowering.expr, argument, node, spine, chainOptional, unparen, children,
      withChildren, hchain]
  refine ⟨ok_of_toOption (by decide +kernel),
    (by decide +kernel : ∀ n ∈ e.nodes, n.isInterpolated = false),
    call (ident "f") [.invoke (ident "a") [.simple "b", .simple "c"]
      [conditional (notNull (ident "x")) (dot (ident "x") "y") (.defaultValue none)]], ?_, ?_⟩
  · rw [hlowered]
    exact ok_of_toOption (by decide +kernel)
  · rw [hlowered]
    decide +kernel

end Projection.Lowering
