import Projection.Proofs.Grammar.TypeRules
import Projection.Proofs.Token.Lexed

/-!
The tokens of a type. What source text can spell as a type is read back from the tokens that spell
it, in front of anything that neither carries the name on nor opens generic arguments.
-/

namespace Projection

open Text

def pointed (names : List String) : List Token := names.flatMap fun n => [.punct .dot, .ident n]

def nameTokens (name : String) : List Token :=
  match splitAt '.' name with
  | [] => []
  | first :: names => .ident first :: pointed names

theorem nameTokens_dottedName {first : String} {names : List String}
    (h : ∀ n ∈ first :: names, IsName n) :
    nameTokens (dottedName first names) = .ident first :: pointed names := by
  rw [nameTokens, splitAt_dottedName fun n hn => (h n hn).point_not_mem]

namespace TypeExpr

mutual

def tokens : TypeExpr → List Token
  | named name [] => nameTokens name
  | named name (a :: as) => nameTokens name ++ .punct .less :: (tokens a ++ moreTokens as)
  | generated id => [.ident id.placeholder]
  | array (nullable t) => tokens t ++ [.punct .questionBracket, .punct .closeBracket]
  | array t => tokens t ++ [.punct .openBracket, .punct .closeBracket]
  | nullable t => tokens t ++ [.punct .question]

def moreTokens : List TypeExpr → List Token
  | [] => [.punct .greater]
  | t :: ts => .punct .comma :: (tokens t ++ moreTokens ts)

end

def listTokens : List TypeExpr → List Token
  | [] => []
  | t :: ts => tokens t ++ moreTokens ts

def isNullable : TypeExpr → Bool
  | nullable _ => true
  | _ => false

theorem asNullable_eq {t : TypeExpr} (h : t.isNullable = false) : t.asNullable = nullable t := by
  cases t with
  | nullable t => cases h
  | _ => rfl

theorem tokens_array {t : TypeExpr} (h : t.isNullable = false) :
    (array t).tokens = t.tokens ++ [.punct .openBracket, .punct .closeBracket] := by
  rw [tokens]
  rintro u rfl
  cases h

/-- Types that source text can spell: names of a source, and no mark `?` twice. -/
inductive Readable : TypeExpr → Prop
  | named {first names args} : (∀ n ∈ first :: names, IsName n) → (∀ a ∈ args, Readable a) →
      Readable (.named (dottedName first names) args)
  | array {t} : Readable t → Readable (.array t)
  | nullable {t} : Readable t → t.isNullable = false → Readable (.nullable t)

end TypeExpr

namespace Grammar

theorem dotted_pointed (first : String) (names : List String) {p : List Token}
    (hp : p.head? ≠ some (.punct .dot)) :
    dotted first (pointed names ++ p) = (dottedName first names, p) := by
  induction names generalizing first with
  | nil =>
      change dotted first p = _
      unfold dotted
      split
      · exact absurd rfl hp
      · rfl
  | cons n names ih => exact ih _

theorem dotted_split (first : String) (ts : List Token) :
    ∃ names, (dotted first ts).1 = dottedName first names ∧
      ts = pointed names ++ (dotted first ts).2 := by
  fun_induction dotted first ts with
  | case1 first next rest ih =>
      obtain ⟨names, hn, hr⟩ := ih
      exact ⟨next :: names, hn, congrArg (fun ts => _ :: _ :: ts) hr⟩
  | case2 first ts => exact ⟨[], rfl, rfl⟩

open TypeExpr

def Closes (p : List Token) : Prop :=
  p.head? ≠ some (.punct .dot) ∧ p.head? ≠ some (.punct .less)

def ReadsBack (t : TypeExpr) : Prop :=
  ∀ p, Closes p → readsType.type (t.tokens ++ p) (typeMarks t p).1 (typeMarks t p).2

theorem list_tokens {t : TypeExpr} {ts : List TypeExpr} (h : ∀ u ∈ t :: ts, ReadsBack u)
    (p : List Token) : readsType.list (t.tokens ++ (moreTokens ts ++ p)) (t :: ts) p := by
  induction ts generalizing t with
  | nil =>
      rw [moreTokens, List.singleton_append]
      exact readsType_kept.last (h t List.mem_cons_self (.punct .greater :: p) (by simp [Closes]))
  | cons u us ih =>
      rw [moreTokens, List.cons_append, List.append_assoc]
      exact readsType_kept.next (h t List.mem_cons_self (.punct .comma :: _) (by simp [Closes]))
        (ih fun v hv => h v (List.mem_cons_of_mem _ hv))

theorem readsBack_named {first : String} {names : List String}
    (hn : ∀ n ∈ first :: names, IsName n) {args : List TypeExpr} (ha : ∀ a ∈ args, ReadsBack a) :
    ReadsBack (.named (dottedName first names) args) := by
  intro p hp
  cases args with
  | nil =>
      have hd := dotted_pointed first names hp.1
      have hless : ∀ more, (dotted first (pointed names ++ p)).2 ≠ .punct .less :: more := by
        rw [hd]
        rintro more rfl
        exact hp.2 rfl
      have hread := readsType_kept.simple hless
      rw [hd] at hread
      rw [tokens, nameTokens_dottedName hn]
      exact hread
  | cons a as =>
      have hd : dotted first (pointed names ++ .punct .less :: (a.tokens ++ (moreTokens as ++ p))) =
          _ := dotted_pointed first names (by simp)
      have hread := readsType_kept.generic (congrArg Prod.snd hd) (list_tokens ha p)
      rw [hd] at hread
      rw [tokens, nameTokens_dottedName hn]
      simpa using hread

theorem readsBack_of_readable {t : TypeExpr} (h : t.Readable) : ReadsBack t := by
  suffices hboth : ReadsBack t ∧ ∀ u, t = .nullable u → ReadsBack u from hboth.1
  induction h with
  | named hn _ ih =>
      refine ⟨readsBack_named hn fun a ha => (ih a ha).1, ?_⟩
      rintro u ⟨⟩
  | @array t h ih =>
      refine ⟨?_, by rintro u ⟨⟩⟩
      intro p _
      cases h with
      | nullable _ hn =>
          have hread := ih.2 _ rfl (.punct .questionBracket :: .punct .closeBracket :: p)
            (by simp [Closes])
          rw [typeMarks, asNullable_eq hn] at hread
          rw [tokens]
          simpa using hread
      | named | array =>
          have hread := ih.1 (.punct .openBracket :: .punct .closeBracket :: p) (by simp [Closes])
          rw [typeMarks] at hread
          rw [tokens_array rfl]
          simpa using hread
  | @nullable t _ hn ih =>
      refine ⟨?_, fun u hu => ?_⟩
      · intro p _
        have hread := ih.1 (.punct .question :: p) (by simp [Closes])
        rw [typeMarks, asNullable_eq hn] at hread
        rw [tokens]
        simpa using hread
      · cases hu
        exact ih.1

theorem type_tokens {t : TypeExpr} (h : t.Readable) {q : Punct} {more : List Token}
    (hq : q ∉ [.dot, .less, .question, .questionBracket, .openBracket]) :
    (type (t.tokens ++ .punct q :: more)).Is t (.punct q :: more) := by
  simp only [List.mem_cons, List.not_mem_nil, or_false, not_or] at hq
  have hmarks : typeMarks t (.punct q :: more) = (t, .punct q :: more) := by
    unfold typeMarks
    split <;> simp_all
  have hread := readsBack_of_readable h (.punct q :: more) (by simp [Closes, hq])
  rw [hmarks] at hread
  exact hread

end Grammar

end Projection
