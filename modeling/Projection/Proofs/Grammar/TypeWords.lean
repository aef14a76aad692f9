import Projection.Proofs.Grammar.Boundaries
import Mathlib.Data.List.Chain

/-!
What a type looks like token by token: which tokens can stand next to each other in one, and that
its angle brackets come in pairs.
-/

namespace Projection.Grammar

/-- Only names stand before a point, brackets are closed at once, and no name follows a closing
angle bracket. -/
structure TypeSeam (a b : Token) : Prop where
  dot : b = .punct .dot → ∃ n, a = .ident n
  bracket : a = .punct .openBracket ∨ a = .punct .questionBracket → b = .punct .closeBracket
  greater : a = .punct .greater → ∀ n, b ≠ .ident n

/-- Tokens as in a type, that close so many angle brackets more than they open. -/
structure TypeWord (closed : Int) (w : List Token) : Prop where
  tokens : ∀ t ∈ w, isTypeToken t = true
  seams : w.IsChain TypeSeam
  balance : (w.count (.punct .greater) : Int) = w.count (.punct .less) + closed
  last : w.getLast? ≠ some (.punct .openBracket) ∧ w.getLast? ≠ some (.punct .questionBracket)

namespace TypeWord

variable {a b : Int} {u v : List Token}

theorem append (hu : TypeWord a u) (hv : TypeWord b v) (hne : v ≠ [])
    (hseam : ∀ x ∈ u.getLast?, ∀ y ∈ v.head?, TypeSeam x y) : TypeWord (a + b) (u ++ v) where
  tokens := List.forall_mem_append.2 ⟨hu.tokens, hv.tokens⟩
  seams := List.isChain_append.2 ⟨hu.seams, hv.seams, hseam⟩
  balance := by
    have := hu.balance
    have := hv.balance
    rw [List.count_append, List.count_append]
    omega
  last := by
    rw [List.getLast?_append_of_ne_nil u hne]
    exact hv.last

/-- What starts with neither a point nor a name can stand behind any word. -/
theorem more (hu : TypeWord a u) {t : Token} {w : List Token} (hv : TypeWord b (t :: w))
    (hdot : t ≠ .punct .dot) (hname : ∀ n, t ≠ .ident n) : TypeWord (a + b) (u ++ t :: w) := by
  refine hu.append hv (by simp) ?_
  rintro x hx y ⟨⟩
  refine ⟨fun h => absurd h hdot, ?_, fun _ => hname⟩
  rintro (rfl | rfl)
  · exact absurd hx hu.last.1
  · exact absurd hx hu.last.2

theorem singleton {t : Token} (ht : isTypeToken t = true)
    (hopen : t ≠ .punct .openBracket ∧ t ≠ .punct .questionBracket)
    (hb : (([t] : List Token).count (.punct .greater) : Int) = [t].count (.punct .less) + a) :
    TypeWord a [t] where
  tokens := List.forall_mem_singleton.2 ht
  seams := .singleton _
  balance := hb
  last := by simpa using hopen

theorem ident (n : String) : TypeWord 0 [.ident n] := singleton rfl (by simp) rfl

theorem brackets {p : Punct} (hp : p = .openBracket ∨ p = .questionBracket) :
    TypeWord 0 [.punct p, .punct .closeBracket] where
  tokens := by rcases hp with rfl | rfl <;> decide
  seams := List.isChain_pair.2 ⟨by simp, fun _ => rfl, fun _ => by simp⟩
  balance := by rcases hp with rfl | rfl <;> rfl
  last := by simp

theorem pointed (first : String) (names : List String) :
    TypeWord 0 (.ident first :: pointed names) := by
  induction names generalizing first with
  | nil => exact ident first
  | cons n names ih =>
      have hfront : TypeWord 0 [.ident first, .punct .dot] :=
        { tokens := by simp [isTypeToken]
          seams := List.isChain_pair.2 ⟨fun _ => ⟨first, rfl⟩, by simp, by simp⟩
          balance := rfl
          last := by simp }
      refine hfront.append (ih n) (by simp) ?_
      rintro _ ⟨⟩ _ ⟨⟩
      exact ⟨(by simp), by simp, by simp⟩

/-- The marks behind a type can stand behind any word. -/
theorem marks (hu : TypeWord a u) (t : TypeExpr) (ts : List Token) :
    ∃ m, ts = m ++ (typeMarks t ts).2 ∧ TypeWord a (u ++ m) := by
  fun_induction typeMarks t ts generalizing u with
  | case1 t rest ih =>
      have hmark : TypeWord 0 [.punct .question] := singleton rfl (by simp) rfl
      obtain ⟨m, hm, hword⟩ := ih (by simpa using hu.more hmark (by simp) (by simp))
      exact ⟨_ :: m, congrArg _ hm, by simpa using hword⟩
  | case2 t rest ih =>
      have hmark := brackets (.inr rfl)
      obtain ⟨m, hm, hword⟩ := ih (by simpa using hu.more hmark (by simp) (by simp))
      exact ⟨_ :: _ :: m, congrArg (_ :: _ :: ·) hm, by simpa using hword⟩
  | case3 t rest ih =>
      have hmark := brackets (.inl rfl)
      obtain ⟨m, hm, hword⟩ := ih (by simpa using hu.more hmark (by simp) (by simp))
      exact ⟨_ :: _ :: m, congrArg (_ :: _ :: ·) hm, by simpa using hword⟩
  | case4 t ts => exact ⟨[], rfl, by rwa [List.append_nil]⟩

end TypeWord

def wordTypes : TypeRelation where
  type ts _ rest := ∃ n w, ts = .ident n :: (w ++ rest) ∧ TypeWord 0 (.ident n :: w)
  list ts _ rest := ∃ n w, ts = .ident n :: (w ++ rest) ∧ TypeWord 1 (.ident n :: w)

theorem wordTypes_kept : wordTypes.Kept where
  generic := by
    rintro first ts more args rest hd ⟨n, w, rfl, hw⟩
    obtain ⟨names, -, hts⟩ := dotted_split first ts
    rw [hd] at hts
    have hopen : TypeWord (-1) [.punct .less] := TypeWord.singleton rfl (by simp) rfl
    have hargs : TypeWord 0 (.punct .less :: .ident n :: w) := by
      refine hopen.append hw (by simp) ?_
      rintro _ ⟨⟩ _ ⟨⟩
      exact ⟨(by simp), by simp, by simp⟩
    have hfront := (TypeWord.pointed first names).more hargs (by simp) (by simp)
    obtain ⟨m, hm, hword⟩ := hfront.marks (.named (dotted first ts).1 args) rest
    refine ⟨first, pointed names ++ .punct .less :: .ident n :: (w ++ m), ?_, ?_⟩
    · refine (congrArg (_ :: ·) hts).trans ?_
      simpa using hm
    · simpa using hword
  simple := by
    intro first ts _
    obtain ⟨names, -, hts⟩ := dotted_split first ts
    obtain ⟨m, hm, hword⟩ := (TypeWord.pointed first names).marks (.simple (dotted first ts).1)
      (dotted first ts).2
    refine ⟨first, pointed names ++ m, ?_, by simpa using hword⟩
    rw [List.append_assoc, ← hm, ← hts]
  next := by
    rintro ts t more us rest ⟨n, w, rfl, hw⟩ ⟨n', w', rfl, hw'⟩
    have hcomma : TypeWord 0 [.punct .comma] := TypeWord.singleton rfl (by simp) rfl
    have hrest : TypeWord (0 + 1) (.punct .comma :: .ident n' :: w') := by
      refine hcomma.append hw' (by simp) ?_
      rintro _ ⟨⟩ _ ⟨⟩
      exact ⟨(by simp), by simp, by simp⟩
    exact ⟨n, w ++ .punct .comma :: .ident n' :: w', by simp,
      by simpa using hw.more hrest (by simp) (by simp)⟩
  last := by
    rintro ts t rest ⟨n, w, rfl, hw⟩
    have hclose : TypeWord 1 [.punct .greater] := TypeWord.singleton rfl (by simp) rfl
    exact ⟨n, w ++ [.punct .greater], by simp, by simpa using hw.more hclose (by simp) (by simp)⟩

theorem exists_word_of_type {ts : List Token} {t : TypeExpr} {rest : List Token}
    (h : (type ts).Is t rest) : ∃ w, ts = w ++ rest ∧ TypeWord 0 w := by
  obtain ⟨n, w, hts, hw⟩ := wordTypes_kept.all.1 ts t rest h
  exact ⟨_, hts, hw⟩

end Projection.Grammar
