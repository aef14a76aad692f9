import Projection.Proofs.Expr.Lexed
import Projection.Proofs.Grammar.Built

/-!
Operators between atoms. The text of a chain is read as the only tree over it whose operators group
by precedence, and operators of one precedence by their side. That there is such a tree is shown by
building it from the left, one operator and one atom at a time.
-/

namespace Projection

open Text Lexer Scan

/-- An operand of one token: a name that is no word of the grammar, bare or behind the sign that
makes any word a name, or a whole number. -/
inductive Atom where
  | name (word : String) (spelled : IsName word) (free : Expr.isReserved word = false)
  | verbatim (word : String) (spelled : IsName word) (free : Expr.isReserved word = false)
  | number (digits : String) (spelled : (Token.int digits).Valid)

namespace Atom

def text : Atom → String
  | name word _ _ => word
  | verbatim word _ _ => "@" ++ word
  | number digits _ => digits

def expr : Atom → Expr
  | name word _ _ | verbatim word _ _ => .ident word
  | number digits _ => .literal (.int digits)

end Atom

structure Chain where
  first : Atom
  rest : List (BinaryOp × Atom)

namespace Chain

def source (c : Chain) : String :=
  join " " (c.first.text :: c.rest.flatMap fun x => [x.1.spelling, x.2.text])

def items (c : Chain) : List (Expr ⊕ BinaryOp) :=
  .inl c.first.expr :: c.rest.flatMap fun x => [.inr x.1, .inl x.2.expr]

end Chain

namespace Expr

open Grammar (rightLimit)

def inorder : Expr → List (Expr ⊕ BinaryOp)
  | binary op l r => l.inorder ++ .inr op :: r.inorder
  | e => [.inl e]

def BindsFrom (least : Nat) : Expr → Prop
  | binary op _ _ => least ≤ op.precedence
  | _ => True

/-- The operands of the node bind more tightly than its operator, or as tightly on the side to which
the operator groups. -/
def Grouped : Expr → Prop
  | binary .coalesce l r =>
      l.BindsFrom (BinaryOp.coalesce.precedence + 1) ∧ r.BindsFrom BinaryOp.coalesce.precedence
  | binary op l r => l.BindsFrom op.precedence ∧ r.BindsFrom (op.precedence + 1)
  | _ => True

theorem grouped_binary_iff {op : BinaryOp} {l r : Expr} :
    (binary op l r).Grouped ↔ l.BindsFrom (leftLimit op) ∧ r.BindsFrom (rightLimit op) := by
  cases op <;> exact Iff.rfl

theorem BindsFrom.le_power {least : Nat} {e : Expr} (h : e.BindsFrom least)
    (hleast : least ≤ primaryPower) (hleaf : e.power = primaryPower ∨ ∃ op l r, e = binary op l r) :
    least ≤ e.power := by
  rcases hleaf with hpower | ⟨op, l, r, rfl⟩
  · rwa [hpower]
  · exact h

inductive OfAtoms : Expr → Prop
  | atom (a : Atom) : OfAtoms a.expr
  | binary {op : BinaryOp} {l r : Expr} : OfAtoms l → OfAtoms r → OfAtoms (.binary op l r)

theorem ofAtoms_of_inorder {e : Expr} (h : ∀ x, .inl x ∈ e.inorder → ∃ a : Atom, x = a.expr) :
    OfAtoms e := by
  induction e using childInduction with
  | h e ih =>
      cases e with
      | binary op l r =>
          have hmem {x : Expr} : .inl x ∈ (binary op l r).inorder ↔
              .inl x ∈ l.inorder ∨ .inl x ∈ r.inorder := by
            simp [inorder]
          exact .binary (ih l (by simp [children]) fun x hx => h x (hmem.2 (.inl hx)))
            (ih r (by simp [children]) fun x hx => h x (hmem.2 (.inr hx)))
      | _ =>
          obtain ⟨a, ha⟩ := h _ List.mem_cons_self
          exact ha ▸ .atom a

/-- One more operator and atom behind a tree. They go below the operators of its right edge that
leave their right operand to them. -/
def extend (op : BinaryOp) (a : Atom) : Expr → Expr
  | binary root l r =>
      if rightLimit root ≤ op.precedence then binary root l (r.extend op a)
      else binary op (binary root l r) a.expr
  | e => binary op e a.expr

theorem inorder_extend (op : BinaryOp) (a : Atom) (e : Expr) :
    (e.extend op a).inorder = e.inorder ++ [.inr op, .inl a.expr] := by
  have ha : a.expr.inorder = [.inl a.expr] := by cases a <;> rfl
  fun_induction extend op a e with
  | case1 root l r _ ih => simp [inorder, ih]
  | case2 root l r => simp [inorder, ha]
  | case3 e => simp [inorder, ha]

theorem bindsFrom_atom (least : Nat) (a : Atom) : a.expr.BindsFrom least := by
  cases a <;> trivial

/-- The operator at the root is the old one or the new one. -/
theorem BindsFrom.extend {least : Nat} {op : BinaryOp} {a : Atom} {e : Expr}
    (h : e.BindsFrom least) (hop : least ≤ op.precedence) : (e.extend op a).BindsFrom least := by
  fun_cases Expr.extend op a e with
  | case1 => exact h
  | case2 => exact hop
  | case3 => exact hop

/-- An operator that does not leave its right operand to the next one becomes an operand of it. -/
theorem leftLimit_le_of_lt {op root : BinaryOp} (h : op.precedence < rightLimit root) :
    leftLimit op ≤ root.precedence := by
  have hop := Grammar.precedence_cases op
  have hroot := Grammar.precedence_cases root
  unfold rightLimit at h
  unfold leftLimit
  grind

theorem every_grouped_binary {op : BinaryOp} {l r : Expr} :
    (binary op l r).Every Grouped ↔ (l.BindsFrom (leftLimit op) ∧ r.BindsFrom (rightLimit op)) ∧
      l.Every Grouped ∧ r.Every Grouped := by
  rw [every_iff, grouped_binary_iff]
  simp [children]

theorem every_grouped_atom (a : Atom) : a.expr.Every Grouped := by
  cases a <;> exact every_iff.2 ⟨trivial, nofun⟩

theorem every_grouped_extend (op : BinaryOp) (a : Atom) {e : Expr} (h : e.Every Grouped) :
    (e.extend op a).Every Grouped := by
  fun_induction extend op a e with
  | case1 root l r hle ih =>
      obtain ⟨⟨hl, hr⟩, hlow, hrow⟩ := every_grouped_binary.1 h
      exact every_grouped_binary.2 ⟨⟨hl, hr.extend hle⟩, hlow, ih hrow⟩
  | case2 root l r hlt =>
      have hroot : leftLimit op ≤ root.precedence := leftLimit_le_of_lt (Nat.not_le.1 hlt)
      exact every_grouped_binary.2 ⟨⟨hroot, bindsFrom_atom _ a⟩, h, every_grouped_atom a⟩
  | case3 e hleaf =>
      have he : e.BindsFrom (leftLimit op) := by
        cases e with
        | binary root l r => exact absurd rfl (hleaf root l r)
        | _ => trivial
      exact every_grouped_binary.2 ⟨⟨he, bindsFrom_atom _ a⟩, h, every_grouped_atom a⟩

end Expr

namespace Chain

open Projection.Expr

theorem exists_grouped (c : Chain) : ∃ e : Expr, e.inorder = c.items ∧ e.Every Grouped := by
  obtain ⟨first, rest⟩ := c
  have hrun (done : List (Expr ⊕ BinaryOp)) (e : Expr) (he : e.inorder = done)
      (hg : e.Every Grouped) : ∃ e : Expr,
        e.inorder = done ++ rest.flatMap (fun x => [.inr x.1, .inl x.2.expr]) ∧
          e.Every Grouped := by
    induction rest generalizing done e with
    | nil => exact ⟨e, by simpa using he, hg⟩
    | cons x rest ih =>
        have hstep := ih _ (e.extend x.1 x.2) (inorder_extend x.1 x.2 e)
          (every_grouped_extend x.1 x.2 hg)
        simpa [he] using hstep
  have hfirst : first.expr.inorder = [.inl first.expr] := by cases first <;> rfl
  exact hrun _ first.expr hfirst (every_grouped_atom first)

theorem exists_atom {c : Chain} {x : Expr} (h : .inl x ∈ c.items) : ∃ a : Atom, x = a.expr := by
  simp only [items, List.mem_cons, Sum.inl.injEq, List.mem_flatMap, List.not_mem_nil,
    reduceCtorEq, false_or, or_false] at h
  rcases h with rfl | ⟨y, -, rfl⟩
  · exact ⟨_, rfl⟩
  · exact ⟨_, rfl⟩

end Chain

namespace Expr

def itemTokens : Expr ⊕ BinaryOp → List Token := Sum.elim tokens fun op => [.punct op.punct]

theorem OfAtoms.power {e : Expr} (h : OfAtoms e) :
    e.power = primaryPower ∨ ∃ op l r, e = .binary op l r := by
  cases h with
  | atom a => exact .inl (by cases a <;> rfl)
  | binary hl hr => exact .inr ⟨_, _, _, rfl⟩

theorem OfAtoms.endsAsType {e : Expr} (h : OfAtoms e) : e.endsAsType = false := by
  induction h with
  | atom a => cases a <;> rfl
  | binary hl hr ihl ihr => exact ihr

theorem unwrapped_of_grouped {op : BinaryOp} {l r : Expr} (hl : OfAtoms l) (hr : OfAtoms r)
    (h : (binary op l r).Grouped) : (binary op l r).Unwrapped := by
  obtain ⟨hleft, hright⟩ := grouped_binary_iff.1 h
  have hlimits := limit_le_primaryPower op
  exact ⟨hleft.le_power hlimits.1 hl.power, hright.le_power hlimits.2 hr.power⟩

theorem printable_atom (a : Atom) : a.expr.Printable .none := by
  cases a with
  | name word spelled free | verbatim word spelled free =>
      exact ⟨⟨⟨List.forall_mem_singleton.2 spelled, nofun, trivial, rfl⟩, free⟩, trivial⟩
  | number digits spelled =>
      exact ⟨⟨⟨List.forall_mem_singleton.2 spelled, nofun, trivial, rfl⟩, trivial⟩, trivial⟩

theorem OfAtoms.every_printable {e : Expr} (h : OfAtoms e) (hg : e.Every Grouped) :
    e.Every (Printable .none) := by
  induction h with
  | atom a => exact every_iff.2 ⟨printable_atom a, by cases a <;> nofun⟩
  | binary hl hr ihl ihr =>
      obtain ⟨-, hlow, hrow⟩ := every_grouped_binary.1 hg
      refine every_iff.2 ⟨⟨⟨⟨nofun, nofun, trivial, rfl⟩, fun _ => hl.endsAsType⟩,
        unwrapped_of_grouped hl hr hg.self⟩, ?_⟩
      simpa [children] using ⟨ihl hlow, ihr hrow⟩

theorem OfAtoms.tokens {e : Expr} (h : OfAtoms e) (hg : e.Every Grouped) :
    e.tokens = e.inorder.flatMap itemTokens := by
  induction h with
  | atom a => cases a <;> simp [inorder, itemTokens, Atom.expr]
  | binary hl hr ihl ihr =>
      obtain ⟨-, hlow, hrow⟩ := every_grouped_binary.1 hg
      rw [tokens_binary (unwrapped_of_grouped hl hr hg.self), ihl hlow, ihr hrow, inorder]
      simp [itemTokens]

theorem OfAtoms.openParen_not_mem {e : Expr} (h : OfAtoms e) (hg : e.Every Grouped) :
    .punct .openParen ∉ e.tokens := by
  induction h with
  | atom a => cases a <;> simp [Atom.expr, Expr.tokens, Literal.token]
  | @binary op l r hl hr ihl ihr =>
      obtain ⟨-, hlow, hrow⟩ := every_grouped_binary.1 hg
      have hop : op.punct ≠ .openParen := by cases op <;> decide
      rw [tokens_binary (unwrapped_of_grouped hl hr hg.self)]
      simp [ihl hlow, ihr hrow, hop.symm]

end Expr

namespace Grammar

open Projection.Expr

theorem callTypeArgs?_eq_none_of_not_mem {ts : List Token} (h : .punct .openParen ∉ ts) :
    callTypeArgs? ts = none := by
  refine eq_none_of_not_found fun us rest hfound => ?_
  obtain ⟨more, rfl, hlist⟩ := found_callTypeArgs?_iff.1 hfound
  obtain ⟨n, w, rfl, -⟩ := wordTypes_kept.all.2 more us _ hlist
  exact h (by simp)

theorem clear_iff {e : Expr} {p : List Token} :
    Clear e p ↔ isMistaken (e, p) = false ∧ ∀ x ∈ e.operands, Clear x.1 (x.2 ++ p) := by
  unfold Clear
  rw [followed_eq]
  simp only [List.mem_cons, forall_eq_or_imp, List.mem_flatMap, forall_exists_index, and_imp]
  exact and_congr_right fun _ => ⟨fun h x hx y hy => h y x hx hy, fun h y x hx hy => h x hx y hy⟩

/-- Generic arguments end in front of a parenthesis, and atoms have none. -/
theorem clear_of_ofAtoms {e : Expr} (h : OfAtoms e) (hg : e.Every Grouped) {p : List Token}
    (hp : .punct .openParen ∉ e.tokens ++ p) : Clear e p := by
  induction h generalizing p with
  | atom a =>
      refine clear_iff.2 ⟨?_, ?_⟩
      · cases a <;> rfl
      · cases a <;> nofun
  | @binary op l r hl hr ihl ihr =>
      obtain ⟨-, hlow, hrow⟩ := every_grouped_binary.1 hg
      rw [tokens_binary (unwrapped_of_grouped hl hr hg.self), List.append_assoc,
        List.cons_append] at hp
      have hright : .punct .openParen ∉ .punct op.punct :: (r.tokens ++ p) := fun hmem =>
        hp (List.mem_append_right _ hmem)
      refine clear_iff.2 ⟨?_, ?_⟩
      · cases op with
        | lt =>
            have hargs := callTypeArgs?_eq_none_of_not_mem hright
            rw [BinaryOp.punct] at hargs
            rw [isMistaken, hargs]
            exact Bool.and_false _
        | _ => rfl
      · have hmore := fun hmem => hright (List.mem_cons_of_mem _ hmem)
        simpa [operands] using ⟨ihl hlow hp, ihr hrow hmore⟩

end Grammar

theorem Atom.scans (a : Atom) : Scans a.text a.expr.tokens := by
  cases a with
  | name word spelled free =>
      rw [expr, Expr.tokens]
      exact scans_ident spelled
  | verbatim word spelled free =>
      have hsign : Leads "@" := ⟨'@', [], rfl, by decide⟩
      rw [expr, Expr.tokens]
      refine ⟨hsign.append word, fun {cs ts} hb hts => ?_⟩
      rw [text, String.toList_append]
      exact Lexed.front (fronts_verbatim spelled hb) hts
  | number digits spelled =>
      have hdigits : (Literal.int digits).token.Valid := spelled
      rw [expr, Expr.tokens]
      exact scans_literal hdigits

theorem Chain.lexed_source (c : Chain) :
    Lexed c.source.toList (c.items.flatMap Expr.itemTokens) := by
  obtain ⟨first, rest⟩ := c
  induction rest generalizing first with
  | nil => simpa [source, items, Expr.itemTokens] using first.scans.lexed breaks_nil Lexed.nil
  | cons x rest ih =>
      have hop := lexed_punct x.1.punct (Punct.stands_blank _ _) (ih x.2).blank
      have hall := first.scans.lexed (breaks_cons (by decide) _) hop.blank
      rw [BinaryOp.spelling_punct] at hall
      simpa [source, items, Expr.itemTokens, join_cons_cons, String.toList_append] using hall

theorem Chain.parse_source_of_grouped {c : Chain} {e : Expr} (h : e.inorder = c.items)
    (hg : e.Every Expr.Grouped) : Expr.parse c.source = .ok e := by
  have hatoms : e.OfAtoms := Expr.ofAtoms_of_inorder fun x hx => Chain.exists_atom (h ▸ hx)
  have htokens := hatoms.tokens hg
  have hparen : .punct .openParen ∉ e.tokens ++ [] := by
    simpa using hatoms.openParen_not_mem hg
  have hread := Grammar.reads_tokens Grammar.reads_kept.toKeptOutside
    (Grammar.readsStrings_none _) (hatoms.every_printable hg)
    (Grammar.clear_of_ofAtoms hatoms hg hparen)
  obtain ⟨s, hs, hwords⟩ := c.lexed_source .start
  rw [← h, ← htokens] at hwords
  exact Expr.parse_eq_ok_iff.2 ⟨s, hs, hwords ▸ hread⟩

/-- A chain is read as the one tree over it whose operators group by precedence. -/
theorem Chain.parse_source (c : Chain) :
    ∃ e, Expr.parse c.source = .ok e ∧ e.inorder = c.items ∧ e.Every Expr.Grouped ∧
      ∀ e' : Expr, e'.inorder = c.items → e'.Every Expr.Grouped → e' = e := by
  obtain ⟨e, hitems, hgrouped⟩ := c.exists_grouped
  have hparse := Chain.parse_source_of_grouped hitems hgrouped
  refine ⟨e, hparse, hitems, hgrouped, fun e' hitems' hgrouped' => ?_⟩
  have hparse' := Chain.parse_source_of_grouped hitems' hgrouped'
  exact Except.ok.inj (hparse'.symm.trans hparse)

end Projection
