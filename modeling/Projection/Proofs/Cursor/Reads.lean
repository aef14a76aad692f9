import Projection.Proofs.Cursor.Rules

/-!
What computations on a cursor give, said of the tokens in front of which they start. `Gives`
compares a computation with what a rule of the grammar finds in these tokens, and is kept by each
way of putting computations together.
-/

namespace Projection

open Grammar

namespace Cursor

structure At (c : Cursor) (s : Scan) (ts : List Token) : Prop where
  scan : c.scan = s
  rest : s.words.drop c.pos = ts

variable {c : Cursor} {s : Scan} {ts : List Token}

theorem At.peekAt (h : c.At s ts) (offset : Nat) : c.peekAt offset = ts[offset]? := by
  obtain ⟨rfl, rfl⟩ := h
  rw [Cursor.peekAt, List.getElem?_drop]
  by_cases hlt : c.pos + offset < c.scan.words.length
  · rw [Nat.min_eq_left (Nat.le_of_lt hlt)]
  · rw [List.getElem?_eq_none (by omega), List.getElem?_eq_none (by omega)]

theorem At.skip (h : c.At s ts) (count : Nat) :
    Cursor.At { c with pos := c.pos + count } s (ts.drop count) :=
  ⟨h.scan, by rw [← h.rest, List.drop_drop]⟩

theorem At.advance {t : Token} (h : c.At s (t :: ts)) : c.advance.At s ts := by
  have hlt : c.pos < c.scan.words.length := by
    rw [h.scan]
    refine Nat.lt_of_not_le fun hle => ?_
    have hrest := h.rest
    rw [List.drop_eq_nil_of_le hle] at hrest
    cases hrest
  rw [Cursor.advance, if_pos (Nat.le_of_lt hlt)]
  exact h.skip 1

theorem At.error (h : c.At s ts) (what : String) :
    c.error what = (Fault.expected what ts.length).resolve s := by
  obtain ⟨rfl, rfl⟩ := h
  have hlen : c.scan.words.length = c.scan.tokens.length := List.length_map ..
  have hdrop : c.scan.tokens.drop (c.scan.tokens.length - (c.scan.words.drop c.pos).length) =
      c.scan.tokens.drop c.pos := by
    rw [List.length_drop, hlen]
    by_cases hle : c.pos ≤ c.scan.tokens.length
    · rw [Nat.sub_sub_self hle]
    · rw [List.drop_eq_nil_of_le (by omega), List.drop_eq_nil_of_le (by omega)]
  unfold Cursor.error Fault.resolve
  dsimp only
  rw [hdrop, ← List.head?_drop]
  cases c.scan.tokens.drop c.pos <;> rfl

end Cursor

namespace Reading

variable {α β γ : Type} {s : Scan} {ts mid rest : List Token} {limit : Nat}

def Reads (s : Scan) (x : Reading α) (ts : List Token) (a : α) (rest : List Token) : Prop :=
  ∀ c : Cursor, c.At s ts → ∃ c', x c = some (.ok a, c') ∧ c'.At s rest

def Fails (s : Scan) (x : Reading α) (ts : List Token) (f : Fault) : Prop :=
  ∀ c : Cursor, c.At s ts → ∃ c', x c = some (.error (f.resolve s), c') ∧ c'.scan = s

/-- In front of `ts` the computation gives what the rule found, as `f` makes it out, or fails like
the rule. -/
def Gives (s : Scan) (x : Reading β) (ts : List Token) (f : α → β) : Result α limit → Prop
  | .ok p => Reads s x ts (f p.value) p.rest
  | .error fault => Fails s x ts fault

def FindsHeader (s : Scan) (x : Reading (Option (List String))) (ts : List Token) :
    Option (List String × List Token) → Prop
  | none => Reads s x ts none ts
  | some (params, rest) => Reads s x ts (some params) rest

section Together

variable {x : Reading α} {k : α → Reading β} {a : α} {b : β} {f : γ → β} {fault : Fault}
  {r : Result γ limit}

theorem bind_apply_ok {c c' : Cursor} (h : x c = some (.ok a, c')) : (x >>= k) c = k a c' := by
  change Option.bind (x c) _ = _
  rw [h]
  rfl

theorem bind_apply_error {c c' : Cursor} {e : SyntaxError} (h : x c = some (.error e, c')) :
    (x >>= k) c = some (.error e, c') := by
  change Option.bind (x c) _ = _
  rw [h]
  rfl

theorem reads_pure (a : α) : Reads s (pure a) ts a ts := fun c hc => ⟨c, rfl, hc⟩

theorem Reads.bind (hx : Reads s x ts a mid) (hk : Reads s (k a) mid b rest) :
    Reads s (x >>= k) ts b rest := by
  intro c hc
  obtain ⟨c₁, hrun, hc₁⟩ := hx c hc
  rw [bind_apply_ok hrun]
  exact hk c₁ hc₁

theorem Reads.bind_fails (hx : Reads s x ts a mid) (hk : Fails s (k a) mid fault) :
    Fails s (x >>= k) ts fault := by
  intro c hc
  obtain ⟨c₁, hrun, hc₁⟩ := hx c hc
  rw [bind_apply_ok hrun]
  exact hk c₁ hc₁

theorem Reads.bind_gives (hx : Reads s x ts a mid) (hk : Gives s (k a) mid f r) :
    Gives s (x >>= k) ts f r := by
  cases r with
  | ok p => exact hx.bind hk
  | error fault => exact hx.bind_fails hk

theorem Reads.bind_findsHeader {k : α → Reading (Option (List String))}
    {found : Option (List String × List Token)} (hx : Reads s x ts a ts)
    (hk : FindsHeader s (k a) ts found) : FindsHeader s (x >>= k) ts found := by
  cases found with
  | none => exact hx.bind hk
  | some found => exact hx.bind hk

theorem Fails.bind (hx : Fails s x ts fault) : Fails s (x >>= k) ts fault := by
  intro c hc
  obtain ⟨c₁, hrun, hc₁⟩ := hx c hc
  exact ⟨c₁, bind_apply_error hrun, hc₁⟩

theorem Gives.reads {x : Reading β} (hx : Gives s x ts f r) {v : γ} {hb : weight rest < limit}
    (hr : r = .ok ⟨v, rest, hb⟩) : Reads s x ts (f v) rest := by
  subst hr
  exact hx

theorem Gives.fails {x : Reading β} (hx : Gives s x ts f r) (hr : r = .error fault) :
    Fails s x ts fault := by
  subst hr
  exact hx

theorem Gives.congr {x : Reading β} {g : γ → β} (hx : Gives s x ts f r) (hf : ∀ c, f c = g c) :
    Gives s x ts g r := by
  rwa [← funext hf]

/-- The rest of a rule only makes something out of what was found. -/
theorem Gives.map {x : Reading β} (hx : Gives s x ts f r) (g : β → α) :
    Gives s (x >>= fun b => pure (g b)) ts (fun c => g (f c)) r := by
  cases r with
  | ok p => exact Reads.bind hx (reads_pure _)
  | error fault => exact Fails.bind hx

theorem reads_get {k : Cursor → Reading β} (h : ∀ c : Cursor, c.At s ts → Reads s (k c) ts b rest) :
    Reads s (get >>= k) ts b rest :=
  fun c hc => h c hc c hc

theorem gives_get {k : Cursor → Reading β}
    (h : ∀ c : Cursor, c.At s ts → Gives s (k c) ts f r) : Gives s (get >>= k) ts f r := by
  cases r with
  | ok p => exact fun c hc => h c hc c hc
  | error fault => exact fun c hc => h c hc c hc

/-- Where no cursor stands there is nothing to show. -/
theorem gives_of_at {x : Reading β} (h : ∀ c : Cursor, c.At s ts → Gives s x ts f r) :
    Gives s x ts f r := by
  cases r with
  | ok p => exact fun c hc => h c hc c hc
  | error fault => exact fun c hc => h c hc c hc

theorem Reads.attempt (hx : Reads s x ts a rest) : Reads s (attempt x) ts (some a) rest := by
  intro c hc
  obtain ⟨c', hrun, hc'⟩ := hx c hc
  refine ⟨c', ?_, hc'⟩
  rw [Reading.attempt, hrun]
  rfl

/-- Behind a trial that fails the cursor may be anywhere. -/
theorem Fails.attempt_bind {k : Option α → Reading β} (hx : Fails s x ts fault)
    (hk : ∀ mid, Reads s (k none) mid b rest) : Reads s (Reading.attempt x >>= k) ts b rest := by
  intro c hc
  obtain ⟨c₁, hrun, hc₁⟩ := hx c hc
  have hnone : Reading.attempt x c = some (.ok none, c₁) := by
    rw [Reading.attempt, hrun]
    rfl
  rw [bind_apply_ok hnone]
  exact hk _ c₁ ⟨hc₁, rfl⟩

theorem reads_giveUp {start : Cursor} (h : start.At s ts) (mid : List Token) :
    Reads s (giveUp start.pos : Reading (Option α)) mid none ts :=
  fun c hc => ⟨{ c with pos := start.pos }, rfl, hc.scan, h.rest⟩

end Together

section Tokens

variable {t : Token} {p : Punct}

theorem reads_peekAt (offset : Nat) : Reads s (peekAt offset) ts ts[offset]? ts := by
  intro c hc
  refine ⟨c, ?_, hc⟩
  rw [← hc.peekAt]
  rfl

theorem reads_advance : Reads s advance (t :: ts) () ts := fun c hc => ⟨c.advance, rfl, hc.advance⟩

theorem reads_skip (count : Nat) : Reads s (skip count) ts () (ts.drop count) :=
  fun _ hc => ⟨_, rfl, hc.skip count⟩

theorem fails_refuse (what : String) :
    Fails s (refuse what : Reading α) ts (.expected what ts.length) := by
  intro c hc
  refine ⟨c, ?_, hc.scan⟩
  rw [← hc.error]
  rfl

theorem reads_isAt : Reads s (isAt p) (.punct p :: ts) true (.punct p :: ts) := by
  refine (reads_peekAt 0).bind ?_
  have hfront : decide ((Token.punct p :: ts)[0]? = some (.punct p)) = true := decide_eq_true rfl
  rw [hfront]
  exact reads_pure true

theorem reads_isAt_false (h : ∀ more, ts ≠ .punct p :: more) : Reads s (isAt p) ts false ts := by
  refine (reads_peekAt 0).bind ?_
  have hfront : decide (ts[0]? = some (.punct p)) = false := by
    refine decide_eq_false fun hp => ?_
    cases ts with
    | nil => cases hp
    | cons t ts =>
        cases hp
        exact h ts rfl
  rw [hfront]
  exact reads_pure false

theorem reads_eat : Reads s (eat p) (.punct p :: ts) true ts :=
  reads_isAt.bind (reads_advance.bind (reads_pure true))

theorem reads_eat_false (h : ∀ more, ts ≠ .punct p :: more) : Reads s (eat p) ts false ts :=
  (reads_isAt_false h).bind (reads_pure false)

/-- A look ahead that decides how to go on. -/
theorem gives_peekAt {offset : Nat} {look : Option Token → Reading α} {k : α → Reading β}
    {f : γ → β} {r : Result γ limit} (h : Gives s (look ts[offset]? >>= k) ts f r) :
    Gives s ((peekAt offset >>= look) >>= k) ts f r := by
  rw [bind_assoc]
  exact (reads_peekAt offset).bind_gives h

section Branches

variable {x y : Reading β} {f : γ → β} {r : Result γ limit}

theorem gives_isAt (h : Gives s x (.punct p :: ts) f r) :
    Gives s (isAt p >>= fun yes => if yes = true then x else y) (.punct p :: ts) f r :=
  reads_isAt.bind_gives (by rwa [if_pos rfl])

theorem gives_isAt_false (hp : ∀ more, ts ≠ .punct p :: more) (h : Gives s y ts f r) :
    Gives s (isAt p >>= fun yes => if yes = true then x else y) ts f r :=
  (reads_isAt_false hp).bind_gives (by rwa [if_neg Bool.false_ne_true])

theorem gives_eat (h : Gives s x ts f r) :
    Gives s (eat p >>= fun yes => if yes = true then x else y) (.punct p :: ts) f r :=
  reads_eat.bind_gives (by rwa [if_pos rfl])

theorem gives_eat_false (hp : ∀ more, ts ≠ .punct p :: more) (h : Gives s y ts f r) :
    Gives s (eat p >>= fun yes => if yes = true then x else y) ts f r :=
  (reads_eat_false hp).bind_gives (by rwa [if_neg Bool.false_ne_true])

end Branches

theorem reads_expect : Reads s (expect p) (.punct p :: ts) () ts := reads_eat.bind (reads_pure ())

theorem fails_expect {what : String} (hw : "'" ++ p.spelling ++ "'" = what)
    (h : ∀ more, ts ≠ .punct p :: more) : Fails s (expect p) ts (.expected what ts.length) := by
  subst hw
  exact (reads_eat_false h).bind_fails (fails_refuse _)

theorem reads_expectName {name : String} : Reads s expectName (.ident name :: ts) name ts :=
  (reads_peekAt 0).bind (reads_advance.bind (reads_pure name))

theorem fails_expectName (h : ∀ name more, ts ≠ .ident name :: more) :
    Fails s expectName ts (.expected "identifier" ts.length) := by
  refine (reads_peekAt 0).bind_fails ?_
  split
  · rename_i name hname
    cases ts with
    | nil => cases hname
    | cons t ts =>
        cases hname
        exact absurd rfl (h name ts)
  · exact fails_refuse _

theorem reads_expectEnd : Reads s expectEnd [] () [] := (reads_peekAt 0).bind (reads_pure ())

theorem fails_expectEnd : Fails s expectEnd (t :: ts) (.expected "end of input" (ts.length + 1)) :=
  (reads_peekAt 0).bind_fails (fails_refuse _)

end Tokens

end Reading

end Projection
