import Projection.Proofs.Cursor.Rules

/-!
Where the cursor goes. No rule ends before the place where it began, whether it succeeds or fails.
A loop goes on only behind a token that it took, and a trial that is given up leaves the cursor
where it was.
-/

namespace Projection

open Grammar

namespace Cursor

structure Before (c c' : Cursor) : Prop where
  scan : c'.scan = c.scan
  pos : c.pos ≤ c'.pos

structure Passed (c c' : Cursor) : Prop where
  scan : c'.scan = c.scan
  left : c'.left < c.left

variable {c c₁ c₂ : Cursor}

theorem Before.refl (c : Cursor) : c.Before c := ⟨rfl, Nat.le_refl _⟩

theorem Before.trans (h : c.Before c₁) (h' : c₁.Before c₂) : c.Before c₂ :=
  ⟨h'.scan.trans h.scan, Nat.le_trans h.pos h'.pos⟩

theorem Before.left_le (h : c.Before c₁) : c₁.left ≤ c.left := by
  have := h.pos
  rw [left, left, h.scan]
  omega

theorem Before.trans_passed (h : c.Before c₁) (h' : c₁.Passed c₂) : c.Passed c₂ :=
  ⟨h'.scan.trans h.scan, Nat.lt_of_lt_of_le h'.left h.left_le⟩

theorem Passed.trans_before (h : c.Passed c₁) (h' : c₁.Before c₂) : c.Passed c₂ :=
  ⟨h'.scan.trans h.scan, Nat.lt_of_le_of_lt h'.left_le h.left⟩

theorem before_skip (c : Cursor) (count : Nat) : c.Before { c with pos := c.pos + count } :=
  ⟨rfl, Nat.le_add_right _ _⟩

theorem before_advance (c : Cursor) : c.Before c.advance := by
  unfold advance
  split
  · exact before_skip c 1
  · exact .refl c

theorem lt_of_peekAt {offset : Nat} {t : Token} (h : c.peekAt offset = some t) :
    c.pos + offset < c.scan.words.length := by
  obtain ⟨hlt, -⟩ := List.getElem?_eq_some_iff.1 h
  omega

theorem passed_skip {t : Token} (h : c.peekAt 0 = some t) (count : Nat) :
    c.Passed { c with pos := c.pos + (count + 1) } := by
  have := lt_of_peekAt h
  refine ⟨rfl, ?_⟩
  simp only [left]
  omega

theorem passed_advance {t : Token} (h : c.peekAt 0 = some t) : c.Passed c.advance := by
  have := lt_of_peekAt h
  rw [advance, if_pos (by omega)]
  exact passed_skip h 0

end Cursor

namespace Reading

variable {α β σ : Type}

/-- What a computation that goes on with `k` can come to. -/
theorem bind_cases {x : Reading α} {k : α → Reading β} {c c' : Cursor}
    {o : Except SyntaxError β} (h : (x >>= k) c = some (o, c')) :
    (∃ a c₁, x c = some (.ok a, c₁) ∧ k a c₁ = some (o, c')) ∨
      ∃ e, x c = some (.error e, c') ∧ o = .error e := by
  change Option.bind (x c) _ = _ at h
  obtain ⟨⟨_ | _, c₁⟩, hx, hk⟩ := Option.bind_eq_some_iff.1 h
  · cases hk
    exact .inr ⟨_, hx, rfl⟩
  · exact .inl ⟨_, c₁, hx, hk⟩

/-- From `c` on, the cursor never ends up before `c`. -/
def ForwardAt (x : Reading α) (c : Cursor) : Prop := ∀ o c', x c = some (o, c') → c.Before c'

def Forward (x : Reading α) : Prop := ∀ c, x.ForwardAt c

def TakesAt (x : Reading α) (c : Cursor) : Prop := ∀ a c', x c = some (.ok a, c') → c.Passed c'

def Takes (x : Reading α) : Prop := ∀ c, x.TakesAt c

def ConsumesAt (x : Reading (Turn σ α)) (c : Cursor) : Prop :=
  ∀ s c', x c = some (.ok (.again s), c') → c.Passed c'

def Consumes (x : Reading (Turn σ α)) : Prop := ∀ c, x.ConsumesAt c

/-- From `c` on, the turn leaves the cursor alone, and it stops the loop or has seen a token at the
place it looked at and goes on to the next place. -/
def SeesAt (s : Header) (x : Reading (Turn Header (Option (Nat × List String)))) (c : Cursor) :
    Prop :=
  ∀ o c', x c = some (o, c') → c' = c ∧ ∀ s', o = .ok (.again s') →
    s'.offset = s.offset + 1 ∧ c.pos + s.offset < c.scan.words.length

/-- If nothing comes of the trial, the cursor is left where it was. -/
def Restores (x : Reading (Option α)) : Prop := ∀ c c', x c = some (.ok none, c') → c' = c

section Forward

theorem forward_pure (a : α) : Forward (pure a) := by
  intro c o c' h
  cases h
  exact .refl c

theorem ForwardAt.bind {x : Reading α} {k : α → Reading β} {c : Cursor} (hx : x.ForwardAt c)
    (hk : ∀ a, (k a).Forward) : (x >>= k).ForwardAt c := by
  intro o c' h
  obtain ⟨a, c₁, h₁, h₂⟩ | ⟨e, h₁, -⟩ := bind_cases h
  · exact (hx _ _ h₁).trans (hk a c₁ _ _ h₂)
  · exact hx _ _ h₁

theorem Forward.bind {x : Reading α} {k : α → Reading β} (hx : x.Forward)
    (hk : ∀ a, (k a).Forward) : (x >>= k).Forward :=
  fun c => (hx c).bind hk

theorem Forward.ite {p : Prop} [Decidable p] {x y : Reading α} (hx : x.Forward)
    (hy : y.Forward) : (if p then x else y).Forward := by
  split
  · exact hx
  · exact hy

theorem forward_noAnswer : (noAnswer : Reading α).Forward := by
  intro c o c' h
  cases h

theorem forward_peekAt (offset : Nat) : (peekAt offset).Forward := by
  intro c o c' h
  cases h
  exact .refl c

theorem forward_isAt (p : Punct) : (isAt p).Forward :=
  (forward_peekAt 0).bind fun _ => forward_pure _

theorem forward_advance : advance.Forward := by
  intro c o c' h
  cases h
  exact c.before_advance

theorem forward_skip (count : Nat) : (skip count).Forward := by
  intro c o c' h
  cases h
  exact c.before_skip count

theorem forward_refuse (what : String) : (refuse what : Reading α).Forward := by
  intro c o c' h
  cases h
  exact .refl c

theorem forward_eat (p : Punct) : (eat p).Forward :=
  (forward_isAt p).bind fun _ =>
    .ite (forward_advance.bind fun _ => forward_pure _) (forward_pure _)

theorem forward_expect (p : Punct) : (expect p).Forward :=
  (forward_eat p).bind fun _ => .ite (forward_pure _) (forward_refuse _)

theorem forward_expectName : expectName.Forward := by
  refine (forward_peekAt 0).bind fun t => ?_
  split
  · exact forward_advance.bind fun _ => forward_pure _
  · exact forward_refuse _

theorem attempt_cases {x : Reading α} {c c' : Cursor} {o : Except SyntaxError (Option α)}
    (h : attempt x c = some (o, c')) : ∃ o₁, x c = some (o₁, c') := by
  obtain ⟨⟨o₁, c₁⟩, hx, hk⟩ := Option.map_eq_some_iff.1 h
  cases hk
  exact ⟨o₁, hx⟩

theorem Forward.attempt {x : Reading α} (h : x.Forward) : (attempt x).Forward := by
  intro c o c' hc
  obtain ⟨o₁, h₁⟩ := attempt_cases hc
  exact h c _ _ h₁

theorem Forward.follow {next : σ → Reading α} (h : ∀ s, (next s).Forward) (t : Turn σ α) :
    (follow next t).Forward := by
  cases t with
  | stop a => exact forward_pure a
  | again s => exact h s

theorem Forward.mapM {k : α → Reading β} (h : ∀ a, (k a).Forward) (xs : List α) :
    (xs.mapM k).Forward := by
  induction xs with
  | nil => exact forward_pure []
  | cons a xs ih =>
      rw [List.mapM_cons]
      exact (h a).bind fun _ => ih.bind fun _ => forward_pure _

end Forward

section Consumes

theorem TakesAt.bind {x : Reading α} {k : α → Reading β} {c : Cursor} (hx : x.TakesAt c)
    (hk : ∀ a, (k a).Forward) : (x >>= k).TakesAt c := by
  intro b c' h
  obtain ⟨a, c₁, h₁, h₂⟩ | ⟨_, _, ho⟩ := bind_cases h
  · exact (hx _ _ h₁).trans_before (hk a c₁ _ _ h₂)
  · cases ho

theorem takesAt_advance {c : Cursor} {t : Token} (h : c.peekAt 0 = some t) : advance.TakesAt c := by
  intro _ c' hc
  cases hc
  exact c.passed_advance h

theorem takesAt_skip {c : Cursor} {t : Token} (h : c.peekAt 0 = some t) (count : Nat) :
    (skip (count + 1)).TakesAt c := by
  intro _ c' hc
  cases hc
  exact c.passed_skip h count

theorem eat_apply (p : Punct) (c : Cursor) :
    eat p c = if c.peekAt 0 = some (.punct p) then some (.ok true, c.advance)
      else some (.ok false, c) := by
  have hrun : eat p c = (if decide (c.peekAt 0 = some (.punct p)) = true then
      (advance >>= fun _ => pure true : Reading Bool) else pure false) c := rfl
  rw [hrun]
  by_cases h : c.peekAt 0 = some (.punct p)
  · rw [if_pos h, if_pos (decide_eq_true h)]
    rfl
  · rw [if_neg h, if_neg fun hp => h (of_decide_eq_true hp)]
    rfl

theorem takes_expect (p : Punct) : (expect p).Takes := by
  intro c _ c' h
  obtain ⟨b, c₁, h₁, h₂⟩ | ⟨_, _, ho⟩ := bind_cases h
  · rw [eat_apply] at h₁
    split at h₁
    · rename_i hp
      cases h₁
      cases h₂
      exact c.passed_advance hp
    · cases h₁
      cases h₂
  · cases ho

theorem TakesAt.consumes {x : Reading (Turn σ α)} {c : Cursor} (h : x.TakesAt c) :
    x.ConsumesAt c :=
  fun _ _ hc => h _ _ hc

theorem consumes_stop (a : α) : (pure (.stop a) : Reading (Turn σ α)).Consumes := by
  intro c s c' h
  cases h

theorem Forward.consumes_bind {x : Reading β} {k : β → Reading (Turn σ α)} (hx : x.Forward)
    (hk : ∀ a, (k a).Consumes) : (x >>= k).Consumes := by
  intro c s c' h
  obtain ⟨a, c₁, h₁, h₂⟩ | ⟨_, _, ho⟩ := bind_cases h
  · exact (hx c _ _ h₁).trans_passed (hk a c₁ s c' h₂)
  · cases ho

theorem seesAt_peekAt {s : Header} {c : Cursor} {offset : Nat}
    {k : Option Token → Reading (Turn Header (Option (Nat × List String)))}
    (h : SeesAt s (k (c.peekAt offset)) c) : SeesAt s (peekAt offset >>= k) c :=
  h

theorem consumesAt_peekAt {c : Cursor} {offset : Nat} {k : Option Token → Reading (Turn σ α)}
    (h : (k (c.peekAt offset)).ConsumesAt c) : (peekAt offset >>= k).ConsumesAt c :=
  h

/-- A loop that eats a token may go on behind it. -/
theorem consumes_eat {p : Punct} {k : Bool → Reading (Turn σ α)} (hyes : (k true).Forward)
    (hno : (k false).Consumes) : (eat p >>= k).Consumes := by
  intro c s c' h
  obtain ⟨b, c₁, h₁, h₂⟩ | ⟨_, _, ho⟩ := bind_cases h
  · rw [eat_apply] at h₁
    split at h₁
    · rename_i hp
      cases h₁
      exact (c.passed_advance hp).trans_before (hyes _ _ _ h₂)
    · cases h₁
      exact hno c s c' h₂
  · cases ho

theorem consumes_expect {p : Punct} {k : Unit → Reading (Turn σ α)} (hk : (k ()).Forward) :
    (expect p >>= k).Consumes :=
  fun c => ((takes_expect p c).bind fun _ => hk).consumes

end Consumes

section Trials

/-- From `c` on, what the trial comes to is not before `start`, and if it comes to nothing it is
back at `start`. -/
def TrialAt (start : Cursor) (x : Reading (Option α)) (c : Cursor) : Prop :=
  ∀ o c', x c = some (o, c') → start.Before c' ∧ (o = .ok none → c' = start)

variable {start c : Cursor}

theorem trialAt_giveUp (h : start.Before c) :
    TrialAt start (giveUp start.pos : Reading (Option α)) c := by
  have hback : ({ c with pos := start.pos } : Cursor) = start := by
    rw [h.scan]
  intro o c' hc
  cases hc
  dsimp only
  rw [hback]
  exact ⟨.refl start, fun _ => rfl⟩

theorem trialAt_some (h : start.Before c) (a : α) : TrialAt start (pure (some a)) c := by
  intro o c' hc
  cases hc
  exact ⟨h, fun ho => by cases ho⟩

theorem Forward.trialAt_bind {x : Reading β} {k : β → Reading (Option α)} (hx : x.Forward)
    (h : start.Before c) (hk : ∀ b c₁, start.Before c₁ → TrialAt start (k b) c₁) :
    TrialAt start (x >>= k) c := by
  intro o c' hc
  obtain ⟨b, c₁, h₁, h₂⟩ | ⟨e, h₁, rfl⟩ := bind_cases hc
  · exact hk b c₁ (h.trans (hx c _ _ h₁)) o c' h₂
  · exact ⟨h.trans (hx c _ _ h₁), fun ho => by cases ho⟩

theorem trialAt_get {k : Cursor → Reading (Option α)} (h : TrialAt start (k c) c) :
    TrialAt start (get >>= k) c :=
  h

theorem trialAt_isAt {p : Punct} {k : Bool → Reading (Option α)}
    (h : ∀ b, TrialAt start (k b) c) : TrialAt start (isAt p >>= k) c :=
  h _

end Trials

end Reading

open Reading

namespace Rules

structure Forward (r : Rules) : Prop where
  type : r.type.Forward
  nameFrom : ∀ name, (r.nameFrom name).Forward
  typesFrom : ∀ ts, (r.typesFrom ts).Forward
  marksFrom : ∀ t, (r.marksFrom t).Forward
  headerFrom : ∀ s, (r.headerFrom s).Forward
  expression : r.expression.Forward
  binary : ∀ least, (r.binary least).Forward
  operandsFrom : ∀ least left, (r.operandsFrom least left).Forward
  unary : r.unary.Forward
  trailersFrom : ∀ e, (r.trailersFrom e).Forward
  itemsFrom : ∀ close items, (r.itemsFrom close items).Forward
  initializersFrom : ∀ members, (r.initializersFrom members).Forward

theorem forward_nameTurn (name : String) : (nameTurn name).Forward := by
  refine (forward_peekAt 0).bind fun t => (forward_peekAt 1).bind fun u => ?_
  split
  · exact (forward_skip 2).bind fun _ => forward_pure _
  · exact forward_pure _

theorem forward_markTurn (t : TypeExpr) : (markTurn t).Forward := by
  refine (forward_peekAt 0).bind fun t => (forward_peekAt 1).bind fun u => ?_
  split
  · exact forward_advance.bind fun _ => forward_pure _
  · exact (forward_skip 2).bind fun _ => forward_pure _
  · exact (forward_skip 2).bind fun _ => forward_pure _
  · exact forward_pure _

theorem seesAt_stop {s : Header} (a : Option (Nat × List String)) {c : Cursor} :
    SeesAt s (pure (.stop a)) c := by
  intro o c' h
  cases h
  exact ⟨rfl, fun _ ho => by cases ho⟩

theorem seesAt_again {s : Header} {t : Token} {c : Cursor} (hp : c.peekAt s.offset = some t)
    (params : List String) (current : Option String) :
    SeesAt s (pure (.again ⟨s.offset + 1, params, current⟩)) c := by
  intro o c' h
  cases h
  refine ⟨rfl, ?_⟩
  rintro _ ⟨⟩
  exact ⟨rfl, c.lt_of_peekAt hp⟩

theorem headerTurn_sees (s : Header) (c : Cursor) : SeesAt s (headerTurn s) c := by
  refine seesAt_peekAt ?_
  split
  · rename_i hp
    exact seesAt_again hp _ _
  · rename_i hp
    split
    · exact seesAt_again hp _ _
    · exact seesAt_stop _
  · exact seesAt_stop _
  · exact seesAt_stop _

theorem forward_headerTurn (s : Header) : (headerTurn s).Forward := by
  intro c o c' h
  rw [(headerTurn_sees s c o c' h).1]
  exact .refl c

theorem forward_endHeader (found : Option (Nat × List String)) : (endHeader found).Forward := by
  cases found with
  | none => exact forward_pure _
  | some found =>
      exact (forward_peekAt _).bind fun _ =>
        .ite ((forward_skip _).bind fun _ => forward_pure _) (forward_pure _)

theorem forward_hole (r : Rules) (source : List Char) : (r.hole source).Forward := by
  intro c o c' hc
  obtain ⟨_, _, hans⟩ := Option.map_eq_some_iff.1 hc
  cases hans
  exact .refl c

theorem forward_part (r : Rules) (s : Interpolation.Segment) : (r.part s).Forward := by
  cases s with
  | text chars => exact forward_pure _
  | hole source format => exact (r.forward_hole source).bind fun _ => forward_pure _

section Forward

variable {r : Rules} (h : r.Forward)

include h

theorem Forward.typesTurn (ts : List TypeExpr) : (r.typesTurn ts).Forward :=
  (forward_eat _).bind fun _ => .ite (h.type.bind fun _ => forward_pure _) (forward_pure _)

theorem Forward.closeTypes (ts : List TypeExpr) : (r.closeTypes ts).Forward :=
  (h.typesFrom ts).bind fun _ => (forward_expect _).bind fun _ => forward_pure _

theorem Forward.typeArgs : r.typeArgs.Forward :=
  (forward_expect _).bind fun _ => h.type.bind fun _ => h.closeTypes _

theorem Forward.readType : r.readType.Forward :=
  forward_expectName.bind fun _ => (h.nameFrom _).bind fun _ => (forward_isAt _).bind fun _ =>
    .ite (h.typeArgs.bind fun _ => h.marksFrom _) (h.marksFrom _)

theorem Forward.itemTurn (close : Punct) (items : List Expr) :
    (r.itemTurn close items).Forward :=
  h.expression.bind fun _ => (forward_eat _).bind fun _ =>
    .ite (forward_pure _) ((forward_expect _).bind fun _ => forward_pure _)

theorem Forward.listUntil (close : Punct) : (r.listUntil close).Forward :=
  (forward_eat _).bind fun _ => .ite (forward_pure _) (h.itemsFrom _ _)

theorem Forward.arguments : r.arguments.Forward :=
  (forward_expect _).bind fun _ => h.listUntil _

theorem Forward.initializer : r.initializer.Forward := by
  refine (forward_peekAt 0).bind fun t => (forward_peekAt 1).bind fun u => ?_
  split
  · exact (forward_skip 2).bind fun _ => h.expression.bind fun _ => forward_pure _
  · exact h.expression.bind fun _ => forward_pure _

theorem Forward.initializerTurn (members : List Initializer) :
    (r.initializerTurn members).Forward :=
  (forward_eat _).bind fun _ => .ite (forward_pure _) (h.initializer.bind fun _ =>
    (forward_eat _).bind fun _ =>
      .ite (forward_pure _) ((forward_expect _).bind fun _ => forward_pure _))

theorem Forward.initializers : r.initializers.Forward :=
  (forward_expect _).bind fun _ => h.initializersFrom _

theorem Forward.tryCast_trialAt (c : Cursor) : TrialAt c r.tryCast c := by
  refine trialAt_get (forward_advance.trialAt_bind (.refl c) fun _ c₁ h₁ =>
    h.type.attempt.trialAt_bind h₁ fun type c₂ h₂ => ?_)
  split
  · exact trialAt_giveUp h₂
  · refine (forward_isAt _).trialAt_bind h₂ fun b c₃ h₃ => ?_
    split
    · refine forward_advance.trialAt_bind h₃ fun _ c₄ h₄ =>
        (forward_peekAt 0).trialAt_bind h₄ fun t c₅ h₅ => ?_
      split
      · exact h.unary.trialAt_bind h₅ fun _ c₆ h₆ => trialAt_some h₆ _
      · exact trialAt_giveUp h₅
    · exact trialAt_giveUp h₃

theorem Forward.tryTypeArgs_trialAt (c : Cursor) : TrialAt c r.tryTypeArgs c := by
  refine trialAt_isAt fun b => ?_
  split
  · refine trialAt_get (h.typeArgs.attempt.trialAt_bind (.refl c) fun args c₁ h₁ => ?_)
    split
    · exact trialAt_giveUp h₁
    · refine (forward_isAt _).trialAt_bind h₁ fun b c₂ h₂ => ?_
      split
      · exact trialAt_some h₂ _
      · exact trialAt_giveUp h₂
  · intro o c' hc
    cases hc
    exact ⟨.refl c, fun _ => rfl⟩

theorem Forward.tryCast : r.tryCast.Forward := fun c o c' hc => (h.tryCast_trialAt c o c' hc).1

theorem Forward.tryTypeArgs : r.tryTypeArgs.Forward :=
  fun c o c' hc => (h.tryTypeArgs_trialAt c o c' hc).1

theorem Forward.genericCall (e : Expr) : (r.genericCall e).Forward := by
  refine h.tryTypeArgs.bind fun args => ?_
  split
  · exact h.arguments.bind fun _ => forward_pure _
  · exact forward_pure _

theorem Forward.memberTurn (e : Expr) (optional : Bool) : (r.memberTurn e optional).Forward :=
  forward_advance.bind fun _ => forward_expectName.bind fun _ =>
    (h.genericCall _).bind fun _ => forward_pure _

theorem Forward.callTurn (e : Expr) : (r.callTurn e).Forward :=
  h.arguments.bind fun _ => forward_pure _

theorem Forward.indexTurn (e : Expr) (optional : Bool) : (r.indexTurn e optional).Forward :=
  forward_advance.bind fun _ => (h.listUntil _).bind fun _ => forward_pure _

theorem Forward.trailerTurn (e : Expr) : (r.trailerTurn e).Forward := by
  refine (forward_peekAt 0).bind fun t => ?_
  split
  · exact h.memberTurn e false
  · exact h.memberTurn e true
  · exact h.callTurn e
  · exact h.indexTurn e false
  · exact h.indexTurn e true
  · exact forward_pure _

theorem Forward.creation : r.creation.Forward := by
  refine (forward_isAt _).bind fun _ => .ite (h.initializers.bind fun _ => forward_pure _) ?_
  refine h.type.bind fun _ => (forward_isAt _).bind fun _ => .ite ?_ ?_
  · exact h.arguments.bind fun _ => (forward_isAt _).bind fun _ =>
      .ite (h.initializers.bind fun _ => forward_pure _) (forward_pure _)
  · exact (forward_isAt _).bind fun _ =>
      .ite (h.initializers.bind fun _ => forward_pure _) (forward_refuse _)

theorem Forward.primary : r.primary.Forward := by
  refine (forward_peekAt 0).bind fun t => ?_
  split
  · refine forward_advance.bind fun _ => ?_
    split
    · exact forward_pure _
    · refine .ite h.creation (.ite ?_ (forward_pure _))
      refine (forward_eat _).bind fun _ => .ite ?_ (forward_pure _)
      exact h.type.bind fun _ => (forward_expect _).bind fun _ => forward_pure _
  · exact forward_advance.bind fun _ => forward_pure _
  · exact forward_advance.bind fun _ => forward_pure _
  · exact forward_advance.bind fun _ => forward_pure _
  · exact forward_advance.bind fun _ => forward_pure _
  · exact forward_advance.bind fun _ => (Forward.mapM (forward_part r) _).bind fun _ =>
      forward_pure _
  · exact forward_advance.bind fun _ => h.expression.bind fun _ => (forward_expect _).bind fun _ =>
      forward_pure _
  · exact forward_refuse _

theorem Forward.readPostfix (e : Expr) : (r.readPostfix e).Forward :=
  .ite ((h.genericCall e).bind fun _ => h.trailersFrom _) (h.trailersFrom e)

theorem Forward.readUnary : r.readUnary.Forward := by
  refine (forward_peekAt 0).bind fun t => ?_
  split
  · exact forward_advance.bind fun _ => h.unary.bind fun _ => forward_pure _
  · refine (forward_isAt _).bind fun _ => .ite ?_ (h.primary.bind h.readPostfix)
    refine h.tryCast.bind fun cast => ?_
    split
    · exact forward_pure _
    · exact h.primary.bind h.readPostfix

theorem Forward.operandTurn (least : Nat) (left : Expr) : (r.operandTurn least left).Forward := by
  refine (forward_peekAt 0).bind fun t => ?_
  split
  · exact forward_pure _
  · exact .ite (forward_pure _)
      (forward_advance.bind fun _ => (h.binary _).bind fun _ => forward_pure _)

theorem Forward.closeHeader (s : Header) : (r.closeHeader s).Forward :=
  (h.headerFrom s).bind forward_endHeader

theorem Forward.header : r.header.Forward := by
  refine (forward_peekAt 0).bind fun t => (forward_peekAt 1).bind fun u => ?_
  split
  · exact (forward_skip 2).bind fun _ => forward_pure _
  · exact h.closeHeader _
  · exact forward_pure _

theorem Forward.readExpression : r.readExpression.Forward := by
  refine h.header.bind fun params => ?_
  split
  · exact (forward_isAt _).bind fun _ =>
      .ite (forward_refuse _) (h.expression.bind fun _ => forward_pure _)
  · exact (h.binary 1).bind fun _ => (forward_eat _).bind fun _ =>
      .ite (h.expression.bind fun _ => (forward_expect _).bind fun _ =>
        h.expression.bind fun _ => forward_pure _) (forward_pure _)

theorem Forward.unfold : r.unfold.Forward where
  type := h.readType
  nameFrom name := (forward_nameTurn name).bind (Reading.Forward.follow h.nameFrom)
  typesFrom ts := (h.typesTurn ts).bind (Reading.Forward.follow h.typesFrom)
  marksFrom t := (forward_markTurn t).bind (Reading.Forward.follow h.marksFrom)
  headerFrom s := (forward_headerTurn s).bind (Reading.Forward.follow h.headerFrom)
  expression := h.readExpression
  binary least := h.unary.bind fun _ => h.operandsFrom least _
  operandsFrom least left :=
    (h.operandTurn least left).bind (Reading.Forward.follow (h.operandsFrom least))
  unary := h.readUnary
  trailersFrom e := (h.trailerTurn e).bind (Reading.Forward.follow h.trailersFrom)
  itemsFrom close items :=
    (h.itemTurn close items).bind (Reading.Forward.follow (h.itemsFrom close))
  initializersFrom members :=
    (h.initializerTurn members).bind (Reading.Forward.follow h.initializersFrom)

end Forward

theorem forward_silent (ask : List Char → Option (Except SyntaxError Expr)) :
    (silent ask).Forward where
  type := forward_noAnswer
  nameFrom _ := forward_noAnswer
  typesFrom _ := forward_noAnswer
  marksFrom _ := forward_noAnswer
  headerFrom _ := forward_noAnswer
  expression := forward_noAnswer
  binary _ := forward_noAnswer
  operandsFrom _ _ := forward_noAnswer
  unary := forward_noAnswer
  trailersFrom _ := forward_noAnswer
  itemsFrom _ _ := forward_noAnswer
  initializersFrom _ := forward_noAnswer

/-- Each turn of a loop takes a token or stops the loop, and a trial without success leaves the
cursor where it was. -/
structure Progresses (r : Rules) : Prop where
  names : ∀ name, (nameTurn name).Consumes
  marks : ∀ t, (markTurn t).Consumes
  types : ∀ ts, (r.typesTurn ts).Consumes
  headers : ∀ s c, SeesAt s (headerTurn s) c
  operands : ∀ least left, (r.operandTurn least left).Consumes
  trailers : ∀ e, (r.trailerTurn e).Consumes
  items : ∀ close items, (r.itemTurn close items).Consumes
  initializers : ∀ members, (r.initializerTurn members).Consumes
  casts : r.tryCast.Restores
  typeArgs : r.tryTypeArgs.Restores

theorem nameTurn_consumes (name : String) : (nameTurn name).Consumes := by
  intro c
  refine consumesAt_peekAt (consumesAt_peekAt ?_)
  split
  · rename_i hdot _
    exact ((takesAt_skip hdot 1).bind fun _ => forward_pure _).consumes
  · exact consumes_stop _ c

theorem markTurn_consumes (t : TypeExpr) : (markTurn t).Consumes := by
  intro c
  refine consumesAt_peekAt (consumesAt_peekAt ?_)
  split
  · rename_i hmark
    exact ((takesAt_advance hmark).bind fun _ => forward_pure _).consumes
  · rename_i hopen _
    exact ((takesAt_skip hopen 1).bind fun _ => forward_pure _).consumes
  · rename_i hopen _
    exact ((takesAt_skip hopen 1).bind fun _ => forward_pure _).consumes
  · exact consumes_stop _ c

section Progress

variable {r : Rules} (h : r.Forward)

include h

theorem Forward.typesTurn_consumes (ts : List TypeExpr) : (r.typesTurn ts).Consumes :=
  consumes_eat (h.type.bind fun _ => forward_pure _) (consumes_stop _)

theorem Forward.operandTurn_consumes (least : Nat) (left : Expr) :
    (r.operandTurn least left).Consumes := by
  intro c
  refine consumesAt_peekAt ?_
  split
  · exact consumes_stop _ c
  · rename_i op hop
    obtain ⟨t, ht, -⟩ := Option.bind_eq_some_iff.1 hop
    split
    · exact consumes_stop _ c
    · exact ((takesAt_advance ht).bind fun _ =>
        (h.binary _).bind fun _ => forward_pure _).consumes

theorem Forward.memberTurn_takesAt {c : Cursor} {t : Token} (ht : c.peekAt 0 = some t) (e : Expr)
    (optional : Bool) : (r.memberTurn e optional).TakesAt c :=
  (takesAt_advance ht).bind fun _ => forward_expectName.bind fun _ =>
    (h.genericCall _).bind fun _ => forward_pure _

theorem Forward.callTurn_takesAt (c : Cursor) (e : Expr) : (r.callTurn e).TakesAt c :=
  ((takes_expect _ c).bind fun _ => h.listUntil _).bind fun _ => forward_pure _

theorem Forward.indexTurn_takesAt {c : Cursor} {t : Token} (ht : c.peekAt 0 = some t) (e : Expr)
    (optional : Bool) : (r.indexTurn e optional).TakesAt c :=
  (takesAt_advance ht).bind fun _ => (h.listUntil _).bind fun _ => forward_pure _

theorem Forward.trailerTurn_consumes (e : Expr) : (r.trailerTurn e).Consumes := by
  intro c
  refine consumesAt_peekAt ?_
  split
  · exact (h.memberTurn_takesAt ‹_› e false).consumes
  · exact (h.memberTurn_takesAt ‹_› e true).consumes
  · exact (h.callTurn_takesAt c e).consumes
  · exact (h.indexTurn_takesAt ‹_› e false).consumes
  · exact (h.indexTurn_takesAt ‹_› e true).consumes
  · exact consumes_stop _ c

theorem Forward.itemTurn_consumes (close : Punct) (items : List Expr) :
    (r.itemTurn close items).Consumes :=
  h.expression.consumes_bind fun _ =>
    consumes_eat (forward_pure _) (consumes_expect (forward_pure _))

theorem Forward.initializerTurn_consumes (members : List Initializer) :
    (r.initializerTurn members).Consumes :=
  consumes_eat (forward_pure _) (h.initializer.consumes_bind fun _ =>
    consumes_eat (forward_pure _) (consumes_expect (forward_pure _)))

theorem Forward.progresses : r.Progresses where
  names := nameTurn_consumes
  marks := markTurn_consumes
  types := h.typesTurn_consumes
  headers := headerTurn_sees
  operands := h.operandTurn_consumes
  trailers := h.trailerTurn_consumes
  items := h.itemTurn_consumes
  initializers := h.initializerTurn_consumes
  casts c c' hc := (h.tryCast_trialAt c _ c' hc).2 rfl
  typeArgs c c' hc := (h.tryTypeArgs_trialAt c _ c' hc).2 rfl

end Progress

end Rules

theorem forward_rules (ask : List Char → Option (Except SyntaxError Expr)) (depth : Nat) :
    (rules ask depth).Forward := by
  induction depth with
  | zero => exact Rules.forward_silent ask
  | succ depth ih => exact ih.unfold

end Projection
