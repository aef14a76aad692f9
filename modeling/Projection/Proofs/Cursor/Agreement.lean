import Projection.Proofs.Cursor.Follows

/-!
Expressions with a cursor. The rules and loops for expressions give what the reader finds, and with
those for types and parameter lists this makes the whole grammar follow the reader.
-/

namespace Projection

open Grammar Reading Interpolation

namespace Rules

attribute [local grind =] weight_cons Token.weight

variable {s : Scan} {r : Rules} {m : Nat} {ts : List Token}

theorem Follows.listUntil_gives (h : r.Follows s m) {close : Punct} (hm : weight ts * 16 + 7 < m) :
    Gives s (r.listUntil close) ts id (items close ts) := by
  have hitems : Gives s (r.itemsFrom close []) ts ([] ++ ·) (someItems close ts) := h.itemsFrom hm
  unfold items
  split
  · rename_i p rest
    split
    · rename_i hp
      subst hp
      exact gives_eat (reads_pure [])
    · rename_i hp
      refine gives_eat_false ?_ hitems
      rintro _ ⟨⟩
      exact hp rfl
  · rename_i hno
    exact gives_eat_false (hno close) hitems

theorem Follows.arguments_give (h : r.Follows s m) (hm : weight ts * 16 + 7 < m) :
    Gives s r.arguments (.punct .openParen :: ts) id (items .closeParen ts) :=
  reads_expect.bind_gives (h.listUntil_gives hm)

theorem itemsFrom_unfold (close : Punct) (items : List Expr) : r.unfold.itemsFrom close items =
    r.expression >>= fun e => eat close >>= fun last =>
      if last then pure (items ++ [e])
      else expect .comma >>= fun _ => r.itemsFrom close (items ++ [e]) := by
  simp only [unfold, itemTurn, bind_assoc]
  congr 1
  funext e
  congr 1
  funext last
  cases last <;> simp [follow]

theorem Follows.itemsFrom_unfold (h : r.Follows s m) {close : Punct} {items : List Expr}
    (hm : weight ts * 16 + 7 < m + 1) :
    Gives s (r.unfold.itemsFrom close items) ts (items ++ ·) (someItems close ts) := by
  have he : Gives s r.expression ts id (Grammar.expression ts) := h.expression (by omega)
  rw [Rules.itemsFrom_unfold]
  unfold someItems
  split
  · rename_i hf
    exact (he.fails hf).bind
  · rename_i e rest hb hr
    refine (he.reads hr).bind_gives ?_
    split
    · rename_i p more _
      split
      · rename_i hp
        subst hp
        exact gives_eat (reads_pure _)
      · rename_i hp
        refine gives_eat_false (by rintro _ ⟨⟩; exact hp rfl) ?_
        split
        · rename_i hc
          subst hc
          have hnext : Gives s (r.itemsFrom close (items ++ [e])) more
              (fun es => items ++ e :: es) (someItems close more) :=
            (h.itemsFrom (by grind)).congr fun es => (List.append_cons items e es).symm
          refine reads_expect.bind_gives ?_
          split
          · rename_i hl
            exact hnext.fails hl
          · rename_i hl
            exact hnext.reads hl
        · rename_i hc
          refine Fails.bind (fails_expect (by decide) ?_)
          rintro _ ⟨⟩
          exact hc rfl
    · rename_i hno
      have hpunct (p : Punct) (more : List Token) : rest ≠ .punct p :: more := by
        rintro rfl
        exact hno p more hb rfl HEq.rfl
      exact gives_eat_false (hpunct close) (Fails.bind (fails_expect (by decide) (hpunct .comma)))

theorem initializersFrom_unfold (members : List Initializer) : r.unfold.initializersFrom members =
    eat .closeBrace >>= fun last =>
      if last then pure members
      else r.initializer >>= fun i => eat .comma >>= fun more =>
        if more then r.initializersFrom (members ++ [i])
        else expect .closeBrace >>= fun _ => pure (members ++ [i]) := by
  simp only [unfold, initializerTurn, bind_assoc]
  congr 1
  funext last
  cases last with
  | true => simp [follow]
  | false =>
      simp only [Bool.false_eq_true, if_false, bind_assoc]
      congr 1
      funext i
      congr 1
      funext more
      cases more <;> simp [follow]

theorem Follows.initializer_named (h : r.Follows s m) {name : String}
    (hm : weight ts * 16 + 6 < m) :
    Gives s r.initializer (.ident name :: .punct .assign :: ts) (Initializer.named name)
      (Grammar.expression ts) :=
  (reads_peekAt 0).bind_gives ((reads_peekAt 1).bind_gives ((reads_skip 2).bind_gives
    ((h.expression hm).map _)))

theorem Follows.initializer_bare (h : r.Follows s m) (hm : weight ts * 16 + 6 < m)
    (hname : ∀ name more, ts ≠ .ident name :: .punct .assign :: more) :
    Gives s r.initializer ts Initializer.bare (Grammar.expression ts) := by
  refine (reads_peekAt 0).bind_gives ((reads_peekAt 1).bind_gives ?_)
  split
  · rename_i hident hassign
    obtain ⟨more, rfl⟩ := exists_of_front hident hassign
    exact absurd rfl (hname _ more)
  · exact (h.expression hm).map _

/-- Behind a member: the next ones, or the end. -/
theorem Follows.moreInitializers_give (h : r.Follows s m) (members : List Initializer)
    (i : Initializer) (hm : weight ts * 16 < m) :
    Gives s (eat .comma >>= fun more => if more = true then r.initializersFrom (members ++ [i])
        else expect .closeBrace >>= fun _ => pure (members ++ [i])) ts (members ++ i :: ·)
      (moreInitializers ts) := by
  unfold moreInitializers
  split
  · rename_i rest
    have hnext : Gives s (r.initializersFrom (members ++ [i])) rest (members ++ i :: ·)
        (Grammar.initializers rest) :=
      (h.initializersFrom (by grind)).congr fun is => (List.append_cons members i is).symm
    refine gives_eat ?_
    split
    · rename_i hf
      exact hnext.fails hf
    · rename_i hr
      exact hnext.reads hr
  · exact gives_eat_false (by rintro _ ⟨⟩) (reads_expect.bind (reads_pure _))
  · rename_i hcomma hclose
    exact gives_eat_false hcomma (Fails.bind (fails_expect (by decide) hclose))

theorem Follows.initializersFrom_unfold (h : r.Follows s m) {members : List Initializer}
    (hm : weight ts * 16 + 7 < m + 1) :
    Gives s (r.unfold.initializersFrom members) ts (members ++ ·) (Grammar.initializers ts) := by
  rw [Rules.initializersFrom_unfold]
  unfold Grammar.initializers
  split
  · rename_i rest
    have hend : Reads s (pure members) rest (members ++ []) rest := by
      rw [List.append_nil]
      exact reads_pure members
    exact gives_eat hend
  · rename_i name rest
    refine gives_eat_false (by rintro _ ⟨⟩) ?_
    have hi : Gives s r.initializer (.ident name :: .punct .assign :: rest) (Initializer.named name)
        (Grammar.expression rest) := h.initializer_named (by grind)
    split
    · rename_i hf
      exact (hi.fails hf).bind
    · rename_i value more _ hr
      refine (hi.reads hr).bind_gives ?_
      have hw : weight more * 16 < m := by grind
      have hmore := h.moreInitializers_give members (.named name value) hw
      split
      · rename_i hf
        exact hmore.fails hf
      · rename_i hr
        exact hmore.reads hr
  · rename_i hclose hname
    refine gives_eat_false hclose ?_
    have hi := h.initializer_bare (by omega) hname
    split
    · rename_i hf
      exact (hi.fails hf).bind
    · rename_i value more _ hr
      refine (hi.reads hr).bind_gives ?_
      have hw : weight more * 16 < m := by grind
      have hmore := h.moreInitializers_give members (.bare value) hw
      split
      · rename_i hf
        exact hmore.fails hf
      · rename_i hr
        exact hmore.reads hr

theorem castMayPrecede_front (t : TypeExpr) (ts : List Token) :
    castMayPrecede t ts[0]?.toList = castMayPrecede t ts := by
  cases ts with
  | nil => rfl
  | cons u ts =>
      cases u with
      | punct p => cases p <;> rfl
      | _ => rfl

theorem Follows.tryCast_none (h : r.Follows s m) (hm : weight ts * 16 < m)
    (hc : castType? ts = none) :
    Reads s r.tryCast (.punct .openParen :: ts) none (.punct .openParen :: ts) := by
  have htype : Gives s r.type ts id (Grammar.type ts) := h.type hm
  refine reads_get fun c hat => reads_advance.bind ?_
  unfold castType? at hc
  split at hc
  · rename_i hf
    exact (htype.fails hf).attempt_bind (reads_giveUp hat)
  · rename_i t rest _ hr
    have hread : Reads s r.type ts t rest := htype.reads hr
    refine hread.attempt.bind ?_
    split at hc
    · split at hc
      · cases hc
      · rename_i hfollow
        refine reads_isAt.bind (reads_advance.bind ((reads_peekAt 0).bind ?_))
        rw [castMayPrecede_front, if_neg hfollow]
        exact reads_giveUp hat _
    · rename_i hclose
      exact (reads_isAt_false (ne_front hclose)).bind (reads_giveUp hat _)

theorem Follows.tryCast_gives (h : r.Follows s m) {t : TypeExpr} {rest : List Token}
    (hm : weight ts * 16 < m) {hb : weight rest < weight ts}
    (hc : castType? ts = some ⟨t, rest, hb⟩) :
    Gives s r.tryCast (.punct .openParen :: ts) (fun e => some (.cast t e))
      (Grammar.unary rest) := by
  have htype : Gives s r.type ts id (Grammar.type ts) := h.type hm
  refine gives_get fun c hat => reads_advance.bind_gives ?_
  unfold castType? at hc
  split at hc
  · cases hc
  · rename_i u behind _ hr
    have hread : Reads s r.type ts u behind := htype.reads hr
    refine hread.attempt.bind_gives ?_
    split at hc
    · split at hc
      · rename_i hfollow
        cases hc
        refine gives_isAt (reads_advance.bind_gives ((reads_peekAt 0).bind_gives ?_))
        rw [castMayPrecede_front, if_pos hfollow]
        exact (h.unary (by grind)).map _
      · cases hc
    · cases hc

theorem Follows.tryTypeArgs_none (h : r.Follows s m) (hm : weight ts * 16 < m)
    (hc : callTypeArgs? ts = none) : Reads s r.tryTypeArgs ts none ts := by
  unfold callTypeArgs? at hc
  split at hc
  · rename_i more
    have hargs : Gives s r.typeArgs (.punct .less :: more) id (typeList more) :=
      h.typeArgs_give (by grind)
    refine reads_isAt.bind (reads_get fun c hat => ?_)
    split at hc
    · rename_i hf
      exact (hargs.fails hf).attempt_bind (reads_giveUp hat)
    · rename_i hr
      refine (hargs.reads hr).attempt.bind ?_
      split at hc
      · cases hc
      · rename_i hopen
        exact (reads_isAt_false (ne_front hopen)).bind (reads_giveUp hat _)
  · rename_i hless
    exact (reads_isAt_false hless).bind (reads_pure none)

theorem Follows.tryTypeArgs_some (h : r.Follows s m) {args : List TypeExpr} {rest : List Token}
    (hm : weight ts * 16 < m) {hb : weight rest < weight ts}
    (hc : callTypeArgs? ts = some ⟨args, rest, hb⟩) :
    Reads s r.tryTypeArgs ts (some args) (.punct .openParen :: rest) := by
  unfold callTypeArgs? at hc
  split at hc
  · rename_i more
    have hargs : Gives s r.typeArgs (.punct .less :: more) id (typeList more) :=
      h.typeArgs_give (by grind)
    refine reads_isAt.bind (reads_get fun c _ => ?_)
    split at hc
    · cases hc
    · rename_i hr
      refine (hargs.reads hr).attempt.bind ?_
      split at hc
      · cases hc
        exact reads_isAt.bind (reads_pure _)
      · cases hc
  · cases hc

theorem Follows.genericCall_gives (h : r.Follows s m) {e : Expr} (hm : weight ts * 16 < m) :
    Gives s (r.genericCall e) ts id (Grammar.genericCall e ts) := by
  unfold Grammar.genericCall
  split
  · rename_i hc
    exact (h.tryTypeArgs_none hm hc).bind_gives (reads_pure e)
  · rename_i args rest hb hc
    have htry := h.tryTypeArgs_some hm hc
    have hitems : Gives s r.arguments (.punct .openParen :: rest) id (items .closeParen rest) :=
      h.arguments_give (by omega)
    split
    · rename_i hf
      exact htry.bind_fails (hitems.fails hf).bind
    · rename_i hr
      exact htry.bind ((hitems.reads hr).bind (reads_pure _))

theorem memberTurn_follow (e : Expr) (optional : Bool) :
    r.memberTurn e optional >>= follow r.trailersFrom =
      advance >>= fun _ => expectName >>= fun name =>
        r.genericCall (.member e name optional) >>= r.trailersFrom := by
  simp [memberTurn, follow]

theorem callTurn_follow (e : Expr) : r.callTurn e >>= follow r.trailersFrom =
    r.arguments >>= fun args => r.trailersFrom (.call e args) := by
  simp [callTurn, follow]

theorem indexTurn_follow (e : Expr) (optional : Bool) :
    r.indexTurn e optional >>= follow r.trailersFrom =
      advance >>= fun _ => r.listUntil .closeBracket >>= fun args =>
        r.trailersFrom (.index e args optional) := by
  simp [indexTurn, follow]

theorem Follows.memberTurn_gives (h : r.Follows s m) {t : Token} {e : Expr} {optional : Bool}
    (hm : weight ts * 16 + 2 < m) :
    Gives s (r.memberTurn e optional >>= follow r.trailersFrom) (t :: ts) id
      (memberTrailer e optional ts) := by
  rw [memberTurn_follow]
  refine reads_advance.bind_gives ?_
  unfold memberTrailer
  split
  · rename_i name rest
    have hcall : Gives s (r.genericCall (.member e name optional)) rest id _ :=
      h.genericCall_gives (by grind)
    refine reads_expectName.bind_gives ?_
    split
    · rename_i hf
      exact (hcall.fails hf).bind
    · rename_i called more _ hr
      have htrailers : Gives s (r.trailersFrom called) more id (trailers called more) :=
        h.trailersFrom (by grind)
      refine (hcall.reads hr).bind_gives ?_
      split
      · rename_i hf
        exact htrailers.fails hf
      · rename_i hr
        exact htrailers.reads hr
  · rename_i hno
    exact (fails_expectName hno).bind

theorem reads_trailerTurn_stop {e : Expr} (h : ∀ p more, ts = .punct p :: more →
    p ≠ .dot ∧ p ≠ .questionDot ∧ p ≠ .openParen ∧ p ≠ .openBracket ∧ p ≠ .questionBracket) :
    Reads s (r.trailerTurn e) ts (.stop e) ts := by
  have hfront (p : Punct) (hp : ts[0]? = some (.punct p)) :
      p ≠ .dot ∧ p ≠ .questionDot ∧ p ≠ .openParen ∧ p ≠ .openBracket ∧ p ≠ .questionBracket := by
    obtain ⟨rest, hts⟩ := exists_of_first hp
    exact h p rest hts
  refine (reads_peekAt 0).bind ?_
  split
  · exact absurd rfl (hfront _ ‹_›).1
  · exact absurd rfl (hfront _ ‹_›).2.1
  · exact absurd rfl (hfront _ ‹_›).2.2.1
  · exact absurd rfl (hfront _ ‹_›).2.2.2.1
  · exact absurd rfl (hfront _ ‹_›).2.2.2.2
  · exact reads_pure _

theorem Follows.trailersFrom_unfold (h : r.Follows s m) {e : Expr}
    (hm : weight ts * 16 + 2 < m + 1) :
    Gives s (r.unfold.trailersFrom e) ts id (trailers e ts) := by
  have htrailers (e : Expr) {more : List Token} (hw : weight more < weight ts) :
      Gives s (r.trailersFrom e) more id (trailers e more) := h.trailersFrom (by omega)
  unfold trailers
  split
  · rename_i rest
    have hmember : Gives s (r.memberTurn e false >>= follow r.trailersFrom) (.punct .dot :: rest)
      id (memberTrailer e false rest) := h.memberTurn_gives (by grind)
    split
    · rename_i hf
      exact gives_peekAt (hmember.fails hf)
    · rename_i hr
      exact gives_peekAt (hmember.reads hr)
  · rename_i rest
    have hmember : Gives s (r.memberTurn e true >>= follow r.trailersFrom)
      (.punct .questionDot :: rest) id (memberTrailer e true rest) := h.memberTurn_gives (by grind)
    split
    · rename_i hf
      exact gives_peekAt (hmember.fails hf)
    · rename_i hr
      exact gives_peekAt (hmember.reads hr)
  · rename_i rest
    refine gives_peekAt (?_ : Gives s (r.callTurn e >>= follow r.trailersFrom) _ _ _)
    rw [callTurn_follow]
    have hargs : Gives s r.arguments (.punct .openParen :: rest) id (items .closeParen rest) :=
      h.arguments_give (by grind)
    split
    · rename_i hf
      exact (hargs.fails hf).bind
    · rename_i args more _ hr
      have hrest := htrailers (.call e args) (show weight more < weight _ by grind)
      refine (hargs.reads hr).bind_gives ?_
      split
      · rename_i hf
        exact hrest.fails hf
      · rename_i hr
        exact hrest.reads hr
  · rename_i rest
    refine gives_peekAt (?_ : Gives s (r.indexTurn e false >>= follow r.trailersFrom) _ _ _)
    rw [indexTurn_follow]
    have hargs : Gives s (r.listUntil .closeBracket) rest id (items .closeBracket rest) :=
      h.listUntil_gives (by grind)
    refine reads_advance.bind_gives ?_
    split
    · rename_i hf
      exact (hargs.fails hf).bind
    · rename_i args more _ hr
      have hrest := htrailers (.index e args false) (show weight more < weight _ by grind)
      refine (hargs.reads hr).bind_gives ?_
      split
      · rename_i hf
        exact hrest.fails hf
      · rename_i hr
        exact hrest.reads hr
  · rename_i rest
    refine gives_peekAt (?_ : Gives s (r.indexTurn e true >>= follow r.trailersFrom) _ _ _)
    rw [indexTurn_follow]
    have hargs : Gives s (r.listUntil .closeBracket) rest id (items .closeBracket rest) :=
      h.listUntil_gives (by grind)
    refine reads_advance.bind_gives ?_
    split
    · rename_i hf
      exact (hargs.fails hf).bind
    · rename_i args more _ hr
      have hrest := htrailers (.index e args true) (show weight more < weight _ by grind)
      refine (hargs.reads hr).bind_gives ?_
      split
      · rename_i hf
        exact hrest.fails hf
      · rename_i hr
        exact hrest.reads hr
  · rename_i hdot hquestionDot hopen hbracket hquestionBracket
    have hstop : Reads s (r.trailerTurn e) ts (.stop e) ts := by
      refine reads_trailerTurn_stop ?_
      rintro p more rfl
      refine ⟨?_, ?_, ?_, ?_, ?_⟩
      · rintro rfl; exact hdot _ rfl
      · rintro rfl; exact hquestionDot _ rfl
      · rintro rfl; exact hopen _ rfl
      · rintro rfl; exact hbracket _ rfl
      · rintro rfl; exact hquestionBracket _ rfl
    exact hstop.bind (reads_pure e)

theorem operandTurn_stop {least : Nat} {left : Expr}
    (h : ∀ t more op, ts = t :: more → binaryOp? t = some op → op.precedence < least) :
    Reads s (r.operandTurn least left) ts (.stop left) ts := by
  refine (reads_peekAt 0).bind ?_
  split
  · exact reads_pure _
  · rename_i op hop
    obtain ⟨t, ht, hop⟩ := Option.bind_eq_some_iff.1 hop
    obtain ⟨rest, hts⟩ := exists_of_first ht
    rw [if_pos (h t rest op hts hop)]
    exact reads_pure _

theorem operandsFrom_unfold {least : Nat} {left : Expr} {t : Token} {op : BinaryOp} {limit : Nat}
    {q : Result Expr limit} (hop : binaryOp? t = some op) (hleast : ¬op.precedence < least)
    (h : Gives s (advance >>= fun _ => r.binary (rightLimit op) >>= fun right =>
      r.operandsFrom least (.binary op left right)) (t :: ts) id q) :
    Gives s (r.unfold.operandsFrom least left) (t :: ts) id q := by
  refine gives_peekAt ?_
  have hfront : (t :: ts)[0]?.bind binaryOp? = some op := hop
  rw [hfront]
  simpa [hleast, follow] using h

theorem Follows.operandsFrom_unfold (h : r.Follows s m) {least : Nat} {left : Expr}
    (hm : weight ts * 16 < m + 1) :
    Gives s (r.unfold.operandsFrom least left) ts id (binaryRest least left ts) := by
  unfold binaryRest
  split
  · have hstop : Reads s (r.operandTurn least left) [] (.stop left) [] := by
      refine operandTurn_stop ?_
      rintro _ _ _ ⟨⟩
    exact hstop.bind (reads_pure left)
  · rename_i t rest
    have hpos := t.weight_pos
    split
    · rename_i hop
      have hstop : Reads s (r.operandTurn least left) (t :: rest) (.stop left) (t :: rest) := by
        refine operandTurn_stop ?_
        rintro _ _ op ⟨⟩ hop'
        rw [hop] at hop'
        cases hop'
      exact hstop.bind (reads_pure left)
    · rename_i op hop
      split
      · rename_i hlt
        have hstop : Reads s (r.operandTurn least left) (t :: rest) (.stop left) (t :: rest) := by
          refine operandTurn_stop ?_
          rintro _ _ _ ⟨⟩ hop'
          rw [hop] at hop'
          cases hop'
          exact hlt
        exact hstop.bind (reads_pure left)
      · rename_i hleast
        refine Rules.operandsFrom_unfold hop hleast (reads_advance.bind_gives ?_)
        have hright : Gives s (r.binary (rightLimit op)) rest id
            (Grammar.binary (rightLimit op) rest) := h.binary (by grind)
        split
        · rename_i hf
          exact (hright.fails hf).bind
        · rename_i right more _ hr
          have hrest : Gives s (r.operandsFrom least (.binary op left right)) more id
              (binaryRest least (.binary op left right) more) := h.operandsFrom (by grind)
          refine (hright.reads hr).bind_gives ?_
          split
          · rename_i hf
            exact hrest.fails hf
          · rename_i hr
            exact hrest.reads hr

theorem Follows.binary_unfold (h : r.Follows s m) {least : Nat} (hm : weight ts * 16 + 5 < m + 1) :
    Gives s (r.unfold.binary least) ts id (Grammar.binary least ts) := by
  have hleft : Gives s r.unary ts id (Grammar.unary ts) := h.unary (by omega)
  unfold Grammar.binary
  split
  · rename_i hf
    exact (hleft.fails hf).bind
  · rename_i left rest _ hr
    have hrest : Gives s (r.operandsFrom least left) rest id (binaryRest least left rest) :=
      h.operandsFrom (by omega)
    refine (hleft.reads hr).bind_gives ?_
    split
    · rename_i hf
      exact hrest.fails hf
    · rename_i hr
      exact hrest.reads hr

theorem Follows.initializers_give (h : r.Follows s m) (hm : weight ts * 16 + 7 < m) :
    Gives s r.initializers (.punct .openBrace :: ts) id (Grammar.initializers ts) := by
  have hall : Gives s (r.initializersFrom []) ts ([] ++ ·) (Grammar.initializers ts) :=
    h.initializersFrom hm
  exact reads_expect.bind_gives hall

theorem Follows.creation_gives (h : r.Follows s m) (hm : weight ts * 16 + 2 < m) :
    Gives s r.creation ts id (Grammar.creation ts) := by
  unfold Grammar.creation
  split
  · rename_i rest
    have hmembers : Gives s r.initializers (.punct .openBrace :: rest) id
        (Grammar.initializers rest) := h.initializers_give (by grind)
    split
    · rename_i hf
      exact gives_isAt (hmembers.fails hf).bind
    · rename_i hr
      exact gives_isAt ((hmembers.reads hr).bind (reads_pure _))
  · rename_i hbrace
    refine gives_isAt_false hbrace ?_
    have htype : Gives s r.type ts id (Grammar.type ts) := h.type (by omega)
    split
    · rename_i hf
      exact (htype.fails hf).bind
    · rename_i t rest _ hr
      refine (htype.reads hr).bind_gives ?_
      split
      · rename_i more _
        have hargs : Gives s r.arguments (.punct .openParen :: more) id (items .closeParen more) :=
          h.arguments_give (by grind)
        refine gives_isAt ?_
        split
        · rename_i hf
          exact (hargs.fails hf).bind
        · rename_i args rest' _ hr
          refine (hargs.reads hr).bind_gives ?_
          split
          · rename_i more' _
            have hmembers : Gives s r.initializers (.punct .openBrace :: more') id
                (Grammar.initializers more') := h.initializers_give (by grind)
            refine gives_isAt ?_
            split
            · rename_i hf
              exact (hmembers.fails hf).bind
            · rename_i hr
              exact (hmembers.reads hr).bind (reads_pure _)
          · rename_i hbrace
            exact gives_isAt_false (ne_front hbrace) (reads_pure _)
      · rename_i more _
        have hmembers : Gives s r.initializers (.punct .openBrace :: more) id
            (Grammar.initializers more) := h.initializers_give (by grind)
        refine gives_isAt_false (by rintro _ ⟨⟩) (gives_isAt ?_)
        split
        · rename_i hf
          exact (hmembers.fails hf).bind
        · rename_i hr
          exact (hmembers.reads hr).bind (reads_pure _)
      · rename_i hopen hbrace
        exact gives_isAt_false (ne_front hopen)
          (gives_isAt_false (ne_front hbrace) (fails_refuse _))

theorem reads_hole {source : List Char} {e : Expr} (h : r.ask source = some (.ok e)) :
    Reads s (r.hole source) ts e ts := by
  intro c hc
  refine ⟨c, ?_, hc⟩
  rw [hole, h]
  rfl

theorem fails_hole {source : List Char} {e : SyntaxError} (h : r.ask source = some (.error e)) :
    Fails s (r.hole source) ts (.hole e) := by
  intro c hc
  refine ⟨c, ?_, hc.scan⟩
  rw [hole, h]
  rfl

def GivesParts (s : Scan) (x : Reading (List Part)) (ts : List Token) :
    Except Fault (List Part) → Prop
  | .ok parts => Reads s x ts parts ts
  | .error f => Fails s x ts f

theorem GivesParts.cons {x : Reading Part} {y : Reading (List Part)} {p : Part}
    {o : Except Fault (List Part)} (hx : Reads s x ts p ts) (hy : GivesParts s y ts o) :
    GivesParts s (x >>= fun p => y >>= fun parts => pure (p :: parts)) ts (o.map (p :: ·)) := by
  cases o with
  | ok parts => exact hx.bind (Reads.bind hy (reads_pure _))
  | error f => exact hx.bind_fails (Fails.bind hy)

theorem holes_text (chars : List Char) (ss : List Segment) :
    holes (.text chars :: ss) = (holes ss).map (.text (String.ofList chars) :: ·) := by
  conv => lhs; unfold holes
  cases holes ss <;> rfl

/-- Holes are read one after another, each as a source of its own. -/
theorem parts_give {ss : List Segment} (hask : ∀ source format, .hole source format ∈ ss →
    r.ask source = some (Expr.parseChars source)) :
    GivesParts s (ss.mapM r.part) ts (holes ss) := by
  induction ss with
  | nil =>
      unfold holes
      exact reads_pure []
  | cons segment ss ih =>
      have hrest := ih fun source format hmem => hask source format (List.mem_cons_of_mem _ hmem)
      rw [List.mapM_cons]
      cases segment with
      | text chars =>
          rw [holes_text]
          exact .cons (reads_pure _) hrest
      | hole source format =>
          have hsource := hask source format List.mem_cons_self
          cases hp : Expr.parseChars source with
          | ok e =>
              rw [holes_of_parseChars_ok hp]
              rw [hp] at hsource
              exact .cons ((reads_hole hsource).bind (reads_pure _)) hrest
          | error e =>
              rw [holes_of_parseChars_error hp]
              rw [hp] at hsource
              exact Fails.bind (fails_hole hsource).bind

theorem Follows.interpolated_gives (h : r.Follows s m) {raw : String} {c : Cursor}
    (hc : c.At s (.interpolated raw :: ts)) :
    GivesParts s ((segments raw.toList).mapM r.part) ts (holes (segments raw.toList)) := by
  refine parts_give fun source format hmem => h.ask ?_ hmem
  have hfront : Token.interpolated raw ∈ s.words.drop c.pos := by
    rw [hc.rest]
    exact List.mem_cons_self
  exact List.mem_of_mem_drop hfront

theorem Follows.primary_gives (h : r.Follows s m) (hm : weight ts * 16 + 3 < m) :
    Gives s r.primary ts id (Grammar.primary ts) := by
  unfold Grammar.primary
  split
  · rename_i word rest
    have hcreation : Gives s r.creation rest id (Grammar.creation rest) :=
      h.creation_gives (by grind)
    split
    · rename_i e hw
      refine (reads_peekAt 0).bind_gives (reads_advance.bind_gives ?_)
      rw [hw]
      exact reads_pure e
    · rename_i hw
      refine (reads_peekAt 0).bind_gives (reads_advance.bind_gives ?_)
      simp only [hw]
      by_cases hnew : word = "new"
      · rw [if_pos hnew, if_pos hnew]
        split
        · rename_i hf
          exact hcreation.fails hf
        · rename_i hr
          exact hcreation.reads hr
      · rw [if_neg hnew, if_neg hnew]
        by_cases hdefault : word = "default"
        · rw [if_pos hdefault, if_pos hdefault]
          split
          · rename_i more
            have htype : Gives s r.type more id (Grammar.type more) := h.type (by grind)
            refine gives_eat ?_
            split
            · rename_i hf
              exact (htype.fails hf).bind
            · rename_i hr
              refine (htype.reads hr).bind_gives ?_
              split
              · exact reads_expect.bind (reads_pure _)
              · rename_i hclose
                exact Fails.bind (fails_expect (by decide) (ne_front hclose))
          · rename_i hopen
            exact gives_eat_false hopen (reads_pure _)
        · rw [if_neg hdefault, if_neg hdefault]
          exact reads_pure _
  · exact (reads_peekAt 0).bind_gives (reads_advance.bind_gives (reads_pure _))
  · exact (reads_peekAt 0).bind_gives (reads_advance.bind_gives (reads_pure _))
  · exact (reads_peekAt 0).bind_gives (reads_advance.bind_gives (reads_pure _))
  · exact (reads_peekAt 0).bind_gives (reads_advance.bind_gives (reads_pure _))
  · refine gives_of_at fun c hc => ?_
    have hparts := h.interpolated_gives hc
    refine (reads_peekAt 0).bind_gives (reads_advance.bind_gives ?_)
    split
    · rename_i hf
      rw [hf] at hparts
      exact Fails.bind hparts
    · rename_i hr
      rw [hr] at hparts
      exact Reads.bind hparts (reads_pure _)
  · rename_i rest
    have hinner : Gives s r.expression rest id (Grammar.expression rest) := h.expression (by grind)
    refine (reads_peekAt 0).bind_gives (reads_advance.bind_gives ?_)
    split
    · rename_i hf
      exact (hinner.fails hf).bind
    · rename_i hr
      refine (hinner.reads hr).bind_gives ?_
      split
      · exact reads_expect.bind (reads_pure _)
      · rename_i hclose
        exact Fails.bind (fails_expect (by decide) (ne_front hclose))
  · rename_i hident hint hfloat hstr hchar hinterpolated hopen
    refine (reads_peekAt 0).bind_gives ?_
    split
    · obtain ⟨rest, rfl⟩ := exists_of_first ‹_›
      exact absurd rfl (hident _ rest)
    · obtain ⟨rest, rfl⟩ := exists_of_first ‹_›
      exact absurd rfl (hint _ rest)
    · obtain ⟨rest, rfl⟩ := exists_of_first ‹_›
      exact absurd rfl (hfloat _ rest)
    · obtain ⟨rest, rfl⟩ := exists_of_first ‹_›
      exact absurd rfl (hstr _ rest)
    · obtain ⟨rest, rfl⟩ := exists_of_first ‹_›
      exact absurd rfl (hchar _ rest)
    · obtain ⟨rest, rfl⟩ := exists_of_first ‹_›
      exact absurd rfl (hinterpolated _ rest)
    · obtain ⟨rest, rfl⟩ := exists_of_first ‹_›
      exact absurd rfl (hopen rest)
    · exact fails_refuse _

theorem readPostfix_eq (e : Expr) : r.readPostfix e =
    (if isIdent e then r.genericCall e else pure e) >>= r.trailersFrom := by
  unfold readPostfix
  split <;> simp

/-- A name may have generic arguments right behind it. -/
theorem Follows.called_gives (h : r.Follows s m) (e : Expr) (hm : weight ts * 16 < m) :
    Gives s (if isIdent e then r.genericCall e else pure e) ts id
      (if isIdent e then Grammar.genericCall e ts else .ok ⟨e, ts, by omega⟩) := by
  split
  · exact h.genericCall_gives hm
  · exact reads_pure e

theorem readUnary_signed {t : Token} {op : UnaryOp} {limit : Nat} {q : Result Expr limit}
    (hop : unaryOp? t = some op)
    (h : Gives s (r.unary >>= fun operand => pure (.unary op operand)) ts id q) :
    Gives s r.readUnary (t :: ts) id q := by
  refine (reads_peekAt 0).bind_gives ?_
  have hfront : (t :: ts)[0]?.bind unaryOp? = some op := hop
  rw [hfront]
  exact reads_advance.bind_gives h

/-- An operand with no sign, before which no cast is found. -/
theorem Follows.readUnary_plain (h : r.Follows s m) {t : Token} {limit : Nat}
    {q : Result Expr limit} (hm : weight ts * 16 < m) (hop : unaryOp? t = none)
    (hc : (if t = .punct .openParen then castType? ts else none) = none)
    (hplain : Gives s (r.primary >>= r.readPostfix) (t :: ts) id q) :
    Gives s r.readUnary (t :: ts) id q := by
  refine (reads_peekAt 0).bind_gives ?_
  have hfront : (t :: ts)[0]?.bind unaryOp? = none := hop
  rw [hfront]
  by_cases ht : t = .punct .openParen
  · subst ht
    rw [if_pos rfl] at hc
    exact gives_isAt ((h.tryCast_none hm hc).bind_gives hplain)
  · refine gives_isAt_false ?_ hplain
    rintro _ ⟨⟩
    exact ht rfl

theorem Follows.readUnary_gives (h : r.Follows s m) (hm : weight ts * 16 + 4 < m + 1) :
    Gives s r.readUnary ts id (Grammar.unary ts) := by
  have hprimary : Gives s r.primary ts id (Grammar.primary ts) := h.primary_gives (by omega)
  unfold Grammar.unary
  split
  · have hnone : Grammar.primary [] = fail "expression" [] := by
      unfold Grammar.primary
      rfl
    exact (reads_peekAt 0).bind_gives
      (gives_isAt_false (by rintro _ ⟨⟩) (hprimary.fails hnone).bind)
  · rename_i t rest
    have hpos := t.weight_pos
    split
    · rename_i op hop
      have hoperand : Gives s r.unary rest id (Grammar.unary rest) := h.unary (by grind)
      refine readUnary_signed hop ?_
      split
      · rename_i hf
        exact (hoperand.fails hf).bind
      · rename_i hr
        exact (hoperand.reads hr).bind (reads_pure _)
    · rename_i hop
      split
      · rename_i castTo more _ hc
        have ht : t = .punct .openParen := by
          refine Decidable.of_not_not fun ht => ?_
          rw [if_neg ht] at hc
          cases hc
        subst ht
        rw [if_pos rfl] at hc
        have hcast := h.tryCast_gives (by grind) hc
        refine (reads_peekAt 0).bind_gives (gives_isAt ?_)
        split
        · rename_i hf
          exact (hcast.fails hf).bind
        · rename_i hr
          exact (hcast.reads hr).bind (reads_pure _)
      · rename_i hc
        refine h.readUnary_plain (by grind) hop hc ?_
        split
        · rename_i hf
          exact (hprimary.fails hf).bind
        · rename_i e more _ hr
          refine (hprimary.reads hr).bind_gives ?_
          have hcalled := h.called_gives e (show weight more * 16 < m by grind)
          split
          · rename_i hf
            rw [readPostfix_eq]
            exact (hcalled.fails hf).bind
          · rename_i called more' _ hr
            rw [readPostfix_eq]
            have hrest : Gives s (r.trailersFrom called) more' id (trailers called more') :=
              h.trailersFrom (by grind)
            refine (hcalled.reads hr).bind_gives ?_
            split
            · rename_i hf
              exact hrest.fails hf
            · rename_i hr
              exact hrest.reads hr

theorem Follows.header_finds (h : r.Follows s m) (hm : weight ts * 16 < m) :
    FindsHeader s r.header ts (lambdaHeader ts) := by
  unfold lambdaHeader
  split
  · exact (reads_peekAt 0).bind ((reads_peekAt 1).bind ((reads_skip 2).bind (reads_pure _)))
  · rename_i rest
    refine (reads_peekAt 0).bind_findsHeader ((reads_peekAt 1).bind_findsHeader ?_)
    exact h.closeHeader (by grind)
  · rename_i harrow hopen
    refine (reads_peekAt 0).bind ((reads_peekAt 1).bind ?_)
    split
    · rename_i hname ha
      obtain ⟨rest, rfl⟩ := exists_of_front hname ha
      exact absurd rfl (harrow _ rest)
    · rename_i hp
      obtain ⟨rest, rfl⟩ := exists_of_first hp
      exact absurd rfl (hopen rest)
    · exact reads_pure none

theorem startsBlock_iff : startsBlock ts ↔ ∃ more, ts = .punct .openBrace :: more := by
  fun_cases startsBlock ts with
  | case1 more => exact ⟨fun _ => ⟨more, rfl⟩, fun _ => rfl⟩
  | case2 ts hno =>
      refine ⟨fun h => absurd h Bool.false_ne_true, ?_⟩
      rintro ⟨more, rfl⟩
      exact absurd rfl (hno more)

/-- The body of a lambda, behind its arrow. -/
theorem readExpression_lambda {params : List String} {rest : List Token}
    {limit : Nat} {q : Result Expr limit} (hheader : Reads s r.header ts (some params) rest)
    (hblock : startsBlock rest → q = fail "expression-bodied lambda" rest)
    (hbody : ¬startsBlock rest →
      Gives s (r.expression >>= fun body => pure (.lambda params body)) rest id q) :
    Gives s r.readExpression ts id q := by
  refine hheader.bind_gives ?_
  by_cases hstarts : startsBlock rest
  · rw [hblock hstarts]
    obtain ⟨more, rfl⟩ := startsBlock_iff.1 hstarts
    exact gives_isAt (fails_refuse _)
  · exact gives_isAt_false (fun more hmore => hstarts (startsBlock_iff.2 ⟨more, hmore⟩))
      (hbody hstarts)

theorem readExpression_plain {limit : Nat} {q : Result Expr limit}
    (hheader : Reads s r.header ts none ts)
    (h : Gives s (r.binary 1 >>= fun condition => eat .question >>= fun more =>
      if more = true then r.expression >>= fun whenTrue => expect .colon >>= fun _ =>
        r.expression >>= fun whenFalse => pure (.conditional condition whenTrue whenFalse)
      else pure condition) ts id q) :
    Gives s r.readExpression ts id q :=
  hheader.bind_gives h

theorem Follows.readExpression_gives (h : r.Follows s m) (hm : weight ts * 16 + 6 < m + 1) :
    Gives s r.readExpression ts id (Grammar.expression ts) := by
  have hheader : FindsHeader s r.header ts (lambdaHeader ts) := h.header_finds (by omega)
  unfold Grammar.expression
  split
  · rename_i header hl
    have hw := weight_lambdaHeader_lt hl
    rw [hl] at hheader
    have hbody : Gives s r.expression header.2 id (Grammar.expression header.2) :=
      h.expression (by omega)
    refine readExpression_lambda hheader (fun hblock => by rw [if_pos hblock]) fun hblock => ?_
    rw [if_neg hblock]
    split
    · rename_i hf
      exact (hbody.fails hf).bind
    · rename_i hr
      exact (hbody.reads hr).bind (reads_pure _)
  · rename_i hl
    rw [hl] at hheader
    refine readExpression_plain hheader ?_
    have hcondition : Gives s (r.binary 1) ts id (Grammar.binary 1 ts) := h.binary (by omega)
    split
    · rename_i hf
      exact (hcondition.fails hf).bind
    · rename_i condition rest _ hr
      refine (hcondition.reads hr).bind_gives ?_
      split
      · rename_i more _
        have hyes : Gives s r.expression more id (Grammar.expression more) :=
          h.expression (by grind)
        refine gives_eat ?_
        split
        · rename_i hf
          exact (hyes.fails hf).bind
        · rename_i whenTrue rest' _ hr
          refine (hyes.reads hr).bind_gives ?_
          split
          · rename_i more' _
            have hno : Gives s r.expression more' id (Grammar.expression more') :=
              h.expression (by grind)
            refine reads_expect.bind_gives ?_
            split
            · rename_i hf
              exact (hno.fails hf).bind
            · rename_i hr
              exact (hno.reads hr).bind (reads_pure _)
          · rename_i hcolon
            exact Fails.bind (fails_expect (by decide) (ne_front hcolon))
      · rename_i hquestion
        exact gives_eat_false (ne_front hquestion) (reads_pure _)

theorem Follows.unfold (h : r.Follows s m) : r.unfold.Follows s (m + 1) where
  ask := h.ask
  type := h.readType_gives
  nameFrom := h.nameFrom_unfold
  marksFrom := h.marksFrom_unfold
  nextTypes := h.nextTypes_unfold
  lastType _ := reads_closeTypes_unfold
  noTypes _ := fails_closeTypes_unfold
  closeHeader := h.closeHeader_unfold
  expression := h.readExpression_gives
  binary := h.binary_unfold
  operandsFrom := h.operandsFrom_unfold
  unary := h.readUnary_gives
  trailersFrom := h.trailersFrom_unfold
  itemsFrom := h.itemsFrom_unfold
  initializersFrom := h.initializersFrom_unfold

end Rules

end Projection
