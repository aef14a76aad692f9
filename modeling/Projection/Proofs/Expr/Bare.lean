import Projection.Proofs.Expr.Lexed
import Projection.Proofs.Grammar.Built

/-!
Trees as they are read back: without notes, and with each generated type spelled as its
placeholder. They print as the same tokens, unless a note hides what asks for parentheses.
-/

namespace Projection

open Text Scan

namespace TypeExpr

mutual

def spelled : TypeExpr → TypeExpr
  | named name args => named name (spelledAll args)
  | generated id => simple id.placeholder
  | array t => array (spelled t)
  | nullable t => nullable (spelled t)

def spelledAll : List TypeExpr → List TypeExpr
  | [] => []
  | t :: ts => spelled t :: spelledAll ts

end

@[simp] theorem spelledAll_eq_map (ts : List TypeExpr) : spelledAll ts = ts.map spelled := by
  induction ts <;> simp_all [spelledAll]

@[simp] theorem isNullable_spelled (t : TypeExpr) : t.spelled.isNullable = t.isNullable := by
  cases t <;> rfl

/-- Types that can be read back once the generated ones among them are spelled. -/
inductive Legible : TypeExpr → Prop
  | named {first names args} : (∀ n ∈ first :: names, IsName n) → (∀ a ∈ args, Legible a) →
      Legible (.named (dottedName first names) args)
  | generated {id : StructuralId} : IsName id.placeholder → Legible (.generated id)
  | array {t} : Legible t → Legible (.array t)
  | nullable {t} : Legible t → t.isNullable = false → Legible (.nullable t)

theorem Readable.legible {t : TypeExpr} (h : t.Readable) : t.Legible := by
  induction h with
  | named hn _ ih => exact .named hn ih
  | array _ ih => exact .array ih
  | nullable _ hn ih => exact .nullable ih hn

theorem spelled_of_readable {t : TypeExpr} (h : t.Readable) : t.spelled = t := by
  induction h with
  | named hn _ ih =>
      rw [spelled, spelledAll_eq_map]
      exact congrArg _ ((List.map_congr_left ih).trans (List.map_id _))
  | array _ ih => rw [spelled, ih]
  | nullable _ _ ih => rw [spelled, ih]

theorem readable_simple {name : String} (h : IsName name) : (simple name).Readable := by
  have hnames : ∀ n ∈ [name], IsName n := List.forall_mem_singleton.2 h
  exact .named hnames nofun

theorem nameTokens_simple {name : String} (h : IsName name) : nameTokens name = [.ident name] := by
  have hnames : ∀ n ∈ [name], IsName n := List.forall_mem_singleton.2 h
  exact nameTokens_dottedName hnames

namespace Legible

variable {t : TypeExpr}

theorem readable (h : t.Legible) : t.spelled.Readable := by
  induction h with
  | named hn _ ih =>
      rw [spelled, spelledAll_eq_map]
      exact .named hn (List.forall_mem_map.2 ih)
  | @generated id hid => exact readable_simple hid
  | array _ ih => exact .array ih
  | nullable _ hn ih => exact .nullable ih (by rwa [isNullable_spelled])

theorem source_spelled (h : t.Legible) : t.spelled.source = t.source := by
  induction h with
  | @named first names args _ _ ih =>
      cases args with
      | nil => rfl
      | cons a as =>
          have hargs : (spelledAll (a :: as)).map source = (a :: as).map source := by
            rw [spelledAll_eq_map, List.map_map]
            exact List.map_congr_left ih
          change _ ++ "<" ++ join ", " (print _ a.spelled :: printAll _ (spelledAll as)) ++ ">" =
            _ ++ "<" ++ join ", " (print _ a :: printAll _ as) ++ ">"
          rw [printAll_eq_map, printAll_eq_map]
          exact congrArg (fun texts => _ ++ "<" ++ join ", " texts ++ ">") hargs
  | generated => rfl
  | array _ ih => exact congrArg (· ++ "[]") ih
  | nullable _ _ ih => exact congrArg (· ++ "?") ih

theorem moreTokens_spelled {ts : List TypeExpr} (h : ∀ t ∈ ts, t.spelled.tokens = t.tokens) :
    moreTokens (ts.map spelled) = moreTokens ts := by
  induction ts with
  | nil => rfl
  | cons t ts ih =>
      obtain ⟨ht, hts⟩ := List.forall_mem_cons.1 h
      rw [List.map_cons, moreTokens, moreTokens, ht, ih hts]

theorem tokens_spelled (h : t.Legible) : t.spelled.tokens = t.tokens := by
  induction h with
  | @named first names args _ _ ih =>
      cases args with
      | nil => rfl
      | cons a as =>
          obtain ⟨ha, has⟩ := List.forall_mem_cons.1 ih
          rw [spelled, spelledAll, tokens, tokens, ha, spelledAll_eq_map, moreTokens_spelled has]
  | generated hid => exact nameTokens_simple hid
  | @array t ht ih =>
      cases t with
      | nullable u =>
          rw [spelled, tokens, tokens, List.append_left_inj] at ih
          rw [spelled, spelled, tokens, tokens, ih]
      | _ =>
          rw [spelled, tokens_array (isNullable_spelled _), tokens_array rfl, ih]
  | nullable _ _ ih => rw [spelled, tokens, tokens, ih]

theorem written (h : t.Legible) : t.Written := by
  have hw := written_of_readable h.readable
  refine ⟨h.source_spelled ▸ hw.front, fun hends hts => ?_⟩
  rw [← h.source_spelled, ← h.tokens_spelled]
  exact hw.lexed ⟨hends.breaks, hends.equal, by simpa using hends.question⟩ hts

end Legible

end TypeExpr

namespace Expr

def spelledNode : Expr → Expr
  | invoke t ts as => invoke t (ts.map TypeExpr.spelled) as
  | creation t as i => creation t.spelled as i
  | cast t e => cast t.spelled e
  | defaultValue (some t) => defaultValue (some t.spelled)
  | e => e

def spelled (e : Expr) : Expr :=
  match e with
  | marked _ e => spelled e
  | e => e.spelledNode.withChildren (e.children.attach.map fun c => spelled c.1)
termination_by sizeOf e
decreasing_by
  · exact sizeOf_lt_of_mem_children (by simp [children])
  · exact sizeOf_lt_of_mem_children c.2

/-- What is left of a tree without notes and parentheses. -/
def bare (e : Expr) : Expr := e.spelled.withoutParens

@[simp] theorem spelled_marked (note : String) (e : Expr) :
    (marked note e).spelled = e.spelled := by
  rw [spelled]

theorem spelled_eq {e : Expr} (h : e.isMarked = false) :
    e.spelled = e.spelledNode.withChildren (e.children.map spelled) := by
  rw [spelled]
  · simp
  · rintro note inner rfl
    cases h

@[simp] theorem children_spelledNode (e : Expr) : e.spelledNode.children = e.children := by
  cases e with
  | defaultValue t => cases t <;> rfl
  | creation t as i => cases i <;> rfl
  | _ => rfl

theorem children_spelled {e : Expr} (h : e.isMarked = false) :
    e.spelled.children = e.children.map spelled := by
  rw [spelled_eq h, children_withChildren _ _ (by simp)]

theorem renew_map_values (g : Expr → Expr) (ms : List Initializer) :
    renew ms ((ms.map (·.value)).map g) = ms.map fun m => ⟨m.name, g m.value⟩ := by
  induction ms with
  | nil => rfl
  | cons m ms ih => exact congrArg (_ :: ·) ih

section Forms

variable (t c f e l r b : Expr) (n : String) (o : Bool) (as : List Expr) (ts : List TypeExpr)
  (ms : List Initializer) (op : BinaryOp) (sign : UnaryOp) (type : TypeExpr) (ps : List String)

def spelledInitializers : List Initializer := ms.map fun m => ⟨m.name, m.value.spelled⟩

theorem renew_spelled : renew ms ((ms.map (·.value)).map spelled) = spelledInitializers ms :=
  renew_map_values spelled ms

@[simp] theorem spelled_ident : (ident n).spelled = ident n := by
  rw [spelled_eq rfl]
  rfl

@[simp] theorem spelled_this : this.spelled = this := by
  rw [spelled_eq rfl]
  rfl

@[simp] theorem spelled_literal (value : Literal) : (literal value).spelled = literal value := by
  rw [spelled_eq rfl]
  rfl

@[simp] theorem spelled_member : (member t n o).spelled = member t.spelled n o := by
  rw [spelled_eq rfl]
  rfl

@[simp] theorem spelled_index : (index t as o).spelled = index t.spelled (as.map spelled) o := by
  rw [spelled_eq rfl]
  rfl

@[simp] theorem spelled_invoke : (invoke t ts as).spelled =
    invoke t.spelled (ts.map TypeExpr.spelled) (as.map spelled) := by
  rw [spelled_eq rfl]
  rfl

@[simp] theorem spelled_lambda : (lambda ps b).spelled = lambda ps b.spelled := by
  rw [spelled_eq rfl]
  rfl

@[simp] theorem spelled_anonymous :
    (anonymous ms).spelled = anonymous (spelledInitializers ms) := by
  rw [spelled_eq rfl]
  exact congrArg anonymous (renew_spelled ms)

@[simp] theorem spelled_creation_none :
    (creation type as none).spelled = creation type.spelled (as.map spelled) none := by
  rw [spelled_eq rfl]
  rfl

@[simp] theorem spelled_creation_some :
    (creation type as (some ms)).spelled =
      creation type.spelled (as.map spelled) (some (spelledInitializers ms)) := by
  rw [spelled_eq rfl, ← renew_spelled]
  simp [spelledNode, withChildren, children]

@[simp] theorem spelled_conditional :
    (conditional c t f).spelled = conditional c.spelled t.spelled f.spelled := by
  rw [spelled_eq rfl]
  rfl

@[simp] theorem spelled_binary : (binary op l r).spelled = binary op l.spelled r.spelled := by
  rw [spelled_eq rfl]
  rfl

@[simp] theorem spelled_unary : (unary sign e).spelled = unary sign e.spelled := by
  rw [spelled_eq rfl]
  rfl

@[simp] theorem spelled_cast : (cast type e).spelled = cast type.spelled e.spelled := by
  rw [spelled_eq rfl]
  rfl

@[simp] theorem spelled_default : (defaultValue none).spelled = defaultValue none := by
  rw [spelled_eq rfl]
  rfl

@[simp] theorem spelled_typedDefault :
    (defaultValue (some type)).spelled = defaultValue (some type.spelled) := by
  rw [spelled_eq rfl]
  rfl

@[simp] theorem spelled_paren : (paren e).spelled = paren e.spelled := by
  rw [spelled_eq rfl]
  rfl

end Forms

@[simp] theorem power_spelled (e : Expr) : e.spelled.power = e.power := by
  induction e using childInduction with
  | h e ih =>
      cases e with
      | marked note e =>
          rw [spelled_marked]
          exact ih e (by simp [children])
      | defaultValue t => cases t <;> simp [power]
      | creation t as i => cases i <;> simp [power]
      | interpolated ps =>
          rw [spelled_eq rfl]
          rfl
      | _ => simp [power]

/-- What decides about parentheses below the node is the same of its new children. -/
def Shows (g : Expr → Expr) : Expr → Prop
  | conditional _ t f => (g t).isLambda = t.isLambda ∧ (g f).isLambda = f.isLambda
  | unary op e => repeatsSign op (g e) = repeatsSign op e
  | _ => True

theorem tokens_withChildren {g : Expr → Expr} {e : Expr} (hi : e.isInterpolated = false)
    (hs : e.Shows g) (h : ∀ c ∈ e.children, (g c).tokens = c.tokens ∧ (g c).power = c.power) :
    (e.withChildren (e.children.map g)).tokens = e.tokens := by
  have hlist {es : List Expr} (hes : ∀ c ∈ es, (g c).tokens = c.tokens ∧ (g c).power = c.power) :
      (es.map g).map tokens = es.map tokens := by
    rw [List.map_map]
    exact List.map_congr_left fun c hc => (hes c hc).1
  have hvalues {ms : List Initializer}
      (hms : ∀ c ∈ ms.map (·.value), (g c).tokens = c.tokens ∧ (g c).power = c.power) :
      ((renew ms ((ms.map (·.value)).map g)).map fun m => valueTokens m.name m.value.tokens) =
        ms.map fun m => valueTokens m.name m.value.tokens := by
    rw [renew_map_values, List.map_map]
    refine List.map_congr_left fun m hm => ?_
    exact congrArg (valueTokens m.name) (hms m.value (List.mem_map_of_mem hm)).1
  cases e with
  | ident | this | literal | defaultValue => rfl
  | member t n o | lambda ps t | cast type t | paren t | marked note t =>
      obtain ⟨ht, hp⟩ := h t (by simp [children])
      simp only [children, List.map_cons, withChildren, tokens, ht, hp]
  | index t as o | invoke t ts as =>
      obtain ⟨⟨ht, hp⟩, has⟩ := List.forall_mem_cons.1 h
      simp only [children, List.map_cons, withChildren, tokens, ht, hp, hlist has]
  | anonymous ms => simp only [children, withChildren, tokens, hvalues h]
  | creation t as i =>
      cases i with
      | none =>
          have has : (as.map g).map tokens = as.map tokens := hlist h
          simp only [children, withChildren, tokens, has]
      | some ms =>
          obtain ⟨has, hms⟩ := List.forall_mem_append.1 h
          have htake : (as.map g ++ (ms.map (·.value)).map g).take as.length = as.map g :=
            List.take_left' (by simp)
          have hdrop : (as.map g ++ (ms.map (·.value)).map g).drop as.length =
              (ms.map (·.value)).map g := List.drop_left' (by simp)
          simp only [children, List.map_append, withChildren, htake, hdrop]
          cases as with
          | nil => simp only [List.map_nil, tokens, hvalues hms]
          | cons a as =>
              obtain ⟨⟨ha, -⟩, has⟩ := List.forall_mem_cons.1 has
              simp only [List.map_cons, tokens, ha, hlist has, hvalues hms]
  | conditional c t f =>
      obtain ⟨⟨hc, hp⟩, ⟨ht, -⟩, hf, -⟩ := by simpa [children] using h
      simp only [children, List.map_cons, withChildren, tokens, hc, hp, ht, hf, hs.1, hs.2]
  | binary op l r =>
      obtain ⟨⟨hl, hlp⟩, hr, hrp⟩ := by simpa [children] using h
      simp only [children, List.map_cons, withChildren, tokens, hl, hlp, hr, hrp]
  | unary op e =>
      obtain ⟨he, hp⟩ := h e (by simp [children])
      have hsign : repeatsSign op (g e) = repeatsSign op e := hs
      simp only [children, List.map_cons, withChildren, tokens, he, hp, hsign]
  | interpolated ps => cases hi

/-- The node shows as it is what decides about parentheses below it. A note would hide it. -/
def Unhidden (n : Expr) : Prop := n.Shows spelled

/-- The node is printed as tokens that can be read. -/
structure Legible (S : Strings) (n : Expr) : Prop where
  own : ∀ t ∈ n.ownTokens, t.Valid
  types : ∀ t ∈ n.types, t.Legible
  plain : S.Admits n

variable {S : Strings}

theorem Legible.scannable {n : Expr} (h : n.Legible S)
    (hstrings : ∀ ps, n = interpolated ps →
      (Token.interpolated (printParts StructuralId.placeholder ps)).Valid) : n.Scannable :=
  ⟨h.own, fun t ht => (h.types t ht).written, hstrings⟩

theorem Spellable.legible {n : Expr} (h : n.Spellable S) : n.Legible S :=
  ⟨h.own, fun t ht => (h.types t ht).legible, h.plain.1⟩

theorem typeArgTokens_spelled {ts : List TypeExpr} (h : ∀ t ∈ ts, t.Legible) :
    typeArgTokens (ts.map TypeExpr.spelled) = typeArgTokens ts := by
  cases ts with
  | nil => rfl
  | cons t ts =>
      obtain ⟨ht, hts⟩ := List.forall_mem_cons.1 h
      have hmore := TypeExpr.Legible.moreTokens_spelled fun t h => (hts t h).tokens_spelled
      simp only [List.map_cons, typeArgTokens, TypeExpr.listTokens, ht.tokens_spelled, hmore]

theorem spelled_interpolated {ps : List Part} (h : ps.filterMap Part.expr? = []) :
    (interpolated ps).spelled = interpolated ps := by
  have hchildren : (interpolated ps).children = [] := h
  rw [spelled_eq rfl, hchildren, List.map_nil, ← hchildren]
  exact withChildren_children (interpolated ps)

theorem tokens_spelledNode {e : Expr} (h : ∀ t ∈ e.types, t.Legible) :
    e.spelledNode.tokens = e.tokens := by
  cases e with
  | invoke t ts as =>
      have hts : ∀ u ∈ ts, u.Legible := h
      rw [spelledNode, tokens, tokens, typeArgTokens_spelled hts]
  | creation t as i =>
      have ht := (h t List.mem_cons_self).tokens_spelled
      cases i with
      | none => rw [spelledNode, tokens, tokens, ht]
      | some ms => cases as <;> rw [spelledNode, tokens, tokens, ht]
  | cast t e => rw [spelledNode, tokens, tokens, (h t List.mem_cons_self).tokens_spelled]
  | defaultValue t =>
      cases t with
      | none => rfl
      | some t => rw [spelledNode, tokens, tokens, (h t List.mem_cons_self).tokens_spelled]
  | _ => rfl

theorem tokens_spelled {e : Expr} (hS : S.Solid) (h : e.Every (Legible S))
    (hu : e.Every Unhidden) : e.spelled.tokens = e.tokens := by
  induction e using childInduction with
  | h e ih =>
      replace ih := fun c hc => ih c hc (h.child hc) (hu.child hc)
      cases hm : e.isMarked with
      | true =>
          cases e with
          | marked note e => rw [spelled_marked, tokens, ih e (by simp [children])]
          | _ => cases hm
      | false =>
          cases hi : e.isInterpolated with
          | true =>
              cases e with
              | interpolated ps => rw [spelled_interpolated (hS ps h.self.plain)]
              | _ => cases hi
          | false =>
              have hshows : e.spelledNode.Shows spelled := by
                have hself := hu.self
                cases e with
                | defaultValue t => cases t <;> trivial
                | _ => exact hself
              have hplain : e.spelledNode.isInterpolated = false := by
                cases e with
                | defaultValue t => cases t <;> rfl
                | _ => exact hi
              have htokens := tokens_withChildren hplain hshows fun c hc =>
                ⟨ih c (children_spelledNode e ▸ hc), power_spelled c⟩
              rw [children_spelledNode] at htokens
              rw [spelled_eq hm, htokens, tokens_spelledNode h.self.types]

theorem ownTokens_spelled {e : Expr} (h : e.isMarked = false) :
    e.spelled.ownTokens = e.ownTokens := by
  cases e with
  | marked note e => cases h
  | anonymous ms => simp [ownTokens, spelledInitializers, List.filterMap_map]
  | creation t as i =>
      cases i with
      | none => simp [ownTokens]
      | some ms => simp [ownTokens, spelledInitializers, List.filterMap_map]
  | defaultValue t => cases t <;> simp [ownTokens]
  | interpolated ps =>
      rw [spelled_eq rfl]
      rfl
  | _ => simp [ownTokens]

theorem types_spelled {e : Expr} (h : e.isMarked = false) :
    e.spelled.types = e.types.map TypeExpr.spelled := by
  rw [spelled_eq h, types_withChildren]
  cases e with
  | defaultValue t => cases t <;> rfl
  | _ => rfl

theorem isMarked_spelled (e : Expr) : e.spelled.isMarked = false := by
  induction e using childInduction with
  | h e ih =>
      cases e with
      | marked note e =>
          rw [spelled_marked]
          exact ih e (by simp [children])
      | defaultValue t => cases t <;> simp [isMarked]
      | creation t as i => cases i <;> simp [isMarked]
      | interpolated ps =>
          rw [spelled_eq rfl]
          rfl
      | _ => simp [isMarked]

theorem admits_spelled {e : Expr} (h : S.Admits e) (hm : e.isMarked = false) :
    S.Admits e.spelled := by
  cases e with
  | marked note e => cases hm
  | defaultValue t => cases t <;> simp [Strings.Admits]
  | creation t as i => cases i <;> simp [Strings.Admits]
  | interpolated ps =>
      rw [spelled_eq rfl]
      exact S.refill _ h
  | _ => simp [Strings.Admits]

theorem Legible.spellable {e : Expr} (h : e.Legible S) (hm : e.isMarked = false) :
    e.spelled.Spellable S where
  own := by
    rw [ownTokens_spelled hm]
    exact h.own
  types := by
    rw [types_spelled hm]
    exact List.forall_mem_map.2 fun t ht => (h.types t ht).readable
  plain := ⟨admits_spelled h.plain hm, isMarked_spelled e⟩

/-- A node that can be read back with all below it. -/
structure Sayable (S : Strings) (n : Expr) : Prop where
  legible : n.Legible S
  shaped : n.isMarked = false → n.spelled.Shaped
  unhidden : n.Unhidden

theorem every_formed_spelled {e : Expr} (h : e.Every (Sayable S)) :
    e.spelled.Every (Formed S) := by
  induction e using childInduction with
  | h e ih =>
      replace ih := fun c hc => ih c hc (h.child hc)
      cases hm : e.isMarked with
      | true =>
          cases e with
          | marked note e =>
              rw [spelled_marked]
              exact ih e (by simp [children])
          | _ => cases hm
      | false =>
          refine every_iff.2 ⟨⟨h.self.legible.spellable hm, h.self.shaped hm⟩, ?_⟩
          rw [children_spelled hm]
          exact List.forall_mem_map.2 ih

theorem spelled_of_spellable {e : Expr} (h : e.Every (Spellable S)) : e.spelled = e := by
  induction e using childInduction with
  | h e ih =>
      have hchildren : e.children.map spelled = e.children :=
        (List.map_congr_left fun c hc => ih c hc (h.child hc)).trans (List.map_id _)
      obtain ⟨-, htypes, -, hm⟩ := h.self
      have hnode : e.spelledNode = e := by
        cases e with
        | invoke t ts as =>
            exact congrArg (invoke t · as) ((List.map_congr_left fun u hu =>
              TypeExpr.spelled_of_readable (htypes u hu)).trans (List.map_id _))
        | creation t as i =>
            exact congrArg (creation · as i)
              (TypeExpr.spelled_of_readable (htypes t List.mem_cons_self))
        | cast t e =>
            exact congrArg (cast · e) (TypeExpr.spelled_of_readable (htypes t List.mem_cons_self))
        | defaultValue t =>
            cases t with
            | none => rfl
            | some t =>
                exact congrArg (fun t => defaultValue (some t))
                  (TypeExpr.spelled_of_readable (htypes t List.mem_cons_self))
        | _ => rfl
      rw [spelled_eq hm, hchildren, hnode, withChildren_children]

/-- The tree that is read back from what is printed. -/
def printed (e : Expr) : Expr := e.spelled.bracketed

theorem bare_printed {e : Expr} (hS : S.Solid) (h : e.Every (Sayable S)) :
    e.printed.bare = e.bare := by
  have hprintable := every_printable_bracketed hS (every_formed_spelled h)
  rw [bare, printed, spelled_of_spellable (hprintable.mono fun _ hn => hn.spellable)]
  exact withoutParens_bracketed e.spelled

/-- By any rules that read strings as they are, the tree is read from its tokens. -/
theorem reads_printed {R : Grammar.Relation} (rules : R.KeptOutside) (strings : R.ReadsStrings S)
    {e : Expr} (hS : S.Solid) (h : e.Every (Sayable S)) (hc : Grammar.Clear e.printed []) :
    R.expression e.tokens e.printed [] := by
  have hprintable := every_printable_bracketed hS (every_formed_spelled h)
  have hread := Grammar.reads_tokens rules strings hprintable hc
  rwa [tokens_bracketed, tokens_spelled hS (h.mono fun _ hn => hn.legible)
    (h.mono fun _ hn => hn.unhidden)] at hread

/-- Text that is scanned as the tokens to its end has them as words. -/
theorem exists_words_of_scans {text : String} {w : List Token} (h : Scans text w) :
    ∃ s, Scan.ofString text = .ok s ∧ s.words = w := by
  have hlexed := h.lexed Lexer.breaks_nil Scan.Lexed.nil
  rw [List.append_nil, List.append_nil] at hlexed
  exact hlexed .start

theorem parse_source_of_sayable {e : Expr} (h : e.Every (Sayable .none))
    (hc : Grammar.Clear e.printed []) :
    parse e.source = .ok e.printed ∧ e.printed.bare = e.bare := by
  have hscannable : e.Every Scannable := h.mono fun _ hn => hn.legible.scannable (by
    rintro ps rfl
    exact hn.legible.plain.elim)
  obtain ⟨s, hs, hwords⟩ := exists_words_of_scans (scans_of_scannable e hscannable)
  have hread := reads_printed Grammar.reads_kept.toKeptOutside (Grammar.readsStrings_none _)
    Strings.solid_none h hc
  exact ⟨parse_eq_ok_iff.2 ⟨s, hs, hwords ▸ hread⟩, bare_printed Strings.solid_none h⟩

end Expr

end Projection
