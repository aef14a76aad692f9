import Projection.Proofs.Expr.Rename
import Projection.Proofs.TypeRef.Declared

/-!
The strings of a tree, and other parts in their place. No form of a node depends on what stands in a
string, so a tree can be read with each string as the one token that it is printed as, and the parts
can be filled in afterwards.
-/

namespace Projection

def Part.bare : Part → Part
  | text s => text s
  | hole e f => hole e.bare f

namespace Expr

def strings (e : Expr) : List (List Part) :=
  match e with
  | interpolated ps => [ps]
  | e => e.children.attach.flatMap fun c => strings c.1
termination_by sizeOf e
decreasing_by exact sizeOf_lt_of_mem_children c.2

def mapStrings (g : List Part → List Part) (e : Expr) : Expr :=
  match e with
  | interpolated ps => interpolated (g ps)
  | e => e.withChildren (e.children.attach.map fun c => mapStrings g c.1)
termination_by sizeOf e
decreasing_by exact sizeOf_lt_of_mem_children c.2

theorem ne_interpolated {e : Expr} (h : e.isInterpolated = false) (ps : List Part) :
    e ≠ interpolated ps := by
  rintro rfl
  cases h

theorem eq_interpolated_or (e : Expr) :
    (∃ ps, e = interpolated ps) ∨ e.isInterpolated = false := by
  cases e <;> simp [isInterpolated]

@[simp] theorem strings_interpolated (ps : List Part) : (interpolated ps).strings = [ps] := by
  rw [strings]

theorem strings_eq {e : Expr} (h : e.isInterpolated = false) :
    e.strings = e.children.flatMap strings := by
  rw [strings]
  · conv => rhs; rw [← List.attach_map_subtype_val e.children, List.flatMap_map]
  · exact ne_interpolated h

@[simp] theorem strings_marked (note : String) (e : Expr) :
    (marked note e).strings = e.strings := by
  rw [strings_eq rfl]
  simp [children]

@[simp] theorem strings_paren (e : Expr) : (paren e).strings = e.strings := by
  rw [strings_eq rfl]
  simp [children]

theorem mem_strings_of_mem_children {ps : List Part} {c e : Expr} (h : e.isInterpolated = false)
    (hc : c ∈ e.children) (hps : ps ∈ c.strings) : ps ∈ e.strings := by
  rw [strings_eq h]
  exact List.mem_flatMap.2 ⟨c, hc, hps⟩

theorem interpolated_mem_nodes_of_mem_strings {ps : List Part} {e : Expr} (h : ps ∈ e.strings) :
    interpolated ps ∈ e.nodes := by
  induction e using childInduction with
  | h e ih =>
      rcases e.eq_interpolated_or with ⟨qs, rfl⟩ | hi
      · rw [strings_interpolated] at h
        rw [List.mem_singleton.1 h]
        exact self_mem_nodes _
      · rw [strings_eq hi] at h
        obtain ⟨c, hc, hps⟩ := List.mem_flatMap.1 h
        exact mem_nodes_of_mem_children hc (ih c hc hps)

@[simp] theorem isInterpolated_withChildren (e : Expr) (cs : List Expr) :
    (e.withChildren cs).isInterpolated = e.isInterpolated := by
  fun_cases withChildren e cs <;> rfl

section Forms

variable (g : List Part → List Part) (t c f e l r b : Expr) (n : String) (o : Bool)
  (as : List Expr) (ts : List TypeExpr) (ms : List Initializer) (op : BinaryOp) (sign : UnaryOp)
  (type : TypeExpr) (ps : List String)

@[simp] theorem mapStrings_interpolated (ps : List Part) :
    (interpolated ps).mapStrings g = interpolated (g ps) := by
  rw [mapStrings]

variable {e} in
theorem mapStrings_eq (h : e.isInterpolated = false) :
    e.mapStrings g = e.withChildren (e.children.map (mapStrings g)) := by
  rw [mapStrings]
  · simp
  · exact ne_interpolated h

@[simp] theorem mapStrings_ident : (ident n).mapStrings g = ident n := by
  rw [mapStrings_eq g rfl]
  rfl

@[simp] theorem mapStrings_this : this.mapStrings g = this := by
  rw [mapStrings_eq g rfl]
  rfl

@[simp] theorem mapStrings_literal (value : Literal) :
    (literal value).mapStrings g = literal value := by
  rw [mapStrings_eq g rfl]
  rfl

@[simp] theorem mapStrings_member :
    (member t n o).mapStrings g = member (t.mapStrings g) n o := by
  rw [mapStrings_eq g rfl]
  rfl

@[simp] theorem mapStrings_index :
    (index t as o).mapStrings g = index (t.mapStrings g) (as.map (mapStrings g)) o := by
  rw [mapStrings_eq g rfl]
  rfl

@[simp] theorem mapStrings_invoke :
    (invoke t ts as).mapStrings g = invoke (t.mapStrings g) ts (as.map (mapStrings g)) := by
  rw [mapStrings_eq g rfl]
  rfl

@[simp] theorem mapStrings_lambda : (lambda ps b).mapStrings g = lambda ps (b.mapStrings g) := by
  rw [mapStrings_eq g rfl]
  rfl

@[simp] theorem mapStrings_anonymous : (anonymous ms).mapStrings g =
    anonymous (ms.map fun m => ⟨m.name, m.value.mapStrings g⟩) := by
  rw [mapStrings_eq g rfl]
  exact congrArg anonymous (renew_map_values (mapStrings g) ms)

@[simp] theorem mapStrings_creation_none :
    (creation type as none).mapStrings g = creation type (as.map (mapStrings g)) none := by
  rw [mapStrings_eq g rfl]
  rfl

@[simp] theorem mapStrings_creation_some : (creation type as (some ms)).mapStrings g =
    creation type (as.map (mapStrings g))
      (some (ms.map fun m => ⟨m.name, m.value.mapStrings g⟩)) := by
  rw [mapStrings_eq g rfl, ← renew_map_values]
  simp [withChildren, children]

@[simp] theorem mapStrings_conditional : (conditional c t f).mapStrings g =
    conditional (c.mapStrings g) (t.mapStrings g) (f.mapStrings g) := by
  rw [mapStrings_eq g rfl]
  rfl

@[simp] theorem mapStrings_binary :
    (binary op l r).mapStrings g = binary op (l.mapStrings g) (r.mapStrings g) := by
  rw [mapStrings_eq g rfl]
  rfl

@[simp] theorem mapStrings_unary : (unary sign e).mapStrings g = unary sign (e.mapStrings g) := by
  rw [mapStrings_eq g rfl]
  rfl

@[simp] theorem mapStrings_cast : (cast type e).mapStrings g = cast type (e.mapStrings g) := by
  rw [mapStrings_eq g rfl]
  rfl

@[simp] theorem mapStrings_default (d : Option TypeExpr) :
    (defaultValue d).mapStrings g = defaultValue d := by
  rw [mapStrings_eq g rfl]
  rfl

@[simp] theorem mapStrings_paren : (paren e).mapStrings g = paren (e.mapStrings g) := by
  rw [mapStrings_eq g rfl]
  rfl

@[simp] theorem mapStrings_marked (note : String) :
    (marked note e).mapStrings g = marked note (e.mapStrings g) := by
  rw [mapStrings_eq g rfl]
  rfl

end Forms

variable (g : List Part → List Part)

@[simp] theorem power_mapStrings (e : Expr) : (e.mapStrings g).power = e.power := by
  induction e using childInduction with
  | h e ih =>
      cases e with
      | marked note e => simpa [power] using ih e (by simp [children])
      | creation t as i => cases i <;> simp [power]
      | _ => simp [power]

@[simp] theorem isLambda_mapStrings (e : Expr) : (e.mapStrings g).isLambda = e.isLambda := by
  cases e with
  | creation t as i => cases i <;> simp [isLambda]
  | _ => simp [isLambda]

@[simp] theorem repeatsSign_mapStrings (op : UnaryOp) (e : Expr) :
    repeatsSign op (e.mapStrings g) = repeatsSign op e := by
  cases e with
  | unary sign e => cases op <;> cases sign <;> simp [repeatsSign]
  | creation t as i => cases i <;> cases op <;> simp [repeatsSign]
  | _ => cases op <;> simp [repeatsSign]

@[simp] theorem isName_mapStrings (e : Expr) : (e.mapStrings g).isName = e.isName := by
  cases e with
  | creation t as i => cases i <;> simp [isName]
  | _ => simp [isName]

@[simp] theorem isSigned_mapStrings (e : Expr) : (e.mapStrings g).isSigned = e.isSigned := by
  cases e with
  | unary sign e => cases sign <;> simp [isSigned]
  | creation t as i => cases i <;> simp [isSigned]
  | _ => simp [isSigned]

@[simp] theorem isPath_mapStrings (e : Expr) : (e.mapStrings g).isPath = e.isPath := by
  induction e using childInduction with
  | h e ih =>
      cases e with
      | member t n o => cases o <;> simp [isPath, ih t (by simp [children])]
      | creation t as i => cases i <;> simp [isPath]
      | _ => simp [isPath]

@[simp] theorem isTypeLike_mapStrings (e : Expr) : (e.mapStrings g).isTypeLike = e.isTypeLike := by
  induction e using childInduction with
  | h e ih =>
      cases e with
      | index t as o => cases as <;> simp [isTypeLike, isPath, ih t (by simp [children])]
      | member t n o =>
          have hpath := isPath_mapStrings g (member t n o)
          rw [mapStrings_member] at hpath ⊢
          exact hpath
      | creation t as i => cases i <;> simp [isTypeLike, isPath]
      | _ => simp [isTypeLike, isPath]

@[simp] theorem isSureType_mapStrings (e : Expr) : (e.mapStrings g).isSureType = e.isSureType := by
  cases e with
  | index t as o => cases as <;> simp [isSureType]
  | creation t as i => cases i <;> simp [isSureType]
  | _ => simp [isSureType]

@[simp] theorem endsAsType_mapStrings (e : Expr) : (e.mapStrings g).endsAsType = e.endsAsType := by
  induction e using childInduction with
  | h e ih =>
      cases e with
      | binary op l r => simp [endsAsType, ih r (by simp [children])]
      | unary op e | cast t e => simp [endsAsType, ih e (by simp [children])]
      | creation t as i => cases i <;> simp [endsAsType]
      | _ => simp [endsAsType]

@[simp] theorem isCallable_mapStrings (e : Expr) : (e.mapStrings g).isCallable = e.isCallable := by
  cases e with
  | creation t as i => cases i <;> simp [isCallable]
  | defaultValue t => simp
  | _ => simp [isCallable]

theorem shaped_mapStrings (e : Expr) : (e.mapStrings g).Shaped ↔ e.Shaped := by
  cases e with
  | invoke t ts as => cases ts <;> simp [Shaped]
  | creation t as i => cases i <;> simp [Shaped]
  | _ => simp [Shaped]

theorem shows_mapStrings (e : Expr) : e.Shows (mapStrings g) := by
  cases e <;> simp [Shows]

theorem mapStrings_withChildren {e : Expr} (h : e.isInterpolated = false) {cs : List Expr}
    (hl : cs.length = e.children.length) :
    (e.withChildren cs).mapStrings g = e.withChildren (cs.map (mapStrings g)) := by
  rw [mapStrings_eq g (by rwa [isInterpolated_withChildren]), children_withChildren e cs hl,
    withChildren_withChildren e hl (by simp [hl])]

theorem mapStrings_mapStrings (g' : List Part → List Part) (e : Expr) :
    (e.mapStrings g).mapStrings g' = e.mapStrings fun ps => g' (g ps) := by
  induction e using childInduction with
  | h e ih =>
      rcases e.eq_interpolated_or with ⟨ps, rfl⟩ | hi
      · simp
      · rw [mapStrings_eq g hi, mapStrings_withChildren g' hi (by simp), mapStrings_eq _ hi,
          List.map_map]
        exact congrArg e.withChildren (List.map_congr_left ih)

theorem withChildren_inj {e : Expr} {cs ds : List Expr} (hc : cs.length = e.children.length)
    (hd : ds.length = e.children.length) : e.withChildren cs = e.withChildren ds ↔ cs = ds := by
  refine ⟨fun h => ?_, congrArg e.withChildren⟩
  have hchildren := congrArg children h
  rwa [children_withChildren e cs hc, children_withChildren e ds hd] at hchildren

theorem spelledNode_withChildren (e : Expr) (cs : List Expr) :
    (e.withChildren cs).spelledNode = e.spelledNode.withChildren cs := by
  cases e with
  | creation t as i => cases i <;> rfl
  | defaultValue t => cases t <;> rfl
  | _ => rcases cs with _ | ⟨a, _ | ⟨b, _ | ⟨c, cs⟩⟩⟩ <;> rfl

theorem isInterpolated_spelledNode (e : Expr) :
    e.spelledNode.isInterpolated = e.isInterpolated := by
  cases e with
  | defaultValue t => cases t <;> rfl
  | _ => rfl

theorem spelled_withChildren {e : Expr} (h : e.isMarked = false) {cs : List Expr}
    (hl : cs.length = e.children.length) :
    (e.withChildren cs).spelled = e.spelledNode.withChildren (cs.map spelled) := by
  rw [spelled_eq (by rwa [isMarked_withChildren]), children_withChildren e cs hl,
    spelledNode_withChildren, withChildren_withChildren] <;> simp [hl]

def blank (e : Expr) : Expr := e.mapStrings fun _ => []

theorem spelled_blank (e : Expr) : e.blank.spelled = e.spelled.blank := by
  induction e using childInduction with
  | h e ih =>
      cases hm : e.isMarked with
      | true =>
          cases e with
          | marked note e => simpa [blank] using ih e (by simp [children])
          | _ => cases hm
      | false =>
          rcases e.eq_interpolated_or with ⟨ps, rfl⟩ | hi
          · rw [blank, blank, mapStrings_interpolated, spelled_interpolated rfl, spelled_eq rfl]
            exact (mapStrings_interpolated (fun _ => [])
              (refill ps ((ps.filterMap Part.expr?).map spelled))).symm
          · rw [blank, mapStrings_eq _ hi, spelled_withChildren hm (by simp), spelled_eq hm, blank,
              mapStrings_withChildren _ (by rwa [isInterpolated_spelledNode]) (by simp),
              List.map_map, List.map_map]
            exact congrArg e.spelledNode.withChildren (List.map_congr_left ih)

/-- Spelling keeps apart nothing but strings that differ in nothing but strings. -/
theorem blank_spelled_mapStrings (e : Expr) :
    (e.mapStrings g).spelled.blank = e.spelled.blank := by
  rw [← spelled_blank, ← spelled_blank, blank, mapStrings_mapStrings]
  rfl

theorem isLambda_spelled_mapStrings (e : Expr) :
    (e.mapStrings g).spelled.isLambda = e.spelled.isLambda := by
  simpa [blank] using congrArg isLambda (blank_spelled_mapStrings g e)

theorem repeatsSign_spelled_mapStrings (op : UnaryOp) (e : Expr) :
    repeatsSign op (e.mapStrings g).spelled = repeatsSign op e.spelled := by
  simpa [blank] using congrArg (repeatsSign op) (blank_spelled_mapStrings g e)

theorem shaped_spelled_mapStrings (e : Expr) :
    (e.mapStrings g).spelled.Shaped ↔ e.spelled.Shaped := by
  have h := shaped_mapStrings (fun _ => []) (e.mapStrings g).spelled
  have h' := shaped_mapStrings (fun _ => []) e.spelled
  rw [← blank, blank_spelled_mapStrings, blank] at h
  exact h.symm.trans h'

theorem bare_marked (note : String) (e : Expr) : (marked note e).bare = e.bare := by
  rw [bare, spelled_marked, bare]

theorem bare_paren (e : Expr) : (paren e).bare = e.bare := by
  rw [bare, spelled_paren, withoutParens_paren, bare]

def isNode : Expr → Bool
  | marked _ _ | paren _ => false
  | _ => true

theorem isNode_withChildren (e : Expr) (cs : List Expr) :
    (e.withChildren cs).isNode = e.isNode := by
  fun_cases withChildren e cs <;> rfl

theorem isNode_spelledNode (e : Expr) : e.spelledNode.isNode = e.isNode := by
  cases e with
  | defaultValue t => cases t <;> rfl
  | _ => rfl

theorem bare_withChildren {e : Expr} (h : e.isNode = true) {cs : List Expr}
    (hl : cs.length = e.children.length) :
    (e.withChildren cs).bare = e.spelledNode.withChildren (cs.map bare) := by
  have hmarked : e.isMarked = false := by cases e <;> first | rfl | cases h
  have hparen (inner : Expr) : e.spelledNode.withChildren (cs.map spelled) ≠ paren inner := by
    intro heq
    have hnode := congrArg isNode heq
    rw [isNode_withChildren, isNode_spelledNode, h] at hnode
    cases hnode
  have hlength : (cs.map spelled).length = e.spelledNode.children.length := by simp [hl]
  rw [bare, spelled_withChildren hmarked hl, withoutParens_eq hparen,
    children_withChildren _ _ hlength, withChildren_withChildren _ hlength (by simp [hl]),
    List.map_map]
  rfl

theorem bare_eq {e : Expr} (h : e.isNode = true) :
    e.bare = e.spelledNode.withChildren (e.children.map bare) := by
  conv => lhs; rw [← withChildren_children e]
  exact bare_withChildren h rfl

theorem bare_interpolated (ps : List Part) :
    (interpolated ps).bare = interpolated (ps.map Part.bare) := by
  have hrefill : refill ps ((ps.filterMap Part.expr?).map bare) = ps.map Part.bare := by
    induction ps with
    | nil => rfl
    | cons p ps ih => cases p <;> simp [refill, List.filterMap_cons, Part.expr?, Part.bare, ih]
  rw [bare_eq rfl]
  exact congrArg interpolated hrefill

theorem map_bare_of_solid {ps : List Part} (h : ps.filterMap Part.expr? = []) :
    ps.map Part.bare = ps := by
  refine (List.map_congr_left fun p hp => ?_).trans (List.map_id _)
  cases p with
  | text s => rfl
  | hole e f => cases List.filterMap_eq_nil_iff.1 h _ hp

theorem cases_form (e : Expr) : (∃ note inner, e = marked note inner) ∨ (∃ inner, e = paren inner) ∨
    (∃ ps, e = interpolated ps) ∨ e.isNode = true ∧ e.isInterpolated = false := by
  cases e <;> simp [isNode, isInterpolated]

theorem bare_mapStrings {e : Expr} (h : ∀ ps ∈ e.strings, ps.filterMap Part.expr? = []) :
    (e.mapStrings g).bare = e.bare.mapStrings fun ps => (g ps).map Part.bare := by
  induction e using childInduction with
  | h e ih =>
      rcases cases_form e with ⟨note, inner, rfl⟩ | ⟨inner, rfl⟩ | ⟨ps, rfl⟩ | ⟨hn, hi⟩
      · rw [mapStrings_marked, bare_marked, bare_marked]
        exact ih inner (by simp [children]) fun ps hps =>
          h ps (mem_strings_of_mem_children rfl (by simp [children]) hps)
      · rw [mapStrings_paren, bare_paren, bare_paren]
        exact ih inner (by simp [children]) fun ps hps =>
          h ps (mem_strings_of_mem_children rfl (by simp [children]) hps)
      · rw [mapStrings_interpolated, bare_interpolated, bare_interpolated,
          map_bare_of_solid (h ps (by simp)), mapStrings_interpolated]
      · rw [mapStrings_eq g hi, bare_withChildren hn (by simp), bare_eq hn,
          mapStrings_withChildren _ (by rwa [isInterpolated_spelledNode]) (by simp),
          List.map_map, List.map_map]
        refine congrArg e.spelledNode.withChildren (List.map_congr_left fun c hc => ?_)
        exact ih c hc fun ps hps => h ps (mem_strings_of_mem_children hi hc hps)

/-- With other parts in its strings, a tree is bare the same if each string is. -/
theorem bare_mapStrings_eq_iff (e : Expr) : (e.mapStrings g).bare = e.bare ↔
    ∀ ps ∈ e.strings, (g ps).map Part.bare = ps.map Part.bare := by
  induction e using childInduction with
  | h e ih =>
      rcases cases_form e with ⟨note, inner, rfl⟩ | ⟨inner, rfl⟩ | ⟨ps, rfl⟩ | ⟨hn, hi⟩
      · rw [mapStrings_marked, bare_marked, bare_marked, strings_marked]
        exact ih inner (by simp [children])
      · rw [mapStrings_paren, bare_paren, bare_paren, strings_paren]
        exact ih inner (by simp [children])
      · rw [mapStrings_interpolated, bare_interpolated, bare_interpolated]
        simp
      · rw [mapStrings_eq g hi, bare_withChildren hn (by simp), bare_eq hn, strings_eq hi,
          withChildren_inj (by simp) (by simp), List.map_map, List.map_inj_left]
        refine (forall₂_congr ih).trans ?_
        simp only [List.mem_flatMap]
        constructor
        · rintro h ps ⟨c, hc, hps⟩
          exact h c hc ps hps
        · exact fun h c hc ps hps => h ps ⟨c, hc, hps⟩

def ink (ps : List Part) : List Part := [.text (printParts StructuralId.placeholder ps)]

def inked (e : Expr) : Expr := e.mapStrings ink

theorem printParts_ink (ps : List Part) :
    printParts StructuralId.placeholder (ink ps) = printParts StructuralId.placeholder ps := by
  rw [ink, printParts, printParts, String.append_empty]

theorem tokens_inked (e : Expr) : e.inked.tokens = e.tokens := by
  induction e using childInduction with
  | h e ih =>
      rcases e.eq_interpolated_or with ⟨ps, rfl⟩ | hi
      · rw [inked, mapStrings_interpolated, tokens, tokens, printParts_ink]
      · rw [inked, mapStrings_eq ink hi]
        exact tokens_withChildren hi (shows_mapStrings ink e) fun c hc =>
          ⟨ih c hc, power_mapStrings ink c⟩

theorem mem_wrapTokens {t : Token} {ts : List Token} (h : t ∈ ts) (needed : Bool) :
    t ∈ wrapTokens needed ts := by
  cases needed with
  | false => exact h
  | true => exact List.mem_cons_of_mem _ (List.mem_append_left _ h)

theorem mem_commaList {t : Token} {ts : List Token} {ws : List (List Token)} (hts : ts ∈ ws)
    (h : t ∈ ts) : t ∈ commaList ws := by
  have htail {ws : List (List Token)} (hts : ts ∈ ws) : t ∈ commaTail ws := by
    induction ws with
    | nil => cases hts
    | cons w ws ih =>
        refine List.mem_cons_of_mem _ (List.mem_append.2 ?_)
        rcases List.mem_cons.1 hts with rfl | hts
        · exact .inl h
        · exact .inr (ih hts)
  cases ws with
  | nil => cases hts
  | cons w ws =>
      refine List.mem_append.2 ?_
      rcases List.mem_cons.1 hts with rfl | hts
      · exact .inl h
      · exact .inr (htail hts)

theorem mem_valueTokens {t : Token} {ts : List Token} (h : t ∈ ts) (name : Option String) :
    t ∈ valueTokens name ts := by
  cases name with
  | none => exact h
  | some n => exact List.mem_cons_of_mem _ (List.mem_cons_of_mem _ h)

theorem mem_tokens_of_mem_children {t : Token} {c e : Expr} (hi : e.isInterpolated = false)
    (hc : c ∈ e.children) (ht : t ∈ c.tokens) : t ∈ e.tokens := by
  have hlist {as : List Expr} (hc : c ∈ as) : t ∈ commaList (as.map tokens) :=
    mem_commaList (List.mem_map_of_mem hc) ht
  have hmembers {ms : List Initializer} (hc : c ∈ ms.map (·.value)) :
      t ∈ commaList (ms.map fun m => valueTokens m.name m.value.tokens) := by
    obtain ⟨m, hm, rfl⟩ := List.mem_map.1 hc
    exact mem_commaList (List.mem_map.2 ⟨m, hm, rfl⟩) (mem_valueTokens ht m.name)
  cases e with
  | ident | this | literal | defaultValue => cases hc
  | interpolated ps => cases hi
  | member u n o | lambda ps u | cast type u | paren u | marked note u | unary op u =>
      cases List.mem_singleton.1 hc
      simp [tokens, mem_wrapTokens ht, ht]
  | index u as o | invoke u ts as =>
      rcases List.mem_cons.1 hc with rfl | hc
      · simp [tokens, mem_wrapTokens ht]
      · simp [tokens, hlist hc]
  | anonymous ms => simp [tokens, hmembers hc]
  | creation u as i =>
      cases i with
      | none =>
          have hc : c ∈ as := hc
          simp [tokens, hlist hc]
      | some ms =>
          rcases List.mem_append.1 hc with has | hms
          · cases as with
            | nil => cases has
            | cons a as => simpa [tokens] using .inr (.inr (.inr (.inl (hlist has))))
          · cases as <;> simp [tokens, hmembers hms]
  | conditional d u f =>
      simp only [children, List.mem_cons, List.not_mem_nil, or_false] at hc
      rcases hc with rfl | rfl | rfl <;> simp [tokens, mem_wrapTokens ht]
  | binary op l r =>
      simp only [children, List.mem_cons, List.not_mem_nil, or_false] at hc
      rcases hc with rfl | rfl <;> simp [tokens, mem_wrapTokens ht]

theorem mem_tokens_of_mem_strings {ps : List Part} {e : Expr} (h : ps ∈ e.strings) :
    .interpolated (printParts StructuralId.placeholder ps) ∈ e.tokens := by
  induction e using childInduction with
  | h e ih =>
      rcases e.eq_interpolated_or with ⟨qs, rfl⟩ | hi
      · rw [strings_interpolated] at h
        rw [tokens, List.mem_singleton.1 h]
        exact List.mem_cons_self
      · rw [strings_eq hi] at h
        obtain ⟨c, hc, hps⟩ := List.mem_flatMap.1 h
        exact mem_tokens_of_mem_children hi hc (ih c hc hps)

end Expr

def Strings.sealed (P : String → Prop) : Strings where
  allows ps := ∃ raw, ps = [.text raw] ∧ P raw
  refill _ := by
    rintro ⟨raw, rfl, h⟩
    exact ⟨raw, rfl, h⟩

theorem Strings.solid_sealed (P : String → Prop) : (Strings.sealed P).Solid := by
  rintro _ ⟨raw, rfl, -⟩
  rfl

namespace Expr

theorem every_sayable_inked {S : Strings} {P : String → Prop} {e : Expr} (h : e.Every (Sayable S))
    (hP : ∀ ps ∈ e.strings, P (printParts StructuralId.placeholder ps)) :
    e.inked.Every (Sayable (.sealed P)) := by
  induction e using childInduction with
  | h e ih =>
      rcases e.eq_interpolated_or with ⟨ps, rfl⟩ | hi
      · rw [inked, mapStrings_interpolated]
        refine every_iff.2 ⟨⟨⟨List.forall_mem_nil _, List.forall_mem_nil _, _, rfl,
          hP ps (by simp)⟩, fun _ => ?_, trivial⟩, List.forall_mem_nil _⟩
        rw [spelled_interpolated rfl]
        trivial
      · obtain ⟨⟨hown, htypes, -⟩, hshaped, hunhidden⟩ := h.self
        have heq : e.inked = e.withChildren (e.children.map inked) := mapStrings_eq ink hi
        have hnode : e.inked.Sayable (.sealed P) := by
          refine ⟨⟨?_, ?_, ?_⟩, fun hm => ?_, ?_⟩
          · rw [heq, ownTokens_withChildren (by simp)]
            exact hown
          · rw [heq, types_withChildren]
            exact htypes
          · refine Strings.admits_of_isInterpolated _ ?_
            rw [heq, isInterpolated_withChildren, hi]
          · rw [heq, isMarked_withChildren] at hm
            exact (shaped_spelled_mapStrings ink e).2 (hshaped hm)
          · cases e with
            | conditional c t f =>
                rw [inked, mapStrings_conditional]
                refine ⟨?_, ?_⟩
                · rw [isLambda_spelled_mapStrings, isLambda_mapStrings, hunhidden.1]
                · rw [isLambda_spelled_mapStrings, isLambda_mapStrings, hunhidden.2]
            | unary op e =>
                rw [inked, mapStrings_unary]
                change repeatsSign op _ = repeatsSign op _
                rw [repeatsSign_spelled_mapStrings, repeatsSign_mapStrings]
                exact hunhidden
            | interpolated ps => cases hi
            | creation t as i => cases i <;> simp [inked, Unhidden, Shows]
            | _ => simp [inked, Unhidden, Shows]
        rw [heq] at hnode ⊢
        refine every_withChildren hnode (by simp) (List.forall_mem_map.2 fun c hc => ?_)
        exact ih c hc (h.child hc) fun ps hps => hP ps (mem_strings_of_mem_children hi hc hps)

end Expr

end Projection
