import Projection.Proofs.Grammar.Rules

/-!
What a rule of the grammar leaves is the end of what it was given. Trying generic arguments or a
cast and giving up again is no exception, since what was tried is not left but read anew.
-/

namespace Projection.Grammar

theorem suffix_of_cons {t : Token} {more ts : List Token} (h : t :: more <:+ ts) : more <:+ ts :=
  (List.suffix_cons t more).trans h

theorem suffix_cons_of_suffix {t : Token} {rest ts : List Token} (h : rest <:+ ts) :
    rest <:+ t :: ts :=
  h.trans (List.suffix_cons t ts)

theorem dotted_suffix (name : String) (ts : List Token) : (dotted name ts).2 <:+ ts := by
  fun_induction dotted name ts with
  | case1 name next rest ih => exact suffix_cons_of_suffix (suffix_cons_of_suffix ih)
  | case2 => exact List.suffix_refl _

theorem typeMarks_suffix (t : TypeExpr) (ts : List Token) : (typeMarks t ts).2 <:+ ts := by
  fun_induction typeMarks t ts with
  | case1 t rest ih => exact suffix_cons_of_suffix ih
  | case2 t rest ih | case3 t rest ih => exact suffix_cons_of_suffix (suffix_cons_of_suffix ih)
  | case4 => exact List.suffix_refl _

def leavesType : TypeRelation where
  type ts _ rest := rest <:+ ts
  list ts _ rest := rest <:+ ts

theorem leavesType_kept : leavesType.Kept where
  generic := by
    intro first ts more args rest hd hl
    have hdotted := dotted_suffix first ts
    rw [hd] at hdotted
    exact suffix_cons_of_suffix ((typeMarks_suffix _ _).trans (hl.trans (suffix_of_cons hdotted)))
  simple := by
    intro first ts _
    exact suffix_cons_of_suffix ((typeMarks_suffix _ _).trans (dotted_suffix _ _))
  next := fun ht hl => hl.trans (suffix_of_cons ht)
  last := fun ht => suffix_of_cons ht

theorem type_suffix {ts rest : List Token} {t : TypeExpr} (h : (type ts).Is t rest) : rest <:+ ts :=
  leavesType_kept.all.1 ts t rest h

theorem typeList_suffix {ts rest : List Token} {us : List TypeExpr} (h : (typeList ts).Is us rest) :
    rest <:+ ts :=
  leavesType_kept.all.2 ts us rest h

theorem lambdaParams_suffix {done : List String} {current : Option String} {ts : List Token}
    {r : List String × List Token} (h : lambdaParams done current ts = some r) : r.2 <:+ ts := by
  fun_induction lambdaParams done current ts generalizing r with
  | case1 done current name rest ih => exact suffix_cons_of_suffix (ih h)
  | case2 done rest name ih => exact suffix_cons_of_suffix (ih h)
  | case4 | case5 =>
      cases h
      exact suffix_cons_of_suffix (List.suffix_cons _ _)
  | case3 | case6 | case7 => cases h

theorem lambdaHeader_suffix {ts : List Token} {r : List String × List Token}
    (h : lambdaHeader ts = some r) : r.2 <:+ ts := by
  fun_cases lambdaHeader ts with
  | case1 name rest =>
      cases h
      exact suffix_cons_of_suffix (List.suffix_cons _ _)
  | case2 rest => exact suffix_cons_of_suffix (lambdaParams_suffix h)
  | case3 => simp_all [lambdaHeader]

theorem castType?_suffix {ts rest : List Token} {t : TypeExpr} (h : Found (castType? ts) t rest) :
    rest <:+ ts :=
  suffix_of_cons (type_suffix (found_castType?_iff.1 h).1)

theorem callTypeArgs?_suffix {ts rest : List Token} {us : List TypeExpr}
    (h : Found (callTypeArgs? ts) us rest) : rest <:+ ts := by
  obtain ⟨more, rfl, hl⟩ := found_callTypeArgs?_iff.1 h
  exact suffix_cons_of_suffix (suffix_of_cons (typeList_suffix hl))

def leaves : Relation where
  expression ts _ rest := rest <:+ ts
  binary _ ts _ rest := rest <:+ ts
  binaryRest _ _ ts _ rest := rest <:+ ts
  unary ts _ rest := rest <:+ ts
  trailers _ ts _ rest := rest <:+ ts
  items _ ts _ rest := rest <:+ ts
  someItems _ ts _ rest := rest <:+ ts
  memberTrailer _ _ ts _ rest := rest <:+ ts
  genericCall _ ts _ rest := rest <:+ ts
  primary ts _ rest := rest <:+ ts
  holes _ _ := True
  creation ts _ rest := rest <:+ ts
  initializers ts _ rest := rest <:+ ts
  moreInitializers ts _ rest := rest <:+ ts

theorem leaves_kept : leaves.Kept where
  lambda hl _ hbody := hbody.trans (lambdaHeader_suffix hl)
  conditional _ hc ht hf := hf.trans (suffix_of_cons (ht.trans (suffix_of_cons hc)))
  noConditional _ he _ := he
  operands hl hr := hr.trans hl
  noOperator _ := List.suffix_refl _
  operator _ _ hr he := suffix_cons_of_suffix (he.trans hr)
  prefixed _ he := suffix_cons_of_suffix he
  cast hc he := suffix_cons_of_suffix (he.trans (castType?_suffix hc))
  name _ _ he _ hg ht := ht.trans (hg.trans he)
  value _ _ he _ ht := ht.trans he
  access hm := suffix_cons_of_suffix hm
  call ha ht := suffix_cons_of_suffix (ht.trans ha)
  index ha ht := suffix_cons_of_suffix (ht.trans ha)
  noTrailer _ := List.suffix_refl _
  member hg ht := suffix_cons_of_suffix (ht.trans hg)
  noTypeArgs _ := List.suffix_refl _
  typeArgs hu ha := ha.trans (callTypeArgs?_suffix hu)
  noItems := List.suffix_cons _ _
  items _ hs := hs
  lastItem he := suffix_of_cons he
  nextItem _ he hs := hs.trans (suffix_of_cons he)
  literal _ := List.suffix_cons _ _
  receiver := List.suffix_cons _ _
  creation hc := suffix_cons_of_suffix hc
  typedDefault ht := suffix_cons_of_suffix (suffix_cons_of_suffix (suffix_of_cons (type_suffix ht)))
  default _ := List.suffix_cons _ _
  ident _ _ _ := List.suffix_cons _ _
  paren he := suffix_cons_of_suffix (suffix_of_cons he)
  anonymous hm := suffix_cons_of_suffix hm
  constructed ht ha _ := ha.trans (suffix_of_cons (type_suffix ht))
  constructedWith ht ha hm :=
    hm.trans (suffix_of_cons (ha.trans (suffix_of_cons (type_suffix ht))))
  initialized ht hm := hm.trans (suffix_of_cons (type_suffix ht))
  noInitializers := List.suffix_cons _ _
  named hv hm := suffix_cons_of_suffix (suffix_cons_of_suffix (hm.trans hv))
  bare _ _ hv hm := hm.trans hv
  comma hm := suffix_cons_of_suffix hm
  endInitializers := List.suffix_cons _ _
  interpolated _ := List.suffix_cons _ _
  noSegments := trivial
  text _ := trivial
  hole _ _ _ := trivial

section Suffix

variable {ts rest : List Token} {e : Expr}

theorem expression_suffix (h : (expression ts).Is e rest) : rest <:+ ts := leaves_kept.expression h

theorem binary_suffix {least : Nat} (h : (binary least ts).Is e rest) : rest <:+ ts :=
  (leaves_kept.below _).binary (Nat.lt_succ_self _) h

theorem unary_suffix (h : (unary ts).Is e rest) : rest <:+ ts :=
  (leaves_kept.below _).unary (Nat.lt_succ_self _) h

theorem primary_suffix (h : (primary ts).Is e rest) : rest <:+ ts :=
  (leaves_kept.below _).primary (Nat.lt_succ_self _) h

theorem genericCall_suffix {target : Expr} (h : (genericCall target ts).Is e rest) : rest <:+ ts :=
  (leaves_kept.below _).genericCall (Nat.lt_succ_self _) h

theorem items_suffix {close : Punct} {es : List Expr} (h : (items close ts).Is es rest) :
    rest <:+ ts :=
  (leaves_kept.below _).items (Nat.lt_succ_self _) h

end Suffix

end Projection.Grammar
