import Projection.Typing

/-!
Nullability under operators that join two values. A choice and an arithmetic or bitwise operator
make their result nullable if one of the values is, as long as a common type is known. Otherwise the
first type stands for the result, and the mark of the second is lost; so it is in arithmetic on
dates, where the difference of two dates loses both.
-/

namespace Projection.Typing

open TypeRef

def isArithmetic : BinaryOp → Bool
  | .add | .sub | .mul | .div | .rem | .bitAnd | .bitOr | .bitXor => true
  | _ => false

def isConcatenation (op : BinaryOp) (a b : TypeRef) : Bool :=
  op == .add && (a.isPrimitive .string || b.isPrimitive .string)

/-- The expression has a type and joins values of two known types. -/
inductive Joined (Γ : Context) : Expr → TypeRef → TypeRef → Prop where
  | conditional {c t f : Expr} {a b : TypeRef} : t.isNull = false → f.isNull = false →
      infer? Γ t = some a → infer? Γ f = some b → Joined Γ (.conditional c t f) a b
  | binary {op : BinaryOp} {l r : Expr} {a b : TypeRef} : isArithmetic op = true →
      infer? Γ l = some a → infer? Γ r = some b → isConcatenation op a b = false →
      (infer? Γ (.binary op l r)).isSome = true → Joined Γ (.binary op l r) a b

def isDateDifference (op : BinaryOp) (a b : TypeRef) : Bool := op == .sub && isDate a && isDate b

def combines (op : BinaryOp) (a b : TypeRef) : Bool :=
  !isDate a && (isBitwise op && a.isPrimitive .bool || a.primitive?.isSome && b.primitive?.isSome)

def unifies (a b : TypeRef) : Bool :=
  decide (a.nonNullable = b.nonNullable) || a.rank?.isSome && b.rank?.isSome

def keepsFirst : Expr → TypeRef → TypeRef → Bool
  | .binary op _ _, a, b => !isDateDifference op a b
  | _, _, _ => true

def keepsSecond : Expr → TypeRef → TypeRef → Bool
  | .binary op _ _, a, b => combines op a b
  | _, a, b => unifies a b

theorem nullable_unify (a b : TypeRef) :
    (unify a b).nullable = (a.nullable || b.nullable && unifies a b) := by
  unfold unify unifies
  by_cases heq : a.nonNullable = b.nonNullable
  · simp [heq, withNullable]
  · by_cases hrank : a.rank?.isSome && b.rank?.isSome
    · simp [heq, hrank, widen, withNullable]
    · simp [heq, hrank]

section Arithmetic

variable {op : BinaryOp} {a b t : TypeRef}

theorem not_string_of_not_concatenation (hc : isConcatenation op a b = false) :
    ¬(op = .add ∧ (a.isPrimitive .string ∨ b.isPrimitive .string)) := by
  simpa [isConcatenation] using hc

theorem nullable_dateArithmetic (hc : isConcatenation op a b = false) (hdate : isDate a = true)
    (h : arithmeticType? op a b = some t) :
    t.nullable = (a.nullable && !isDateDifference op a b) := by
  rw [arithmeticType?, if_neg (not_string_of_not_concatenation hc), if_pos hdate] at h
  by_cases hdiff : op = .sub ∧ isDate b
  · have : isDateDifference op a b = true := by simp [isDateDifference, hdate, hdiff]
    rw [if_pos hdiff] at h
    cases h
    simp [this, Framework.timeSpan, named]
  · have : isDateDifference op a b = false := by simpa [isDateDifference, hdate] using hdiff
    rw [if_neg hdiff] at h
    split at h
    · cases h
      simp [this]
    · cases h

theorem nullable_plainArithmetic (hc : isConcatenation op a b = false) (hdate : isDate a = false)
    (h : arithmeticType? op a b = some t) :
    t.nullable = (a.nullable || b.nullable && combines op a b) := by
  rw [arithmeticType?, if_neg (not_string_of_not_concatenation hc), hdate,
    if_neg Bool.false_ne_true] at h
  by_cases hbool : isBitwise op ∧ a.isPrimitive .bool
  · have : combines op a b = true := by simp [combines, hdate, hbool]
    rw [if_pos hbool] at h
    cases h
    simp [this, withNullable]
  · have hcombines : combines op a b = (a.primitive?.isSome && b.primitive?.isSome) := by
      have : (isBitwise op && a.isPrimitive .bool) = false := by simpa using hbool
      simp [combines, hdate, this]
    rw [if_neg hbool] at h
    cases ha : a.primitive? with
    | none =>
        rw [ha] at h
        cases h
        simp [hcombines, ha]
    | some p =>
        rw [ha] at h
        cases hb : b.primitive? with
        | none =>
            rw [hb] at h
            cases h
            simp [hcombines, hb]
        | some q =>
            rw [hb] at h
            cases h
            simp [hcombines, ha, hb, widen, withNullable]

theorem nullable_arithmeticType? (hc : isConcatenation op a b = false)
    (h : arithmeticType? op a b = some t) :
    t.nullable = (a.nullable && !isDateDifference op a b || b.nullable && combines op a b) := by
  cases hdate : isDate a with
  | true =>
      have : combines op a b = false := by simp [combines, hdate]
      rw [nullable_dateArithmetic hc hdate h, this, Bool.and_false, Bool.or_false]
  | false =>
      have : isDateDifference op a b = false := by simp [isDateDifference, hdate]
      rw [nullable_plainArithmetic hc hdate h, this, Bool.not_false, Bool.and_true]

end Arithmetic

theorem bind_value?_map_value (o : Option TypeRef) :
    (o.map Operand.value).bind Operand.value? = o := by
  cases o <;> rfl

theorem infer?_conditional (Γ : Context) (c t f : Expr) :
    infer? Γ (.conditional c t f) =
      conditionalType? (infer? Γ t) (infer? Γ f) t.isNull f.isNull := by
  rw [infer?, operand?, bind_value?_map_value]
  rfl

theorem infer?_binary (Γ : Context) (op : BinaryOp) (l r : Expr) :
    infer? Γ (.binary op l r) = binaryType? op (infer? Γ l) (infer? Γ r) r.isNull := by
  rw [infer?, operand?, bind_value?_map_value]
  rfl

theorem binaryType?_arithmetic {op : BinaryOp} (h : isArithmetic op = true) (a b : TypeRef)
    (rNull : Bool) : binaryType? op (some a) (some b) rNull = arithmeticType? op a b := by
  cases op <;> first | rfl | cases h

/-- The result is nullable exactly if a mark goes over to it. -/
theorem exists_nullable_of_joined {Γ : Context} {e : Expr} {a b : TypeRef} (h : Joined Γ e a b) :
    ∃ t, infer? Γ e = some t ∧
      t.nullable = (a.nullable && keepsFirst e a b || b.nullable && keepsSecond e a b) := by
  cases h with
  | conditional ht hf ha hb =>
      refine ⟨unify a b, ?_, ?_⟩
      · rw [infer?_conditional, ht, hf, ha, hb]
        rfl
      · rw [nullable_unify]
        change _ = (a.nullable && true || b.nullable && unifies a b)
        rw [Bool.and_true]
  | @binary op l r _ _ hop ha hb hc hsome =>
      obtain ⟨t, ht⟩ := Option.isSome_iff_exists.1 hsome
      refine ⟨t, ht, ?_⟩
      rw [infer?_binary, ha, hb, binaryType?_arithmetic hop] at ht
      exact nullable_arithmeticType? hc ht

theorem exists_nullable_of_joined_widened :
    let order : TypeDecl := ⟨"Order", none, .class,
      [⟨"Price", .property, "double", false, false, .public⟩,
        ⟨"Count", .property, "int?", false, false, .public⟩]⟩
    let Γ : Context := ⟨.ofTypes [order], .empty, [("x", .named "Order" false)]⟩
    let read (name : String) : Expr := .member (.ident "x") name false
    let e : Expr := .conditional (.literal (.bool true)) (read "Price") (read "Count")
    Joined Γ e Framework.double TypeRef.int.asNullable ∧
      ∃ t, infer? Γ e = some t ∧ t.nullable = true := by
  intro order Γ read e
  have h : Joined Γ e Framework.double TypeRef.int.asNullable :=
    .conditional rfl rfl (by decide +kernel) (by decide +kernel)
  obtain ⟨t, ht, hnullable⟩ := exists_nullable_of_joined h
  exact ⟨h, t, ht, hnullable.trans (by decide +kernel)⟩

theorem infer?_difference_unmarked :
    let order : TypeDecl := ⟨"Order", none, .class,
      [⟨"Shipped", .property, "DateTime?", false, false, .public⟩,
        ⟨"Ordered", .property, "DateTime", false, false, .public⟩,
        ⟨"Note", .property, "string?", false, false, .public⟩]⟩
    let Γ : Context := ⟨.ofTypes [order], .empty, [("x", .named "Order" false)]⟩
    let read (name : String) : Expr := .member (.ident "x") name false
    let difference : Expr := .binary .sub (read "Shipped") (read "Ordered")
    let choice : Expr := .conditional (.literal (.bool true)) (read "Ordered") (read "Note")
    (Joined Γ difference Framework.dateTime.asNullable Framework.dateTime ∧
        infer? Γ difference = some Framework.timeSpan) ∧
      Joined Γ choice Framework.dateTime TypeRef.string.asNullable ∧
        infer? Γ choice = some Framework.dateTime := by
  intro order Γ read difference choice
  have hshipped : infer? Γ (read "Shipped") = some Framework.dateTime.asNullable := by
    decide +kernel
  have hordered : infer? Γ (read "Ordered") = some Framework.dateTime := by decide +kernel
  have hnote : infer? Γ (read "Note") = some TypeRef.string.asNullable := by decide +kernel
  have hdifference : infer? Γ difference = some Framework.timeSpan := by decide +kernel
  exact ⟨⟨.binary rfl hshipped hordered (by decide) (hdifference ▸ rfl), hdifference⟩,
    .conditional rfl rfl hordered hnote, by decide +kernel⟩

end Projection.Typing
