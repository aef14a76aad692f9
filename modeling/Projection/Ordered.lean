/-!
Finite sets as lists in strictly increasing order.
-/

namespace Projection

/-- A strict order in which any two elements can be compared. -/
class LinearlyOrdered (α : Type) [LT α] : Prop where
  trans {a b c : α} : a < b → b < c → a < c
  irrefl (a : α) : ¬ a < a
  gt_of_not_lt {a b : α} : ¬ a < b → a ≠ b → b < a

instance : LinearlyOrdered String where
  trans := String.lt_trans
  irrefl := String.lt_irrefl
  gt_of_not_lt h hne := Std.lt_of_le_of_ne (String.not_lt.1 h) (Ne.symm hne)

namespace Ordered

variable {α : Type} [LT α] [DecidableEq α] [DecidableRel (α := α) (· < ·)]

def insert (a : α) : List α → List α
  | [] => [a]
  | b :: rest => if a < b then a :: b :: rest else if a = b then b :: rest else b :: insert a rest

def ofList (as : List α) : List α := as.foldr insert []

def Increasing (as : List α) : Prop := as.Pairwise (· < ·)

theorem mem_insert {x a : α} {as : List α} : x ∈ insert a as ↔ x = a ∨ x ∈ as := by
  induction as with
  | nil => simp [insert]
  | cons b rest ih =>
      simp only [insert]
      split
      · simp
      · split
        · rename_i h
          subst h
          simp only [List.mem_cons]
          exact ⟨.inr, fun h => h.elim .inl id⟩
        · simp only [List.mem_cons, ih]
          exact or_left_comm

theorem mem_ofList {x : α} {as : List α} : x ∈ ofList as ↔ x ∈ as := by
  induction as with
  | nil => simp [ofList]
  | cons a as ih => simpa [ofList, mem_insert] using or_congr_right ih

theorem increasing_insert [LinearlyOrdered α] {a : α} {as : List α} (h : Increasing as) :
    Increasing (insert a as) := by
  induction as with
  | nil => exact List.pairwise_singleton _ _
  | cons b rest ih =>
      simp only [insert]
      split
      · rename_i hlt
        refine List.Pairwise.cons (fun x hx => ?_) h
        rcases List.mem_cons.1 hx with rfl | hx
        · exact hlt
        · exact LinearlyOrdered.trans hlt (List.rel_of_pairwise_cons h hx)
      · split
        · exact h
        · rename_i hlt hne
          refine List.Pairwise.cons (fun x hx => ?_) (ih h.of_cons)
          rcases mem_insert.1 hx with rfl | hx
          · exact LinearlyOrdered.gt_of_not_lt hlt hne
          · exact List.rel_of_pairwise_cons h hx

theorem increasing_ofList [LinearlyOrdered α] (as : List α) : Increasing (ofList as) := by
  induction as with
  | nil => exact List.Pairwise.nil
  | cons a as ih => exact increasing_insert ih

end Ordered

theorem Ordered.Increasing.nodup {α : Type} [LT α] [LinearlyOrdered α] {as : List α}
    (h : Increasing as) : as.Nodup := by
  refine List.Pairwise.imp (fun {a b} hlt heq => ?_) h
  exact LinearlyOrdered.irrefl b (heq ▸ hlt)

/-- Increasing lists with the same elements are equal. -/
theorem Ordered.eq_of_mem_iff {α : Type} [LT α] [LinearlyOrdered α] {as bs : List α}
    (ha : Increasing as) (hb : Increasing bs) (h : ∀ a, a ∈ as ↔ a ∈ bs) : as = bs := by
  refine List.Perm.eq_of_pairwise (fun a b _ _ hab hba => ?_) ha hb
    ((List.perm_ext_iff_of_nodup ha.nodup hb.nodup).2 h)
  exact absurd (LinearlyOrdered.trans hab hba) (LinearlyOrdered.irrefl a)

end Projection
