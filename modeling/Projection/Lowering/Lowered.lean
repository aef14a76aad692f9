import Projection.Structure

/-!
Results of lowering: a value, and the structures that were made for object literals on the way, in
the order in which they were finished.
-/

namespace Projection

structure Lowered (α : Type) where
  value : α
  structures : List Structure

namespace Lowered

variable {α β γ : Type}

def pure (value : α) : Lowered α := ⟨value, []⟩

def map (f : α → β) (x : Lowered α) : Lowered β := ⟨f x.value, x.structures⟩

def both (x : Lowered α) (y : Lowered β) : Lowered (α × β) :=
  ⟨(x.value, y.value), x.structures ++ y.structures⟩

def all : List (Lowered α) → Lowered (List α)
  | [] => pure []
  | x :: xs => ⟨x.value :: (all xs).value, x.structures ++ (all xs).structures⟩

def followed (x : Lowered α) (s : Structure) : Lowered α := ⟨x.value, x.structures ++ [s]⟩

@[simp] theorem value_pure (a : α) : (pure a).value = a := rfl

@[simp] theorem structures_pure (a : α) : (pure a).structures = [] := rfl

@[simp] theorem value_map (f : α → β) (x : Lowered α) : (x.map f).value = f x.value := rfl

@[simp] theorem structures_map (f : α → β) (x : Lowered α) :
    (x.map f).structures = x.structures := rfl

@[simp] theorem value_both (x : Lowered α) (y : Lowered β) :
    (x.both y).value = (x.value, y.value) := rfl

@[simp] theorem structures_both (x : Lowered α) (y : Lowered β) :
    (x.both y).structures = x.structures ++ y.structures := rfl

@[simp] theorem value_all (xs : List (Lowered α)) : (all xs).value = xs.map value := by
  induction xs <;> simp_all [all]

@[simp] theorem structures_all (xs : List (Lowered α)) :
    (all xs).structures = xs.flatMap structures := by
  induction xs <;> simp_all [all]

@[simp] theorem value_followed (x : Lowered α) (s : Structure) :
    (x.followed s).value = x.value := rfl

@[simp] theorem structures_followed (x : Lowered α) (s : Structure) :
    (x.followed s).structures = x.structures ++ [s] := rfl

end Lowered

end Projection
