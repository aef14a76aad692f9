import Projection.Text.CharClass
import Projection.Text.Join
import Projection.Text.Split

/-!
Names and names with points in them. A name holds no point, so a dotted name falls apart into the
names that it was put together from.
-/

namespace Projection.Text

def IsName (name : String) : Prop :=
  ∃ c cs, name.toList = c :: cs ∧ isNameStart c = true ∧ ∀ d ∈ cs, isNamePart d = true

instance (name : String) : Decidable (IsName name) :=
  match h : name.toList with
  | [] => isFalse (by rintro ⟨c, cs, hn, -⟩; rw [h] at hn; cases hn)
  | c :: cs =>
      decidable_of_iff (isNameStart c = true ∧ cs.all isNamePart = true) (by
        constructor
        · rintro ⟨hc, hcs⟩
          exact ⟨c, cs, h, hc, List.all_eq_true.1 hcs⟩
        · rintro ⟨_, _, hn, hc, hcs⟩
          rw [h] at hn
          cases hn
          exact ⟨hc, List.all_eq_true.2 hcs⟩)

theorem IsName.part {name : String} (h : IsName name) :
    ∀ c ∈ name.toList, isNamePart c = true := by
  obtain ⟨c, cs, hn, hc, hcs⟩ := h
  rw [hn]
  exact List.forall_mem_cons.2 ⟨isNamePart_of_isNameStart hc, hcs⟩

theorem IsName.point_not_mem {name : String} (h : IsName name) : '.' ∉ name.toList := by
  intro hmem
  exact absurd (h.part '.' hmem) (by decide)

def dottedName (first : String) (names : List String) : String :=
  names.foldl (fun front name => front ++ "." ++ name) first

theorem pieces_of_not_mem {separator : Char} {cs : List Char} (h : separator ∉ cs) :
    pieces separator cs = [cs] := by
  induction cs with
  | nil => rfl
  | cons c cs ih =>
      obtain ⟨hc, hcs⟩ := not_or.1 (fun hm => h (List.mem_cons.2 hm))
      rw [pieces, if_neg (Ne.symm hc), ih hcs]

theorem pieces_append {separator : Char} {cs : List Char} (h : separator ∉ cs) (rest : List Char) :
    pieces separator (cs ++ separator :: rest) = cs :: pieces separator rest := by
  induction cs with
  | nil => rw [List.nil_append, pieces, if_pos rfl]
  | cons c cs ih =>
      obtain ⟨hc, hcs⟩ := not_or.1 (fun hm => h (List.mem_cons.2 hm))
      rw [List.cons_append, pieces, if_neg (Ne.symm hc), ih hcs]

theorem toList_dottedName (first : String) (names : List String) :
    (dottedName first names).toList = first.toList ++ names.flatMap fun n => '.' :: n.toList := by
  induction names generalizing first with
  | nil => simp [dottedName]
  | cons n names ih =>
      change (dottedName (first ++ "." ++ n) names).toList = _
      rw [ih]
      simp [String.toList_append]

theorem toList_join {sep : String} {c : Char} (hsep : sep.toList = [c]) (first : String)
    (rest : List String) :
    (join sep (first :: rest)).toList = first.toList ++ rest.flatMap fun n => c :: n.toList := by
  induction rest generalizing first with
  | nil => simp
  | cons n rest ih => simp [join_cons_cons, String.toList_append, hsep, ih]

/-- Texts without the separator are what is found between the separators. -/
theorem map_ofList_pieces {separator : Char} {first : String} {rest : List String}
    (h : ∀ n ∈ first :: rest, separator ∉ n.toList) :
    (pieces separator (first.toList ++ rest.flatMap fun n => separator :: n.toList)).map
      String.ofList = first :: rest := by
  induction rest generalizing first with
  | nil =>
      rw [List.flatMap_nil, List.append_nil, pieces_of_not_mem (h first List.mem_cons_self)]
      exact congrArg ([·]) String.ofList_toList
  | cons n rest ih =>
      rw [List.flatMap_cons, List.cons_append, pieces_append (h first List.mem_cons_self),
        List.map_cons, ih fun m hm => h m (List.mem_cons_of_mem _ hm), String.ofList_toList]

theorem splitAt_dottedName {first : String} {names : List String}
    (h : ∀ n ∈ first :: names, '.' ∉ n.toList) :
    splitAt '.' (dottedName first names) = first :: names := by
  rw [splitAt, toList_dottedName, map_ofList_pieces h]

theorem splitAt_join {sep : String} {c : Char} (hsep : sep.toList = [c]) {names : List String}
    (hne : names ≠ []) (h : ∀ n ∈ names, c ∉ n.toList) : splitAt c (join sep names) = names := by
  cases names with
  | nil => exact absurd rfl hne
  | cons first rest => rw [splitAt, toList_join hsep, map_ofList_pieces h]

/-- Texts that end alike behind their last separator are alike before it. -/
theorem append_cons_inj_of_last {c : Char} {a b u v : List Char} (hu : c ∉ u) (hv : c ∉ v)
    (h : a ++ c :: u = b ++ c :: v) : a = b ∧ u = v := by
  rcases List.append_eq_append_iff.1 h with ⟨w, rfl, hw⟩ | ⟨w, rfl, hw⟩
  · cases w with
    | nil => simpa using hw
    | cons d w =>
        obtain ⟨rfl, rfl⟩ := List.cons.inj hw
        simp at hu
  · cases w with
    | nil => simpa using hw.symm
    | cons d w =>
        obtain ⟨rfl, rfl⟩ := List.cons.inj hw
        simp at hv

/-- The last separator tells where a text is put together. -/
theorem append_append_inj_of_last {sep : String} {c : Char} (hsep : sep.toList = [c])
    {a b u v : String} (hu : c ∉ u.toList) (hv : c ∉ v.toList) :
    a ++ sep ++ u = b ++ sep ++ v ↔ a = b ∧ u = v := by
  constructor
  · intro h
    have hchars := congrArg String.toList h
    simp only [String.toList_append, hsep, List.append_assoc, List.singleton_append] at hchars
    obtain ⟨hfront, hback⟩ := append_cons_inj_of_last hu hv hchars
    exact ⟨String.toList_inj.1 hfront, String.toList_inj.1 hback⟩
  · intro h
    rw [h.1, h.2]

end Projection.Text
