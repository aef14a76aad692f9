import Projection.Expr.Transform
import Projection.Proofs.Expr.Nodes
import Projection.Source

/-!
Names in place of names, for all variables of an expression at once. Forms that do not look at
names are blind to it.
-/

namespace Projection.Expr

variable (ρ : String → String)

def renameNode : Expr → Expr
  | ident n => ident (ρ n)
  | lambda ps b => lambda (ps.map ρ) b
  | e => e

def rename (e : Expr) : Expr :=
  (e.renameNode ρ).withChildren (e.children.attach.map fun c => rename c.1)
termination_by sizeOf e
decreasing_by exact sizeOf_lt_of_mem_children c.2

theorem rename_eq (e : Expr) :
    e.rename ρ = (e.renameNode ρ).withChildren (e.children.map (rename ρ)) := by
  rw [rename]
  simp

@[simp] theorem children_renameNode (e : Expr) : (e.renameNode ρ).children = e.children := by
  fun_cases renameNode ρ e <;> rfl

@[simp] theorem children_rename (e : Expr) :
    (e.rename ρ).children = e.children.map (rename ρ) := by
  rw [rename_eq, children_withChildren _ _ (by simp)]

theorem renew_renew (ms : List Initializer) {vs ws : List Expr} (h : vs.length = ms.length) :
    renew (renew ms vs) ws = renew ms ws := by
  induction ms generalizing vs ws with
  | nil => rfl
  | cons m ms ih =>
      match vs, ws, h with
      | _ :: _, [], _ => rfl
      | v :: vs, w :: ws, h => exact congrArg (_ :: ·) (ih (by simpa using h))

theorem refill_refill (ps : List Part) {es fs : List Expr}
    (he : es.length = (ps.filterMap Part.expr?).length)
    (hf : fs.length = (ps.filterMap Part.expr?).length) :
    refill (refill ps es) fs = refill ps fs := by
  induction ps generalizing es fs with
  | nil => rfl
  | cons p ps ih =>
      cases p with
      | text s => exact congrArg (Part.text s :: ·) (ih he hf)
      | hole e f =>
          match es, fs, he, hf with
          | d :: es, c :: fs, he, hf =>
              exact congrArg (Part.hole c f :: ·) (ih (by simpa [Part.expr?] using he)
                (by simpa [Part.expr?] using hf))

theorem withChildren_withChildren (e : Expr) {cs ds : List Expr}
    (hc : cs.length = e.children.length) (hd : ds.length = e.children.length) :
    (e.withChildren cs).withChildren ds = e.withChildren ds := by
  cases e with
  | creation t as i =>
      cases i with
      | none => rfl
      | some ms =>
          simp only [children, List.length_append, List.length_map] at hc
          simp only [withChildren]
          rw [renew_renew ms (by simp; omega)]
          simp [show min as.length cs.length = as.length by omega]
  | anonymous ms =>
      simpa [withChildren] using renew_renew ms (by simpa [children] using hc)
  | interpolated ps => simpa [withChildren] using refill_refill ps hc hd
  | ident _ | this | literal _ | defaultValue _ => rfl
  | member _ _ _ | lambda _ _ | unary _ _ | cast _ _ | paren _ | marked _ _ =>
      obtain ⟨_, rfl⟩ := List.length_eq_one_iff.1 hc
      obtain ⟨_, rfl⟩ := List.length_eq_one_iff.1 hd
      rfl
  | index _ _ _ | invoke _ _ _ =>
      obtain ⟨_, _, rfl⟩ := List.exists_cons_of_length_eq_add_one hc
      obtain ⟨_, _, rfl⟩ := List.exists_cons_of_length_eq_add_one hd
      rfl
  | conditional _ _ _ =>
      rcases cs with _ | ⟨_, _ | ⟨_, _ | ⟨_, cs⟩⟩⟩ <;> try cases hc
      rcases ds with _ | ⟨_, _ | ⟨_, _ | ⟨_, ds⟩⟩⟩ <;> try cases hd
      rfl
  | binary _ _ _ =>
      rcases cs with _ | ⟨_, _ | ⟨_, cs⟩⟩ <;> try cases hc
      rcases ds with _ | ⟨_, _ | ⟨_, ds⟩⟩ <;> try cases hd
      rfl

theorem renameNode_withChildren (e : Expr) (cs : List Expr) :
    (e.withChildren cs).renameNode ρ = (e.renameNode ρ).withChildren cs := by
  cases e with
  | creation t as i => cases i <;> rfl
  | _ => rcases cs with _ | ⟨a, _ | ⟨b, _ | ⟨c, cs⟩⟩⟩ <;> rfl

theorem clearOptional_withChildren (e : Expr) (cs : List Expr) :
    (e.withChildren cs).clearOptional = e.clearOptional.withChildren cs := by
  cases e with
  | creation t as i => cases i <;> rfl
  | _ => rcases cs with _ | ⟨a, _ | ⟨b, _ | ⟨c, cs⟩⟩⟩ <;> rfl

theorem clearOptional_renameNode (e : Expr) :
    (e.renameNode ρ).clearOptional = e.clearOptional.renameNode ρ := by
  cases e <;> rfl

theorem withoutOptional_rename (e : Expr) :
    (e.rename ρ).withoutOptional = e.withoutOptional.rename ρ := by
  induction e using childInduction with
  | h e ih =>
      have hchildren : (e.children.map (rename ρ)).map withoutOptional =
          (e.children.map withoutOptional).map (rename ρ) := by
        rw [List.map_map, List.map_map]
        exact List.map_congr_left ih
      rw [withoutOptional_eq, children_rename, hchildren, rename_eq ρ e.withoutOptional,
        children_withoutOptional, rename_eq ρ e, withChildren_withChildren _ (by simp) (by simp),
        withoutOptional_eq, clearOptional_withChildren, clearOptional_withChildren,
        renameNode_withChildren, clearOptional_renameNode,
        withChildren_withChildren _ (by simp) (by simp)]

/-- Taking the new names back. -/
theorem rename_rename {σ : String → String} (h : ∀ n, σ (ρ n) = n) (e : Expr) :
    (e.rename ρ).rename σ = e := by
  induction e using childInduction with
  | h e ih =>
      have hchildren : (e.children.map (rename ρ)).map (rename σ) = e.children := by
        rw [List.map_map]
        exact (List.map_congr_left ih).trans (List.map_id _)
      have hnode : (e.renameNode ρ).renameNode σ = e := by
        cases e with
        | lambda ps b =>
            exact congrArg (lambda · b) ((List.map_map ..).trans (List.map_id'' h ps))
        | _ => simp [renameNode, h]
      rw [rename_eq σ, children_rename, hchildren, rename_eq ρ, renameNode_withChildren, hnode,
        withChildren_withChildren _ (by simp) rfl, withChildren_children]

def renameInitializers (ms : List Initializer) : List Initializer :=
  ms.map fun m => ⟨m.name, m.value.rename ρ⟩

theorem renew_map_rename (ms : List Initializer) :
    renew ms ((ms.map (·.value)).map (rename ρ)) = renameInitializers ρ ms := by
  induction ms with
  | nil => rfl
  | cons m ms ih => exact congrArg (_ :: ·) ih

@[simp] theorem rename_ident (n : String) : (ident n).rename ρ = ident (ρ n) := by
  rw [rename_eq]
  rfl

@[simp] theorem rename_this : this.rename ρ = this := by
  rw [rename_eq]
  rfl

@[simp] theorem rename_literal (l : Literal) : (literal l).rename ρ = literal l := by
  rw [rename_eq]
  rfl

@[simp] theorem rename_member (t : Expr) (n : String) (o : Bool) :
    (member t n o).rename ρ = member (t.rename ρ) n o := by
  rw [rename_eq]
  rfl

@[simp] theorem rename_index (t : Expr) (as : List Expr) (o : Bool) :
    (index t as o).rename ρ = index (t.rename ρ) (as.map (rename ρ)) o := by
  rw [rename_eq]
  rfl

@[simp] theorem rename_invoke (t : Expr) (ts : List TypeExpr) (as : List Expr) :
    (invoke t ts as).rename ρ = invoke (t.rename ρ) ts (as.map (rename ρ)) := by
  rw [rename_eq]
  rfl

@[simp] theorem rename_lambda (ps : List String) (b : Expr) :
    (lambda ps b).rename ρ = lambda (ps.map ρ) (b.rename ρ) := by
  rw [rename_eq]
  rfl

@[simp] theorem rename_anonymous (ms : List Initializer) :
    (anonymous ms).rename ρ = anonymous (renameInitializers ρ ms) := by
  rw [rename_eq, ← renew_map_rename]
  rfl

@[simp] theorem rename_creation (t : TypeExpr) (as : List Expr) (i : Option (List Initializer)) :
    (creation t as i).rename ρ = creation t (as.map (rename ρ)) (i.map (renameInitializers ρ)) := by
  rw [rename_eq]
  cases i with
  | none => rfl
  | some ms => simp [← renew_map_rename, renameNode, withChildren, children]

@[simp] theorem rename_conditional (c t f : Expr) :
    (conditional c t f).rename ρ = conditional (c.rename ρ) (t.rename ρ) (f.rename ρ) := by
  rw [rename_eq]
  rfl

@[simp] theorem rename_binary (op : BinaryOp) (l r : Expr) :
    (binary op l r).rename ρ = binary op (l.rename ρ) (r.rename ρ) := by
  rw [rename_eq]
  rfl

@[simp] theorem rename_unary (op : UnaryOp) (e : Expr) :
    (unary op e).rename ρ = unary op (e.rename ρ) := by
  rw [rename_eq]
  rfl

@[simp] theorem rename_cast (t : TypeExpr) (e : Expr) :
    (cast t e).rename ρ = cast t (e.rename ρ) := by
  rw [rename_eq]
  rfl

@[simp] theorem rename_defaultValue (t : Option TypeExpr) :
    (defaultValue t).rename ρ = defaultValue t := by
  rw [rename_eq]
  rfl

@[simp] theorem rename_paren (e : Expr) : (paren e).rename ρ = paren (e.rename ρ) := by
  rw [rename_eq]
  rfl

@[simp] theorem rename_marked (note : String) (e : Expr) :
    (marked note e).rename ρ = marked note (e.rename ρ) := by
  rw [rename_eq]
  rfl

@[simp] theorem rename_interpolated (ps : List Part) :
    (interpolated ps).rename ρ =
      interpolated (refill ps ((ps.filterMap Part.expr?).map (rename ρ))) := by
  rw [rename_eq]
  rfl

@[simp] theorem unparen_rename (e : Expr) : (e.rename ρ).unparen = e.unparen.rename ρ := by
  fun_induction unparen e with
  | case1 e ih => rw [rename_paren, unparen, ih]
  | case2 e h =>
      cases e with
      | paren inner => exact absurd rfl (h inner)
      | _ => simp [unparen]

@[simp] theorem isNull_rename (e : Expr) : (e.rename ρ).isNull = e.isNull := by
  rw [isNull, isNull, unparen_rename]
  cases e.unparen <;> simp

@[simp] theorem chainOptional_rename (e : Expr) :
    (e.rename ρ).chainOptional = e.chainOptional := by
  induction e using childInduction with
  | h e ih =>
      cases e with
      | member t _ _ | index t _ _ | invoke t _ _ =>
          simp [chainOptional, ih t (by simp [children])]
      | _ => simp [chainOptional]

theorem any_rename {p : Expr → Bool} (h : ∀ e, p (e.rename ρ) = p e) (e : Expr) :
    (e.rename ρ).any p = e.any p := by
  induction e using childInduction with
  | h e ih =>
      rw [any_eq, any_eq p e, h, children_rename, List.any_map]
      congr 1
      rw [Bool.eq_iff_iff, List.any_eq_true, List.any_eq_true]
      exact exists_congr fun c => and_congr_right fun hc => by rw [Function.comp_apply, ih c hc]

@[simp] theorem hasConditional_rename (e : Expr) :
    (e.rename ρ).hasConditional = e.hasConditional := by
  refine any_rename ρ (fun e => ?_) e
  cases e <;> simp [isConditional]

@[simp] theorem hasOptionalAccess_rename (e : Expr) :
    (e.rename ρ).hasOptionalAccess = e.hasOptionalAccess := by
  refine any_rename ρ (fun e => ?_) e
  cases e with
  | member _ _ _ | index _ _ _ => simp
  | _ => simp [isOptionalAccess]

@[simp] theorem transformsSequence_rename (e : Expr) :
    (e.rename ρ).transformsSequence = e.transformsSequence := by
  refine any_rename ρ (fun e => ?_) e
  cases e with
  | invoke t ts as =>
      rw [rename_invoke, isTransformCall, isTransformCall, unparen_rename]
      cases t.unparen <;> simp
  | _ => simp [isTransformCall]

def ownVariable : Expr → List String
  | ident n => [n]
  | _ => []

def ownParameters : Expr → List String
  | lambda ps _ => ps
  | _ => []

def names (e : Expr) : List String := e.nodes.flatMap fun n => n.ownVariable ++ n.ownParameters

def parameters (e : Expr) : List String := e.nodes.flatMap ownParameters

theorem names_subset_of_child {c e : Expr} (hc : c ∈ e.children) : c.names ⊆ e.names := by
  intro n hn
  obtain ⟨d, hd, hn⟩ := List.mem_flatMap.1 hn
  exact List.mem_flatMap.2 ⟨d, mem_nodes_of_mem_children hc hd, hn⟩

/-- Only the names that occur matter. -/
theorem rename_congr {σ : String → String} {e : Expr} (h : ∀ n ∈ e.names, ρ n = σ n) :
    e.rename ρ = e.rename σ := by
  induction e using childInduction with
  | h e ih =>
      have hchildren : e.children.map (rename ρ) = e.children.map (rename σ) :=
        List.map_congr_left fun c hc => ih c hc fun n hn => h n (names_subset_of_child hc hn)
      have hown : ∀ n ∈ e.ownVariable ++ e.ownParameters, ρ n = σ n := fun n hn =>
        h n (List.mem_flatMap.2 ⟨e, self_mem_nodes e, hn⟩)
      have hnode : e.renameNode ρ = e.renameNode σ := by
        cases e with
        | ident n => exact congrArg ident (hown n List.mem_cons_self)
        | lambda ps b => exact congrArg (lambda · b) (List.map_congr_left hown)
        | _ => rfl
      rw [rename_eq, rename_eq σ, hchildren, hnode]

/-- The variables that no lambda around them binds, where `binds` says which of its parameters
a lambda binds. -/
def loose (binds : List String → List String) (e : Expr) : List String :=
  e.ownVariable ++
    (e.children.attach.flatMap fun c => loose binds c.1).filter (· ∉ binds e.ownParameters)
termination_by sizeOf e
decreasing_by exact sizeOf_lt_of_mem_children c.2

/-- The free variables. -/
def free (e : Expr) : List String := e.loose id

variable {binds : List String → List String} {n : String}

theorem loose_eq (binds : List String → List String) (e : Expr) : e.loose binds =
    e.ownVariable ++ (e.children.flatMap (loose binds)).filter (· ∉ binds e.ownParameters) := by
  rw [loose]
  congr 2
  conv => rhs; rw [← List.attach_map_subtype_val e.children, List.flatMap_map]

theorem mem_loose {e : Expr} : n ∈ e.loose binds ↔
    n ∈ e.ownVariable ∨ (∃ c ∈ e.children, n ∈ c.loose binds) ∧ n ∉ binds e.ownParameters := by
  rw [loose_eq]
  simp

theorem mem_loose_of_unparen {e : Expr} (hb : binds [] = []) (h : n ∈ e.unparen.loose binds) :
    n ∈ e.loose binds := by
  fun_induction unparen e with
  | case1 e ih =>
      refine mem_loose.2 (.inr ⟨⟨e, by simp [children], ih h⟩, ?_⟩)
      simp [ownParameters, hb]
  | case2 => exact h

@[simp] theorem ownVariable_withChildren (e : Expr) (cs : List Expr) :
    (e.withChildren cs).ownVariable = e.ownVariable := by
  fun_cases withChildren e cs <;> rfl

@[simp] theorem ownParameters_withChildren (e : Expr) (cs : List Expr) :
    (e.withChildren cs).ownParameters = e.ownParameters := by
  fun_cases withChildren e cs <;> rfl

@[simp] theorem ownVariable_clearOptional (e : Expr) :
    e.clearOptional.ownVariable = e.ownVariable := by
  fun_cases clearOptional e <;> rfl

@[simp] theorem ownParameters_clearOptional (e : Expr) :
    e.clearOptional.ownParameters = e.ownParameters := by
  fun_cases clearOptional e <;> rfl

theorem loose_withoutOptional (e : Expr) :
    e.withoutOptional.loose binds = e.loose binds := by
  induction e using childInduction with
  | h e ih =>
      have hchildren : e.withoutOptional.children.flatMap (loose binds) =
          e.children.flatMap (loose binds) := by
        rw [children_withoutOptional, List.flatMap_map]
        exact congrArg List.flatten (List.map_congr_left ih)
      rw [loose_eq, loose_eq _ e, hchildren, withoutOptional_eq]
      simp

/-- Names at the node that are more than variables: what is called, and what gives a member of an
object its name. -/
def ownLabels : Expr → List String
  | invoke t _ _ => t.unparen.ownVariable
  | anonymous ms => ms.flatMap fun m => if m.name = none then m.value.unparen.ownVariable else []
  | _ => []

def labels (e : Expr) : List String := e.nodes.flatMap ownLabels

theorem labels_eq (e : Expr) : e.labels = e.ownLabels ++ e.children.flatMap labels := by
  rw [labels, nodes_eq, List.flatMap_cons, List.flatMap_assoc]
  rfl

theorem ownLabels_subset (e : Expr) : e.ownLabels ⊆ e.labels := by
  intro n hn
  exact List.mem_flatMap.2 ⟨e, self_mem_nodes e, hn⟩

theorem labels_subset_of_child {c e : Expr} (hc : c ∈ e.children) : c.labels ⊆ e.labels := by
  intro n hn
  obtain ⟨d, hd, hn⟩ := List.mem_flatMap.1 hn
  exact List.mem_flatMap.2 ⟨d, mem_nodes_of_mem_children hc hd, hn⟩

theorem labels_unparen_subset (e : Expr) : e.unparen.labels ⊆ e.labels := by
  fun_induction unparen e with
  | case1 e ih => exact fun n hn => labels_subset_of_child (by simp [children]) (ih hn)
  | case2 => exact List.Subset.refl _

theorem unparen_withoutOptional (e : Expr) :
    e.withoutOptional.unparen = e.unparen.withoutOptional := by
  fun_induction unparen e with
  | case1 e ih =>
      rw [withoutOptional_eq]
      exact ih
  | case2 e h =>
      rw [withoutOptional_eq]
      cases e with
      | paren inner => exact absurd rfl (h inner)
      | creation t as i => cases i <;> rfl
      | _ => rfl

theorem ownVariable_unparen_withoutOptional (e : Expr) :
    e.withoutOptional.unparen.ownVariable = e.unparen.ownVariable := by
  rw [unparen_withoutOptional, withoutOptional_eq]
  simp

theorem ownLabels_withoutOptional (e : Expr) : e.withoutOptional.ownLabels = e.ownLabels := by
  rw [withoutOptional_eq]
  cases e with
  | invoke t ts as => exact ownVariable_unparen_withoutOptional t
  | anonymous ms =>
      change (renew ms ((ms.map (·.value)).map withoutOptional)).flatMap _ = ms.flatMap _
      induction ms with
      | nil => rfl
      | cons m ms ih =>
          rw [List.flatMap_cons, ← ih]
          simp [renew, ownVariable_unparen_withoutOptional]
  | creation t as i => cases i <;> rfl
  | _ => rfl

theorem labels_withoutOptional (e : Expr) : e.withoutOptional.labels = e.labels := by
  induction e using childInduction with
  | h e ih =>
      have hchildren : e.withoutOptional.children.flatMap labels = e.children.flatMap labels := by
        rw [children_withoutOptional, List.flatMap_map]
        exact congrArg List.flatten (List.map_congr_left ih)
      rw [labels_eq, labels_eq e, ownLabels_withoutOptional, hchildren]

end Projection.Expr
