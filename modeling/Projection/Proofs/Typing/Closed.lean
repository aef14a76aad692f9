import Projection.Proofs.Expr.Spelled
import Projection.Proofs.TypeRef.Closed
import Projection.Typing

/-!
Families of types that inference does not lead out of. Closed under what the base library gives, and
with the types that the model declares and that source text writes, such a family is left only
through the types of object literals; with these it has the type of every expression under its
parameters.
-/

namespace Projection

open TypeRef Projection.Expr Text

namespace Model

variable {m : Model} {d : TypeDecl}

theorem mem_types_of_type? {name : String} (hd : m.type? name = some d) : d ∈ m.types :=
  List.mem_of_find?_eq_some (m.type?_eq_find? name ▸ hd)

theorem mem_types_of_enclosing? {s : Scope} (hd : m.enclosing? s = some d) : d ∈ m.types := by
  obtain ⟨name, _, hd⟩ := Option.bind_eq_some_iff.1 hd
  exact mem_types_of_type? hd

theorem mem_types_of_member_symbol? {s : Scope} {name : String} {member : MemberDecl}
    (hs : m.symbol? s name = some (.member d member)) : d ∈ m.types := by
  unfold symbol? at hs
  split at hs
  · cases hs
  · split at hs
    · rename_i hfound
      cases hs
      obtain ⟨owner, howner, hmember⟩ := Option.bind_eq_some_iff.1 hfound
      obtain ⟨_, _, heq⟩ := Option.map_eq_some_iff.1 hmember
      cases heq
      exact mem_types_of_enclosing? howner
    · obtain ⟨_, _, heq⟩ := Option.map_eq_some_iff.1 hs
      cases heq

theorem mem_types_of_type_symbol? {s : Scope} {name : String}
    (hs : m.symbol? s name = some (.type d)) : d ∈ m.types := by
  unfold symbol? at hs
  split at hs
  · cases hs
  · split at hs
    · rename_i hfound
      cases hs
      obtain ⟨owner, _, hmember⟩ := Option.bind_eq_some_iff.1 hfound
      obtain ⟨_, _, heq⟩ := Option.map_eq_some_iff.1 hmember
      cases heq
    · obtain ⟨t, ht, heq⟩ := Option.map_eq_some_iff.1 hs
      cases heq
      exact mem_types_of_type? ht

theorem mem_types_of_declaredMember? {t : TypeRef} {name : String} {member : MemberDecl}
    (hd : Typing.declaredMember? m t name = some (d, member)) : d ∈ m.types := by
  obtain ⟨owner, howner, hmember⟩ := Option.bind_eq_some_iff.1 hd
  obtain ⟨_, _, heq⟩ := Option.map_eq_some_iff.1 hmember
  cases heq
  unfold Typing.declaration? at howner
  split at howner
  · exact mem_types_of_type? howner
  · cases howner

end Model

theorem Context.forall_mem_bindAll {Γ : Context} {P : TypeRef → Prop} {names : List String}
    {ts : List TypeRef} (h : ∀ b ∈ Γ.bindings, P b.2) (ht : ∀ t ∈ ts, P t) :
    ∀ b ∈ (Γ.bindAll names ts).bindings, P b.2 := by
  refine List.forall_mem_append.2 ⟨fun b hb => ?_, h⟩
  exact ht b.2 (List.of_mem_zip (List.mem_reverse.1 hb)).2

namespace Typing

theorem mem_of_lookup {α β : Type} [BEq α] [LawfulBEq α] {entries : List (α × β)} {a : α} {b : β}
    (h : entries.lookup a = some b) : (a, b) ∈ entries := by
  obtain ⟨before, behind, rfl, _⟩ := List.lookup_eq_some_iff.1 h
  simp

def Operand.ref : Operand → TypeRef
  | value t | type t => t

theorem Operand.ref_of_value? {o : Operand} {t : TypeRef} (h : o.value? = some t) : o.ref = t := by
  cases o <;> cases h
  rfl

/-- As far as the type is known, it is in the family. -/
def Gives (P : TypeRef → Prop) (o : Option TypeRef) : Prop := ∀ t, o = some t → P t

theorem gives_value? {P : TypeRef → Prop} {o : Option Operand}
    (h : ∀ a, o = some a → P a.ref) : Gives P (o.bind Operand.value?) := by
  intro t ht
  obtain ⟨a, ha, ht⟩ := Option.bind_eq_some_iff.1 ht
  rw [← Operand.ref_of_value? ht]
  exact h a ha

end Typing

namespace TypeRef.Closed

open Typing

variable {P : TypeRef → Prop} (C : Closed P)
include C

theorem lift {t : TypeRef} (h : P t) (lifted : Bool) : P (Typing.lift lifted t) := by
  unfold Typing.lift
  split
  · exact C.withNullable h true
  · exact h

theorem literalType? {l : Literal} {t : TypeRef} (h : Typing.literalType? l = some t) : P t := by
  cases l <;> cases h <;> exact C.primitive

theorem widen {l r : TypeRef} (hl : P l) (hr : P r) : P (Typing.widen l r) := by
  have hwider : P (if r.rank?.getD 0 > l.rank?.getD 0 then r else l) := by
    split
    · exact hr
    · exact hl
  unfold Typing.widen
  generalize (if r.rank?.getD 0 > l.rank?.getD 0 then r else l) = wider at hwider ⊢
  apply C.withNullable
  split
  · exact C.primitive
  · exact hwider

theorem unify {t f : TypeRef} (ht : P t) (hf : P f) : P (Typing.unify t f) := by
  unfold Typing.unify
  split
  · exact C.withNullable ht _
  · split
    · exact C.widen ht hf
    · exact ht

theorem conditionalType? {t f : Option TypeRef} {tNull fNull : Bool} (ht : Gives P t)
    (hf : Gives P f) : Gives P (Typing.conditionalType? t f tNull fNull) := by
  intro u h
  unfold Typing.conditionalType? at h
  split at h
  · obtain ⟨v, hv, rfl⟩ := Option.map_eq_some_iff.1 h
    exact C.withNullable (hf v hv) true
  · split at h
    · obtain ⟨v, hv, rfl⟩ := Option.map_eq_some_iff.1 h
      exact C.withNullable (ht v hv) true
    · split at h
      · cases h
        exact C.unify (ht _ rfl) (hf _ rfl)
      · exact ht u h
      · exact hf u h

theorem coalesceType? {l r : Option TypeRef} {rNull : Bool} (hl : Gives P l) (hr : Gives P r) :
    Gives P (Typing.coalesceType? l r rNull) := by
  intro u h
  unfold Typing.coalesceType? at h
  split at h
  · exact hl u h
  · split at h
    · cases h
      exact C.withNullable (hl _ rfl) _
    · cases h
      exact C.withNullable (hl _ rfl) false
    · exact hr u h

theorem arithmeticType? {op : BinaryOp} {l r : TypeRef} (hl : P l) (hr : P r) :
    Gives P (Typing.arithmeticType? op l r) := by
  intro u h
  unfold Typing.arithmeticType? at h
  split at h
  · cases h
    exact C.primitive
  · split at h
    · split at h
      · cases h
        exact C.library (by decide) _
      · split at h
        · cases h
          exact hl
        · cases h
    · split at h
      · cases h
        exact C.primitive
      · split at h
        · cases h
          exact C.widen hl hr
        · cases h
          exact hl

theorem binaryType? {op : BinaryOp} {l r : Option TypeRef} {rNull : Bool} (hl : Gives P l)
    (hr : Gives P r) : Gives P (Typing.binaryType? op l r rNull) := by
  have hhalf {t : TypeRef} (ht : P t) : Gives P (halfKnown? op t) := by
    intro u h
    unfold halfKnown? at h
    split at h
    · cases h
      exact ht
    · cases h
  intro u h
  unfold Typing.binaryType? at h
  split at h
  · cases h
    exact C.primitive
  · split at h
    · exact C.coalesceType? hl hr u h
    · split at h
      · exact C.arithmeticType? (hl _ rfl) (hr _ rfl) u h
      · exact hhalf (hl _ rfl) u h
      · exact hhalf (hr _ rfl) u h
      · cases h

theorem unaryType {op : UnaryOp} {t : TypeRef} (ht : P t) : P (Typing.unaryType op t) := by
  cases op with
  | not => exact C.primitive
  | neg | plus | bitNot => exact ht

theorem elementResult {element : TypeRef} (h : P element) :
    ∀ entry ∈ elementResults, P (entry.2 element) := by
  have hdefault : P (elementResults.orDefault element) := by
    unfold elementResults.orDefault
    split
    · exact h
    · exact C.withNullable h true
  simp only [elementResults, List.forall_mem_cons]
  exact ⟨C.sequence (by decide) h, C.sequence (by decide) h, C.sequence (by decide) h, C.array h,
    C.sequence (by decide) h, h, h, h, h, hdefault, hdefault, hdefault, hdefault, C.primitive,
    C.primitive, C.primitive, C.primitive, C.primitive, C.primitive, List.forall_mem_nil _⟩

theorem averageType (t : TypeRef) : P (Typing.averageType t) := by
  unfold Typing.averageType
  apply C.withNullable
  split <;> exact C.primitive

theorem sequenceCall? {t : TypeRef} {method : String} {hasArgs : Bool}
    {select : TypeRef → Option TypeRef} (ht : P t) (hs : ∀ u, P u → Gives P (select u)) :
    Gives P (Typing.sequenceCall? t method hasArgs select) := by
  intro u h
  unfold Typing.sequenceCall? at h
  split at h
  · cases h
  · rename_i element he
    have helement := C.element? ht he
    have hselect := hs element helement
    have hchosen : Gives P (if hasArgs then select element else some element) := by
      intro v hv
      split at hv
      · exact hselect v hv
      · cases hv
        exact helement
    have hkind : IsName (if t.isQueryable then "IQueryable" else "IEnumerable") := by
      split <;> decide
    dsimp only at h
    split at h
    · obtain ⟨v, hv, rfl⟩ := Option.map_eq_some_iff.1 h
      exact C.sequence hkind (hselect v hv)
    · split at h
      · obtain ⟨v, hv, rfl⟩ := Option.map_eq_some_iff.1 h
        obtain ⟨w, hw, hv⟩ := Option.bind_eq_some_iff.1 hv
        exact C.sequence hkind (C.element? (hselect w hw) hv)
      · split at h
        · cases h
          exact C.sequence hkind helement
        · split at h
          · obtain ⟨v, _, rfl⟩ := Option.map_eq_some_iff.1 h
            exact C.averageType v
          · split at h
            · exact hchosen u h
            · split at h
              · cases h
                split
                · exact C.withNullable helement true
                · exact helement
              · obtain ⟨f, hf, rfl⟩ := Option.map_eq_some_iff.1 h
                exact C.elementResult helement (method, f) (mem_of_lookup hf)

end TypeRef.Closed

namespace Typing

/-- The family also has the types that come with a model and with the expressions of `source`. -/
structure Closed (m : Model) (source : Expr → Prop) (P : TypeRef → Prop) : Prop
    extends TypeRef.Closed P where
  declared : ∀ {d}, d ∈ m.types → ∀ v, P (.named d.name v)
  parsed : ∀ {text t}, parse? m text = some t → P t
  types : ∀ {e}, source e → ∀ t ∈ e.types, P (.ofExpr m t)
  child : ∀ {c e}, source e → c ∈ e.children → source c
  literal : ∀ {Γ members}, source (.anonymous members) →
    (∀ c ∈ (Expr.anonymous members).children, Gives P (infer? Γ c)) →
    P (.anonymous (anonymousType Γ members))

namespace Closed

variable {m : Model} {source : Expr → Prop} {P : TypeRef → Prop}

section Members

variable (C : Closed m source P)
include C

theorem unparen {e : Expr} (h : source e) : source e.unparen :=
  unparen_of_children C.child h

theorem memberType? {owner : TypeDecl} {member : MemberDecl} (ho : owner ∈ m.types) :
    Gives P (Typing.memberType? m owner member) := by
  intro u h
  unfold Typing.memberType? at h
  split at h
  · cases h
    exact C.declared ho _
  · cases h
  all_goals exact C.parsed h

theorem readMember? {t : TypeRef} {name : String} {library : Option TypeRef}
    (hl : Gives P library) : Gives P (Typing.readMember? m t name library) := by
  intro u h
  unfold Typing.readMember? at h
  split at h
  · rename_i hd
    split at h
    · exact C.memberType? (Model.mem_types_of_declaredMember? hd) u h
    · cases h
  · exact hl u h

theorem instanceMember? {t : TypeRef} (name : String) (ht : P t) :
    Gives P (Typing.instanceMember? m t name) := by
  intro u h
  unfold Typing.instanceMember? at h
  split at h
  · rename_i hk
    obtain ⟨member, hmember, hu⟩ := Option.bind_eq_some_iff.1 h
    exact C.member ht hk member (List.mem_of_find?_eq_some hmember) u hu
  · exact C.readMember? (fun _ => C.toClosed.instanceMember? ht) u h

theorem valueMember? {t : TypeRef} {name : String} {optional : Bool} (ht : P t) :
    Gives P (Typing.valueMember? m t name optional) := by
  intro u h
  unfold Typing.valueMember? at h
  have hmember := C.instanceMember? name (C.withNullable ht false) u
  split at h
  · rcases Option.or_eq_some_iff.1 h with h | ⟨_, h⟩
    · exact C.toClosed.instanceMember? ht h
    · exact hmember h
  · exact hmember h

theorem memberAccess? {receiver : Operand} {name : String} {optional lifted : Bool}
    (hr : P receiver.ref) : Gives P (Typing.memberAccess? m receiver name optional lifted) := by
  intro u h
  unfold Typing.memberAccess? at h
  split at h
  · exact C.readMember? (fun _ => C.staticMember?) u h
  · obtain ⟨v, hv, rfl⟩ := Option.map_eq_some_iff.1 h
    exact C.lift (C.valueMember? hr v hv) lifted

theorem staticCall? {t : TypeRef} {name : String} {call : Framework.Call} (hc : call.Within P) :
    Gives P (Typing.staticCall? m t name call) := by
  intro u h
  unfold Typing.staticCall? at h
  split at h
  · exact C.parsed h
  · exact C.toClosed.staticCall? hc h

theorem instanceCall? {t : TypeRef} {name : String} (ht : P t) :
    Gives P (Typing.instanceCall? m t name) := by
  intro u h
  unfold Typing.instanceCall? at h
  split at h
  · exact C.parsed h
  · exact C.toClosed.instanceCall? ht h

end Members

variable {Γ : Context} (C : Closed Γ.model source P)
include C

theorem identifier? {name : String} {o : Operand} (hΓ : ∀ b ∈ Γ.bindings, P b.2)
    (h : Typing.identifier? Γ name = some o) : P o.ref := by
  unfold Typing.identifier? at h
  split at h
  · rename_i hb
    cases h
    exact hΓ _ (mem_of_lookup hb)
  · split at h
    · obtain ⟨t, ht, rfl⟩ := Option.map_eq_some_iff.1 h
      exact C.parsed ht
    · rename_i hs
      obtain ⟨t, ht, rfl⟩ := Option.map_eq_some_iff.1 h
      exact C.memberType? (Model.mem_types_of_member_symbol? hs) t ht
    · rename_i hs
      cases h
      exact C.declared (Model.mem_types_of_type_symbol? hs) _
    · obtain ⟨t, ht, rfl⟩ := Option.map_eq_some_iff.1 h
      exact C.type? ht

theorem ownCall? {name : String} : Gives P (Typing.ownCall? Γ name) := by
  intro u h
  unfold Typing.ownCall? at h
  split at h
  · cases h
    exact C.primitive
  · obtain ⟨method, _, hu⟩ := Option.bind_eq_some_iff.1 h
    exact C.parsed hu

theorem operand? {e : Expr} {o : Operand} (hΓ : ∀ b ∈ Γ.bindings, P b.2) (he : source e)
    (h : Typing.operand? Γ e = some o) : P o.ref := by
  induction hn : e.size using Nat.strongRecOn generalizing Γ e o with
  | ind n ih =>
      subst hn
      have operand {c : Expr} (hc : c ∈ e.children) (a : Operand)
          (ha : Typing.operand? Γ c = some a) : P a.ref :=
        ih _ (size_lt_of_mem_children hc) C hΓ (C.child he hc) ha rfl
      have value {c : Expr} (hc : c ∈ e.children) :
          Gives P ((Typing.operand? Γ c).bind Operand.value?) :=
        gives_value? (operand hc)
      cases e with
      | ident name =>
          rw [Typing.operand?] at h
          exact C.identifier? hΓ h
      | this =>
          rw [Typing.operand?] at h
          obtain ⟨t, ht, rfl⟩ := Option.map_eq_some_iff.1 h
          obtain ⟨d, hd, rfl⟩ := Option.map_eq_some_iff.1 ht
          exact C.declared (Model.mem_types_of_enclosing? hd) _
      | literal l =>
          rw [Typing.operand?] at h
          obtain ⟨t, ht, rfl⟩ := Option.map_eq_some_iff.1 h
          exact C.literalType? ht
      | paren inner | marked note inner =>
          rw [Typing.operand?] at h
          exact operand (by simp [children]) o h
      | member target name optional =>
          rw [Typing.operand?] at h
          obtain ⟨receiver, hr, h⟩ := Option.bind_eq_some_iff.1 h
          obtain ⟨t, ht, rfl⟩ := Option.map_eq_some_iff.1 h
          exact C.memberAccess? (operand (by simp [children]) receiver hr) t ht
      | index target args optional =>
          rw [Typing.operand?] at h
          obtain ⟨receiver, hr, h⟩ := Option.bind_eq_some_iff.1 h
          obtain ⟨t, ht, rfl⟩ := Option.map_eq_some_iff.1 h
          have hreceiver := value (by simp [children]) receiver hr
          exact C.lift (C.indexed? (C.withNullable hreceiver false) ht) _
      | invoke target typeArgs args =>
          have htarget := C.child he (show target ∈ _ by simp [children])
          rw [Typing.operand?] at h
          split at h
          · rename_i receiver name optional hu
            have hreceiver : receiver ∈ target.unparen.children := by simp [hu, children]
            have hsize := Nat.lt_of_lt_of_le (size_lt_of_mem_children hreceiver)
              (size_unparen_le target)
            have hr (a : Operand) (ha : Typing.operand? Γ receiver = some a) : P a.ref :=
              ih _ (Nat.lt_trans hsize (size_lt_of_mem_children (by simp [children]))) C hΓ
                (C.child (C.unparen htarget) hreceiver) ha rfl
            split at h
            · cases h
            · obtain ⟨u, hu, rfl⟩ := Option.map_eq_some_iff.1 h
              refine C.staticCall? ⟨?_, ?_⟩ u hu
              · exact List.forall_mem_map.2 (C.types he)
              · intro t ht
                obtain ⟨a, _, ha⟩ := List.mem_map.1 ht
                exact value (List.mem_cons_of_mem _ a.2) t ha
            · rename_i t ht
              obtain ⟨u, hu, rfl⟩ := Option.map_eq_some_iff.1 h
              have hvalue : P t.nonNullable := C.withNullable (hr _ ht) false
              refine C.lift ?_ _
              rcases Option.or_eq_some_iff.1 hu with hu | ⟨_, hu⟩
              · refine C.sequenceCall? hvalue (fun element helement v hv => ?_) u hu
                split at hv
                · cases hv
                · rename_i arg more _
                  split at hv
                  · rename_i params body hl
                    have harg := C.child he (show arg ∈ _ by simp [children])
                    have hbody : body ∈ arg.unparen.children := by simp [hl, children]
                    have hsize := Nat.lt_of_lt_of_le (size_lt_of_mem_children hbody)
                      (size_unparen_le arg)
                    refine gives_value? (fun a ha => ?_) v hv
                    refine ih _ (Nat.lt_trans hsize (size_lt_of_mem_children ?_)) ?_ ?_
                      (C.child (C.unparen harg) hbody) ha rfl
                    · simp [children]
                    · exact C
                    · exact Context.forall_mem_bindAll hΓ (List.forall_mem_cons.2
                        ⟨helement, List.forall_mem_singleton.2 C.primitive⟩)
                  · cases hv
              · exact C.instanceCall? hvalue u hu
          · obtain ⟨t, ht, rfl⟩ := Option.map_eq_some_iff.1 h
            exact C.ownCall? t ht
          · cases h
      | lambda params body =>
          rw [Typing.operand?] at h
          cases h
      | anonymous members =>
          have htype := infer?_anonymous Γ members
          rw [infer?, h] at htype
          rw [Operand.ref_of_value? htype]
          exact C.literal he fun c hc => value hc
      | creation t as ms =>
          rw [Typing.operand?] at h
          cases h
          exact C.types he _ (by simp [Expr.types])
      | cast t inner =>
          rw [Typing.operand?] at h
          cases h
          exact C.types he _ (by simp [Expr.types])
      | defaultValue t =>
          cases t with
          | none =>
              rw [Typing.operand?] at h
              cases h
          | some t =>
              rw [Typing.operand?] at h
              cases h
              exact C.types he _ (by simp [Expr.types])
      | conditional c t f =>
          rw [Typing.operand?] at h
          obtain ⟨u, hu, rfl⟩ := Option.map_eq_some_iff.1 h
          exact C.conditionalType? (value (by simp [children])) (value (by simp [children])) u hu
      | binary op l r =>
          rw [Typing.operand?] at h
          obtain ⟨u, hu, rfl⟩ := Option.map_eq_some_iff.1 h
          exact C.binaryType? (value (by simp [children])) (value (by simp [children])) u hu
      | unary op inner =>
          rw [Typing.operand?] at h
          obtain ⟨t, ht, rfl⟩ := Option.map_eq_some_iff.1 h
          exact C.unaryType (value (by simp [children]) t ht)
      | interpolated parts =>
          rw [Typing.operand?] at h
          cases h
          exact C.primitive

/-- Inference stays in the family. -/
theorem infer? {e : Expr} (hΓ : ∀ b ∈ Γ.bindings, P b.2) (he : source e) :
    Gives P (Typing.infer? Γ e) :=
  gives_value? fun _ h => C.operand? hΓ he h

end Closed

end Typing

end Projection
