import Mathlib.Data.List.Forall2
import Projection.Proofs.Structure.Nested

/-!
What the id of a structure tells. The bytes that are digested keep the parts of every property
apart, so as long as no two of them have the same digest, structures of one id have properties that
look alike one by one, down to the innermost structures, and structures that look alike have one id.
-/

namespace Projection

namespace Structure

theorem toList_loop (bytes : ByteArray) (i : Nat) (done : List UInt8) :
    ByteArray.toList.loop bytes i done = done.reverse ++ bytes.data.toList.drop i := by
  fun_induction ByteArray.toList.loop bytes i done with
  | case1 i done h ih =>
      have hi : i < bytes.data.toList.length := by simpa using h
      have hget : bytes.get! i = bytes.data.toList[i] := by
        simp [ByteArray.get!, Array.getElem_toList, h]
      rw [ih, List.drop_eq_getElem_cons hi]
      simp [hget]
  | case2 i done h => rw [List.drop_of_length_le (by simpa using h), List.append_nil]

theorem utf8_eq (text : String) : utf8 text = text.toList.flatMap String.utf8EncodeChar := by
  rw [utf8, String.toUTF8, ByteArray.toList, toList_loop, ← String.utf8Encode_toList]
  simp [List.utf8Encode]

theorem utf8_injective : Function.Injective utf8 := by
  intro s t h
  rw [utf8, utf8, ByteArray.toList, ByteArray.toList, toList_loop, toList_loop] at h
  have hbytes : s.toByteArray = t.toByteArray := ByteArray.ext (by simpa using h)
  exact String.toByteArray_inj.1 hbytes

/-- A byte below 0x80 stands for itself. -/
theorem toNat_of_mem_utf8EncodeChar {b : UInt8} {c : Char} (h : b ∈ String.utf8EncodeChar c)
    (hb : b.toNat < 128) : c.toNat = b.toNat := by
  unfold String.utf8EncodeChar at h
  dsimp only at h
  change c.val.toNat = b.toNat
  split at h
  · cases List.mem_singleton.1 h
    rw [UInt8.toNat_ofNat', Nat.mod_eq_of_lt (by omega)]
  · split at h
    · simp only [List.mem_cons, List.not_mem_nil, or_false] at h
      rcases h with rfl | rfl <;> simp at hb <;> omega
    · split at h
      · simp only [List.mem_cons, List.not_mem_nil, or_false] at h
        rcases h with rfl | rfl | rfl <;> simp at hb <;> omega
      · simp only [List.mem_cons, List.not_mem_nil, or_false] at h
        rcases h with rfl | rfl | rfl | rfl <;> simp at hb <;> omega

def Separable (text : String) : Prop := ∀ c ∈ text.toList, c.toNat ≠ 0x1E ∧ c.toNat ≠ 0x1F

instance (text : String) : Decidable (Separable text) :=
  decidable_of_iff (text.toList.all fun c => c.toNat ≠ 0x1E ∧ c.toNat ≠ 0x1F) (by simp [Separable])

theorem Separable.not_mem_utf8 {text : String} (h : Separable text) :
    unitSeparator ∉ utf8 text ∧ recordSeparator ∉ utf8 text := by
  rw [utf8_eq]
  constructor
  · intro hb
    obtain ⟨c, hc, hb⟩ := List.mem_flatMap.1 hb
    exact (h c hc).2 (toNat_of_mem_utf8EncodeChar hb (by decide))
  · intro hb
    obtain ⟨c, hc, hb⟩ := List.mem_flatMap.1 hb
    exact (h c hc).1 (toNat_of_mem_utf8EncodeChar hb (by decide))

theorem hexDigit_toNat : ∀ n < 16, 0x30 ≤ (StructuralId.hexDigit n).toNat := by decide

/-- An id consists of hexadecimal digits. -/
theorem forall_mem_ofBytes {P : Char → Prop} (h : ∀ n < 16, P (StructuralId.hexDigit n))
    (bytes : List UInt8) : ∀ c ∈ (StructuralId.ofBytes bytes).text.toList, P c := by
  intro c hc
  rw [StructuralId.ofBytes, StructuralId.ofDigest, String.toList_ofList] at hc
  obtain ⟨b, -, hc⟩ := List.mem_flatMap.1 hc
  have hb := b.toNat_lt
  simp only [StructuralId.hexByte, List.mem_cons, List.not_mem_nil, or_false] at hc
  rcases hc with rfl | rfl
  · exact h _ (by omega)
  · exact h _ (by omega)

theorem ofBytes_text (bytes : List UInt8) :
    (StructuralId.ofBytes bytes).text ≠ "" ∧ Separable (StructuralId.ofBytes bytes).text := by
  constructor
  · simp [StructuralId.ofBytes, StructuralId.ofDigest, Digest.sha256, Digest.State.words,
      Digest.bytesOfWord, StructuralId.hexByte]
  · intro c hc
    have hdigit := forall_mem_ofBytes (P := fun c => 0x30 ≤ c.toNat) hexDigit_toNat bytes c hc
    omega

/-- Two properties look alike from outside, where `R` compares what is nested in them. -/
structure Matches (R : Structure → Structure → Prop) (p q : Property) : Prop where
  name : p.name = q.name
  type : p.declaredType.nonNullable.display = q.declaredType.nonNullable.display
  nullable : p.nullable = q.nullable
  nested : Option.Rel R p.nested q.nested

mutual

/-- Two structures look alike from outside, and so does all that is nested in them. -/
def Alike : Structure → Structure → Prop
  | ⟨_, ps, _⟩, ⟨_, qs, _⟩ => AlikeAll ps qs

def AlikeAll : List Property → List Property → Prop
  | [], [] => True
  | ⟨n, t, b, x, _⟩ :: ps, ⟨m, u, c, y, _⟩ :: qs =>
      (n = m ∧ t.nonNullable.display = u.nonNullable.display ∧ b = c ∧ AlikeNested x y) ∧
        AlikeAll ps qs
  | _, _ => False

def AlikeNested : Option Structure → Option Structure → Prop
  | none, none => True
  | some s, some t => Alike s t
  | _, _ => False

end

theorem alikeNested_iff {x y : Option Structure} : AlikeNested x y ↔ Option.Rel Alike x y := by
  cases x <;> cases y <;> simp [AlikeNested, Option.rel_none_none, Option.rel_some_some]

theorem alikeAll_iff {ps qs : List Property} :
    AlikeAll ps qs ↔ List.Forall₂ (Matches Alike) ps qs := by
  induction ps generalizing qs with
  | nil => cases qs <;> simp [AlikeAll]
  | cons p ps ih =>
      cases qs with
      | nil => simp [AlikeAll]
      | cons q qs =>
          obtain ⟨_, _, _, _, _⟩ := p
          obtain ⟨_, _, _, _, _⟩ := q
          rw [AlikeAll, List.forall₂_cons, ih, alikeNested_iff]
          refine and_congr_left fun _ => ⟨?_, ?_⟩
          · rintro ⟨hn, ht, hb, hx⟩
            exact ⟨hn, ht, hb, hx⟩
          · rintro ⟨hn, ht, hb, hx⟩
            exact ⟨hn, ht, hb, hx⟩

theorem alike_iff {s t : Structure} :
    Alike s t ↔ List.Forall₂ (Matches Alike) s.properties t.properties := by
  cases s
  cases t
  rw [Alike, alikeAll_iff]

def nestedBytes (nested : Option Structure) : List UInt8 :=
  match nested with
  | some s => utf8 s.id.text
  | none => []

structure Apart (p : Property) : Prop where
  name : Separable p.name
  type : Separable p.declaredType.nonNullable.display
  nested : recordSeparator ∉ nestedBytes p.nested

theorem encodeProperty_append (p : Property) (more : List UInt8) :
    encodeProperty p ++ more = utf8 p.name ++ unitSeparator ::
      (utf8 p.declaredType.nonNullable.display ++ unitSeparator ::
        (if p.nullable then 1 else 0) :: unitSeparator ::
          (nestedBytes p.nested ++ recordSeparator :: more)) := by
  obtain ⟨_, _, _, nested, _⟩ := p
  cases nested <;> simp [encodeProperty, nestedBytes]

theorem append_cons_inj {a b u v : List UInt8} {c : UInt8} (ha : c ∉ a) (hb : c ∉ b) :
    a ++ c :: u = b ++ c :: v ↔ a = b ∧ u = v := by
  constructor
  · intro h
    rcases List.append_eq_append_iff.1 h with ⟨w, rfl, hw⟩ | ⟨w, rfl, hw⟩
    · cases w with
      | nil => simpa using hw
      | cons d w =>
          obtain ⟨rfl, -⟩ := List.cons.inj hw
          simp at hb
    · cases w with
      | nil => simpa using hw.symm
      | cons d w =>
          obtain ⟨rfl, -⟩ := List.cons.inj hw
          simp at ha
  · rintro ⟨rfl, rfl⟩
    rfl

/-- Each separator ends its part, so the bytes can be taken apart again. -/
theorem encodeProperty_append_eq_iff {p q : Property} (hp : Apart p) (hq : Apart q)
    {u v : List UInt8} :
    encodeProperty p ++ u = encodeProperty q ++ v ↔
      (p.name = q.name ∧
        p.declaredType.nonNullable.display = q.declaredType.nonNullable.display ∧
        p.nullable = q.nullable ∧ nestedBytes p.nested = nestedBytes q.nested) ∧ u = v := by
  have hflag : ((if p.nullable then 1 else 0 : UInt8) = if q.nullable then 1 else 0) ↔
      p.nullable = q.nullable := by
    cases p.nullable <;> cases q.nullable <;> decide
  rw [encodeProperty_append, encodeProperty_append,
    append_cons_inj hp.name.not_mem_utf8.1 hq.name.not_mem_utf8.1,
    append_cons_inj hp.type.not_mem_utf8.1 hq.type.not_mem_utf8.1, List.cons.injEq, List.cons.injEq,
    append_cons_inj hp.nested hq.nested, utf8_injective.eq_iff, utf8_injective.eq_iff, hflag]
  simp only [true_and, and_assoc]

theorem encodeProperty_ne_nil (p : Property) : encodeProperty p ≠ [] := by
  simp [encodeProperty]

/-- The bytes of a list of properties tell all that can be seen of them from outside. -/
theorem encode_eq_iff {R : Structure → Structure → Prop} {ps qs : List Property}
    (hps : ∀ p ∈ ps, Apart p) (hqs : ∀ q ∈ qs, Apart q)
    (hR : ∀ p ∈ ps, ∀ q ∈ qs,
      nestedBytes p.nested = nestedBytes q.nested ↔ Option.Rel R p.nested q.nested) :
    encode ps = encode qs ↔ List.Forall₂ (Matches R) ps qs := by
  induction ps generalizing qs with
  | nil =>
      cases qs with
      | nil => simp
      | cons q qs => simp [encode, encodeProperty_ne_nil]
  | cons p ps ih =>
      cases qs with
      | nil => simp [encode, encodeProperty_ne_nil]
      | cons q qs =>
          obtain ⟨hp, hps⟩ := List.forall_mem_cons.1 hps
          obtain ⟨hq, hqs⟩ := List.forall_mem_cons.1 hqs
          have hnested := hR p List.mem_cons_self q List.mem_cons_self
          have hrest := ih hps hqs fun p hp q hq =>
            hR p (List.mem_cons_of_mem _ hp) q (List.mem_cons_of_mem _ hq)
          have hsplit : encode (p :: ps) = encode (q :: qs) ↔ _ :=
            encodeProperty_append_eq_iff hp hq
          rw [hsplit, List.forall₂_cons, ← hrest, hnested]
          refine and_congr_left fun _ => ⟨?_, ?_⟩
          · rintro ⟨hn, ht, hb, hx⟩
            exact ⟨hn, ht, hb, hx⟩
          · rintro ⟨hn, ht, hb, hx⟩
            exact ⟨hn, ht, hb, hx⟩

def Built (s : Structure) : Prop := ∀ q ∈ s.all, q.id = .ofBytes (encode q.properties)

/-- No name and no type of a property, here or below, holds a separator. -/
def Legible (s : Structure) : Prop :=
  ∀ q ∈ s.all, ∀ p ∈ q.properties,
    Separable p.name ∧ Separable p.declaredType.nonNullable.display

def messages (s : Structure) : List (List UInt8) := s.all.map fun q => encode q.properties

theorem all_subset_of_nested {s n : Structure} {p : Property} (hp : p ∈ s.properties)
    (hn : p.nested = some n) {q : Structure} (hq : q ∈ n.all) : q ∈ s.all :=
  mem_all_of_mem_inner (mem_inner_of_nested hp hn hq)

theorem Built.id {s : Structure} (h : s.Built) : s.id = .ofBytes (encode s.properties) :=
  h s (self_mem_all s)

theorem Built.nested {s n : Structure} {p : Property} (h : s.Built) (hp : p ∈ s.properties)
    (hn : p.nested = some n) : n.Built :=
  fun q hq => h q (all_subset_of_nested hp hn hq)

theorem Legible.nested {s n : Structure} {p : Property} (h : s.Legible) (hp : p ∈ s.properties)
    (hn : p.nested = some n) : n.Legible :=
  fun q hq => h q (all_subset_of_nested hp hn hq)

/-- A structure that is built over built ones is built. -/
theorem built_ofProperties {sourceType : String} {ps : List Property}
    (h : ∀ p ∈ ps, ∀ n ∈ p.nested, n.Built) : (ofProperties sourceType ps).Built := by
  intro q hq
  rcases List.mem_cons.1 hq with rfl | hq
  · rfl
  · obtain ⟨p, hp, n, hn, hqn⟩ := mem_inner.1 hq
    exact h p hp n hn q hqn

theorem messages_subset_of_nested {s n : Structure} {p : Property} (hp : p ∈ s.properties)
    (hn : p.nested = some n) : n.messages ⊆ s.messages :=
  List.map_subset _ fun _ hq => all_subset_of_nested hp hn hq

theorem apart_of_built {s : Structure} (hb : s.Built) (hl : s.Legible) {p : Property}
    (hp : p ∈ s.properties) : Apart p where
  name := (hl s (self_mem_all s) p hp).1
  type := (hl s (self_mem_all s) p hp).2
  nested := by
    cases hn : p.nested with
    | none => simp [nestedBytes]
    | some n =>
        have hid := (hb.nested hp hn).id
        rw [nestedBytes, hid]
        exact (ofBytes_text _).2.not_mem_utf8.2

/-- An id is there exactly where a structure is nested. -/
theorem nestedBytes_eq_iff {R : Structure → Structure → Prop} {x y : Option Structure}
    (hx : ∀ s ∈ x, s.Built) (hy : ∀ t ∈ y, t.Built)
    (hR : ∀ s ∈ x, ∀ t ∈ y, s.id = t.id ↔ R s t) :
    nestedBytes x = nestedBytes y ↔ Option.Rel R x y := by
  have hne {s : Structure} (hs : s.Built) : utf8 s.id.text ≠ [] := by
    intro h
    have hempty : s.id.text = "" := utf8_injective (h.trans (by rw [utf8_eq]; rfl))
    rw [hs.id] at hempty
    exact (ofBytes_text _).1 hempty
  cases x with
  | none =>
      cases y with
      | none => simp [nestedBytes, Option.rel_none_none]
      | some t => simpa [nestedBytes] using (hne (hy t rfl)).symm
  | some s =>
      cases y with
      | none => simpa [nestedBytes] using hne (hx s rfl)
      | some t =>
          rw [Option.rel_some_some, ← hR s rfl t rfl]
          change utf8 s.id.text = utf8 t.id.text ↔ s.id = t.id
          rw [utf8_injective.eq_iff]
          exact ⟨fun h => by cases hs : s.id; cases ht : t.id; simp_all, fun h => h ▸ rfl⟩

theorem id_eq_iff_encode {s t : Structure} (hs : s.Built) (ht : t.Built)
    (hdigest : ∀ a ∈ s.messages, ∀ b ∈ t.messages,
      StructuralId.ofBytes a = StructuralId.ofBytes b → a = b) :
    s.id = t.id ↔ encode s.properties = encode t.properties := by
  rw [hs.id, ht.id]
  constructor
  · exact hdigest _ (List.mem_map.2 ⟨s, self_mem_all s, rfl⟩) _
      (List.mem_map.2 ⟨t, self_mem_all t, rfl⟩)
  · exact congrArg StructuralId.ofBytes

/-- The bytes of two structures agree as their properties do, whatever ids and `R` say alike about
nested structures. -/
theorem encode_properties_iff {R : Structure → Structure → Prop} {s t : Structure} (hs : s.Built)
    (ht : t.Built) (hsl : s.Legible) (htl : t.Legible)
    (hR : ∀ p ∈ s.properties, ∀ q ∈ t.properties, ∀ n ∈ p.nested, ∀ m ∈ q.nested,
      n.id = m.id ↔ R n m) :
    encode s.properties = encode t.properties ↔
      List.Forall₂ (Matches R) s.properties t.properties :=
  encode_eq_iff (fun _ hp => apart_of_built hs hsl hp) (fun _ hq => apart_of_built ht htl hq)
    fun p hp q hq => nestedBytes_eq_iff (fun _ hn => hs.nested hp hn) (fun _ hm => ht.nested hq hm)
      (hR p hp q hq)

/-- What the ids of nested structures tell is carried up from the innermost ones. -/
theorem encode_eq_iff_alike {s t : Structure} (hs : s.Built) (ht : t.Built) (hsl : s.Legible)
    (htl : t.Legible)
    (hdigest : ∀ a ∈ s.messages, ∀ b ∈ t.messages,
      StructuralId.ofBytes a = StructuralId.ofBytes b → a = b) :
    encode s.properties = encode t.properties ↔ Alike s t := by
  rw [alike_iff]
  refine encode_properties_iff hs ht hsl htl fun p hp q hq n hn m hm => ?_
  have hnested : ∀ a ∈ n.messages, ∀ b ∈ m.messages,
      StructuralId.ofBytes a = StructuralId.ofBytes b → a = b := fun a ha b hb =>
    hdigest a (messages_subset_of_nested hp hn ha) b (messages_subset_of_nested hq hm hb)
  have := sizeOf_nested_lt hp hn
  rw [id_eq_iff_encode (hs.nested hp hn) (ht.nested hq hm) hnested]
  exact encode_eq_iff_alike (hs.nested hp hn) (ht.nested hq hm) (hsl.nested hp hn)
    (htl.nested hq hm) hnested
termination_by sizeOf s

/-- Two structures have one id exactly if they have as many properties and these agree, place by
place, on name, type, nullability and on whether and which structure is nested in them. Which
structure is nested is again told by its id, and by how it looks down to the innermost ones; where
values come from makes no difference. Digests are assumed to tell apart what is digested for the one
structure from what is digested for the other. -/
theorem id_eq_iff_alike {s t : Structure} (hs : s.Built) (ht : t.Built) (hsl : s.Legible)
    (htl : t.Legible)
    (hdigest : ∀ a ∈ s.messages, ∀ b ∈ t.messages,
      StructuralId.ofBytes a = StructuralId.ofBytes b → a = b) :
    (s.id = t.id ↔ List.Forall₂ (Matches fun n m => n.id = m.id) s.properties t.properties) ∧
      (s.id = t.id ↔ List.Forall₂ (Matches Alike) s.properties t.properties) := by
  rw [id_eq_iff_encode hs ht hdigest, ← alike_iff]
  exact ⟨encode_properties_iff hs ht hsl htl fun _ _ _ _ _ _ _ _ => Iff.rfl,
    encode_eq_iff_alike hs ht hsl htl hdigest⟩

def item (sourceType : String) (value : Expr) : Structure :=
  ofProperties sourceType [⟨"Name", .string, false, none, .literal value⟩]

def listed (sourceType : String) (value : Expr) : Structure :=
  ofProperties sourceType [⟨"Id", .int, true, none, .literal value⟩,
    ⟨"Items", .named "Items" false, false, some (item sourceType value), .literal value⟩]

theorem id_eq_iff_alike_listed :
    let s := listed "Order" .null
    let t := listed "Invoice" (.ident "other")
    s.Built ∧ t.Built ∧ s.Legible ∧ t.Legible ∧ s.messages.length = 2 ∧
      (s.id = t.id ↔ List.Forall₂ (Matches fun n m => n.id = m.id) s.properties t.properties) ∧
      (s.id = t.id ↔ List.Forall₂ (Matches Alike) s.properties t.properties) := by
  intro s t
  have hbuilt (sourceType : String) (value : Expr) : (listed sourceType value).Built := by
    refine built_ofProperties ?_
    have hitem : (item sourceType value).Built := built_ofProperties (by simp)
    simpa using hitem
  have hsl : ∀ q ∈ s.all, ∀ p ∈ q.properties,
      Separable p.name ∧ Separable p.declaredType.nonNullable.display := by decide +kernel
  have htl : ∀ q ∈ t.all, ∀ p ∈ q.properties,
      Separable p.name ∧ Separable p.declaredType.nonNullable.display := by decide +kernel
  have hmessages : s.messages = [encode s.properties, encode (item "Order" .null).properties] :=
    rfl
  have hsame : t.messages = s.messages := rfl
  have hne : s.id ≠ (item "Order" .null).id := by decide +kernel
  have hdigest : ∀ a ∈ s.messages, ∀ b ∈ t.messages,
      StructuralId.ofBytes a = StructuralId.ofBytes b → a = b := by
    rw [hsame, hmessages]
    intro a ha b hb h
    simp only [List.mem_cons, List.not_mem_nil, or_false] at ha hb
    rcases ha with rfl | rfl <;> rcases hb with rfl | rfl
    · rfl
    · exact absurd h hne
    · exact absurd h.symm hne
    · rfl
  exact ⟨hbuilt _ _, hbuilt _ _, hsl, htl, rfl,
    id_eq_iff_alike (hbuilt _ _) (hbuilt _ _) hsl htl hdigest⟩

end Structure

end Projection
