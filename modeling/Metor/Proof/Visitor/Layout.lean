import Metor.Impl.Packet
import Metor.Lib.Layout
import Metor.Proof.Visitor.Series

/-!
# What is appended to a packet

`content` is what follows the header. Each operation appends to it, after
padding up to an alignment, and keeps the length of the packet counted modulo
`2 ^ 32` (`Counted`); `body` is the content as long as the length fits
(`body_eq_some`).
-/

namespace Metor.Proof.Visitor

open Metor.Lib Metor.Impl.Proto

variable {p : LenPacket} {bytes : Bytes}

/-- What follows the length and the header. -/
def content (p : LenPacket) : Bytes := p.inner.drop 8

theorem length_inner (p : LenPacket) : p.inner.length = 8 + (content p).length := by
  have := p.le_length
  simp only [packetHeaderLen] at this
  rw [content, List.length_drop]; omega

/-- The length field is that of the packet. -/
def Counted (p : LenPacket) : Prop := p.pktLen = asU32 (4 + (content p).length)

theorem content_append (len : Nat) : content (p.append bytes len) = content p ++ bytes := by
  have := p.le_length
  simp only [packetHeaderLen] at this
  simp only [content, LenPacket.append, overwrite, List.take_zero, List.nil_append, length_leBytes, Nat.zero_add]
  rw [List.drop_append, length_leBytes, List.drop_of_length_le (by rw [length_leBytes]; omega), List.nil_append,
    List.drop_drop, List.drop_append_of_le_length (by omega)]

theorem pktLen_append {len : Nat} (h : len < 2 ^ 32) : (p.append bytes len).pktLen = len := by
  simp only [LenPacket.pktLen, LenPacket.append, overwrite, List.take_zero, List.nil_append]
  rw [List.take_append_of_le_length (by rw [length_leBytes]), List.take_of_length_le (by rw [length_leBytes]),
    leNat_leBytes h]

theorem asU32_lt (n : Nat) : asU32 n < 2 ^ 32 := Nat.mod_lt n (by omega)

/-- The length added to may be counted modulo `2 ^ 32` as well. -/
theorem append_spec (bytes : Bytes) (h : Counted p) {n : Nat} (hn : asU32 n = asU32 bytes.length) :
    Counted (p.append bytes (asU32 (p.pktLen + n))) ∧
    content (p.append bytes (asU32 (p.pktLen + n))) = content p ++ bytes := by
  refine ⟨?_, content_append _⟩
  rw [Counted, pktLen_append (asU32_lt _), content_append, h, List.length_append]
  simp only [asU32] at hn ⊢
  omega

theorem extendFromSlice_spec (bytes : Bytes) (h : Counted p) : Counted (p.extendFromSlice bytes) ∧
    content (p.extendFromSlice bytes) = content p ++ bytes :=
  append_spec bytes h (Nat.mod_mod _ _)

theorem pushAligned_spec (bytes : Bytes) (h : Counted p) {align : Nat} (ha : 8 % align = 0) : Counted (p.pushAligned align bytes) ∧
    ∃ padding : Bytes, content (p.pushAligned align bytes) = content p ++ padding ++ bytes ∧
      (content p ++ padding).length = roundUp (content p).length align := by
  have hlen : (align - p.inner.length % align) % align = (align - (content p).length % align) % align := by
    rw [length_inner, Nat.add_mod, ha, Nat.zero_add, Nat.mod_mod]
  obtain ⟨hc, hb⟩ := append_spec (List.replicate ((align - p.inner.length % align) % align) 0 ++ bytes) h
    (n := asU32 ((align - p.inner.length % align) % align + bytes.length))
    (by rw [List.length_append, List.length_replicate]; exact Nat.mod_mod _ _)
  refine ⟨hc, List.replicate ((align - p.inner.length % align) % align) 0, ?_, ?_⟩
  · rw [List.append_assoc]; exact hb
  · rw [List.length_append, List.length_replicate, hlen, roundUp]

theorem push_spec (h : Counted p) (elem : UInt8) :
    Counted (p.push elem) ∧ content (p.push elem) = content p ++ [elem] :=
  append_spec [elem] h rfl

theorem pushes_spec (h : Counted p) (n : Nat) :
    Counted ((List.range n).foldl (fun p _ => p.push 0) p) ∧
    content ((List.range n).foldl (fun p _ => p.push 0) p) = content p ++ List.replicate n 0 := by
  induction n with
  | zero => exact ⟨h, (List.append_nil _).symm⟩
  | succ n ih =>
    simp only [List.range_succ, List.foldl_append, List.foldl_cons, List.foldl_nil]
    obtain ⟨hc, hb⟩ := push_spec ih.1 0
    exact ⟨hc, by rw [hb, ih.2, List.replicate_succ', List.append_assoc]⟩

/-- The padding of a type goes up to its alignment. -/
theorem add_padding (ty : PrimType) (n : Nat) : n + ty.padding n = roundUp n ty.alignment := by
  cases ty <;> simp only [PrimType.padding, PrimType.alignment, PrimType.size, roundUp] <;> omega

theorem eight_mod_alignment (ty : PrimType) : 8 % ty.alignment = 0 := by cases ty <;> rfl

theorem alignment_pos (ty : PrimType) : 0 < ty.alignment := by cases ty <;> exact Nat.succ_pos _

theorem padForType_spec (h : Counted p) (ty : PrimType) : Counted (p.padForType ty) ∧
    ∃ padding : Bytes, content (p.padForType ty) = content p ++ padding ∧
      (content p ++ padding).length = roundUp (content p).length ty.alignment := by
  obtain ⟨hc, hb⟩ := pushes_spec h (ty.padding p.inner.length)
  refine ⟨hc, _, hb, ?_⟩
  have e := add_padding ty p.inner.length
  rw [length_inner, roundUp_add (eight_mod_alignment ty)] at e
  rw [List.length_append, List.length_replicate, length_inner]
  omega

theorem clear_spec (p : LenPacket) : Counted p.clear ∧ content p.clear = [] := by
  have := p.le_length
  simp only [packetHeaderLen] at this
  have hlen : (overwrite p.inner 0 (leBytes 4 4)).length = p.inner.length :=
    length_overwrite (by rw [length_leBytes]; omega)
  have hc : content p.clear = [] := by
    simp only [content, LenPacket.clear, packetHeaderLen]
    rw [List.drop_eq_nil_iff, List.length_take]; omega
  refine ⟨?_, hc⟩
  rw [Counted, hc]
  simp only [LenPacket.pktLen, LenPacket.clear, packetHeaderLen, List.take_take, overwrite, List.take_zero,
    List.nil_append]
  rw [List.take_append_of_le_length (by rw [length_leBytes]; omega), List.take_of_length_le (by rw [length_leBytes]; omega),
    leNat_leBytes (by omega)]
  rfl

theorem body_eq_some (h : Counted p) {body : Bytes} :
    p.body = some body ↔ content p = body ∧ 4 + (content p).length < 2 ^ 32 := by
  have hlen := length_inner p
  have hlt := asU32_lt (4 + (content p).length)
  have hp : p.pktLen = asU32 (4 + (content p).length) := h
  simp only [LenPacket.body, hp, hlen, packetHeaderLen]
  constructor
  · intro e
    split at e <;> cases e
    exact ⟨rfl, by omega⟩
  · rintro ⟨rfl, e⟩
    rw [asU32, Nat.mod_eq_of_lt e, if_pos (by omega)]
    rfl

end Metor.Proof.Visitor

/-!
## Two computations of one layout

`slots` places a sample of each of a list of components. `vtable` makes a
field for each slot of the components that are not empty (`vtableFields_eq`),
and `populate_table` writes a sample at each slot of the components that have
one (`populate_spec`), though it counts from the beginning of the packet.
-/

namespace Metor.Proof.Visitor

open Metor.Lib Metor.Impl.Proto Metor.Impl.Visitor
open Metor.Impl hiding Component

variable {components : List Component} {c : Component} {p : LenPacket} {t : Int} {body : Bytes}

/-- The place of a sample of a component. -/
structure Slot where
  component : Component
  timestampAt : Nat
  valueAt : Nat

/-- The next slot from `offset` on. -/
def slotAt (offset : Nat) (c : Component) : Slot :=
  ⟨c, roundUp offset 8, roundUp (roundUp offset 8 + 8) c.schema.primType.alignment⟩

def slots : (offset : Nat) → List Component → List Slot
  | _, [] => []
  | offset, c :: cs => slotAt offset c :: slots (slotEnd offset c) cs

theorem length_slots (offset : Nat) (cs : List Component) : (slots offset cs).length = cs.length := by
  induction cs generalizing offset with
  | nil => rfl
  | cons c cs ih => simp only [slots, List.length_cons, ih]

/-! ## `vtable` -/

/-- The field that `vtable` builds for a slot. -/
def slotField (s : Slot) (i : Nat) : FieldBuilder :=
  ⟨asU32 s.valueAt, asU32 s.component.schema.size,
    .timestamp (7 * i) (.table (7 * i + 1) (asU32 s.timestampAt) 8) (s.component.asVtableOp (7 * i + 2))⟩

theorem listed_cons (c : Component) (cs : List Component) :
    listed (c :: cs) = if !c.timeSeries.isEmpty then c :: listed cs else listed cs := List.filter_cons

theorem foldl_vtableEntity (components : List Component) (offset : Nat) (fields : List FieldBuilder) :
    components.foldl vtableEntity (offset, fields) =
      ((listed components).foldl slotEnd offset,
        fields ++ ((slots offset (listed components)).zipIdx fields.length).map fun (s, i) => slotField s i) := by
  induction components generalizing offset fields with
  | nil => simp [listed, slots]
  | cons c cs ih =>
    rw [List.foldl_cons, listed_cons]
    by_cases h : (!c.timeSeries.isEmpty) = true
    · have hstep : vtableEntity (offset, fields) c =
          (slotEnd offset c, fields ++ [slotField (slotAt offset c) fields.length]) := by
        simp only [vtableEntity, h, if_true, add_padding, slotEnd]
        rfl
      rw [hstep, ih, if_pos h]
      simp only [List.foldl_cons, slots, List.zipIdx_cons, List.map_cons, List.length_append, List.length_singleton,
        List.append_assoc, List.singleton_append]
    · have hstep : vtableEntity (offset, fields) c = (offset, fields) := by simp only [vtableEntity, h]; rfl
      rw [hstep, ih, if_neg h]

/-- `vtable` makes a field for the slot of each component that is not empty. -/
theorem vtableFields_eq (components : List Component) :
    vtableFields components = (slots 0 (listed components)).zipIdx.map fun (s, i) => slotField s i := by
  rw [vtableFields, foldl_vtableEntity]
  rfl

/-! ## `populate_table` -/

/-- The components that have a sample for a table. -/
def populated (t : Int) (components : List Component) : List Component :=
  components.filter fun c => (nearest c t).isSome

/-- The sample written at a slot. -/
structure Writes (body : Bytes) (s : Slot) (w : Written) : Prop where
  componentId : w.componentId = s.component.componentId
  schema : w.schema = s.component.schema
  timestampAt : w.timestampAt = s.timestampAt
  valueAt : w.valueAt = s.valueAt
  sample : Sample w.schema w.timestamp w.value
  timestamp_le : s.timestampAt + 8 ≤ body.length
  timestamp_slice : slice body s.timestampAt (s.timestampAt + 8) = i64Bytes w.timestamp
  value_le : s.valueAt + s.component.schema.size ≤ body.length
  value_slice : slice body s.valueAt (s.valueAt + s.component.schema.size) = w.value

theorem slice_prefix_eq {bs bs' : Bytes} (h : bs <+: bs') {i j : Nat} (hj : j ≤ bs.length) :
    slice bs' i j = slice bs i j := by
  obtain ⟨rest, rfl⟩ := h
  rw [slice, slice, List.take_append_of_le_length hj]

/-- More samples leave those written as they are. -/
theorem writes_prefix_eq {bs bs' : Bytes} (h : bs <+: bs') {s : Slot} {w : Written} (hw : Writes bs s w) :
    Writes bs' s w :=
  { hw with
    timestamp_le := hw.timestamp_le.trans h.length_le
    timestamp_slice := (slice_prefix_eq h hw.timestamp_le).trans hw.timestamp_slice
    value_le := hw.value_le.trans h.length_le
    value_slice := (slice_prefix_eq h hw.value_le).trans hw.value_slice }

theorem slice_append_right (bs bs' : Bytes) : slice (bs ++ bs') bs.length (bs.length + bs'.length) = bs' := by
  rw [slice, ← List.length_append, List.take_length, List.drop_left]

/-- What is written for one component. -/
theorem populateEntity_spec (hc : c.Valid) (hp : Counted p) {r : TimestampRef} (hr : nearest c t = some r) (k : Nat) :
    ∃ p' w, populateEntity t (p, k) c = some (p', k + 1) ∧ Counted p' ∧ content p <+: content p' ∧
      (content p').length = slotEnd (content p).length c ∧
      (∀ rest, written t p (c :: rest) = w :: written t p' rest) ∧
      Writes (content p') (slotAt (content p).length c) w := by
  obtain ⟨value, hvalue, hs⟩ := nearest_spec hc hr
  obtain ⟨h₁, pad₁, e₁, l₁⟩ := pushAligned_spec (i64Bytes r.timestamp) hp (show 8 % 8 = 0 from rfl)
  obtain ⟨h₂, pad₂, e₂, l₂⟩ := padForType_spec h₁ c.schema.primType
  obtain ⟨h₃, e₃⟩ := extendFromSlice_spec value h₂
  have hlen₁ : (content (p.pushAligned 8 (i64Bytes r.timestamp))).length = roundUp (content p).length 8 + 8 := by
    rw [e₁, List.length_append, l₁, length_i64Bytes]
  rw [hlen₁, ← e₂] at l₂
  refine ⟨_, ⟨c.componentId, c.schema, roundUp (content p).length 8,
    roundUp (roundUp (content p).length 8 + 8) c.schema.primType.alignment, r.timestamp, value⟩, ?_, h₃, ?_, ?_, ?_, ?_⟩
  · simp only [populateEntity, hr, hvalue]
    rfl
  · rw [e₃, e₂, e₁, List.append_assoc, List.append_assoc, List.append_assoc]
    exact List.prefix_append _ _
  · rw [e₃, List.length_append, l₂, hs.length, slotEnd]
  · intro rest
    simp only [written, hr, hvalue, Option.getD_some, length_inner, hlen₁, l₂, Nat.add_sub_cancel_left, Nat.add_sub_cancel]
  · have hlen₃ : (content ((p.pushAligned 8 (i64Bytes r.timestamp)).padForType c.schema.primType |>.extendFromSlice value)).length =
        roundUp (roundUp (content p).length 8 + 8) c.schema.primType.alignment + c.schema.size := by
      rw [e₃, List.length_append, l₂, hs.length]
    have hle := le_roundUp (roundUp (content p).length 8 + 8) c.schema.primType.alignment
    refine ⟨rfl, rfl, rfl, rfl, hs, ?_, ?_, hlen₃.ge, ?_⟩
    · show roundUp (content p).length 8 + 8 ≤ _
      omega
    · have h := slice_append_right (content p ++ pad₁) (i64Bytes r.timestamp)
      rw [l₁, length_i64Bytes, ← e₁] at h
      exact (slice_prefix_eq (by rw [e₃, e₂, List.append_assoc]; exact List.prefix_append _ _) hlen₁.ge).trans h
    · have h := slice_append_right (content ((p.pushAligned 8 (i64Bytes r.timestamp)).padForType c.schema.primType)) value
      rw [l₂, hs.length, ← e₃] at h
      exact h

/-- `populate_table` writes a sample at the slot of each component that has one, and does not panic. -/
theorem populate_spec (hc : ∀ c ∈ components, c.Valid) (hp : Counted p) (k : Nat) :
    ∃ p' k', components.foldlM (populateEntity t) (p, k) = some (p', k') ∧ Counted p' ∧ content p <+: content p' ∧
      (content p').length = (populated t components).foldl slotEnd (content p).length ∧
      List.Forall₂ (Writes (content p')) (slots (content p).length (populated t components)) (written t p components) := by
  induction components generalizing p k with
  | nil => exact ⟨p, k, rfl, hp, List.prefix_rfl, rfl, .nil⟩
  | cons c cs ih =>
    have hcs := fun c hc' => hc c (List.mem_cons_of_mem _ hc')
    rw [List.foldlM_cons, populated, List.filter_cons]
    cases hr : nearest c t with
    | none =>
      obtain ⟨p', k', h⟩ := ih hcs hp k
      refine ⟨p', k', ?_⟩
      simp only [populateEntity, written, hr]
      exact h
    | some r =>
      obtain ⟨p₁, w, hstep, h₁, hpre₁, hlen₁, hwritten, hw⟩ := populateEntity_spec (hc c List.mem_cons_self) hp hr k
      obtain ⟨p', k', hfold, h', hpre', hlen', hws⟩ := ih hcs h₁ (k + 1)
      refine ⟨p', k', ?_, h', hpre₁.trans hpre', ?_, ?_⟩
      · rw [hstep]; exact hfold
      · rw [hlen', hlen₁]; rfl
      · rw [hwritten, if_pos Option.isSome_some, slots, ← hlen₁]
        exact .cons (writes_prefix_eq hpre' hw) hws

end Metor.Proof.Visitor
