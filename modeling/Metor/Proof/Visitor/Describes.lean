import Metor.Proof.VTable.Room
import Metor.Proof.View
import Metor.Proof.Visitor.Layout

/-!
# The fields of a table

The field for a slot means the sample written there (`eval_slotField`). The
fields share no nodes and their leaves are words, so `builder::vtable` builds
them as they are (`dag_vtableFields`, `fits_vtableFields`).
-/

namespace Metor.Proof.Visitor

open Metor.Lib Metor.Impl.Proto Metor.Impl.Visitor Metor.Proof.VTable Metor.Proof.View
open Metor.Impl hiding Component

variable {s : Slot} {w : Written} {body : Bytes} {i : Nat}

/-! ## What a field means -/

theorem schemaOf_leaves {schema : ComponentSchema} (h : ∀ d ∈ schema.dim, d < 2 ^ 64) :
    schemaOf (.ok (some (leBytes 8 schema.primType.toNat))) (.ok (some (schema.dim.flatMap (leBytes 8)))) =
      .ok (schema.dim, schema.primType) := by
  have hlen := length_flatMap_leBytes schema.dim
  simp [schemaOf, primTypeOfBytes_leBytes, View.asU64s, words_flatMap h, hlen]

theorem componentOf_leaf {id : Nat} (h : id < 2 ^ 64) : componentOf (.ok (some (leBytes 8 id))) = .ok id := by
  simp [componentOf, leNat_leBytes (show id < 256 ^ 8 from h)]

theorem get_of_le {bs : Bytes} {a n : Nat} (h : a + n ≤ bs.length) :
    (View.mk 0 bs).get a (a + n) = some ⟨0 + a, slice bs a (a + n)⟩ :=
  if_pos ⟨by omega, h⟩

/-- The argument of a slot's field comes to the component, with the timestamp written in the slot. -/
theorem meaning_slotField (hw : Writes body s w) (hc : s.component.Valid) (hb : body.length < 2 ^ 32) (i : Nat) :
    (slotField s i).arg.meaning (some body) none none =
      .ok ⟨w.componentId, some w.timestamp, some (w.schema.dim, w.schema.primType)⟩ := by
  have hts : timestampOf ((OpBuilder.table (7 * i + 1) (asU32 s.timestampAt) 8).eval (some body)) = .ok (some w.timestamp) := by
    have hle := hw.timestamp_le
    rw [asU32_of_lt (by omega)]
    simp only [OpBuilder.eval, get_of_le hle, Eval.okOr_some, Eval.ok_bind, Eval.pure_eq, timestampOf,
      hw.timestamp_slice, readTimestamp, length_i64Bytes, if_true, i64OfBytes_i64Bytes hw.sample.i64]
  rw [slotField, OpBuilder.meaning, hts, Eval.ok_bind]
  simp only [Component.asVtableOp, OpBuilder.ofSchema, OpBuilder.ofComponent, OpBuilder.meaning, OpBuilder.eval,
    Eval.pure_eq, Eval.ok_bind, schemaOf_leaves hc.dim_lt, componentOf_leaf hc.id_lt, hw.componentId, hw.schema]

/-- The field for a slot gives the sample written there. -/
theorem eval_slotField (hw : Writes body s w) (hc : s.component.Valid) (hb : body.length < 2 ^ 32) (i : Nat) :
    (slotField s i).eval (some body) = .ok w.item := by
  have hle := hw.value_le
  have hs := hw.sample
  have hsize : w.schema.dim.prod * w.schema.primType.size = s.component.schema.size := by
    rw [ComponentSchema.size, ← hw.schema, Nat.mod_eq_of_lt hs.lt]
  have hoff : (slotField s i).offset = s.valueAt := asU32_of_lt (by omega)
  have hlen : (slotField s i).len = s.component.schema.size := asU32_of_lt (by omega)
  have hh : (slotField s i).Holds body w.schema.dim w.schema.primType w.schema.dim.prod := {
    product := hs.product
    size := hs.lt
    elems := by rw [hsize, hlen]
    range := by rw [hoff, hlen]; exact hle
    bool := fun hty => by rw [hsize, hoff, hw.value_slice]; exact hs.bool hty }
  rw [FieldBuilder.eval, meaning_slotField hw hc hb, Eval.ok_bind, item_of_holds rfl hh, hsize, hoff, hw.value_slice]
  rw [Written.item, hw.valueAt]

/-! ## Their nodes -/

theorem nodes_slotField (s : Slot) (i : Nat) : (slotField s i).arg.nodes.map OpBuilder.addr = List.range' (7 * i) 7 := by
  simp [slotField, OpBuilder.nodes, Component.asVtableOp, OpBuilder.ofSchema, OpBuilder.ofComponent, OpBuilder.addr,
    List.range'_succ, Nat.add_assoc]

/-- The field builders for slots, numbered from `n` on. -/
def slotFields (ss : List Slot) (n : Nat) : List FieldBuilder := (ss.zipIdx n).map fun (s, i) => slotField s i

theorem addrs_slotFields (ss : List Slot) (n : Nat) :
    (nodesOf (slotFields ss n)).map OpBuilder.addr = List.range' (7 * n) (7 * ss.length) := by
  induction ss generalizing n with
  | nil => rfl
  | cons s ss ih =>
    have h := ih (n + 1)
    simp only [slotFields, nodesOf, List.zipIdx_cons, List.map_cons, List.flatMap_cons, List.map_append] at h ⊢
    rw [h, nodes_slotField, List.length_cons, Nat.mul_add, Nat.mul_add, Nat.mul_one, Nat.add_comm (7 * ss.length)]
    exact List.range'_append_1

theorem mem_slotFields {ss : List Slot} {n : Nat} {f : FieldBuilder} (h : f ∈ slotFields ss n) :
    ∃ s ∈ ss, ∃ i, f = slotField s i := by
  obtain ⟨⟨s, i⟩, hs, rfl⟩ := List.mem_map.mp h
  have hmem := List.mem_map_of_mem (f := Prod.fst) hs
  rw [List.zipIdx_map_fst] at hmem
  exact ⟨s, hmem, i, rfl⟩

theorem slots_mod {offset : Nat} {cs : List Component} : ∀ s ∈ slots offset cs, s.timestampAt % 8 = 0 ∧
    s.valueAt % s.component.schema.primType.alignment = 0 := by
  induction cs generalizing offset with
  | nil => nofun
  | cons c cs ih =>
    intro s hs
    rcases List.mem_cons.mp hs with rfl | hs
    · exact ⟨roundUp_mod (by omega), roundUp_mod (alignment_pos _)⟩
    · exact ih s hs

theorem isWords_slotField {e : OpBuilder} (ht : s.timestampAt % 8 = 0) (h : e ∈ (slotField s i).arg.nodes) : IsWords e := by
  simp only [slotField, OpBuilder.nodes, Component.asVtableOp, OpBuilder.ofSchema, OpBuilder.ofComponent, List.mem_cons,
    List.mem_append, List.not_mem_nil, or_false] at h
  rcases h with rfl | rfl | rfl | (rfl | rfl) | rfl | rfl
  · trivial
  · exact (asU32_mod_eight _).trans ht
  · trivial
  · exact ⟨rfl, by rw [length_leBytes]⟩
  · exact ⟨rfl, by rw [length_flatMap_leBytes, Nat.mul_mod_right]⟩
  · trivial
  · exact ⟨rfl, by rw [length_leBytes]⟩

/-- The bytes of the leaves. -/
theorem leafData_slotFields (ss : List Slot) (n : Nat) :
    ((nodesOf (slotFields ss n)).map leafData).sum = leafBytes (ss.map Slot.component) := by
  induction ss generalizing n with
  | nil => rfl
  | cons s ss ih =>
    have h := ih (n + 1)
    simp only [slotFields, nodesOf, List.zipIdx_cons, List.map_cons, List.flatMap_cons, List.map_append, List.sum_append,
      leafBytes, List.sum_cons] at h ⊢
    rw [h]
    simp [slotField, OpBuilder.nodes, Component.asVtableOp, OpBuilder.ofSchema, OpBuilder.ofComponent, leafData]
    omega

theorem map_component_slots (offset : Nat) (cs : List Component) : (slots offset cs).map Slot.component = cs := by
  induction cs generalizing offset with
  | nil => rfl
  | cons c cs ih => rw [slots, List.map_cons, ih]; rfl

section
variable (components : List Component)

theorem vtableFields_eq_slotFields : vtableFields components = slotFields (slots 0 (listed components)) 0 :=
  vtableFields_eq components

theorem isWords_vtableFields : ∀ e ∈ nodesOf (vtableFields components), IsWords e := by
  intro e he
  rw [vtableFields_eq_slotFields] at he
  obtain ⟨f, hf, he⟩ := List.mem_flatMap.mp he
  obtain ⟨s, hs, i, rfl⟩ := mem_slotFields hf
  exact isWords_slotField (slots_mod s hs).1 he

/-- The fields share no node. -/
theorem dag_vtableFields : Dag (vtableFields components) where
  inj e he e' he' h := by
    rw [vtableFields_eq_slotFields] at he he'
    refine List.inj_on_of_nodup_map ?_ he he' h
    rw [addrs_slotFields]
    exact List.nodup_range'
  align addr align data h := by
    have := isWords_vtableFields components _ h
    simp only [IsWords] at this
    omega

theorem le_foldl_slotEnd (cs : List Component) (offset : Nat) : offset + 8 * cs.length ≤ cs.foldl slotEnd offset := by
  induction cs generalizing offset with
  | nil => exact Nat.le_refl _
  | cons c cs ih =>
    have h := ih (slotEnd offset c)
    have h₁ := le_roundUp offset 8
    have h₂ := le_roundUp (roundUp offset 8 + 8) c.schema.primType.alignment
    rw [List.foldl_cons, List.length_cons]
    rw [slotEnd] at h ⊢
    omega

/-- The vtable fits if the body and the leaves do. -/
theorem fits_vtableFields (hb : 4 + bodySize (listed components) < 2 ^ 32) (hl : leafBytes (listed components) < 2 ^ 32)
    (addr : Nat) : Fits (vtable components addr).ops (vtable components addr).data.bytes := by
  obtain ⟨_, hops, hdata⟩ := vtable_room (isWords_vtableFields components) addr
  have hn : (nodesOf (vtableFields components)).length = 7 * (listed components).length := by
    have h := congrArg List.length (addrs_slotFields (slots 0 (listed components)) 0)
    rw [List.length_map, List.length_range', length_slots] at h
    rw [vtableFields_eq_slotFields, h]
  have hle := le_foldl_slotEnd (listed components) 0
  rw [vtableFields_eq_slotFields, leafData_slotFields, map_component_slots, ← vtableFields_eq_slotFields] at hdata
  refine ⟨hops.trans ?_, hdata.trans_lt hl⟩
  simp only [bodySize] at hb
  omega

end

end Metor.Proof.Visitor

/-!
## When the vtable describes the table

The vtable lists the components that have a node, and `populate_table` writes
those in whose nodes it finds a sample; a node that has just been created has
none. Where every component listed has a sample to write, and the packet fits
its length, the two agree; otherwise they do not (`vtable_describes`).
-/

namespace Metor.Proof.Visitor

open Metor.Lib Metor.Impl.Proto Metor.Impl.Visitor Metor.Proof.VTable
open Metor.Impl hiding Component

variable {components : List Component} {t : Int} {body : Bytes}

theorem isSome_listed {c : Component} (h : (nearest c t).isSome) : (!c.timeSeries.isEmpty) = true := by
  obtain ⟨start, hs, _⟩ := nearest_isSome_iff.mp h
  cases e : c.timeSeries with
  | nil => rw [e] at hs; cases hs
  | cons n rest => rfl

theorem populated_eq_filter (components : List Component) :
    populated t components = (listed components).filter fun c => (nearest c t).isSome := by
  rw [populated, listed, List.filter_filter]
  refine List.filter_congr fun c _ => ?_
  cases h : (nearest c t).isSome with
  | false => rfl
  | true => rw [isSome_listed h]; rfl

theorem populated_eq_listed_iff : (populated t components).length = (listed components).length ↔
    ∀ c ∈ listed components, c.Sampled t := by
  rw [populated_eq_filter, List.length_filter_eq_length_iff]
  exact forall₂_congr fun c _ => nearest_isSome_iff

theorem populated_eq_listed (h : ∀ c ∈ listed components, c.Sampled t) : populated t components = listed components := by
  rw [populated_eq_filter, List.filter_eq_self]
  exact fun c hc => nearest_isSome_iff.mpr (h c hc)

/-- The fields for slots that were written at. -/
theorem map_slotFields {ss : List Slot} {ws : List Written} (h : List.Forall₂ (Writes body) ss ws)
    (hc : ∀ s ∈ ss, s.component.Valid) (hb : body.length < 2 ^ 32) (n : Nat) :
    (slotFields ss n).map placeOf = ws.map (fun w => some (w.timestampAt, w.valueAt)) ∧
    (slotFields ss n).map (·.eval (some body)) = ws.map fun w => .ok w.item := by
  induction h generalizing n with
  | nil => exact ⟨rfl, rfl⟩
  | @cons s w ss ws hw _ ih =>
    obtain ⟨ih₁, ih₂⟩ := ih (fun s hs => hc s (List.mem_cons_of_mem _ hs)) (n + 1)
    have h₁ := hw.timestamp_le
    have h₂ := hw.value_le
    have hplace : placeOf (slotField s n) = some (w.timestampAt, w.valueAt) := by
      rw [hw.timestampAt, hw.valueAt]
      simp only [placeOf, slotField, asU32_of_lt (show s.timestampAt < 2 ^ 32 by omega),
        asU32_of_lt (show s.valueAt < 2 ^ 32 by omega)]
    have heval := eval_slotField hw (hc s List.mem_cons_self) hb n
    simp only [slotFields, List.zipIdx_cons, List.map_cons] at ih₁ ih₂ ⊢
    exact ⟨by rw [ih₁, hplace], by rw [ih₂, heval]⟩

theorem add_mod_alignment (ty : PrimType) {m n : Nat} (hm : m % 8 = 0) (hn : n % ty.alignment = 0) :
    (m + n) % ty.alignment = 0 := by
  cases ty <;> simp only [PrimType.alignment, PrimType.size] at hn ⊢ <;> omega

theorem aligned_vtable {ws : List Written} (h : List.Forall₂ (Writes body) (slots 0 (listed components)) ws)
    (hc : ∀ s ∈ slots 0 (listed components), s.component.Valid) (hb : body.length < 2 ^ 32) {dataAddr addr : Nat}
    (hd : dataAddr % 8 = 0)
    (ha : addr % 8 = 0) : Aligned (vtable components dataAddr) (some ⟨addr, body⟩) (vtableFields components) := by
  obtain ⟨hops, _⟩ := vtable_room (isWords_vtableFields components) dataAddr
  refine ⟨fun ty dim arg offset len _ hdim => ?_, ?_, ?_⟩
  · have := hops _ (List.mem_of_getElem? hdim)
    simp only [offsetOf] at this
    show (dataAddr + offset) % 8 = 0
    omega
  · rintro t ⟨⟩ ty dim arg offset len _ hdim
    have := hops _ (List.mem_of_getElem? hdim)
    simp only [offsetOf] at this
    show (addr + offset) % 8 = 0
    omega
  · rintro t ⟨⟩ f hf m hm dim ty hty
    rw [vtableFields_eq_slotFields] at hf
    obtain ⟨s, hs, i, rfl⟩ := mem_slotFields hf
    obtain ⟨w, _, hw⟩ := exists_of_forall₂ h hs
    have hval := (slots_mod s hs).2
    have hle := hw.value_le
    rw [Option.map_some, meaning_slotField hw (hc s hs) hb i] at hm
    cases hm
    cases hty
    have hoff : (slotField s i).offset = s.valueAt := asU32_of_lt (by omega)
    rw [hoff, hw.schema]
    exact add_mod_alignment _ ha hval

section
variable {table : LenPacket}

theorem describes_of_sampled (hc : ∀ c ∈ components, c.Valid) (hs : Impl.Visitor.Sampled components t)
    (hl : leafBytes (listed components) < 2 ^ 32) : Describes components t table := by
  obtain ⟨hcount, hempty⟩ := clear_spec table
  obtain ⟨p', k', hfold, hp', -, hlen, hw⟩ := populate_spec (t := t) hc hcount 0
  rw [hempty, List.length_nil, populated_eq_listed hs.sampled] at hlen hw
  have hsize : 4 + (content p').length < 2 ^ 32 := by rw [hlen]; exact hs.size
  have hvalid : ∀ s ∈ slots 0 (listed components), s.component.Valid := by
    intro s hs
    have hmem := List.mem_map_of_mem (f := Slot.component) hs
    rw [map_component_slots] at hmem
    exact hc _ (List.mem_of_mem_filter hmem)
  obtain ⟨hplace, heval⟩ := map_slotFields hw hvalid (by omega) 0
  rw [← vtableFields_eq_slotFields] at hplace heval
  refine ⟨p', content p', by rw [populateTable, hfold]; rfl, (body_eq_some hp').mpr ⟨rfl, hsize⟩, hplace, ?_⟩
  intro dataAddr addr hd ha
  obtain ⟨fuel, h⟩ := items_eq (dag_vtableFields components) (fits_vtableFields components hs.size hl dataAddr)
    (aligned_vtable hw hvalid (by omega) hd ha)
  exact ⟨fuel, fun fuel' hf => (h fuel' hf).trans heval⟩

/-- As many fields as samples: every component listed was written. -/
theorem sampled_of_describes (hc : ∀ c ∈ components, c.Valid) (h : Describes components t table) :
    Impl.Visitor.Sampled components t := by
  obtain ⟨hcount, hempty⟩ := clear_spec table
  obtain ⟨p', k', hfold, hp', -, hlen, hw⟩ := populate_spec (t := t) hc hcount 0
  obtain ⟨populated, body, hpop, hbody, hplace, _⟩ := h
  rw [populateTable, hfold] at hpop
  cases hpop
  have hn := congrArg List.length hplace
  rw [List.length_map, List.length_map, ← hw.length_eq, vtableFields_eq_slotFields, slotFields, List.length_map,
    List.length_zipIdx, length_slots, length_slots] at hn
  have hs := populated_eq_listed_iff.mp hn.symm
  rw [hempty, List.length_nil, populated_eq_listed hs] at hlen
  refine ⟨hs, ?_⟩
  rw [bodySize, ← hlen]
  exact ((body_eq_some hp').mp hbody).2

end

/-- The vtable describes the table just when every component it lists has a sample to write and the packet fits its
length; the data of the vtable must fit as well. -/
theorem vtable_describes (hc : ∀ c ∈ components, c.Valid) (t : Int) (table : LenPacket) :
    (Impl.Visitor.Sampled components t ∧ leafBytes (listed components) < 2 ^ 32 → Describes components t table) ∧
    (Describes components t table → Impl.Visitor.Sampled components t) :=
  ⟨fun ⟨hs, hl⟩ => describes_of_sampled hc hs hl, sampled_of_describes hc⟩

/-! ## One component with a sample, and one without -/

theorem isValue_bytes (value : Bytes) (h : value.length < 2 ^ 64) : IsValue ⟨.u8, [value.length]⟩ value := by
  refine ⟨⟨0, value⟩, ⟨.u8, [value.length], value⟩, ?_, rfl⟩
  have hp : checkedProduct [value.length] = .ok value.length := by
    simp only [checkedProduct, List.foldlM_cons, List.foldlM_nil, Nat.one_mul, if_pos h, Eval.ok_bind, Eval.pure_eq]
  simp only [ComponentView.tryFromBytesShape, hp, Eval.ok_bind, PrimType.size, PrimType.alignment, Nat.mul_one]
  rw [if_neg (by omega), if_neg (by simp), if_neg (by omega), List.take_length, if_neg (by simp)]

/-- A component of bytes, its first node just created. -/
def created (id : Nat) (t : Int) (value : Bytes) : Component :=
  ⟨id, ⟨.u8, [value.length]⟩, [.new (toString t) t value.length]⟩

/-- A component of bytes with its first sample. -/
def pushed (id : Nat) (t : Int) (value : Bytes) : Component :=
  ⟨id, ⟨.u8, [value.length]⟩, (TimeSeries.tryPushBuf [.new (toString t) t value.length] t value).2⟩

theorem valid_created {id : Nat} {t : Int} {value : Bytes} (hid : id < 2 ^ 64) (h : value.length < 2 ^ 64) :
    (created id t value).Valid :=
  ⟨hid, by simpa [created] using h, .createNode .create (isValue_bytes value h) rfl⟩

theorem valid_pushed {id : Nat} {t : Int} {value : Bytes} (hid : id < 2 ^ 64) (ht : IsI64 t) (h : value.length < 2 ^ 64) :
    (pushed id t value).Valid :=
  ⟨hid, by simpa [pushed] using h, .push (valid_created hid h).series ht (isValue_bytes value h)⟩

theorem sampled_of_single {c : Component} {n : TimeSeriesNode} {start u : Int} (h : c.timeSeries = [n])
    (hn : n.timestamps = [start]) : c.Sampled u := by
  refine ⟨start, by simp [TimeSeries.startTimestamp, h, hn], fun k hk he => ?_⟩
  simp only [h, List.length_singleton, Nat.lt_one_iff] at hk
  subst hk
  simp [h, hn] at he

theorem vtable_describes_two : Describes [pushed 5 1000 [1, 2, 3], pushed 6 900 [4]] 950 (.table (0, 1)) := by
  have hc : ∀ c ∈ [pushed 5 1000 [1, 2, 3], pushed 6 900 [4]], c.Valid := by
    simp only [List.forall_mem_cons, List.not_mem_nil, false_imp_iff, implies_true, and_true]
    exact ⟨valid_pushed (by decide) (by decide) (by decide), valid_pushed (by decide) (by decide) (by decide)⟩
  refine (vtable_describes hc 950 (.table (0, 1))).1 ⟨⟨?_, by decide⟩, by decide⟩
  show ∀ c ∈ [pushed 5 1000 [1, 2, 3], pushed 6 900 [4]], c.Sampled 950
  simp only [List.forall_mem_cons, List.not_mem_nil, false_imp_iff, implies_true, and_true]
  exact ⟨sampled_of_single rfl rfl, sampled_of_single rfl rfl⟩

/-- A table sent before the first sample of a new component is pushed. -/
theorem created_not_described : ¬ ∀ (components : List Component) (t : Int) (table : LenPacket),
    (∀ c ∈ components, c.Valid) → Describes components t table := by
  intro h
  have hc : ∀ c ∈ [created 5 1000 [7]], c.Valid :=
    List.forall_mem_singleton.mpr (valid_created (by decide) (by decide))
  obtain ⟨start, hs, _⟩ := (sampled_of_describes hc (h _ 1000 (.table (0, 1)) hc)).sampled _ List.mem_cons_self
  cases hs

end Metor.Proof.Visitor
