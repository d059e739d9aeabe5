import Mathlib.Data.List.GetD
import Metor.Proof.TimeSeries.Range
import Metor.Spec.Arrow

/-!
# The batch of a node

The two columns of a batch are what the crate makes of the maps of a node
(`timeColumn`, `dataColumn`); row by row they are the samples of the node just
when its lists fit and its `bool` bytes are their own bits (`batch_iff`).
-/

namespace Metor.Proof.Arrow

open Metor.Lib Metor.Impl Metor.Impl.Proto Metor.Impl.Arrow
open Metor.Proof.TimeSeries (length_samples)

section
variable {A B : Type} {arrow : Impl.Arrow A B} {node : TimeSeriesNode} {name : String} {schema : ComponentSchema}

/-! ## Buffers and arrays -/

theorem asArrowBufferRange_full (data : Bytes) (elementSize : Nat) :
    asArrowBufferRange data .full elementSize = data := by
  simp only [asArrowBufferRange, RangeBounds.full, Nat.zero_min, Nat.min_self, Nat.sub_zero, Nat.zero_add]
  exact slice_full data (Nat.le_refl _)

theorem timeColumn (h : arrow.Lawful) (node : TimeSeriesNode) : ∃ times,
    arrow.asTimeSeriesArrayRange node .full = some times ∧ arrow.len times = node.timestamps.length ∧
      ∀ i (hi : i < node.timestamps.length), arrow.value times i = [.native (i64Bytes node.timestamps[i])] := by
  have h8 : ∀ t ∈ node.timestamps, (i64Bytes t).length = 8 := fun t _ => length_i64Bytes t
  have hlen := length_flatMap_of_forall h8
  have hn : node.timestamps.length * 8 / 8 = node.timestamps.length := Nat.mul_div_cancel _ (by decide)
  obtain ⟨times, ha, hl, hv⟩ := h.primitive 8 (node.timestamps.flatMap i64Bytes) node.timestamps.length (Nat.le_of_eq hlen.symm)
  refine ⟨times, ?_, hl, fun i hi => ?_⟩
  · rw [asTimeSeriesArrayRange, asArrowBufferRange_full, hlen, hn, ha]
  · rw [hv i hi, slice_flatMap h8 hi]

/-- Element `k` of the array over the data. -/
def element (ty : PrimType) (data : Bytes) (k : Nat) : Scalar :=
  if ty = .bool then .bool (bit data k) else .native (slice data (k * ty.size) ((k + 1) * ty.size))

theorem nodeArrayRef_spec (h : arrow.Lawful) {ty : PrimType} (hty : ty ≠ .bool) (node : TimeSeriesNode) (elementSize : Nat) :
    ∃ a, arrow.nodeArrayRef ty.size node .full elementSize = some a ∧ arrow.len a = node.data.data.length / ty.size ∧
      ∀ k < node.data.data.length / ty.size, arrow.value a k = [element ty node.data.data k] := by
  have := h.primitive ty.size node.data.data (node.data.data.length / ty.size) (Nat.div_mul_le_self _ _)
  simpa only [nodeArrayRef, asArrowBufferRange_full, element, if_neg hty] using this

theorem nodeBoolRef_spec (h : arrow.Lawful) (node : TimeSeriesNode) (elementSize : Nat) :
    ∃ a, arrow.nodeBoolRef node .full elementSize = some a ∧ arrow.len a = node.data.data.length / PrimType.bool.size ∧
      ∀ k < node.data.data.length / PrimType.bool.size, arrow.value a k = [element .bool node.data.data k] := by
  have := h.boolean node.data.data node.data.data.length (by omega)
  simpa only [nodeBoolRef, asArrowBufferRange_full, element, if_pos, PrimType.size, Nat.div_one] using this

/-- The array over the data, which is the column of a component without dimensions. -/
theorem asDataArrayRange_eq (h : arrow.Lawful) (node : TimeSeriesNode) (name : String) (schema : ComponentSchema) :
    ∃ a, arrow.len a = node.data.data.length / schema.primType.size ∧
      (∀ k < node.data.data.length / schema.primType.size, arrow.value a k = [element schema.primType node.data.data k]) ∧
      arrow.asDataArrayRange node name .full schema =
        if schema.dim = [] then some (name, a) else (arrow.fixedSizeList (listSize schema) a).map (name, ·) := by
  have he {a : A} (f : Option A) (hf : f = some a) : (f.bind fun array =>
      if schema.dim = [] then some (name, array) else (arrow.fixedSizeList (listSize schema) array).map (name, ·)) =
        if schema.dim = [] then some (name, a) else (arrow.fixedSizeList (listSize schema) a).map (name, ·) := by
    rw [hf]; rfl
  have hdef : arrow.asDataArrayRange node name .full schema = Option.bind
      (if schema.primType = .bool then arrow.nodeBoolRef node .full node.elementSize
        else arrow.nodeArrayRef schema.primType.size node .full node.elementSize) fun array =>
      if schema.dim = [] then some (name, array) else (arrow.fixedSizeList (listSize schema) array).map (name, ·) := by
    unfold asDataArrayRange
    simp only [Option.bind_eq_bind, Option.pure_def, Option.map_eq_bind, Function.comp_def]
    cases schema.primType <;> rfl
  by_cases hb : schema.primType = .bool
  · obtain ⟨a, ha, hl, hv⟩ := nodeBoolRef_spec h node node.elementSize
    refine ⟨a, hb ▸ hl, hb ▸ hv, ?_⟩
    rw [hdef, if_pos hb, he _ ha]
  · obtain ⟨a, ha, hl, hv⟩ := nodeArrayRef_spec h hb node node.elementSize
    refine ⟨a, hl, hv, ?_⟩
    rw [hdef, if_neg hb, he _ ha]

/-! ## The column of values -/

/-- The number of elements in a row. -/
def width (schema : ComponentSchema) : Nat := if schema.dim = [] then 1 else schema.dim.prod % 2 ^ 32

/-- The product of the dimensions is not negative as an `i32`. -/
def Fits (schema : ComponentSchema) : Prop := schema.dim ≠ [] → schema.dim.prod % 2 ^ 32 < 2 ^ 31

theorem listSize_of_lt {schema : ComponentSchema} (h : schema.dim.prod % 2 ^ 32 < 2 ^ 31) :
    listSize schema = Int.ofNat (schema.dim.prod % 2 ^ 32) := by
  rw [listSize, asI32, Nat.mod_mod_of_dvd _ (by decide : 2 ^ 32 ∣ 2 ^ 64), if_pos h]
  show _ = ((schema.dim.prod % 2 ^ 32 : Nat) : Int)
  omega

theorem listSize_of_le {schema : ComponentSchema} (h : 2 ^ 31 ≤ schema.dim.prod % 2 ^ 32) : listSize schema < 0 := by
  rw [listSize, asI32, Nat.mod_mod_of_dvd _ (by decide : 2 ^ 32 ∣ 2 ^ 64), if_neg (Nat.not_lt.mpr h)]
  have := Nat.mod_lt schema.dim.prod (show 2 ^ 32 > 0 by decide)
  omega

theorem dataColumn_none (h : arrow.Lawful) (node : TimeSeriesNode) (name : String) (hf : ¬ Fits schema) :
    arrow.asDataArrayRange node name .full schema = none := by
  obtain ⟨hd, hf⟩ := Classical.not_imp.mp hf
  obtain ⟨a, -, -, e⟩ := asDataArrayRange_eq h node name schema
  rw [e, if_neg hd, h.negative _ (listSize_of_le (Nat.le_of_not_lt hf)), Option.map_none]

theorem dataColumn (h : arrow.Lawful) (node : TimeSeriesNode) (name : String) (hf : Fits schema) : ∃ values,
    arrow.asDataArrayRange node name .full schema = some (name, values) ∧
      (0 < width schema → arrow.len values = node.data.data.length / schema.primType.size / width schema) ∧
      (node.data.data = [] → arrow.len values = 0) ∧
      ∀ i < arrow.len values, arrow.value values i =
        (List.range (width schema)).map fun j => element schema.primType node.data.data (i * width schema + j) := by
  obtain ⟨a, hl, hv, e⟩ := asDataArrayRange_eq h node name schema
  by_cases hd : schema.dim = []
  · have hw : width schema = 1 := if_pos hd
    refine ⟨a, by rw [e, if_pos hd], fun _ => by rw [hl, hw, Nat.div_one], fun h0 => ?_, fun i hi => ?_⟩
    · rw [hl, h0, List.length_nil, Nat.zero_div]
    · rw [hv i (hl ▸ hi), hw, Nat.mul_one]; rfl
  · have hw : width schema = schema.dim.prod % 2 ^ 32 := if_neg hd
    have hlt := hf hd
    obtain ⟨l, hlist, hlen, h0, hrow⟩ := h.fixedSizeList _ hlt a
    rw [← hw] at hlen hrow
    refine ⟨l, by rw [e, if_neg hd, listSize_of_lt hlt, hlist, Option.map_some], fun hc => by rw [hlen hc, hl],
      fun hn => h0 (by rw [hl, hn, List.length_nil, Nat.zero_div]), fun i hi => ?_⟩
    rw [hrow i hi, List.map_eq_flatMap]
    refine List.flatMap_congr fun j hj => hv _ ?_
    have hj := List.mem_range.mp hj
    rw [hlen (Nat.zero_lt_of_lt hj), hl] at hi
    calc i * width schema + j < i * width schema + width schema := Nat.add_lt_add_left hj _
      _ = (i + 1) * width schema := (Nat.succ_mul _ _).symm
      _ ≤ node.data.data.length / schema.primType.size := (Nat.le_div_iff_mul_le (Nat.zero_lt_of_lt hj)).mp hi

/-! ## The batch -/

/-- The row of the batch for timestamp `i`. -/
def batchRow (schema : ComponentSchema) (node : TimeSeriesNode) (i : Nat) : Row :=
  [[.native (i64Bytes (node.timestamps.getD i 0))],
    (List.range (width schema)).map fun j => element schema.primType node.data.data (i * width schema + j)]

theorem asRecordBatch_none (h : arrow.Lawful) (node : TimeSeriesNode) (name : String) (hf : ¬ Fits schema) :
    arrow.asRecordBatch node name schema = none := by
  rw [asRecordBatch, asRecordBatchRange, dataColumn_none h node name hf]
  rfl

/-- The batch: as many rows as there are timestamps, if the lists have elements. -/
theorem asRecordBatch_some (h : arrow.Lawful) (node : TimeSeriesNode) (name : String) (hf : Fits schema) :
    ∃ b m, arrow.asRecordBatch node name schema = some b ∧
      arrow.rows b = (List.range (min m node.timestamps.length)).map (batchRow schema node) ∧
      (0 < width schema → m = node.data.data.length / schema.primType.size / width schema) ∧
      (node.data.data = [] → m = 0) := by
  obtain ⟨values, hvalues, hlen, h0, hvalue⟩ := dataColumn h node name hf
  obtain ⟨times, htimes, hn, htime⟩ := timeColumn h node
  generalize hm : min (arrow.len values) (arrow.len times) = m
  obtain ⟨ts, hts, hlts, hvts⟩ := h.slice times 0 m (by omega)
  obtain ⟨vs, hvs, hlvs, hvvs⟩ := h.slice values 0 m (by omega)
  obtain ⟨b, hb, hrows, hcols⟩ := h.tryNew [("time", ts), (name, vs)] m (List.cons_ne_nil _ _) (by simp [hlts, hlvs])
  refine ⟨b, arrow.len values, ?_, ?_, hlen, h0⟩
  · simp only [asRecordBatch, asRecordBatchRange, hvalues, htimes, Option.bind_eq_bind, Option.bind_some, hm, hts, hvs, hb]
  · rw [Impl.Arrow.rows, hrows, hcols, ← hn, hm]
    refine List.map_congr_left fun i hi => ?_
    have hi := List.mem_range.mp hi
    have hi' : i < node.timestamps.length := by omega
    show [arrow.value ts i, arrow.value vs i] = _
    rw [hvts i hi, hvvs i hi, Nat.zero_add, htime i hi', hvalue i (by omega), batchRow, List.getD_eq_getElem _ _ hi']

/-! ## The samples -/

theorem size_dvd_size (schema : ComponentSchema) : schema.primType.size ∣ schema.size := by
  have h : schema.primType.size ∣ 2 ^ 64 := by cases schema.primType <;> decide
  exact (Nat.dvd_mod_iff h).mpr (Nat.dvd_mul_left _ _)

theorem primType_size_pos (ty : PrimType) : 0 < ty.size := by cases ty <;> decide

/-- The elements of element `i` of the data. -/
theorem elementsOf_slice {ty : PrimType} {data : Bytes} {c i : Nat} (h : (i + 1) * (c * ty.size) ≤ data.length) :
    elementsOf ty (slice data (i * (c * ty.size)) ((i + 1) * (c * ty.size))) =
      (List.range c).map fun j => stored ty data (i * c + j) := by
  have hn : (i + 1) * (c * ty.size) - i * (c * ty.size) = c * ty.size := by rw [Nat.succ_mul]; omega
  rw [elementsOf, length_slice h, hn, Nat.mul_div_cancel _ (primType_size_pos ty)]
  refine List.map_congr_left fun j hj => ?_
  have hj := List.mem_range.mp hj
  have e (k : Nat) : i * (c * ty.size) + k * ty.size = (i * c + k) * ty.size := by rw [Nat.add_mul, Nat.mul_assoc]
  have hk : (i * c + (j + 1)) * ty.size ≤ (i + 1) * (c * ty.size) := by
    rw [← Nat.mul_assoc, Nat.succ_mul]
    exact Nat.mul_le_mul_right _ (by omega)
  by_cases hb : ty = .bool
  · subst hb
    simp only [PrimType.size, Nat.mul_one] at hk ⊢
    rw [stored, stored, if_pos rfl, if_pos rfl, List.getD_eq_getElem?_getD, List.getD_eq_getElem?_getD, getElem?_slice,
      if_pos (by omega)]
  · rw [stored, stored, if_neg hb, if_neg hb, slice_slice, e, e, Nat.min_eq_left hk, Nat.add_assoc]

/-- The row that sample `i` should have. -/
def sampleRow (schema : ComponentSchema) (node : TimeSeriesNode) (i : Nat) : Row :=
  [[.native (i64Bytes (node.timestamps.getD i 0))],
    (List.range (schema.size / schema.primType.size)).map fun j =>
      stored schema.primType node.data.data (i * (schema.size / schema.primType.size) + j)]

theorem map_rowOf_samples (hn : Holds schema node) : node.samples.map (rowOf schema.primType) =
    (List.range node.timestamps.length).map (sampleRow schema node) := by
  obtain ⟨rest, hdata⟩ := hn.data
  have hsize : schema.size / schema.primType.size * schema.primType.size = schema.size :=
    Nat.div_mul_cancel (size_dvd_size schema)
  refine List.ext_getElem (by rw [List.length_map, List.length_map, length_samples, List.length_range]) fun i h₁ h₂ => ?_
  have hi : i < node.timestamps.length := by rwa [List.length_map, List.length_range] at h₂
  have hle : (i + 1) * schema.size ≤ node.data.data.length := by
    rw [hdata]
    exact Nat.mul_le_mul_right _ (by omega)
  have he := @elementsOf_slice schema.primType node.data.data (schema.size / schema.primType.size) i
  rw [hsize] at he
  simp only [List.getElem_map, List.getElem_range, TimeSeriesNode.samples, samplesOf, List.getElem_zip, Impl.elements, rowOf,
    hn.elementSize, he hle, sampleRow, List.getD_eq_getElem _ _ hi]

theorem map_range_eq_iff {α : Type} {f g : Nat → α} {m n : Nat} :
    (List.range m).map f = (List.range n).map g ↔ m = n ∧ ∀ i < n, f i = g i := by
  constructor
  · intro h
    have hl : m = n := by simpa using congrArg List.length h
    subst hl
    exact ⟨rfl, fun i hi => List.map_inj_left.mp h i (List.mem_range.mpr hi)⟩
  · rintro ⟨rfl, h⟩
    exact List.map_congr_left fun i hi => h i (List.mem_range.mp hi)

/-! ## Rows and samples -/

theorem element_eq_stored_iff {ty : PrimType} {data : Bytes} {k : Nat} :
    element ty data k = stored ty data k ↔ (ty = .bool → bit data k = (data.getD k 0 != 0)) := by
  by_cases hb : ty = .bool
  · rw [element, stored, if_pos hb, if_pos hb, Scalar.bool.injEq, forall_prop_of_true hb]
  · rw [element, stored, if_neg hb, if_neg hb]
    exact ⟨fun _ h => absurd h hb, fun _ => rfl⟩

theorem batchRow_eq_iff {i : Nat} : batchRow schema node i = sampleRow schema node i ↔
    width schema = schema.size / schema.primType.size ∧ ∀ j < width schema, schema.primType = .bool →
      bit node.data.data (i * width schema + j) = (node.data.data.getD (i * width schema + j) 0 != 0) := by
  simp only [batchRow, sampleRow, List.cons.injEq, true_and, and_true, map_range_eq_iff]
  refine and_congr_right fun hw => ?_
  rw [← hw]
  exact forall₂_congr fun j _ => element_eq_stored_iff

/-- A row has as many elements as a value. -/
theorem width_mul_size (hs : node.timestamps ≠ []) (hl : schema.dim ≠ [] → ListsFit schema node) :
    0 < width schema ∧ width schema * schema.primType.size = schema.size := by
  unfold width
  by_cases hd : schema.dim = []
  · have hlt : schema.primType.size < 2 ^ 64 := by cases schema.primType <;> decide
    rw [if_pos hd, ComponentSchema.size, hd, List.prod_nil, Nat.one_mul, Nat.mod_eq_of_lt hlt]
    exact ⟨Nat.one_pos, rfl⟩
  · rw [if_neg hd]
    exact (hl hd).2 hs

/-- What the batch of a node needs to have the rows of its samples. -/
def NodeExportable (schema : ComponentSchema) (node : TimeSeriesNode) : Prop :=
  (schema.dim ≠ [] → ListsFit schema node) ∧
    (schema.primType = .bool → Packed node.data.data (node.timestamps.length * schema.size))

/-- Every row is right, and none is missing. -/
theorem rows_of_exportable (hn : Holds schema node) {m : Nat}
    (hm : 0 < width schema → m = node.data.data.length / schema.primType.size / width schema)
    (hx : NodeExportable schema node) :
    (List.range (min m node.timestamps.length)).map (batchRow schema node) =
      (List.range node.timestamps.length).map (sampleRow schema node) := by
  by_cases hs : node.timestamps = []
  · rw [hs, List.length_nil, Nat.min_zero]
    rfl
  obtain ⟨hpos, hw⟩ := width_mul_size hs hx.1
  have hsize := primType_size_pos schema.primType
  obtain ⟨rest, hdata⟩ := hn.data
  have hrows : m = node.timestamps.length + rest := by
    rw [hm hpos, hdata, ← hw, ← Nat.mul_assoc, Nat.mul_div_cancel _ hsize, Nat.mul_div_cancel _ hpos]
  refine map_range_eq_iff.mpr ⟨Nat.min_eq_right (by omega), fun i hi => batchRow_eq_iff.mpr ⟨?_, fun j hj hb => ?_⟩⟩
  · rw [← hw, Nat.mul_div_cancel _ hsize]
  · have hwb : width schema = schema.size := by rwa [hb, PrimType.size, Nat.mul_one] at hw
    refine hx.2 hb _ ?_
    calc i * width schema + j < i * width schema + width schema := Nat.add_lt_add_left hj _
      _ = (i + 1) * schema.size := by rw [hwb, Nat.succ_mul]
      _ ≤ node.timestamps.length * schema.size := Nat.mul_le_mul_right _ hi

theorem exportable_of_rows (hn : Holds schema node) (hf : Fits schema) {m : Nat} (h0 : node.data.data = [] → m = 0)
    (h : (List.range (min m node.timestamps.length)).map (batchRow schema node) =
      (List.range node.timestamps.length).map (sampleRow schema node)) : NodeExportable schema node := by
  obtain ⟨hmin, hrow⟩ := map_range_eq_iff.mp h
  obtain ⟨rest, hdata⟩ := hn.data
  have hw (hs : node.timestamps ≠ []) : 0 < width schema ∧ width schema * schema.primType.size = schema.size := by
    have hlen := List.length_pos_of_ne_nil hs
    have hwidth := (batchRow_eq_iff.mp (hrow 0 hlen)).1
    refine ⟨Nat.pos_of_ne_zero fun h => ?_, by rw [hwidth, Nat.div_mul_cancel (size_dvd_size schema)]⟩
    -- Values without bytes: the array is empty, and the column of lists with it.
    have hsize : schema.size = 0 := by
      rw [← Nat.div_mul_cancel (size_dvd_size schema), ← hwidth, h, Nat.zero_mul]
    have hnil : node.data.data = [] := List.length_eq_zero_iff.mp (by rw [hdata, hsize, Nat.mul_zero])
    have := h0 hnil
    omega
  refine ⟨fun hd => ⟨hf hd, fun hs => ?_⟩, fun hb k hk => ?_⟩
  · have := hw hs
    rwa [width, if_neg hd] at this
  · have hs : node.timestamps ≠ [] := fun hs => by rw [hs, List.length_nil, Nat.zero_mul] at hk; omega
    obtain ⟨hpos, hwb⟩ := hw hs
    rw [hb, PrimType.size, Nat.mul_one] at hwb
    have hi : k / width schema < node.timestamps.length := Nat.div_lt_of_lt_mul (by rwa [hwb, Nat.mul_comm])
    have := (batchRow_eq_iff.mp (hrow _ hi)).2 _ (Nat.mod_lt k hpos) hb
    rwa [Nat.div_add_mod'] at this

/-- A batch has no more rows than its node has samples. -/
theorem length_rows_le (h : arrow.Lawful) (node : TimeSeriesNode) {b : B}
    (hb : arrow.asRecordBatch node name schema = some b) : (arrow.rows b).length ≤ node.samples.length := by
  by_cases hf : Fits schema
  · obtain ⟨b', m, hb', hrows, -⟩ := asRecordBatch_some h node name hf
    rw [hb, Option.some.injEq] at hb'
    rw [hb', hrows, List.length_map, List.length_range, length_samples]
    exact Nat.min_le_right _ _
  · rw [asRecordBatch_none h node name hf] at hb
    cases hb

/-- The batch of a node has the rows of its samples just when the node is exportable. -/
theorem batch_iff (h : arrow.Lawful) (hn : Holds schema node) (name : String) :
    (∃ b, arrow.asRecordBatch node name schema = some b ∧ arrow.rows b = node.samples.map (rowOf schema.primType)) ↔
      NodeExportable schema node := by
  by_cases hf : Fits schema
  · obtain ⟨b, m, hb, hrows, hm, h0⟩ := asRecordBatch_some h node name hf
    simp only [hb, Option.some.injEq, exists_eq_left', hrows, map_rowOf_samples hn]
    exact ⟨exportable_of_rows hn hf h0, rows_of_exportable hn hm⟩
  · simp only [asRecordBatch_none h node name hf, reduceCtorEq, false_and, exists_false, false_iff]
    exact fun hx => hf fun hd => (hx.1 hd).1

end

end Metor.Proof.Arrow
