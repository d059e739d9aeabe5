import Metor.Lib.Run
import Metor.Proof.Arrow.Batch
import Metor.Proof.Component.Order
import Metor.Proof.TimeSeries.Reopen
import Metor.Spec.Arrow

/-!
# What pushes leave in the nodes

Whatever connections push to a component, its nodes hold an element of the
schema's size for each timestamp (`run_holds`).
-/

namespace Metor.Proof.Arrow

open Metor.Lib Metor.Impl Metor.Impl.Arrow
open Metor.Proof.Component (parseLoop_nil parseLoop_record)
open Metor.Proof.TimeSeries (write_ok)

section
variable {schema : ComponentSchema} {t : Int} {buf : Bytes}

/-- A try leaves at most a further element, or one with its timestamp. -/
theorem holds_tryPushBuf {list list' : TimeSeries} (h : ∀ node ∈ list, Holds schema node) (ht : IsI64 t)
    (hb : buf.length = schema.size) {res : Except Error Bool} (e : list.tryPushBuf t buf = (res, list')) :
    ∀ node ∈ list', Holds schema node := by
  cases list with
  | nil => cases e; exact h
  | cons head prev =>
    obtain ⟨hhead, hprev⟩ := List.forall_mem_cons.mp h
    obtain ⟨rest, hdata⟩ := hhead.data
    simp only [TimeSeries.tryPushBuf] at e
    split at e
    · cases e; exact h
    · cases e; exact h
    · next data hd =>
      obtain rfl := write_ok hd
      have hlen : (head.data.data ++ buf).length = (head.timestamps.length + (rest + 1)) * schema.size := by
        rw [List.length_append, hdata, hb, ← Nat.add_assoc, Nat.succ_mul]
      split at e
      · cases e
        exact List.forall_mem_cons.mpr ⟨⟨hhead.elementSize, ⟨rest + 1, hlen⟩, hhead.timestamps⟩, hprev⟩
      · next index hx =>
        cases e
        obtain rfl := write_ok hx
        refine List.forall_mem_cons.mpr ⟨⟨hhead.elementSize, ⟨rest, ?_⟩, fun u hu => ?_⟩, hprev⟩
        · show (head.data.data ++ buf).length = ((head.timestamps ++ [t]).length + rest) * schema.size
          rw [hlen, List.length_append, List.length_singleton, Nat.add_assoc, Nat.add_comm rest 1]
        · rcases List.mem_append.mp hu with hu | hu
          · exact hhead.timestamps u hu
          · rw [List.mem_singleton.mp hu]; exact ht

theorem holds_pushBuf {list : TimeSeries} (h : ∀ node ∈ list, Holds schema node) (ht : IsI64 t)
    (hb : buf.length = schema.size) : ∀ node ∈ (list.pushBuf t buf).2, Holds schema node := by
  fun_induction TimeSeries.pushBuf list t buf with
  | case1 list e list' he => exact holds_tryPushBuf h ht hb he
  | case2 list list' he => exact holds_tryPushBuf h ht hb he
  | case3 list list' he e hc => exact h
  | case4 list list' he node hc ih =>
    refine ih (List.forall_mem_cons.mpr ⟨?_, h⟩)
    simp only [TimeSeries.createNode] at hc
    split at hc
    · cases hc
    · cases hc
      exact ⟨hb, ⟨0, (Nat.zero_mul _).symm⟩, fun _ hu => absurd hu List.not_mem_nil⟩

theorem holds_parseLoop {recs : List (Int × Bytes)} {list : TimeSeries} (h : ∀ node ∈ list, Holds schema node)
    (hrecs : ∀ p ∈ recs, IsI64 p.1 ∧ p.2.length = schema.size) :
    ∀ node ∈ parseLoop schema.size (recs.map fun p => record p.1 p.2).flatten list, Holds schema node := by
  induction recs generalizing list with
  | nil => rw [List.map_nil, List.flatten_nil, parseLoop_nil]; exact h
  | cons p recs ih =>
    obtain ⟨⟨hi, hl⟩, hrecs⟩ := List.forall_mem_cons.mp hrecs
    rw [List.map_cons, List.flatten_cons, parseLoop_record hi hl]
    exact ih (holds_pushBuf h hi hl) hrecs

/-! ## Runs -/

/-- Whole samples wait in the WAL, and nodes hold whole elements. -/
structure PushInv (schema : ComponentSchema) (s : Pushers) : Prop where
  size : s.component.size = schema.size
  wal : ∃ recs : List (Int × Bytes), s.wal = recs.map (fun p => record p.1 p.2) ∧
    ∀ p ∈ recs, IsI64 p.1 ∧ p.2.length = schema.size
  checked : ∀ p ∈ s.checked, IsI64 p.1 ∧ p.2.length = schema.size
  granted : ∀ p ∈ s.granted, IsI64 p.1 ∧ p.2.length = schema.size
  holds : ∀ node ∈ s.component.timeSeries, Holds schema node

theorem new_pushInv (schema : ComponentSchema) : PushInv schema (.new schema.size) :=
  ⟨rfl, ⟨[], rfl, nofun⟩, nofun, nofun, nofun⟩

theorem pushStep_pushInv {s s' : Pushers} {a : PushAct} (hs : PushInv schema s) (h : pushStep s a = some s') :
    PushInv schema s' := by
  cases a with
  | check timestamp value =>
    simp only [pushStep, Option.ite_none_right_eq_some] at h
    obtain ⟨hv, h⟩ := h
    rw [hs.size] at hv
    split at h
    · cases h; exact hs
    · cases h
      refine ⟨hs.size, hs.wal, fun p hp => ?_, hs.granted, hs.holds⟩
      rcases List.mem_append.mp hp with hp | hp
      · exact hs.checked p hp
      · rw [List.mem_singleton.mp hp]; exact hv
  | grant i =>
    simp only [pushStep, Option.ite_none_right_eq_some, Option.map_eq_some_iff] at h
    obtain ⟨-, p, hp, rfl⟩ := h
    refine ⟨hs.size, hs.wal, fun q hq => hs.checked q (List.mem_of_mem_eraseIdx hq), ?_, hs.holds⟩
    rintro _ ⟨⟩
    exact hs.checked p (List.mem_of_getElem? hp)
  | skip i =>
    simp only [pushStep, Option.ite_none_right_eq_some, Option.map_eq_some_iff] at h
    obtain ⟨-, p, -, rfl⟩ := h
    exact ⟨hs.size, hs.wal, fun q hq => hs.checked q (List.mem_of_mem_eraseIdx hq), hs.granted, hs.holds⟩
  | commit =>
    simp only [pushStep, Option.map_eq_some_iff] at h
    obtain ⟨⟨timestamp, value⟩, hg, rfl⟩ := h
    obtain ⟨recs, hwal, hrecs⟩ := hs.wal
    refine ⟨hs.size, ⟨recs ++ [(timestamp, value)], by rw [hwal, List.map_append]; rfl, fun p hp => ?_⟩, hs.checked, (by intro q hq; cases hq),
      hs.holds⟩
    rcases List.mem_append.mp hp with hp | hp
    · exact hrecs p hp
    · rw [List.mem_singleton.mp hp]; exact hs.granted _ hg
  | updateMax i =>
    simp only [pushStep, Option.map_eq_some_iff] at h
    obtain ⟨c, -, rfl⟩ := h
    exact ⟨hs.size, hs.wal, hs.checked, hs.granted, hs.holds⟩
  | persist n =>
    simp only [pushStep, Option.ite_none_right_eq_some, Option.some.injEq] at h
    obtain ⟨-, rfl⟩ := h
    obtain ⟨recs, hwal, hrecs⟩ := hs.wal
    refine ⟨hs.size, ⟨recs.drop n, by rw [hwal, List.map_drop], fun p hp => hrecs p (List.mem_of_mem_drop hp)⟩, hs.checked,
      hs.granted, ?_⟩
    show ∀ node ∈ parseLoop s.component.size (s.wal.take n).flatten s.component.timeSeries, Holds schema node
    rw [hs.size, hwal, ← List.map_take]
    exact holds_parseLoop hs.holds fun p hp => hrecs p (List.mem_of_mem_take hp)

/-- In every run of pushes to a component its nodes hold samples of its schema. -/
theorem run_holds {ok : Pushers → PushAct → Prop} {s : Pushers} (h : Run pushStep ok (.new schema.size) s) :
    ∀ node ∈ s.component.timeSeries, Holds schema node :=
  (h.invariant (fun hs _ ht => pushStep_pushInv hs ht) (new_pushInv schema)).holds

end

end Metor.Proof.Arrow

/-!
## The batches of a component

What `as_mem_table` and `save_archive` make of a component has one row for
each sample, in time order, just when the component is exportable
(`exports_iff`), and an archive has a file for each of them
(`saveArchive_exports`). For `bool` bytes of 0 and 1 that is when all but the first of
each node are 0 (`packed_iff`), and for nodes in time order when no two nodes
have samples of different times (`across_iff`).
-/

namespace Metor.Proof.Arrow

open Metor.Lib Metor.Impl Metor.Impl.Proto Metor.Impl.Arrow
open Metor.Proof.TimeSeries (map_fst_samples)

section
variable {α β γ : Type}

theorem mapM_eq_some_iff {f : α → Option β} {xs : List α} {ys : List β} :
    xs.mapM f = some ys ↔ List.Forall₂ (fun x y => f x = some y) xs ys := by
  induction xs generalizing ys with
  | nil => cases ys <;> simp
  | cons x xs ih =>
    rw [List.mapM_cons, List.forall₂_cons_left_iff]
    simp only [Option.bind_eq_bind, Option.bind_eq_some_iff, Option.pure_def, Option.some.injEq, ih]
    exact ⟨fun ⟨y, hy, ys, hys, e⟩ => ⟨y, ys, hy, hys, e.symm⟩, fun ⟨y, ys, hy, hys, e⟩ => ⟨y, hy, ys, hys, e.symm⟩⟩

variable {R : α → β → Prop} {f : α → List γ} {g : β → List γ} (hle : ∀ x y, R x y → (g y).length ≤ (f x).length)
include hle

theorem length_flatMap_le {xs : List α} {ys : List β} (h : List.Forall₂ R xs ys) :
    (ys.flatMap g).length ≤ (xs.flatMap f).length := by
  induction h with
  | nil => exact Nat.le_refl _
  | cons hxy _ ih =>
    rw [List.flatMap_cons, List.flatMap_cons, List.length_append, List.length_append]
    exact Nat.add_le_add (hle _ _ hxy) ih

/-- Parts that are never longer than they should be are right if they are right as a whole. -/
theorem exists_flatMap_eq_iff {xs : List α} :
    (∃ ys, List.Forall₂ R xs ys ∧ ys.flatMap g = xs.flatMap f) ↔ ∀ x ∈ xs, ∃ y, R x y ∧ g y = f x := by
  induction xs with
  | nil => exact iff_of_true ⟨[], .nil, rfl⟩ nofun
  | cons x xs ih =>
    rw [List.forall_mem_cons, ← ih]
    constructor
    · rintro ⟨_, hall, e⟩
      obtain ⟨y, ys, hxy, h, rfl⟩ := List.forall₂_cons_left_iff.mp hall
      clear hall
      have hlen := congrArg List.length e
      simp only [List.flatMap_cons, List.length_append] at hlen e
      have := hle x y hxy
      have := length_flatMap_le hle h
      obtain ⟨hy, hys⟩ := List.append_inj e (by omega)
      exact ⟨⟨y, hxy, hy⟩, ys, h, hys⟩
    · rintro ⟨⟨y, hxy, hy⟩, ys, h, hys⟩
      exact ⟨y :: ys, h.cons hxy, by rw [List.flatMap_cons, List.flatMap_cons, hy, hys]⟩

end

section
variable {A B : Type} {arrow : Impl.Arrow A B} {schema : ComponentSchema} {list : TimeSeries}

/-! ## Rows -/

/-- There is a batch for each node, and together they have the rows of the samples. -/
theorem recordBatches_iff (h : arrow.Lawful) (hlist : ∀ node ∈ list, Holds schema node) (name : String) :
    (∃ batches, arrow.recordBatches name schema list = some batches ∧
      batches.flatMap arrow.rows = list.samples.map (rowOf schema.primType)) ↔
      ∀ node ∈ list, NodeExportable schema node := by
  have hmap : list.samples.map (rowOf schema.primType) =
      list.flatMap fun node => node.samples.map (rowOf schema.primType) := List.map_flatMap
  simp only [Impl.Arrow.recordBatches, mapM_eq_some_iff, hmap]
  rw [exists_flatMap_eq_iff fun node b hb => by rw [List.length_map]; exact length_rows_le h node hb]
  exact forall₂_congr fun node hnode => batch_iff h (hlist node hnode) name

theorem timeOf_rowOf (ty : PrimType) (sample : Int × Bytes) :
    timeOf (rowOf ty sample) = i64OfBytes (i64Bytes sample.1) := rfl

theorem map_timeOf (hlist : ∀ node ∈ list, Holds schema node) (ty : PrimType) :
    (list.samples.map (rowOf ty)).map timeOf = list.flatMap TimeSeriesNode.timestamps := by
  have hmap : (list.flatMap TimeSeriesNode.timestamps) = list.samples.map Prod.fst := by
    rw [TimeSeries.samples, List.map_flatMap]
    exact List.flatMap_congr fun node _ => (map_fst_samples node).symm
  rw [hmap, List.map_map]
  refine List.map_congr_left fun sample hs => ?_
  obtain ⟨node, hnode, hs⟩ := List.mem_flatMap.mp hs
  have ht : sample.1 ∈ node.timestamps := by
    rw [← map_fst_samples]
    exact List.mem_map_of_mem hs
  rw [Function.comp_apply, timeOf_rowOf, i64OfBytes_i64Bytes ((hlist node hnode).timestamps _ ht)]

theorem exportable_iff : Exportable schema list ↔
    (∀ node ∈ list, NodeExportable schema node) ∧ (list.flatMap TimeSeriesNode.timestamps).Pairwise (· ≤ ·) := by
  rw [List.pairwise_flatMap]
  constructor
  · intro h
    exact ⟨fun node hn => ⟨fun hd => h.lists hd node hn, fun hb => h.bools hb node hn⟩, h.sorted, h.across⟩
  · rintro ⟨hx, hsorted, hacross⟩
    exact ⟨fun hd node hn => (hx node hn).1 hd, fun hb node hn => (hx node hn).2 hb, hsorted, hacross⟩

/-- Whatever is made of the batches, if it is the batches. -/
theorem exports_map_iff (h : arrow.Lawful) (hlist : ∀ node ∈ list, Holds schema node) (name : String)
    {f : List B → Option (List B)} (hf : ∀ batches, (f batches).getD [] = batches) :
    arrow.Exports schema list ((arrow.recordBatches name schema list).map f) ↔ Exportable schema list := by
  rw [exportable_iff, ← recordBatches_iff h hlist name]
  simp only [Exports, Option.map_eq_some_iff]
  constructor
  · rintro ⟨_, ⟨batches, hb, rfl⟩, hrows, htimes⟩
    rw [hf] at hrows htimes
    rw [hrows, map_timeOf hlist] at htimes
    exact ⟨⟨batches, hb, hrows⟩, htimes⟩
  · rintro ⟨⟨batches, hb, hrows⟩, htimes⟩
    refine ⟨_, ⟨batches, hb, rfl⟩, ?_⟩
    rw [hf, hrows, map_timeOf hlist]
    exact ⟨rfl, htimes⟩

/-- The table of a component and the batches of its file have one row for each sample, in the order of time, just when
the component is exportable. -/
theorem exports_iff (h : arrow.Lawful) (hlist : ∀ node ∈ list, Holds schema node) (name : String) :
    (arrow.Exports schema list ((arrow.asMemTable name schema list).map (Option.map MemTable.batches)) ∧
      arrow.Exports schema list (arrow.archive name schema list)) ↔ Exportable schema list := by
  have htable : (arrow.asMemTable name schema list).map (Option.map MemTable.batches) = arrow.archive name schema list := by
    rw [asMemTable, archive, Option.map_map]
    congr 1
    funext batches
    cases batches <;> rfl
  rw [htable, and_self, archive]
  exact exports_map_iff h hlist name fun batches => by cases batches <;> rfl

/-! ## Archives -/

section
variable {components : List (Option String × ComponentSchema × TimeSeries)}

theorem saveArchive_none : arrow.saveArchive ((none, schema, list) :: components) = arrow.saveArchive components := by
  simp [Impl.Arrow.saveArchive, List.mapM_cons, Option.bind_assoc, List.reduceOption_cons_of_none]

theorem saveArchive_some (name : String) : arrow.saveArchive ((some name, schema, list) :: components) =
    (arrow.archive name schema list).bind fun batches =>
      (arrow.saveArchive components).map fun files => (batches.map fun batches => (name, batches)).toList ++ files := by
  cases harchive : arrow.archive name schema list with
  | none => simp [Impl.Arrow.saveArchive, List.mapM_cons, harchive]
  | some batches =>
    cases batches <;>
      simp [Impl.Arrow.saveArchive, List.mapM_cons, harchive, Option.bind_assoc, Option.map_bind,
        List.reduceOption_cons_of_none, List.reduceOption_cons_of_some]

/-- An archive has a file for each component with metadata and a node, with one row for each sample, in the order of
time. -/
theorem saveArchive_exports (h : arrow.Lawful)
    (hc : ∀ c ∈ components, (∀ node ∈ c.2.2, Holds c.2.1 node) ∧ Exportable c.2.1 c.2.2) :
    ∃ files, arrow.saveArchive components = some files ∧
      List.Forall₂ (fun c file => c.1 = some file.1 ∧ arrow.Exports c.2.1 c.2.2 (some (some file.2)))
        (components.filter fun c => c.1.isSome && !c.2.2.isEmpty) files := by
  induction components with
  | nil => exact ⟨[], rfl, .nil⟩
  | cons c components ih =>
    obtain ⟨files, hfiles, hall⟩ := ih fun c hc' => hc c (List.mem_cons_of_mem _ hc')
    obtain ⟨hlist, hexport⟩ := hc c List.mem_cons_self
    obtain ⟨metadata, schema, list⟩ := c
    cases metadata with
    | none => exact ⟨files, saveArchive_none.trans hfiles, hall⟩
    | some name =>
      obtain ⟨written, hwritten, hrows⟩ := ((exports_iff h hlist name).mpr hexport).2
      rw [saveArchive_some, hwritten, Option.bind_some, hfiles, Option.map_some]
      refine ⟨_, rfl, ?_⟩
      cases list with
      | nil =>
        obtain rfl := Option.some.inj (hwritten.symm.trans rfl)
        exact hall
      | cons node list =>
        obtain ⟨batches, hbatches, rfl⟩ := Option.map_eq_some_iff.mp hwritten
        cases batches with
        | nil =>
          have hlength := (mapM_eq_some_iff.mp hbatches).length_eq
          cases hlength
        | cons batch batches => exact .cons ⟨rfl, _, rfl, hrows⟩ hall
end

/-! ## When a component is exportable -/

/-- Of bytes of 0 and 1 only the first is its own bit, unless they are 0. -/
theorem packed_iff {data : Bytes} {n : Nat} (h : ∀ k < n, data.getD k 0 = 0 ∨ data.getD k 0 = 1) :
    Packed data n ↔ ∀ k, 0 < k → k < n → data.getD k 0 = 0 := by
  have hzero {k : Nat} (hk : data.getD (k / 8) 0 = 0) : bit data k = false := by
    rw [bit, hk]
    exact Nat.zero_testBit _
  have hhigh {k : Nat} (hk : k < n) (hm : k % 8 ≠ 0) : bit data k = false := by
    rcases h (k / 8) (by omega) with e | e
    · exact hzero e
    · rw [bit, e]
      exact (Nat.testBit_one_eq_true_iff_self_eq_zero.not.mpr hm) |> Bool.eq_false_iff.mpr
  constructor
  · intro hp k
    induction k using Nat.strongRecOn with
    | ind k ih =>
      intro hpos hk
      have hbit : bit data k = false := by
        by_cases hm : k % 8 = 0
        · exact hzero (ih (k / 8) (by omega) (by omega) (by omega))
        · exact hhigh hk hm
      have := hp k hk
      rw [hbit] at this
      simpa using this.symm
  · intro hz k hk
    by_cases h0 : k = 0
    · subst h0
      rcases h 0 hk with e | e <;> simp only [bit, Nat.zero_div, Nat.zero_mod, e] <;> decide
    · have hbit : bit data k = false := by
        by_cases hm : k % 8 = 0
        · exact hzero (hz (k / 8) (by omega) (by omega))
        · exact hhigh hk hm
      rw [hbit, hz k (Nat.pos_of_ne_zero h0) hk]
      rfl

/-- Of nodes in time order, no sample is later than one of an older node just when all of them have one time. -/
theorem across_iff (hv : list.Valid) :
    (list.Pairwise fun newer older => ∀ t ∈ newer.timestamps, ∀ u ∈ older.timestamps, t ≤ u) ↔
      list.Pairwise fun newer older => ∀ t ∈ newer.timestamps, ∀ u ∈ older.timestamps, t = u :=
  ⟨fun h => hv.across.imp₂ (fun _ _ hold hnew t ht u hu => Int.le_antisymm (hnew t ht u hu) (hold u hu t ht)) h,
    List.Pairwise.imp fun h t ht u hu => Int.le_of_eq (h t ht u hu)⟩

theorem listsFit_of_lt {node : TimeSeriesNode} (hpos : 0 < schema.dim.prod) (hlt : schema.dim.prod < 2 ^ 31) :
    ListsFit schema node := by
  have hsize : schema.primType.size ≤ 8 := by cases schema.primType <;> decide
  have hprod : schema.dim.prod * schema.primType.size ≤ 2 ^ 31 * 8 := Nat.mul_le_mul (Nat.le_of_lt hlt) hsize
  rw [ListsFit, ComponentSchema.size, Nat.mod_eq_of_lt (by omega : schema.dim.prod < 2 ^ 32),
    Nat.mod_eq_of_lt (by omega : schema.dim.prod * schema.primType.size < 2 ^ 64)]
  exact ⟨hlt, fun _ => ⟨hpos, rfl⟩⟩

/-- A series in time order, of a type other than `bool` and with values that are not empty. -/
theorem exportable_iff_across (hv : list.Valid) (hb : schema.primType ≠ .bool) (hpos : 0 < schema.dim.prod)
    (hlt : schema.dim.prod < 2 ^ 31) : Exportable schema list ↔
      list.Pairwise fun newer older => ∀ t ∈ newer.timestamps, ∀ u ∈ older.timestamps, t = u := by
  rw [← across_iff hv]
  refine ⟨fun h => h.across, fun h => ⟨fun _ _ _ => listsFit_of_lt hpos hlt, fun h => absurd h hb, ?_, h⟩⟩
  exact fun node hn => (hv.node node hn).sorted

end

/-! ## A component of each kind -/

/-- Arrays as lists of their rows. -/
def plain : Impl.Arrow (List (List Scalar)) (List (List (List Scalar))) where
  primitive width buffer len :=
    if len * width ≤ buffer.length then
      some ((List.range len).map fun i => [.native (slice buffer (i * width) ((i + 1) * width))])
    else none
  boolean buffer len :=
    if len ≤ 8 * buffer.length then some ((List.range len).map fun i => [.bool (bit buffer i)]) else none
  fixedSizeList size values :=
    if size < 0 then none
    else some ((List.range (values.length / size.toNat)).map fun i =>
      (List.range size.toNat).flatMap fun j => values.getD (i * size.toNat + j) [])
  len := List.length
  slice a offset len := if offset + len ≤ a.length then some (slice a offset (offset + len)) else none
  value a i := a.getD i []
  tryNew columns :=
    if ∀ c ∈ columns, c.2.length = (columns.headD ("", [])).2.length then some (columns.map Prod.snd) else none
  numRows b := (b.headD []).length
  columns b := b

theorem getD_map_range {α : Type} (f : Nat → α) {n i : Nat} (d : α) (h : i < n) :
    ((List.range n).map f).getD i d = f i := by
  have hi : i < ((List.range n).map f).length := by rwa [List.length_map, List.length_range]
  rw [List.getD_eq_getElem _ _ hi, List.getElem_map, List.getElem_range]

theorem plain_lawful : plain.Lawful where
  primitive width buffer len h :=
    ⟨_, if_pos h, by simp [plain], fun i hi => getD_map_range _ _ hi⟩
  boolean buffer len h := ⟨_, if_pos h, by simp [plain], fun i hi => getD_map_range _ _ hi⟩
  fixedSizeList size _ values := by
    have hlist : plain.fixedSizeList (Int.ofNat size) values = some ((List.range (values.length / size)).map fun i =>
        (List.range size).flatMap fun j => values.getD (i * size + j) []) := by
      have hneg : ¬ Int.ofNat size < 0 := Int.not_lt.mpr (Int.natCast_nonneg size)
      unfold plain
      dsimp only
      rw [if_neg hneg]
      rfl
    refine ⟨_, hlist, fun _ => by simp [plain], fun h0 => ?_, fun i hi => ?_⟩
    · have h0 : values.length = 0 := h0
      simp [plain, h0]
    · refine getD_map_range _ _ ?_
      simpa [plain] using hi
  negative size h values := if_pos h
  slice a offset len h := by
    refine ⟨_, if_pos h, ?_, fun i hi => ?_⟩
    · show (slice a offset (offset + len)).length = len
      rw [length_slice h, Nat.add_sub_cancel_left]
    · show (slice a offset (offset + len)).getD i [] = a.getD (offset + i) []
      rw [List.getD_eq_getElem?_getD, List.getD_eq_getElem?_getD, getElem?_slice, if_pos (Nat.add_lt_add_left hi _)]
  tryNew columns rows hne h := by
    obtain ⟨c, rest, rfl⟩ := List.exists_cons_of_ne_nil hne
    have hc : c.2.length = rows := h c List.mem_cons_self
    exact ⟨_, if_pos fun d hd => (h d hd).trans hc.symm, hc, rfl⟩

/-- A node of a component with two `f64` in a sample, with samples at 1 and 2. -/
def pairNode : TimeSeriesNode := ⟨"1", ⟨1, 1024, [1, 2]⟩, ⟨16, 1024, List.replicate 32 7⟩⟩

/-- Its samples are exported. -/
theorem exports_pairs :
    plain.Exports ⟨.f64, [2]⟩ [pairNode] ((plain.asMemTable "pairs" ⟨.f64, [2]⟩ [pairNode]).map (Option.map MemTable.batches)) ∧
      plain.Exports ⟨.f64, [2]⟩ [pairNode] (plain.archive "pairs" ⟨.f64, [2]⟩ [pairNode]) := by
  have hholds : ∀ node ∈ [pairNode], Holds ⟨.f64, [2]⟩ node :=
    List.forall_mem_singleton.mpr ⟨rfl, ⟨0, rfl⟩, by decide⟩
  refine (exports_iff plain_lawful hholds "pairs").mpr ⟨fun _ => ?_, by simp, by decide, List.pairwise_singleton _ _⟩
  exact fun node _ => listsFit_of_lt (by decide) (by decide)

/-- A node of a `bool` component, true at 1 and at 2. -/
def boolNode : TimeSeriesNode := ⟨"1", ⟨1, 1024, [1, 2]⟩, ⟨1, 1024, [1, 1]⟩⟩

/-- The second sample is exported as bit 1 of the first. -/
theorem bool_not_exported :
    ¬ ∀ (arrow : Impl.Arrow (List (List Scalar)) (List (List (List Scalar)))) (schema : ComponentSchema) (list : TimeSeries)
      (name : String), arrow.Lawful → (∀ node ∈ list, Holds schema node) →
      arrow.Exports schema list (arrow.archive name schema list) := by
  intro h
  obtain ⟨written, hw, hrows, -⟩ := h plain ⟨.bool, []⟩ [boolNode] "bools" plain_lawful
    (List.forall_mem_singleton.mpr ⟨rfl, ⟨0, rfl⟩, by decide⟩)
  have harchive : plain.archive "bools" ⟨.bool, []⟩ [boolNode] =
      some (some [[[[.native (i64Bytes 1)], [.native (i64Bytes 2)]], [[.bool true], [.bool false]]]]) := by decide
  rw [harchive, Option.some.injEq] at hw
  rw [← hw] at hrows
  revert hrows
  decide

end Metor.Proof.Arrow
