import Metor.Impl.Component
import Metor.Lib.Run
import Metor.Proof.TimeSeries.Reopen

/-!
# Records of a WAL

`push_buf` writes a record as a timestamp and a value, and `persist` takes it
apart again (`parseLoop_record`).
-/

namespace Metor.Proof.Component

open Metor.Lib Metor.Impl

variable {size : Nat} {timestamp : Int} {value : Bytes}

theorem length_record (h : value.length = size) : (record timestamp value).length = size + 8 := by
  rw [record, List.length_append, length_i64Bytes, h, Nat.add_comm]

theorem take_record (h : value.length = size) (rest : Bytes) :
    (record timestamp value ++ rest).take (size + 8) = record timestamp value := List.take_left' (length_record h)

theorem drop_record (h : value.length = size) (rest : Bytes) :
    (record timestamp value ++ rest).drop (size + 8) = rest := List.drop_left' (length_record h)

theorem le_length_record (h : value.length = size) (rest : Bytes) :
    size + 8 ≤ (record timestamp value ++ rest).length := by
  rw [List.length_append, length_record h]
  exact Nat.le_add_right _ _

theorem timestamp_record (h : IsI64 timestamp) (value : Bytes) :
    i64OfBytes ((record timestamp value).take 8) = timestamp := by
  rw [record, List.take_left' (length_i64Bytes _), i64OfBytes_i64Bytes h]

theorem value_record (timestamp : Int) (value : Bytes) : (record timestamp value).drop 8 = value :=
  List.drop_left' (length_i64Bytes _)

theorem parseLoop_nil (size : Nat) (list : TimeSeries) : parseLoop size [] list = list := by
  rw [parseLoop]
  exact if_neg (Nat.not_succ_le_zero _)

/-- A whole record is pushed, with its timestamp and value. -/
theorem parseLoop_record (hi : IsI64 timestamp) (hl : value.length = size) (rest : Bytes) (list : TimeSeries) :
    parseLoop size (record timestamp value ++ rest) list = parseLoop size rest (list.pushBuf timestamp value).2 := by
  rw [parseLoop]
  simp only [if_pos (le_length_record hl rest), take_record hl, drop_record hl, timestamp_record hi, value_record]

end Metor.Proof.Component

/-!
## Samples are persisted in time order

The records in the WAL, after the samples already persisted, are in time
order, and none is later than `last_timestamp` and the timestamps about to
raise it (`OrderInv`). A writer keeps this if it is granted while that bound
is not beyond its own timestamp (`Timely`): `run_in_order`. The comparison at
the top of `push_buf` does not see to it (`late_grant_out_of_order`).
-/

namespace Metor.Proof.Component

open Metor.Lib Metor.Impl Metor.Proof.TimeSeries

/-- The samples of the component's time series are in time order. -/
def InOrder (s : Pushers) : Prop := (timestamps s.component.timeSeries).Pairwise (· ≤ ·)

/-- A writer is granted only while no later timestamp has been committed: neither one that
`last_timestamp` shows, nor one that is about to raise it. -/
def Timely (s : Pushers) : PushAct → Prop
  | .grant i => ∀ p ∈ s.checked[i]?, s.component.lastTimestamp ≤ p.1 ∧ ∀ u ∈ s.committed, u ≤ p.1
  | _ => True

instance (s : Pushers) : (a : PushAct) → Decidable (Timely s a)
  | .grant _ => inferInstanceAs (Decidable (∀ p ∈ _, _ ∧ _))
  | .check _ _ | .skip _ | .commit | .updateMax _ | .persist _ => isTrue trivial

/-! ## Parsing -/

/-- The records of a read: the timestamps appended are those of the records, less failed pushes. -/
theorem parseLoop_records (size : Nat) (recs : List (Int × Bytes))
    (h : ∀ p ∈ recs, IsI64 p.1 ∧ p.2.length = size) (list : TimeSeries) :
    ∃ us, us.Sublist (recs.map Prod.fst) ∧
      timestamps (parseLoop size (recs.map fun p => record p.1 p.2).flatten list) = timestamps list ++ us := by
  induction recs generalizing list with
  | nil => exact ⟨[], .slnil, by simp [parseLoop_nil]⟩
  | cons p recs ih =>
    obtain ⟨hi, hl⟩ := h p List.mem_cons_self
    obtain ⟨us, hus, e⟩ := ih (fun q hq => h q (List.mem_cons_of_mem _ hq)) (list.pushBuf p.1 p.2).2
    have hp := (pushBuf_spec list p.1 p.2).2
    simp only [List.map_cons, List.flatten_cons, parseLoop_record hi hl, e, show timestamps _ = _ from hp,
      List.append_assoc]
    refine ⟨_, ?_, rfl⟩
    split
    · exact hus.cons_cons p.1
    · exact hus.cons p.1

/-! ## The invariant -/

/-- A bound on what has been committed: `last_timestamp`, or a timestamp about to raise it. -/
def Bounded (s : Pushers) (u : Int) : Prop := u ≤ s.component.lastTimestamp ∨ ∃ c ∈ s.committed, u ≤ c

structure OrderInv (s : Pushers) (recs : List (Int × Bytes)) : Prop where
  wal : s.wal = recs.map fun p => record p.1 p.2
  valid : ∀ p ∈ recs, IsI64 p.1 ∧ p.2.length = s.component.size
  checked : ∀ p ∈ s.checked, IsI64 p.1 ∧ p.2.length = s.component.size
  granted : ∀ p ∈ s.granted, IsI64 p.1 ∧ p.2.length = s.component.size
  sorted : (timestamps s.component.timeSeries ++ recs.map Prod.fst).Pairwise (· ≤ ·)
  bound : ∀ u ∈ timestamps s.component.timeSeries ++ recs.map Prod.fst, Bounded s u
  lock : ∀ p ∈ s.granted, ∀ u, Bounded s u → u ≤ p.1

theorem new_orderInv (size : Nat) : OrderInv (.new size) [] :=
  ⟨rfl, nofun, nofun, by simp [Pushers.new], .nil, by simp [Pushers.new, Component.create, timestamps],
    by simp [Pushers.new]⟩

/-- The bound only grows. -/
theorem OrderInv.mono {s t : Pushers} {recs : List (Int × Bytes)} (h : OrderInv s recs) (hw : t.wal = s.wal)
    (hts : t.component.timeSeries = s.component.timeSeries) (hz : t.component.size = s.component.size)
    (hb : ∀ u, Bounded t u ↔ Bounded s u) (hc : ∀ p ∈ t.checked, IsI64 p.1 ∧ p.2.length = s.component.size)
    (hg : t.granted = s.granted) : OrderInv t recs := by
  refine ⟨hw.trans h.wal, hz ▸ h.valid, hz ▸ hc, hg ▸ hz ▸ h.granted, hts ▸ h.sorted, ?_, ?_⟩
  · rw [hts]; exact fun u hu => (hb u).mpr (h.bound u hu)
  · rw [hg]; exact fun p hp u hu => h.lock p hp u ((hb u).mp hu)

/-- The record committed is the latest: its writer held the lock. -/
theorem commit_inv {s : Pushers} {recs : List (Int × Bytes)} (hs : OrderInv s recs) {timestamp : Int} {value : Bytes}
    (hg : s.granted = some (timestamp, value)) :
    OrderInv { s with
      wal := s.wal ++ [record timestamp value]
      granted := none
      committed := s.committed ++ [timestamp] } (recs ++ [(timestamp, value)]) := by
  have hgr := hs.granted _ hg
  have hle : ∀ u ∈ timestamps s.component.timeSeries ++ recs.map Prod.fst, u ≤ timestamp :=
    fun u hu => hs.lock _ hg u (hs.bound u hu)
  refine ⟨by simp [hs.wal], fun p hp => ?_, hs.checked, nofun, ?_, ?_, nofun⟩
  · rcases List.mem_append.mp hp with hp | hp
    · exact hs.valid p hp
    · rw [List.mem_singleton.mp hp]; exact hgr
  · rw [List.map_append, ← List.append_assoc, List.pairwise_append]
    refine ⟨hs.sorted, List.pairwise_singleton _ _, fun u hu v hv => ?_⟩
    rw [List.mem_singleton.mp hv]
    exact hle u hu
  · rw [List.map_append, ← List.append_assoc]
    intro u hu
    refine .inr ⟨timestamp, List.mem_append_right _ (List.mem_singleton_self _), ?_⟩
    rcases List.mem_append.mp hu with hu | hu
    · exact hle u hu
    · rw [List.mem_singleton.mp hu]

/-- `persist` moves records to the series, or drops them. -/
theorem persist_inv {s : Pushers} {recs : List (Int × Bytes)} (hs : OrderInv s recs) (n : Nat) :
    OrderInv { s with
      wal := s.wal.drop n
      component.timeSeries := parseLoop s.component.size (s.wal.take n).flatten s.component.timeSeries } (recs.drop n) := by
  obtain ⟨us, hus, e⟩ := parseLoop_records s.component.size (recs.take n)
    (fun p hp => hs.valid p (List.mem_of_mem_take hp)) s.component.timeSeries
  rw [List.map_take, ← hs.wal] at e
  -- What is left is a part of what was there before.
  have hsub : (timestamps s.component.timeSeries ++ us ++ (recs.drop n).map Prod.fst).Sublist
      (timestamps s.component.timeSeries ++ recs.map Prod.fst) := by
    rw [List.append_assoc]
    refine List.Sublist.append_left ?_ _
    conv_rhs => rw [← List.take_append_drop n recs, List.map_append]
    exact hus.append_right _
  refine ⟨by simp only [hs.wal, List.map_drop], fun p hp => hs.valid p (List.mem_of_mem_drop hp),
    hs.checked, hs.granted, ?_, ?_, hs.lock⟩
  · simp only [e]; exact hs.sorted.sublist hsub
  · simp only [e]; exact fun u hu => hs.bound u (hsub.mem hu)

theorem mem_iff_eraseIdx {xs : List Int} {i : Nat} {x u : Int} (h : xs[i]? = some x) : u ∈ xs ↔ u = x ∨ u ∈ xs.eraseIdx i := by
  obtain ⟨hi, rfl⟩ := List.getElem?_eq_some_iff.mp h
  exact (List.getElem_cons_eraseIdx_perm hi).mem_iff.symm.trans List.mem_cons

theorem pushStep_inv {s t : Pushers} {a : PushAct} {recs : List (Int × Bytes)} (hs : OrderInv s recs)
    (hok : Timely s a) (h : pushStep s a = some t) : ∃ recs', OrderInv t recs' := by
  cases a with
  | check timestamp value =>
    simp only [pushStep, Option.ite_none_right_eq_some] at h
    obtain ⟨hv, h⟩ := h
    split at h
    · cases h; exact ⟨recs, hs⟩
    · cases h
      refine ⟨recs, hs.mono rfl rfl rfl (fun _ => .rfl) (fun p hp => ?_) rfl⟩
      rcases List.mem_append.mp hp with hp | hp
      · exact hs.checked p hp
      · rw [List.mem_singleton.mp hp]; exact hv
  | grant i =>
    simp only [pushStep, Option.ite_none_right_eq_some, Option.map_eq_some_iff] at h
    obtain ⟨hn, p, hp, rfl⟩ := h
    obtain ⟨hlast, hcom⟩ := hok p hp
    refine ⟨recs, hs.wal, hs.valid, fun q hq => hs.checked q (List.mem_of_mem_eraseIdx hq), ?_, hs.sorted, hs.bound, ?_⟩
    · rintro _ ⟨⟩
      exact hs.checked p (List.mem_of_getElem? hp)
    · rintro _ ⟨⟩ u (hu | ⟨c, hc, hu⟩)
      · exact Int.le_trans hu hlast
      · exact Int.le_trans hu (hcom c hc)
  | skip i =>
    simp only [pushStep, Option.ite_none_right_eq_some, Option.map_eq_some_iff] at h
    obtain ⟨hn, p, hp, rfl⟩ := h
    exact ⟨recs, hs.mono rfl rfl rfl (fun _ => .rfl) (fun q hq => hs.checked q (List.mem_of_mem_eraseIdx hq)) rfl⟩
  | commit =>
    simp only [pushStep, Option.map_eq_some_iff] at h
    obtain ⟨⟨timestamp, value⟩, hg, rfl⟩ := h
    exact ⟨_, commit_inv hs hg⟩
  | updateMax i =>
    simp only [pushStep, Option.map_eq_some_iff] at h
    obtain ⟨c, hc, rfl⟩ := h
    refine ⟨recs, hs.mono rfl rfl rfl (fun u => ?_) hs.checked rfl⟩
    simp only [Bounded, le_max_iff, mem_iff_eraseIdx hc, or_and_right, exists_or, exists_eq_left, or_assoc]
  | persist n =>
    simp only [pushStep, Option.ite_none_right_eq_some, Option.some.injEq] at h
    obtain ⟨_, rfl⟩ := h
    exact ⟨_, persist_inv hs n⟩

/-- In every run whose grants are timely, the samples of the series are in time order. -/
theorem run_in_order {size : Nat} {s : Pushers} (h : Run pushStep Timely (.new size) s) : InOrder s := by
  have hinv : ∃ recs, OrderInv s recs :=
    h.invariant (I := fun s => ∃ recs, OrderInv s recs) (fun ⟨_, hs⟩ hok ht => pushStep_inv hs hok ht)
      ⟨[], new_orderInv size⟩
  obtain ⟨recs, hs⟩ := hinv
  exact (List.pairwise_append.mp hs.sorted).1

/-! ## Two connections -/

/-- Two records of one byte are persisted in the order they were committed in. -/
theorem timestamps_two_records {t u : Int} (ht : IsI64 t) (hu : IsI64 u) (x y : UInt8) :
    timestamps (parseLoop 1 [record t [x], record u [y]].flatten []) = [t, u] := by
  have h₁ : TimeSeries.pushBuf [] t [x] = (.ok (), [firstNode t [x]]) :=
    pushBuf_new rfl List.not_mem_nil (show AppendLog.headerSize + 1 ≤ TimeSeriesNode.nodeSize + 1 by decide)
  obtain ⟨list, h₂⟩ : ∃ list, TimeSeries.pushBuf [firstNode t [x]] u [y] = (.ok (), list) := ⟨_, pushBuf_of_try rfl⟩
  have hts := (pushBuf_spec [firstNode t [x]] u [y]).2
  rw [h₂] at hts
  rw [List.flatten_cons, parseLoop_record ht (show [x].length = 1 from rfl), h₁, List.flatten_cons,
    parseLoop_record hu (show [y].length = 1 from rfl), h₂, List.flatten_nil, parseLoop_nil]
  exact hts

/-- The steps of two connections, which each push one byte and are both past
the check before either commits. -/
def twoPushes (t u : Int) : List PushAct :=
  [.check t [7], .check u [8], .grant 0, .commit, .grant 0, .commit, .updateMax 0, .updateMax 0]

/-- What `twoPushes` leaves to persist. -/
def afterTwo (t u : Int) : Pushers := ⟨⟨1, 2, []⟩, [record t [7], record u [8]], [], none, []⟩

/-- The last step of a run: both samples are persisted. -/
def persisted (t u : Int) : Pushers :=
  ⟨⟨1, 2, parseLoop 1 [record t [7], record u [8]].flatten []⟩, [], [], none, []⟩

/-- The earlier sample is granted first. -/
theorem run_in_order_two : ∃ s, Run pushStep Timely (.new 1) s ∧ timestamps s.component.timeSeries = [1, 2] ∧
    InOrder s := by
  have h : Run pushStep Timely (.new 1) (afterTwo 1 2) := Run.of_exec (twoPushes 1 2) .refl rfl
  have h' : Run pushStep Timely (.new 1) (persisted 1 2) := h.snoc (a := .persist 2) trivial rfl
  exact ⟨_, h', timestamps_two_records (by decide) (by decide) 7 8, run_in_order h'⟩

/-- The later sample is granted first: both are persisted, the wrong way round. -/
theorem late_grant_out_of_order :
    ¬ ∀ (size : Nat) (s : Pushers), Run pushStep (fun _ _ => True) (.new size) s → InOrder s := by
  intro h
  have hr : Run pushStep (fun _ _ => True) (.new 1) (afterTwo 2 1) := Run.of_exec (twoPushes 2 1) .refl rfl
  have hs := h 1 (persisted 2 1) (hr.snoc (a := .persist 2) trivial rfl)
  have e : timestamps (persisted 2 1).component.timeSeries = [2, 1] :=
    timestamps_two_records (by decide) (by decide) 7 8
  rw [InOrder, e] at hs
  revert hs
  decide

end Metor.Proof.Component
