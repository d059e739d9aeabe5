import Metor.Proof.MsgLog.Range
import Metor.Spec.MsgLog

/-!
# Range queries

The slices of a range are whole nodes but for that of its start and that of
its end. So only where these are one node can a slice start after its end:
then it panics, unless it starts right after it and is empty. A range that
ends before it starts has the older nodes in it, too, if there are any
(`safe_iff`). A message log is asked as the series of its timestamps is
(`msg_rangeSafe_iff`).
-/

namespace Metor.Proof.TimeSeries

open Metor.Lib Metor.Impl

section
variable {list newer older : TimeSeries} {k : TimeSeriesNode} {a b ts : Int} {i : Nat} {r : TimestampRef}

/-- The number of samples up to `a`, one of that time not counted, is where the search for `a` ends. -/
theorem countP_erase (xs : List Int) (a : Int) :
    (xs.erase a).countP (fun x => decide (x ≤ a)) = indexIn xs a false := by
  by_cases h : a ∈ xs
  · have hcount : upTo xs a = upTo (a :: xs.erase a) a := (List.perm_cons_erase h).countP_eq _
    rw [upTo_cons_of_le (Int.le_refl a)] at hcount
    rw [indexIn, if_pos (.inr h), hcount]
    rfl
  · rw [List.erase_of_not_mem h, indexIn, if_neg (by simp [h])]
    rfl

/-! ## Slices -/

theorem timestamps_eq (node : AtomicNode TimeSeriesNode) (i : Nat) {j : Nat}
    (hj : j < node.value.timestamps.length) :
    (TimeSeriesNodeSlice.mk node i j).timestamps =
      if i ≤ j + 1 then some (slice node.value.timestamps i (j + 1)) else none := by
  simp only [TimeSeriesNodeSlice.timestamps, ge_iff_le, if_neg (Nat.not_le.mpr hj)]
  exact if_congr (and_iff_left hj) rfl rfl

theorem data_eq (node : AtomicNode TimeSeriesNode) {i j : Nat} (hij : i ≤ j + 1) :
    (TimeSeriesNodeSlice.mk node i j).data = some (slice node.value.data.data
      (min (i * node.value.elementSize) node.value.data.data.length)
      (min ((j + 1) * node.value.elementSize) node.value.data.data.length)) :=
  if_pos (min_le_min (Nat.mul_le_mul_right _ hij) (Nat.le_refl _))

/-- The slices from `k` on are safe just when the first does not start after its end; and empty when it starts
right there and is the only one. -/
theorem slices_safe_iff (ts : Int) (i : Nat) (hv : ∀ n ∈ list, n.Valid) (hs : k :: older <:+ list)
    (hr : Found list b r) :
    let s : TimeSeriesSlice := ⟨⟨⟨k, older⟩, ts, i⟩, r⟩
    ((∀ n ∈ s.asIter, n.timestamps.isSome ∧ n.data.isSome) ∧ s.len.isSome ∧
        (b < a → s.len = some 0 ∧ ∀ n ∈ s.asIter, n.data = some [])) ↔
      i ≤ stopAt r ⟨k, older⟩ + 1 ∧ (b < a → older = [] ∧ i = stopAt r ⟨k, older⟩ + 1) := by
  intro s
  have hstop : stopAt r ⟨k, older⟩ < k.timestamps.length := stopAt_lt hv hr hs
  have hasIter : s.asIter = _ := asIter_eq k older ts i r
  by_cases hle : i ≤ stopAt r ⟨k, older⟩ + 1
  · obtain ⟨-, hlen⟩ := asIter_samples ts hv hs hr hle
    have hmem : ∀ m ∈ atomicStackIter older, stopAt r m < m.value.timestamps.length := fun m hm =>
      stopAt_lt hv hr ((((mem_atomicStackIter hm).trans (List.suffix_cons _ _)).trans hs))
    have hsafe : ∀ n ∈ s.asIter, n.timestamps.isSome ∧ n.data.isSome := by
      rw [hasIter, List.forall_mem_cons, List.forall_mem_map]
      refine ⟨?_, fun m hm => ?_⟩
      · rw [timestamps_eq _ i hstop, if_pos hle, data_eq _ hle]
        exact ⟨rfl, rfl⟩
      · rw [timestamps_eq m 0 (hmem m hm), if_pos (Nat.zero_le _), data_eq m (Nat.zero_le _)]
        exact ⟨rfl, rfl⟩
    have hsome : s.len.isSome := by rw [show s.len = _ from hlen]; rfl
    refine ⟨fun h => ⟨hle, fun hab => ?_⟩, fun h => ⟨hsafe, hsome, fun hab => ?_⟩⟩
    · have hzero := Option.some.inj (hlen.symm.trans (h.2.2 hab).1)
      rw [List.flatten_cons, List.length_append, length_slice (by rw [length_samples]; exact hstop)] at hzero
      refine ⟨?_, by omega⟩
      cases older with
      | nil => rfl
      | cons m older =>
        have hm := hmem ⟨m, older⟩ List.mem_cons_self
        rw [atomicStackIter, List.map_cons, List.flatten_cons, List.length_append,
          length_slice (by rw [length_samples]; exact hm)] at hzero
        omega
    · obtain ⟨rfl, hi⟩ := h.2 hab
      rw [← hi] at hlen
      refine ⟨hlen.trans (congrArg some ?_), ?_⟩
      · simp [atomicStackIter, slice_of_le k.samples (Nat.le_refl i)]
      · rw [hasIter, List.forall_mem_cons]
        refine ⟨?_, List.forall_mem_nil _⟩
        rw [data_eq _ hle, hi, slice_of_le _ (Nat.le_refl _)]
  · refine iff_of_false (fun h => ?_) fun h => hle h.1
    have hfirst := (h.1 ⟨⟨k, older⟩, i, stopAt r ⟨k, older⟩⟩ (by rw [hasIter]; exact List.mem_cons_self)).1
    rw [timestamps_eq _ i hstop, if_neg hle] at hfirst
    exact absurd hfirst (by decide)

/-! ## The ends of a range -/

theorem exists_nearest (hv : ∀ n ∈ list, n.Valid) (h : list ≠ []) (t : Int) (inclusive : Bool) :
    ∃ r, list.binarySearchNearest t inclusive = some r := by
  obtain ⟨newer, k, older, rfl, -, hk⟩ := exists_split h t
  exact Option.isSome_iff_exists.mp
    (searchNodes_isSome inclusive (fun n hn => hv n (List.mem_append_left _ hn)) (hv k (by simp)) hk)

/-- The end of a range in the oldest node, where all newer ones start after it. -/
theorem stopAt_oldest (hv : ∀ n ∈ newer, n.Valid) (hkv : k.Valid) (hnew : ∀ p ∈ newer, b < p.first)
    (h : TimeSeries.binarySearchNearest (newer ++ [k]) b true = some r) :
    stopAt r ⟨k, []⟩ + 1 = max 1 (upTo k.timestamps b) := by
  rcases le_or_gt k.first b with hk | hk
  · rw [stopAt_eq hv hkv hnew hk h]
    exact (max_eq_right (upTo_pos hkv hk)).symm
  · rw [TimeSeries.binarySearchNearest, searchNodes_append hv hnew, searchNodes_skip hkv hk] at h
    obtain rfl := Option.some.inj h
    rw [upTo_of_lt_first hkv hk, stopAt_of_eq rfl]
    rfl

/-- The node that a search for `a` comes to is the oldest only if there is none below it. -/
theorem eq_of_oldest {newer' : TimeSeries} {k' : TimeSeriesNode} (hk : k.first ≤ a ∨ older = [])
    (hnew : ∀ p ∈ newer', a < p.first) (h : newer ++ k :: older = newer' ++ [k']) :
    older = [] ∧ newer' = newer ∧ k' = k := by
  rcases List.eq_nil_or_concat older with rfl | ⟨rest, last, rfl⟩
  · obtain ⟨hn, hk'⟩ := List.append_inj' h rfl
    exact ⟨rfl, hn.symm, (List.cons.inj hk').1.symm⟩
  · have hsplit : (newer ++ k :: rest) ++ [last] = newer' ++ [k'] := by
      rw [← h, List.append_assoc, List.cons_append, List.concat_eq_append]
    obtain ⟨hn, -⟩ := List.append_inj' hsplit rfl
    have hlt := hnew k (hn ▸ List.mem_append_right newer List.mem_cons_self)
    exact absurd (hk.resolve_right (by simp)) (not_le.mpr hlt)

/-- What a range query does is decided by the node that the search for its start comes to. -/
theorem rangeable_iff (hv : ∀ n ∈ newer ++ k :: older, n.Valid) (hnew : ∀ p ∈ newer, a < p.first)
    (hk : k.first ≤ a ∨ older = []) (hba : b < a) :
    Rangeable TimeSeriesNode.timestamps TimeSeriesNode.first TimeSeriesNode.last (newer ++ k :: older) a b ↔
      older = [] ∧ ¬ Gap newer k a ∧ indexIn k.timestamps a false = max 1 (upTo k.timestamps b) := by
  constructor
  · rintro (hab | hnil | ⟨newer', k', e, hnew', hgap, hcount⟩)
    · exact absurd hab (not_le.mpr hba)
    · exact absurd hnil (by simp)
    · obtain ⟨rfl, rfl, rfl⟩ := eq_of_oldest hk hnew' e
      refine ⟨rfl, ?_, (countP_erase _ _).symm.trans hcount⟩
      rintro ⟨hlast, p, hp, hlt⟩
      exact absurd (hgap hlast p hp) (not_le.mpr hlt)
  · rintro ⟨rfl, hgap, hcount⟩
    refine .inr (.inr ⟨newer, k, rfl, hnew, fun hlast p hp => ?_, (countP_erase _ _).trans hcount⟩)
    exact not_lt.mp fun hlt => hgap ⟨hlast, p, hp, hlt⟩

/-- A range that starts in `k`. -/
theorem rangeSafe_iff (hv : ∀ n ∈ list, n.Valid) (hs : k :: older <:+ list)
    (hstart : list.binarySearchNearest a false = some ⟨⟨k, older⟩, ts, i⟩)
    (hstop : list.binarySearchNearest b true = some r) :
    list.RangeSafe a b ↔
      i ≤ stopAt r ⟨k, older⟩ + 1 ∧ (b < a → older = [] ∧ i = stopAt r ⟨k, older⟩ + 1) := by
  have hrange : list.getRange a b = some ⟨⟨⟨k, older⟩, ts, i⟩, r⟩ := by
    rw [TimeSeries.getRange, hstart, hstop]
    rfl
  refine Iff.trans ?_ (slices_safe_iff ts i hv hs (nearest_found hv hstop))
  constructor
  · intro h
    exact h _ hrange
  · intro h s hrange'
    obtain rfl := Option.some.inj (hrange.symm.trans hrange')
    exact h

/-- A range query over a series is safe just when it does not end before it starts, or is empty where it ends. -/
theorem safe_iff (hv : ∀ n ∈ list, n.Valid) (a b : Int) :
    list.RangeSafe a b ↔
      Rangeable TimeSeriesNode.timestamps TimeSeriesNode.first TimeSeriesNode.last list a b := by
  by_cases hne : list = []
  · subst hne
    exact iff_of_true (fun _ h => nomatch h) (.inr (.inl rfl))
  obtain ⟨r, hr⟩ := exists_nearest hv hne b true
  obtain ⟨newer, k, older, rfl, hnew, hk⟩ := exists_split hne a
  have hvn := fun n hn => hv n (List.mem_append_left _ hn)
  have hkv := hv k (by simp)
  by_cases hgap : Gap newer k a
  · obtain ⟨newer', p, ts, hp, hstart⟩ := @nearest_start_gap _ older _ _ hvn hkv hnew hgap
    have hs : p :: k :: older <:+ newer ++ k :: older := ⟨newer', by rw [hp, List.append_assoc]; rfl⟩
    rw [rangeSafe_iff hv hs hstart hr]
    rcases le_or_gt a b with hab | hba
    · exact iff_of_true ⟨Nat.zero_le _, fun hba => absurd hab (not_le.mpr hba)⟩ (.inl hab)
    · rw [rangeable_iff hv hnew hk hba]
      refine iff_of_false (fun h => ?_) fun h => h.2.1 hgap
      exact absurd (h.2 hba).1 (by simp)
  · obtain ⟨ts, hstart⟩ := nearest_start hvn hkv hnew hk hgap
    rw [rangeSafe_iff hv (List.suffix_append _ _) hstart hr]
    rcases le_or_gt a b with hab | hba
    · have hle := indexIn_le_stopAt hv hab (nearest_found hv hr)
      exact iff_of_true ⟨hle, fun hba => absurd hab (not_le.mpr hba)⟩ (.inl hab)
    · rw [rangeable_iff hv hnew hk hba]
      constructor
      · rintro ⟨-, h⟩
        obtain ⟨rfl, hi⟩ := h hba
        exact ⟨rfl, hgap, hi.trans (stopAt_oldest hvn hkv (fun p hp => hba.trans (hnew p hp)) hr)⟩
      · rintro ⟨rfl, -, hi⟩
        have hstop := stopAt_oldest hvn hkv (fun p hp => hba.trans (hnew p hp)) hr
        exact ⟨by omega, fun _ => ⟨rfl, by omega⟩⟩

end

/-! ## Message logs -/

section
open Msg

variable {list : MsgLog} {a b : Int}

/-- A slice of a log, as one of the series of its timestamps. -/
def asSlice (n : MsgLogNodeSlice) : TimeSeriesNodeSlice :=
  ⟨⟨asSeries n.node.value, n.node.prev.map asSeries⟩, n.start, n.stop⟩

theorem atomicStackIter_map {α β : Type} (f : α → β) (xs : List α) :
    atomicStackIter (xs.map f) = (atomicStackIter xs).map fun n => ⟨f n.value, n.prev.map f⟩ := by
  induction xs with
  | nil => rfl
  | cons x xs ih => rw [List.map_cons, atomicStackIter, atomicStackIter, List.map_cons, ih]

theorem asIter_asSlice (s : MsgLogSlice) :
    (TimeSeriesSlice.mk (asRef s.start) (asRef s.stop)).asIter = s.asIter.map asSlice := by
  have hchain : (asRef s.start).node.chain = s.start.node.chain.map asSeries := rfl
  have hptr (n : AtomicNode MsgLogNode) (r : MsgRef) :
      AtomicNode.ptrEq ⟨asSeries n.value, n.prev.map asSeries⟩ (asRef r).node ↔ n.ptrEq r.node := by
    show (n.prev.map asSeries).length = (r.node.prev.map asSeries).length ↔ n.prev.length = r.node.prev.length
    rw [List.length_map, List.length_map]
  rw [TimeSeriesSlice.asIter, hchain, atomicStackIter_map, List.map_map, MsgLogSlice.asIter, List.map_map]
  refine List.map_congr_left fun n _ => ?_
  simp only [Function.comp_apply, asSlice, hptr]
  rfl

theorem len_asSlice (s : MsgLogSlice) :
    (TimeSeriesSlice.mk (asRef s.start) (asRef s.stop)).len = s.len := by
  rw [TimeSeriesSlice.len, asIter_asSlice, List.mapM_map]
  rfl

theorem getRange_asSeries (list : MsgLog) (a b : Int) :
    TimeSeries.getRange (list.map asSeries) a b =
      (list.getRange a b).map fun s => ⟨asRef s.start, asRef s.stop⟩ := by
  rw [TimeSeries.getRange, MsgLog.getRange, MsgLog.series_search, MsgLog.series_search]
  cases list.binarySearchNearest a false with
  | none => rfl
  | some start =>
    cases list.binarySearchNearest b true with
    | none => rfl
    | some stop => rfl

theorem msgs_of_timestamps {n : MsgLogNodeSlice} (h : n.timestamps = some []) : n.msgs = [] := by
  obtain ⟨⟨-, hlen⟩, hslice⟩ := Option.ite_none_right_eq_some.mp h
  have hzero := congrArg List.length (Option.some.inj hslice)
  rw [length_slice hlen] at hzero
  have hclip : (if n.stop ≥ n.node.value.timestamps.length then n.node.value.timestamps.length - 1 else n.stop) =
      min n.stop (n.node.value.timestamps.length - 1) := by
    split_ifs with hstop <;> omega
  rw [hclip, List.length_nil] at hzero
  rw [MsgLogNodeSlice.msgs, hzero]
  rfl

/-- Slices with no timestamps at all have no messages. -/
theorem msgs_of_len {s : MsgLogSlice} (h : s.len = some 0) : ∀ n ∈ s.asIter, n.msgs = [] := by
  obtain ⟨tss, htss, hsum⟩ := Option.map_eq_some_iff.mp h
  clear h
  generalize s.asIter = ns at htss ⊢
  induction ns generalizing tss with
  | nil => exact List.forall_mem_nil _
  | cons n ns ih =>
    rw [List.mapM_cons] at htss
    obtain ⟨ts, hn, htss⟩ := Option.bind_eq_some_iff.mp htss
    obtain ⟨tss', hns, htss⟩ := Option.bind_eq_some_iff.mp htss
    obtain rfl := Option.some.inj htss
    rw [List.map_cons, List.sum_cons] at hsum
    obtain rfl : ts = [] := List.eq_nil_of_length_eq_zero (by omega)
    exact List.forall_mem_cons.mpr ⟨msgs_of_timestamps hn, ih tss' (by omega) hns⟩

/-- A log is asked as the series of its timestamps is. -/
theorem rangeSafe_asSeries (list : MsgLog) (a b : Int) :
    list.RangeSafe a b ↔ TimeSeries.RangeSafe (list.map asSeries) a b := by
  have hdata (n : MsgLogNodeSlice) : (asSlice n).data = some [] := by
    show (if min (n.start * 0) 0 ≤ min ((n.stop + 1) * 0) 0 then some (slice [] _ _) else none) = _
    simp [slice]
  unfold TimeSeries.RangeSafe MsgLog.RangeSafe
  rw [getRange_asSeries]
  constructor
  · intro h s' hs'
    obtain ⟨s, hs, rfl⟩ := Option.map_eq_some_iff.mp hs'
    obtain ⟨hsafe, hlen, hempty⟩ := h s hs
    rw [asIter_asSlice, len_asSlice, List.forall_mem_map, List.forall_mem_map]
    refine ⟨fun n hn => ⟨hsafe n hn, ?_⟩, hlen, fun hba => ⟨(hempty hba).1, fun n _ => hdata n⟩⟩
    rw [hdata]
    rfl
  · intro h s hs
    have hs' := h _ (Option.map_eq_some_iff.mpr ⟨s, hs, rfl⟩)
    rw [asIter_asSlice, len_asSlice, List.forall_mem_map, List.forall_mem_map] at hs'
    obtain ⟨hsafe, hlen, hempty⟩ := hs'
    exact ⟨fun n hn => (hsafe n hn).1, hlen, fun hba => ⟨(hempty hba).1, msgs_of_len (hempty hba).1⟩⟩

theorem rangeable_asSeries :
    Rangeable TimeSeriesNode.timestamps TimeSeriesNode.first TimeSeriesNode.last (list.map asSeries) a b ↔
      Rangeable MsgLogNode.timestamps MsgLogNode.first MsgLogNode.last list a b := by
  refine or_congr Iff.rfl (or_congr List.map_eq_nil_iff ?_)
  constructor
  · rintro ⟨newer', k', e, hnew, hgap, hcount⟩
    obtain ⟨newer, rest, rfl, rfl, hrest⟩ := List.map_eq_append_iff.mp e
    obtain ⟨k, rfl, rfl⟩ := List.map_eq_singleton_iff.mp hrest
    refine ⟨newer, k, rfl, fun p hp => hnew (asSeries p) (List.mem_map_of_mem hp), fun hlast p hp => ?_, hcount⟩
    exact hgap hlast (asSeries p) (by rw [List.getLast?_map, hp]; rfl)
  · rintro ⟨newer, k, rfl, hnew, hgap, hcount⟩
    refine ⟨newer.map asSeries, asSeries k, List.map_append, fun p' hp => ?_, fun hlast p' hp => ?_, hcount⟩
    · obtain ⟨p, hmem, rfl⟩ := List.mem_map.mp hp
      exact hnew p hmem
    · rw [List.getLast?_map] at hp
      obtain ⟨p, hlast', rfl⟩ := Option.map_eq_some_iff.mp hp
      exact hgap hlast p hlast'

theorem msg_safe_iff (hv : ∀ n ∈ list, n.timestamps ≠ [] ∧ n.timestamps.Pairwise (· ≤ ·)) (a b : Int) :
    list.RangeSafe a b ↔ Rangeable MsgLogNode.timestamps MsgLogNode.first MsgLogNode.last list a b := by
  rw [rangeSafe_asSeries, ← rangeable_asSeries]
  exact safe_iff (MsgLog.valid_map_asSeries (fun n hn => (hv n hn).1) fun n hn => (hv n hn).2) a b

end

/-- Range queries are safe just when they do not end before they start, or are empty where they end, for series and
for message logs of nodes that are sorted and not empty. -/
theorem rangeSafe_iff_rangeable {series : TimeSeries} {log : Msg.MsgLog} (hs : ∀ n ∈ series, n.Valid)
    (hl : ∀ n ∈ log, n.timestamps ≠ [] ∧ n.timestamps.Pairwise (· ≤ ·)) (a b : Int) :
    (series.RangeSafe a b ↔
      Rangeable TimeSeriesNode.timestamps TimeSeriesNode.first TimeSeriesNode.last series a b) ∧
    (log.RangeSafe a b ↔ Rangeable Msg.MsgLogNode.timestamps Msg.MsgLogNode.first Msg.MsgLogNode.last log a b) :=
  ⟨safe_iff hs a b, msg_safe_iff hl a b⟩

theorem rangeable_singleton {α : Type} {timestamps : α → List Int} {first last : α → Int} {k : α} {a b : Int}
    (h : ((timestamps k).erase a).countP (fun x => decide (x ≤ a)) =
      max 1 ((timestamps k).countP fun x => decide (x ≤ b))) : Rangeable timestamps first last [k] a b :=
  .inr (.inr ⟨[], k, rfl, List.forall_mem_nil _, fun _ p hp => absurd hp (by simp), h⟩)

/-- From after the last sample to the last one: nothing, and no slice starts beyond its end. -/
theorem rangeSafe_after_end : TimeSeries.RangeSafe [threeSamples] 5 3 ∧ Msg.MsgLog.RangeSafe threeMessages 5 3 := by
  have h := rangeSafe_iff_rangeable valid_threeSamples.node
    (fun n hn => ⟨(valid_threeMessages.node n hn).ne_nil, (valid_threeMessages.node n hn).sorted⟩) 5 3
  exact ⟨h.1.mpr (rangeable_singleton (by decide)), h.2.mpr (rangeable_singleton (by decide))⟩

/-- From the third sample to the first: the slice `2..=0` panics. -/
theorem reversed_range_panics :
    ¬ ∀ (series : TimeSeries) (log : Msg.MsgLog) (a b : Int), series.Valid → log.Valid →
      series.RangeSafe a b ∧ log.RangeSafe a b := by
  intro h
  have hsafe := (h [threeSamples] [] 3 1 valid_threeSamples ⟨List.forall_mem_nil _, .nil⟩).1
  have hslice := (hsafe ⟨⟨⟨threeSamples, []⟩, 3, 2⟩, ⟨⟨threeSamples, []⟩, 1, 0⟩⟩ rfl).1
    ⟨⟨threeSamples, []⟩, 2, 0⟩ (List.mem_singleton_self _)
  exact absurd hslice.1 (by decide)

end Metor.Proof.TimeSeries
