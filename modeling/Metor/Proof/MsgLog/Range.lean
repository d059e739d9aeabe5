import Metor.Proof.TimeSeries.Nearest
import Metor.Spec.MsgLog

/-!
# Ranges of a message log

The two loops of the handler take as many messages as are asked for, and one
if none are (`collectSlices_eq`, `collectSlices_zero`). The slices they go
through are those of the node in which the search for the start of the range
ends and of the older nodes, whose messages all come after it (`batch_eq`).
-/

namespace Metor.Proof.MsgLog

open Metor.Lib Metor.Impl Metor.Impl.Msg Metor.Proof.TimeSeries

/-! ## The loops -/

section
variable {n : Nat} {collected msgs : List (Int × Bytes)}

theorem collectMsgs_none (collected msgs : List (Int × Bytes)) : collectMsgs none collected msgs = collected ++ msgs := by
  induction msgs generalizing collected with
  | nil => exact (List.append_nil _).symm
  | cons msg msgs ih =>
    unfold collectMsgs
    rw [if_neg (by simp [reached]), ih, List.append_assoc]
    rfl

theorem collectMsgs_some (h : collected.length < n) (msgs : List (Int × Bytes)) :
    collectMsgs (some n) collected msgs = (collected ++ msgs).take n := by
  induction msgs generalizing collected with
  | nil =>
    rw [List.append_nil, List.take_of_length_le (Nat.le_of_lt h)]
    rfl
  | cons msg msgs ih =>
    have hlen : (collected ++ [msg]).length = collected.length + 1 := List.length_append
    have happ : collected ++ msg :: msgs = collected ++ [msg] ++ msgs := by rw [List.append_assoc]; rfl
    unfold collectMsgs
    rw [happ]
    by_cases hn : n ≤ collected.length + 1
    · rw [if_pos (by simpa [reached] using hn), List.take_append_of_le_length (by omega),
        List.take_of_length_le (by omega)]
    · rw [if_neg (by simpa [reached] using hn), ih (by omega)]

theorem collectMsgs_zero (collected msgs : List (Int × Bytes)) :
    collectMsgs (some 0) collected msgs = collected ++ msgs.take 1 := by
  cases msgs with
  | nil => exact (List.append_nil _).symm
  | cons msg msgs => rfl

theorem collectSlices_none (collected : List (Int × Bytes)) (slices : List (List (Int × Bytes))) :
    collectSlices none collected slices = collected ++ slices.flatten := by
  induction slices generalizing collected with
  | nil => exact (List.append_nil _).symm
  | cons msgs slices ih =>
    unfold collectSlices
    rw [if_neg (by simp [reached]), collectMsgs_none, ih, List.append_assoc, List.flatten_cons]

theorem collectSlices_some (h : collected.length < n) (slices : List (List (Int × Bytes))) :
    collectSlices (some n) collected slices = (collected ++ slices.flatten).take n := by
  induction slices generalizing collected with
  | nil =>
    rw [List.flatten_nil, List.append_nil, List.take_of_length_le (Nat.le_of_lt h)]
    rfl
  | cons msgs slices ih =>
    unfold collectSlices
    rw [collectMsgs_some h, List.flatten_cons, ← List.append_assoc]
    by_cases hn : n ≤ (collected ++ msgs).length
    · rw [if_pos (by simpa [reached] using hn), List.take_append_of_le_length hn]
    · rw [if_neg (by simpa [reached] using hn), List.take_of_length_le (by omega), ih (by omega)]

/-- The batch is what is asked for of the slices together. -/
theorem collectSlices_eq {limit : Option Nat} (h : limit ≠ some 0) (slices : List (List (Int × Bytes))) :
    collectSlices limit [] slices = upToLimit limit slices.flatten := by
  cases limit with
  | none => exact collectSlices_none [] slices
  | some n => exact collectSlices_some (Nat.pos_of_ne_zero fun e => h (congrArg some e)) slices

/-- If nothing is asked for, the first message of the first slice. -/
theorem collectSlices_zero (msgs : List (Int × Bytes)) (slices : List (List (Int × Bytes))) :
    collectSlices (some 0) [] (msgs :: slices) = msgs.take 1 := by
  unfold collectSlices
  rw [collectMsgs_zero]
  rfl

end

/-! ## The messages of slices -/

section
variable {n : MsgLogNode}

/-- A node with a message for each timestamp. -/
def Full (n : MsgLogNode) : Prop := ∀ i < n.timestamps.length, (n.bufs.getMsg i).isSome

/-- The message at an index. -/
def messageAt (n : MsgLogNode) (i : Nat) : Int × Bytes := (n.timestamps.getD i 0, (n.bufs.getMsg i).getD [])

theorem filterMap_messages (h : Full n) {is : List Nat} (his : ∀ i ∈ is, i < n.timestamps.length) :
    (is.filterMap fun i => do
      let timestamp ← n.timestamps[i]?
      let msg ← n.bufs.getMsg i
      return (timestamp, msg)) = is.map (messageAt n) := by
  rw [← List.filterMap_eq_map]
  refine List.filterMap_congr fun i hi => ?_
  have hlt := his i hi
  obtain ⟨msg, hmsg⟩ := Option.isSome_iff_exists.mp (h i hlt)
  have hget : n.timestamps[i]? = some n.timestamps[i] := List.getElem?_eq_getElem hlt
  simp only [hget, hmsg, Option.bind_eq_bind, Option.bind_some, Function.comp_apply, messageAt, List.getD_eq_getElem?_getD,
    Option.getD_some, Option.pure_def]

theorem messages_eq (h : Full n) : n.messages = (List.range n.timestamps.length).map (messageAt n) :=
  filterMap_messages h fun _ hi => List.mem_range.mp hi

theorem map_fst_messages (h : Full n) : n.messages.map Prod.fst = n.timestamps := by
  rw [messages_eq h, List.map_map]
  refine List.ext_getElem (by simp) fun i h₁ h₂ => ?_
  simp [messageAt, h₂]

theorem slice_range (i : Nat) {j n : Nat} (hj : j ≤ n) : slice (List.range n) i j = List.range' i (j - i) := by
  rw [slice, List.take_range, Nat.min_eq_left hj, List.range_eq_range', List.drop_range', Nat.zero_add, Nat.mul_one]

/-- What a slice of a node yields, if it ends in the node. -/
theorem msgs_eq (h : Full n) (older : MsgLog) (i : Nat) {j : Nat} (hj : j < n.timestamps.length) :
    (MsgLogNodeSlice.mk ⟨n, older⟩ i j).msgs = slice n.messages i (j + 1) := by
  have hstop : min j (n.timestamps.length - 1) = j := Nat.min_eq_left (by omega)
  unfold MsgLogNodeSlice.msgs
  dsimp only
  rw [hstop, messages_eq h, slice, ← List.map_take, ← List.map_drop, ← slice, slice_range i hj]
  refine filterMap_messages h fun x hx => ?_
  rw [List.mem_range'_1] at hx
  omega

/-- A slice from the start of a node that is not empty yields something. -/
theorem msgs_ne_nil (h : Full n) (hn : n.timestamps ≠ []) (older : MsgLog) (j : Nat) :
    (MsgLogNodeSlice.mk ⟨n, older⟩ 0 j).msgs ≠ [] := by
  have hpos := List.length_pos_iff.mpr hn
  have hmin := Nat.min_le_right j (n.timestamps.length - 1)
  unfold MsgLogNodeSlice.msgs
  dsimp only
  rw [filterMap_messages h fun x hx => ?_]
  · simp [List.range'_eq_nil_iff]
  · rw [List.mem_range'_1] at hx
    omega

end

/-! ## The two ends of a range -/

section
variable {newer older list : MsgLog} {k : MsgLogNode} {a b t : Int} {inclusive : Bool}

theorem series_search (list : MsgLog) (t : Int) (inclusive : Bool) :
    TimeSeries.binarySearchNearest (list.map asSeries) t inclusive = (list.binarySearchNearest t inclusive).map asRef :=
  searchNodes_asSeries inclusive none list

/-- What is found in the series of a log's timestamps is found in the log. -/
theorem search_of_series {ts : Int} {i : Nat}
    (h : TimeSeries.binarySearchNearest ((newer ++ k :: older).map asSeries) t inclusive =
      some ⟨⟨asSeries k, older.map asSeries⟩, ts, i⟩) :
    MsgLog.binarySearchNearest (newer ++ k :: older) t inclusive = some ⟨⟨k, older⟩, ts, i⟩ := by
  rw [series_search] at h
  obtain ⟨r, hr, he⟩ := Option.map_eq_some_iff.mp h
  have hsuf : r.node.chain <:+ newer ++ k :: older :=
    searchNodes_suffix (List.suffix_refl _) (fun p hp => by cases hp) r hr
  have hlen : r.node.prev.length = older.length := by
    have := congrArg (fun r : TimestampRef => r.node.prev.length) he
    simpa [asRef] using this
  have hchain : r.node.chain = k :: older :=
    List.IsSuffix.eq_of_length (List.suffix_of_suffix_length_le hsuf (List.suffix_append newer (k :: older))
      (by simp [AtomicNode.chain, hlen])) (by simp [AtomicNode.chain, hlen])
  have hnode : r.node = ⟨k, older⟩ := by
    obtain ⟨hv, hp⟩ := List.cons.inj hchain
    show (⟨r.node.value, r.node.prev⟩ : AtomicNode MsgLogNode) = _
    rw [hv, hp]
  have hts : r.timestamp = ts := congrArg TimestampRef.timestamp he
  have hi : r.index = i := congrArg TimestampRef.index he
  rw [hr]
  show some (⟨r.node, r.timestamp, r.index⟩ : MsgRef) = _
  rw [hnode, hts, hi]

theorem valid_asSeries_node {n : MsgLogNode} (hn : n.timestamps ≠ []) (hs : n.timestamps.Pairwise (· ≤ ·)) :
    (asSeries n).Valid := ⟨hn, (Nat.mul_zero _).symm, hs⟩

theorem valid_map_asSeries {nodes : MsgLog} (hn : ∀ n ∈ nodes, n.timestamps ≠ [])
    (hs : ∀ n ∈ nodes, n.timestamps.Pairwise (· ≤ ·)) : ∀ n ∈ nodes.map asSeries, n.Valid :=
  List.forall_mem_map.mpr fun n h => valid_asSeries_node (hn n h) (hs n h)

/-- The newer nodes start after `t`, and neither they nor `k` are empty. -/
structure Reaches (newer : MsgLog) (k : MsgLogNode) (older : MsgLog) (t : Int) : Prop where
  ordered : MsgLog.Ordered (newer ++ k :: older)
  newer : ∀ p ∈ newer, p.timestamps ≠ [] ∧ t < p.first
  ne_nil : k.timestamps ≠ []

theorem Reaches.valid_newer (hr : Reaches newer k older a) : ∀ n ∈ newer.map asSeries, n.Valid :=
  valid_map_asSeries (fun n hn => (hr.newer n hn).1) fun n hn => hr.ordered.sorted n (by simp [hn])

theorem Reaches.valid (hr : Reaches newer k older a) : (asSeries k).Valid :=
  valid_asSeries_node hr.ne_nil (hr.ordered.sorted k (by simp))

theorem Reaches.full (hr : Reaches newer k older a) : ∀ n ∈ newer ++ k :: older, Full n := hr.ordered.stored

theorem gap_asSeries : Gap (newer.map asSeries) (asSeries k) t ↔ Nearer newer k t := by
  refine and_congr Iff.rfl ?_
  rw [List.getLast?_map]
  cases newer.getLast? with
  | none => simp
  | some p =>
    simp only [Option.map_some, Option.mem_def, Option.some.injEq, exists_eq_left']
    exact Iff.rfl

/-- The search for the start ends in `k`. -/
theorem Reaches.start (hr : Reaches newer k older a) (hk : k.first ≤ a ∨ older = []) (hgap : ¬ Nearer newer k a) :
    ∃ ts, MsgLog.binarySearchNearest (newer ++ k :: older) a false =
      some ⟨⟨k, older⟩, ts, indexIn k.timestamps a false⟩ := by
  obtain ⟨ts, h⟩ : ∃ ts, TimeSeries.binarySearchNearest (newer.map asSeries ++ asSeries k :: older.map asSeries) a false =
      some ⟨⟨asSeries k, older.map asSeries⟩, ts, indexIn k.timestamps a false⟩ := nearest_start hr.valid_newer hr.valid
    (List.forall_mem_map.mpr fun p hp => (hr.newer p hp).2) (hk.imp_right fun h => by rw [h]; rfl)
    (mt gap_asSeries.mp hgap)
  exact ⟨ts, search_of_series (by rw [List.map_append, List.map_cons]; exact h)⟩

/-- The search for the start goes back from `j` to the node after it. -/
theorem Reaches.start_gap {j : MsgLogNode} (hr : Reaches (newer ++ [k]) j older a) (hgap : Nearer (newer ++ [k]) j a) :
    ∃ ts, MsgLog.binarySearchNearest (newer ++ k :: j :: older) a false = some ⟨⟨k, j :: older⟩, ts, 0⟩ := by
  obtain ⟨newer', p, ts, he, h⟩ := @nearest_start_gap _ (older.map asSeries) _ _ hr.valid_newer hr.valid
    (List.forall_mem_map.mpr fun p hp => (hr.newer p hp).2) (gap_asSeries.mpr hgap)
  rw [List.map_append, List.map_singleton] at he h
  obtain ⟨-, hp⟩ := List.append_inj' he rfl
  obtain rfl := List.head_eq_of_cons_eq hp
  refine ⟨ts, search_of_series ?_⟩
  rw [List.map_append, List.map_cons, List.map_cons, ← h, List.append_assoc]
  rfl

/-- Where the slice of a node ends. -/
def stopOf (r : MsgRef) (node : AtomicNode MsgLogNode) : Nat :=
  if node.ptrEq r.node then r.index else node.value.timestamps.length - 1

theorem stopOf_eq (r : MsgRef) (n : MsgLogNode) (rest : MsgLog) :
    stopOf r ⟨n, rest⟩ = stopAt (asRef r) ⟨asSeries n, rest.map asSeries⟩ := by
  have hptr : AtomicNode.ptrEq ⟨n, rest⟩ r.node ↔ AtomicNode.ptrEq ⟨asSeries n, rest.map asSeries⟩ (asRef r).node := by
    show rest.length = r.node.prev.length ↔ (rest.map asSeries).length = (r.node.prev.map asSeries).length
    rw [List.length_map, List.length_map]
  exact if_congr hptr rfl rfl

/-- The search for the end finds something. -/
theorem Reaches.stop (hr : Reaches newer k older a) (hk : k.first ≤ b ∨ older = []) :
    ∃ r, MsgLog.binarySearchNearest (newer ++ k :: older) b true = some r := by
  have h := @searchNodes_isSome _ (older.map asSeries) _ b true none hr.valid_newer hr.valid
    (hk.imp_right fun h => by rw [h]; rfl)
  have hs := series_search (newer ++ k :: older) b true
  rw [List.map_append, List.map_cons] at hs
  rw [TimeSeries.binarySearchNearest] at hs
  rw [hs, Option.isSome_map] at h
  exact Option.isSome_iff_exists.mp h

/-- The search for the end does not go beyond a node that starts at or before it. -/
theorem stop_not_past {r : MsgRef} (hnew : ∀ p ∈ newer, (asSeries p).Valid) (hkv : (asSeries k).Valid) (hk : k.first ≤ b)
    (h : MsgLog.binarySearchNearest (newer ++ k :: older) b true = some r) : older.length ≤ r.node.prev.length := by
  have hs := series_search (newer ++ k :: older) b true
  rw [h, Option.map_some, List.map_append, List.map_cons] at hs
  have hle := searchNodes_not_past (List.forall_mem_map.mpr hnew) hkv hk (by simp) hs
  rw [List.length_map] at hle
  exact hle.trans (Nat.le_of_eq (List.length_map _))

/-- The slice of `k` ends with the last message up to `b`, and those of the older nodes are whole. -/
theorem Reaches.stop_eq (hr : Reaches newer k older a) (hk : k.first ≤ b) {r : MsgRef}
    (h : MsgLog.binarySearchNearest (newer ++ k :: older) b true = some r) :
    stopOf r ⟨k, older⟩ + 1 = upTo k.timestamps b ∧
      ∀ m ∈ atomicStackIter older, stopOf r m = m.value.timestamps.length - 1 := by
  have hvn : ∀ p ∈ newer, (asSeries p).Valid := fun p hp => hr.valid_newer _ (List.mem_map_of_mem hp)
  have hle := stop_not_past hvn hr.valid hk h
  refine ⟨?_, fun m hm => if_neg fun hptr => ?_⟩
  · by_cases hall : ∀ p ∈ newer, b < p.first
    · have hs := series_search (newer ++ k :: older) b true
      rw [h, Option.map_some, List.map_append, List.map_cons] at hs
      rw [stopOf_eq]
      exact stopAt_eq hr.valid_newer hr.valid (List.forall_mem_map.mpr hall) hk hs
    · -- A newer node is in the range, and the search for the end stops there or before.
      push Not at hall
      obtain ⟨p, hp, hpb⟩ := hall
      obtain ⟨n₁, n₂, rfl⟩ := List.append_of_mem hp
      rw [List.append_assoc, List.cons_append] at h
      have hlt := stop_not_past (fun q hq => hvn q (by simp [hq])) (hvn p hp) hpb h
      have hlen : (n₂ ++ k :: older).length = n₂.length + (older.length + 1) := by simp
      have hne : ¬ AtomicNode.ptrEq ⟨k, older⟩ r.node := fun e => by
        have e : older.length = r.node.prev.length := e
        omega
      have hacross := (List.pairwise_append.mp hr.ordered.across).2.2 p hp k List.mem_cons_self
      have hlast := hacross _ (last_mem hr.valid) _ (first_mem (hvn p hp))
      have hup : upTo k.timestamps b = k.timestamps.length := upTo_of_last_le hr.valid (hlast.trans hpb)
      rw [stopOf, if_neg hne, hup]
      exact Nat.sub_add_cancel (length_pos hr.valid)
  · have hlt := (mem_atomicStackIter hm).length_le
    have e : m.prev.length = r.node.prev.length := hptr
    simp only [AtomicNode.chain, List.length_cons] at hlt
    omega

/-! ## The batch -/

theorem msgs_whole {n : MsgLogNode} (h : Full n) (rest : MsgLog) :
    (MsgLogNodeSlice.mk ⟨n, rest⟩ 0 (n.timestamps.length - 1)).msgs = n.messages := by
  by_cases hn : n.timestamps.length = 0
  · have hts : n.timestamps = [] := List.length_eq_zero_iff.mp hn
    simp [MsgLogNodeSlice.msgs, MsgLogNode.messages, hts]
  · have hlen : n.messages.length = n.timestamps.length := by rw [messages_eq h, List.length_map, List.length_range]
    rw [msgs_eq h rest 0 (by omega), slice_full _ (by omega)]

/-- The handler goes through a slice of `k` and the older nodes. -/
theorem batch_slices {i : Nat} {ts : Int} {r : MsgRef} (limit : Option Nat)
    (h₀ : MsgLog.binarySearchNearest list a false = some ⟨⟨k, older⟩, ts, i⟩)
    (h : MsgLog.binarySearchNearest list b true = some r) :
    list.batch a b limit = collectSlices limit [] ((MsgLogNodeSlice.mk ⟨k, older⟩ i (stopOf r ⟨k, older⟩)).msgs ::
      (atomicStackIter older).map fun m => (MsgLogNodeSlice.mk m 0 (stopOf r m)).msgs) := by
  have hrange : list.getRange a b = some ⟨⟨⟨k, older⟩, ts, i⟩, r⟩ := by
    rw [MsgLog.getRange, h₀, h]
    rfl
  unfold MsgLog.batch
  rw [hrange]
  dsimp only
  rw [MsgLogSlice.asIter, AtomicNode.chain, atomicStackIter, List.map_cons, List.map_cons, List.map_map]
  refine congrArg (collectSlices limit []) (congrArg₂ List.cons ?_ (List.map_congr_left fun m hm => ?_))
  · rw [if_pos (show AtomicNode.ptrEq _ _ from rfl)]
    rfl
  · have hlt := (mem_atomicStackIter hm).length_le
    simp only [AtomicNode.chain, List.length_cons] at hlt
    have hne : ¬ m.ptrEq ⟨k, older⟩ := fun e => by
      have e : m.prev.length = older.length := e
      omega
    dsimp only [Function.comp_apply]
    rw [if_neg hne]
    rfl

/-- From a node that starts at or before the end of the range: its messages from the start's index up to the end,
and then those of the older nodes. -/
theorem Reaches.batch_eq (hr : Reaches newer k older t) (hk : k.first ≤ b) {i : Nat} {ts : Int} (limit : Option Nat)
    (h₀ : MsgLog.binarySearchNearest (newer ++ k :: older) a false = some ⟨⟨k, older⟩, ts, i⟩) :
    MsgLog.batch (newer ++ k :: older) a b limit =
      if limit = some 0 then (slice k.messages i (upTo k.timestamps b)).take 1
      else upToLimit limit (slice k.messages i (upTo k.timestamps b) ++ older.flatMap MsgLogNode.messages) := by
  obtain ⟨r, h⟩ := hr.stop (.inl hk)
  obtain ⟨hstop, hold⟩ := hr.stop_eq hk h
  have hup := upTo_le k.timestamps b
  have hfull : ∀ n ∈ k :: older, Full n := fun n hn => hr.full n (List.mem_append_right _ hn)
  have hkmsgs : (MsgLogNodeSlice.mk ⟨k, older⟩ i (stopOf r ⟨k, older⟩)).msgs = slice k.messages i (upTo k.timestamps b) := by
    rw [msgs_eq (hfull k List.mem_cons_self) older i (by omega), hstop]
  have hmsgs : ((atomicStackIter older).map fun m => (MsgLogNodeSlice.mk m 0 (stopOf r m)).msgs) =
      older.map MsgLogNode.messages := by
    conv_rhs => rw [← map_value_atomicStackIter older, List.map_map]
    refine List.map_congr_left fun m hm => ?_
    have hmem := (mem_atomicStackIter hm).mem (show m.value ∈ m.chain from List.mem_cons_self)
    rw [hold m hm]
    exact msgs_whole (hfull m.value (List.mem_cons_of_mem _ hmem)) m.prev
  rw [batch_slices limit h₀ h, hkmsgs, hmsgs]
  by_cases hl : limit = some 0
  · rw [if_pos hl, hl, collectSlices_zero]
  · rw [if_neg hl, collectSlices_eq hl, List.flatten_cons, List.flatMap_def]

/-- From the first message of a node that is not empty, the batch is not empty. -/
theorem batch_ne_nil (hk : k.timestamps ≠ []) (hfull : Full k) {ts : Int} {r : MsgRef} (limit : Option Nat)
    (h₀ : MsgLog.binarySearchNearest list a false = some ⟨⟨k, older⟩, ts, 0⟩)
    (h : MsgLog.binarySearchNearest list b true = some r) : list.batch a b limit ≠ [] := by
  rw [batch_slices limit h₀ h]
  have hne := msgs_ne_nil hfull hk older (stopOf r ⟨k, older⟩)
  by_cases hl : limit = some 0
  · rw [hl, collectSlices_zero]
    simpa [List.take_eq_nil_iff] using hne
  · rw [collectSlices_eq hl, List.flatten_cons]
    cases limit with
    | none => exact List.append_ne_nil_of_left_ne_nil hne _
    | some n =>
      have hn : n ≠ 0 := fun e => hl (congrArg some e)
      simp only [upToLimit, Option.elim_some, ne_eq, List.take_eq_nil_iff, hn, List.append_eq_nil_iff, hne, false_and,
        or_self, not_false_eq_true]

end

end Metor.Proof.MsgLog
