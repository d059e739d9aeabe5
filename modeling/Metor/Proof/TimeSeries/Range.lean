import Metor.Proof.TimeSeries.Search

/-!
# Ranges of a time series

`TimeSeriesSlice::as_iter` goes from the node of the range's start to the
older nodes. So a range is answered exactly (`Exact`) just when the node its
start falls in holds all of it, but for older samples at its very start
(`getRange_exact_iff`).
-/

namespace Metor.Proof.TimeSeries

open Metor.Lib Metor.Impl

def inRange (a b : Int) (x : Int × Bytes) : Bool := decide (a ≤ x.1 ∧ x.1 ≤ b)

/-- What a range query is for: the slices, all together, are the samples of the
range, each with its element, and `len` counts them. -/
def Exact (list : TimeSeries) (a b : Int) (s : TimeSeriesSlice) : Prop :=
  ∃ parts, s.asIter.mapM TimeSeriesNodeSlice.samples = some parts ∧
    parts.flatten.Perm (list.samples.filter (inRange a b)) ∧
    s.len = some (list.samples.countP (inRange a b))

/-! ## Samples -/

theorem length_elements (es n : Nat) (data : Bytes) : (elements es n data).length = n := by simp [elements]

theorem getElem?_elements (es n : Nat) (data : Bytes) (i : Nat) :
    (elements es n data)[i]? = if i < n then some (slice data (i * es) ((i + 1) * es)) else none := by
  rw [elements, List.getElem?_map]
  split
  · rw [List.getElem?_range (by assumption), Option.map_some]
  · rw [List.getElem?_eq_none (by simpa using Nat.le_of_not_lt (by assumption)), Option.map_none]

/-- The elements of a slice of the data. -/
theorem slice_elements {es n : Nat} {data : Bytes} {i j : Nat} (hij : i ≤ j) (hj : j ≤ n) :
    elements es (j - i) (slice data (i * es) (j * es)) = slice (elements es n data) i j := by
  refine List.ext_getElem? fun x => ?_
  rw [getElem?_slice, getElem?_elements, getElem?_elements]
  by_cases hx : i + x < j
  · have h₁ : i * es + x * es = (i + x) * es := (Nat.add_mul _ _ _).symm
    have h₂ : i * es + (x + 1) * es = (i + x + 1) * es := by rw [← Nat.add_mul, Nat.add_assoc]
    have h₃ : (i + x + 1) * es ≤ j * es := Nat.mul_le_mul_right _ hx
    rw [if_pos (by omega), if_pos hx, if_pos (by omega), slice_slice, h₁, h₂, Nat.min_eq_left h₃]
  · rw [if_neg (by omega), if_neg hx]

theorem slice_zip {α β : Type} (xs : List α) (ys : List β) (i j : Nat) :
    slice (xs.zip ys) i j = (slice xs i j).zip (slice ys i j) := by
  simp only [slice, List.zip, List.take_zipWith, List.drop_zipWith]

section
variable {n : TimeSeriesNode}

theorem map_fst_samples (n : TimeSeriesNode) : n.samples.map Prod.fst = n.timestamps :=
  List.map_fst_zip (by rw [length_elements])

theorem length_samples (n : TimeSeriesNode) : n.samples.length = n.timestamps.length := by
  rw [← map_fst_samples, List.length_map]

theorem fst_mem_of_mem_samples {x : Int × Bytes} (h : x ∈ n.samples) : x.1 ∈ n.timestamps := by
  rw [← map_fst_samples]; exact List.mem_map_of_mem h

/-- A slice within its node panics nowhere, and its data are the elements of its timestamps. -/
theorem samples_nodeSlice (node : AtomicNode TimeSeriesNode) (i : Nat) {j : Nat} (hv : node.value.Valid)
    (hj : j < node.value.timestamps.length) (hij : i ≤ j + 1) :
    (TimeSeriesNodeSlice.mk node i j).timestamps = some (slice node.value.timestamps i (j + 1)) ∧
    (TimeSeriesNodeSlice.mk node i j).samples = some (slice node.value.samples i (j + 1)) := by
  have ht : (TimeSeriesNodeSlice.mk node i j).timestamps = some (slice node.value.timestamps i (j + 1)) := by
    simp only [TimeSeriesNodeSlice.timestamps, ge_iff_le, if_neg (Nat.not_le.mpr hj)]
    exact if_pos ⟨hij, hj⟩
  refine ⟨ht, ?_⟩
  have hle : (j + 1) * node.value.elementSize ≤ node.value.data.data.length := by
    rw [hv.data]; exact Nat.mul_le_mul_right _ hj
  have hij' : i * node.value.elementSize ≤ (j + 1) * node.value.elementSize := Nat.mul_le_mul_right _ hij
  have hd : (TimeSeriesNodeSlice.mk node i j).data = some (slice node.value.data.data
      (i * node.value.elementSize) ((j + 1) * node.value.elementSize)) := by
    simp only [TimeSeriesNodeSlice.data]
    rw [Nat.min_eq_left (hij'.trans hle), Nat.min_eq_left hle, if_pos hij']
  simp only [TimeSeriesNodeSlice.samples, ht, hd, Option.bind_eq_bind, Option.bind_some, length_slice hle,
    length_slice hj, ← Nat.sub_mul, if_true, Option.pure_def]
  rw [samplesOf, length_slice hj, slice_elements hij hj, TimeSeriesNode.samples, samplesOf, slice_zip]

/-- The samples of a node in the range are a slice. -/
theorem filter_samples (hv : n.Valid) {a b : Int} (hab : a ≤ b) :
    n.samples.filter (inRange a b) = slice n.samples (below n.timestamps a) (upTo n.timestamps b) := by
  have hs : n.samples.Pairwise fun x y => x.1 ≤ y.1 := by
    rw [← List.pairwise_map, map_fst_samples]; exact hv.sorted
  have hl : below n.timestamps a = n.samples.countP fun x => decide (x.1 < a) := by
    rw [below, ← map_fst_samples, List.countP_map]; rfl
  have hu : upTo n.timestamps b = n.samples.countP fun x => decide (x.1 ≤ b) := by
    rw [upTo, ← map_fst_samples, List.countP_map]; rfl
  rw [hl, hu, ← filter_range_eq_slice Prod.fst hs hab]
  rfl

end

/-! ## The two ends of a range -/

section
variable {newer older list : TimeSeries} {k : TimeSeriesNode} {a b t : Int} {r : TimestampRef}

/-- A sample of the list: the last of its node up to `t`, unless the whole node is after `t`. -/
structure Found (full : TimeSeries) (t : Int) (r : TimestampRef) : Prop where
  chain : r.node.chain <:+ full
  lt : r.index < r.node.value.timestamps.length
  last : r.node.value.first ≤ t → r.index + 1 = upTo r.node.value.timestamps t

theorem searchNodes_found {prevNode : Option TimestampRef} (hv : ∀ n ∈ list, n.Valid) {full : TimeSeries}
    (hl : list <:+ full) (hp : ∀ p ∈ prevNode, Found full t p)
    (h : TimeSeries.searchNodes t true prevNode list = some r) : Found full t r := by
  induction list generalizing prevNode with
  | nil => exact hp r h
  | cons n older ih =>
    have hn := hv n List.mem_cons_self
    have hpos := length_pos hn
    rcases lt_or_ge t n.first with h₁ | h₁
    · rw [searchNodes_skip hn h₁] at h
      refine ih (fun m hm => hv m (List.mem_cons_of_mem _ hm)) ((List.suffix_cons _ _).trans hl) ?_ h
      rintro _ ⟨⟩
      exact ⟨hl, hpos, fun h => absurd h (not_le.mpr h₁)⟩
    rcases le_or_gt t n.last with h₂ | h₂
    · obtain ⟨ts, e⟩ := searchNodes_mid true prevNode older hn h₁ h₂
      rw [e] at h
      cases h
      have hle := upTo_le n.timestamps t
      have hup := upTo_pos hn h₁
      have hix : indexIn n.timestamps t true + 1 = upTo n.timestamps t := by
        rw [indexIn, if_pos (.inl rfl)]; omega
      exact ⟨hl, show indexIn n.timestamps t true < n.timestamps.length by omega, fun _ => hix⟩
    · rw [searchNodes_past hn h₂] at h
      split at h
      · exact hp r h
      · cases h
        refine ⟨hl, Nat.sub_lt hpos Nat.zero_lt_one, fun _ => ?_⟩
        rw [upTo_of_last_le hn (by omega)]
        exact Nat.sub_add_cancel hpos

theorem nearest_found (hv : ∀ n ∈ list, n.Valid) (h : list.binarySearchNearest t true = some r) : Found list t r :=
  searchNodes_found hv (List.suffix_refl _) (by simp) h

/-- The search does not go beyond a node that starts at or before `t`. -/
theorem searchNodes_not_past {prevNode : Option TimestampRef} {inclusive : Bool}
    (hv : ∀ n ∈ newer, n.Valid) (hkv : k.Valid) (hk : k.first ≤ t)
    (hp : ∀ p ∈ prevNode, older.length ≤ p.node.prev.length)
    (h : TimeSeries.searchNodes t inclusive prevNode (newer ++ k :: older) = some r) :
    older.length ≤ r.node.prev.length := by
  induction newer generalizing prevNode with
  | nil =>
    rcases le_or_gt t k.last with h₂ | h₂
    · obtain ⟨ts, e⟩ := searchNodes_mid inclusive prevNode older hkv hk h₂
      rw [List.nil_append, e] at h
      cases h
      exact Nat.le_refl _
    · rw [List.nil_append, searchNodes_past hkv h₂] at h
      split at h
      · exact hp r h
      · cases h; exact Nat.le_refl _
  | cons n newer ih =>
    have hn := hv n List.mem_cons_self
    have hlen : older.length ≤ (newer ++ k :: older).length := by simp; omega
    rcases lt_or_ge t n.first with h₁ | h₁
    · rw [List.cons_append, searchNodes_skip hn h₁] at h
      refine ih (fun m hm => hv m (List.mem_cons_of_mem _ hm)) ?_ h
      rintro _ ⟨⟩
      exact hlen
    rcases le_or_gt t n.last with h₂ | h₂
    · obtain ⟨ts, e⟩ := searchNodes_mid inclusive prevNode (newer ++ k :: older) hn h₁ h₂
      rw [List.cons_append, e] at h
      cases h
      exact hlen
    · rw [List.cons_append, searchNodes_past hn h₂] at h
      split at h
      · exact hp r h
      · cases h; exact hlen

/-- Whether the search for `t`, past the end of `k`, goes back to the node before: the last sample
of that node is nearer than the first of `k`. -/
def Gap (newer : TimeSeries) (k : TimeSeriesNode) (t : Int) : Prop :=
  k.last < t ∧ ∃ p ∈ newer.getLast?, (p.last - t).natAbs < (k.first - t).natAbs

/-- The start of a range, when it is not in a gap. -/
theorem nearest_start (hv : ∀ n ∈ newer, n.Valid) (hkv : k.Valid) (hnew : ∀ p ∈ newer, a < p.first)
    (hk : k.first ≤ a ∨ older = []) (hgap : ¬ Gap newer k a) :
    ∃ ts, TimeSeries.binarySearchNearest (newer ++ k :: older) a false =
      some ⟨⟨k, older⟩, ts, indexIn k.timestamps a false⟩ := by
  rw [TimeSeries.binarySearchNearest, searchNodes_append hv hnew]
  rcases lt_or_ge a k.first with h₁ | h₁
  · obtain rfl := hk.resolve_left (by omega)
    refine ⟨k.last, ?_⟩
    have hn : a ∉ k.timestamps := fun h => by have := first_le hkv h; omega
    rw [searchNodes_skip hkv h₁, indexIn, if_neg (by simp [hn]), upTo_of_lt_first hkv h₁]
    rfl
  rcases le_or_gt a k.last with h₂ | h₂
  · exact searchNodes_mid _ _ _ hkv h₁ h₂
  · refine ⟨k.first, ?_⟩
    have hn : a ∉ k.timestamps := fun h => by have := le_last hkv h; omega
    rw [searchNodes_past hkv h₂, if_neg, indexIn, if_neg (by simp [hn]), upTo_of_last_le hkv (by omega)]
    · rfl
    · rintro ⟨q, hq, hlt⟩
      simp only [Option.or_none, Option.mem_def, Option.map_eq_some_iff] at hq
      obtain ⟨p, hp, rfl⟩ := hq
      exact hgap ⟨h₂, p, hp, hlt⟩

theorem nearest_start_gap (hv : ∀ n ∈ newer, n.Valid) (hkv : k.Valid) (hnew : ∀ p ∈ newer, a < p.first)
    (hgap : Gap newer k a) : ∃ newer' p ts, newer = newer' ++ [p] ∧
      TimeSeries.binarySearchNearest (newer ++ k :: older) a false = some ⟨⟨p, k :: older⟩, ts, 0⟩ := by
  obtain ⟨h₂, p, hp, hlt⟩ := hgap
  obtain ⟨newer', e⟩ := List.getLast?_eq_some_iff.mp hp
  refine ⟨newer', p, p.last, e, ?_⟩
  rw [TimeSeries.binarySearchNearest, searchNodes_append hv hnew, searchNodes_past hkv h₂]
  rw [Option.mem_def] at hp
  rw [hp, if_pos]
  · rfl
  · exact ⟨_, rfl, hlt⟩

/-- Where the slice of a node ends. -/
def stopAt (r : TimestampRef) (node : AtomicNode TimeSeriesNode) : Nat :=
  if node.ptrEq r.node then r.index else node.value.timestamps.length - 1

theorem stopAt_of_eq {node : AtomicNode TimeSeriesNode} (h : node.prev.length = r.node.prev.length) :
    stopAt r node = r.index := if_pos h

theorem stopAt_of_ne {node : AtomicNode TimeSeriesNode} (h : node.prev.length ≠ r.node.prev.length) :
    stopAt r node = node.value.timestamps.length - 1 := if_neg h

/-- The end of a range within `k`, if all newer nodes lie after the range. -/
theorem stopAt_eq (hv : ∀ n ∈ newer, n.Valid) (hkv : k.Valid) (hnew : ∀ p ∈ newer, b < p.first) (hk : k.first ≤ b)
    (h : TimeSeries.binarySearchNearest (newer ++ k :: older) b true = some r) :
    stopAt r ⟨k, older⟩ + 1 = upTo k.timestamps b := by
  have hpos := length_pos hkv
  rw [TimeSeries.binarySearchNearest, searchNodes_append hv hnew] at h
  rcases le_or_gt b k.last with h₂ | h₂
  · obtain ⟨ts, e⟩ := searchNodes_mid true
      ((newer.getLast?.map fun p => ⟨⟨p, k :: older⟩, p.last, 0⟩).or none) older hkv hk h₂
    rw [e] at h
    cases h
    rw [stopAt_of_eq rfl, indexIn, if_pos (.inl rfl)]
    exact Nat.sub_add_cancel (upTo_pos hkv hk)
  · rw [upTo_of_last_le hkv (by omega)]
    rw [searchNodes_past hkv h₂] at h
    split at h
    · simp only [Option.or_none, Option.map_eq_some_iff] at h
      obtain ⟨p, -, rfl⟩ := h
      rw [stopAt_of_ne (by simp)]
      exact Nat.sub_add_cancel hpos
    · cases h
      rw [stopAt_of_eq rfl]
      exact Nat.sub_add_cancel hpos

end

/-! ## The slices of a range -/

theorem mapM_eq_some {α β : Type} {f : α → Option β} {g : α → β} {xs : List α} (h : ∀ x ∈ xs, f x = some (g x)) :
    xs.mapM f = some (xs.map g) := by
  induction xs with
  | nil => rfl
  | cons x xs ih =>
    rw [List.mapM_cons, h x List.mem_cons_self, ih fun y hy => h y (List.mem_cons_of_mem _ hy)]
    rfl

theorem map_value_atomicStackIter {α : Type} (xs : List α) : (atomicStackIter xs).map (·.value) = xs := by
  induction xs with
  | nil => rfl
  | cons x xs ih => rw [atomicStackIter, List.map_cons, ih]

/-- The nodes of a chain, each with what is below it. -/
theorem mem_atomicStackIter {α : Type} {xs : List α} {n : AtomicNode α} (h : n ∈ atomicStackIter xs) :
    n.chain <:+ xs := by
  induction xs with
  | nil => cases h
  | cons x xs ih =>
    rcases List.mem_cons.mp h with rfl | h
    · exact List.suffix_refl _
    · exact (ih h).trans (List.suffix_cons _ _)

section
variable {list older : TimeSeries} {k : TimeSeriesNode} {b ts : Int} {i : Nat} {r : TimestampRef}

/-- Nodes of one stack with as many nodes below are one node. -/
theorem chain_eq {m n : AtomicNode TimeSeriesNode} (hm : m.chain <:+ list) (hn : n.chain <:+ list)
    (h : m.prev.length = n.prev.length) : m = n := by
  have := List.IsSuffix.eq_of_length (List.suffix_of_suffix_length_le hm hn (by simp [AtomicNode.chain, h]))
    (by simp [AtomicNode.chain, h])
  cases m; cases n
  simpa [AtomicNode.chain] using this

theorem stopAt_lt (hv : ∀ n ∈ list, n.Valid) (hr : Found list b r) {m : AtomicNode TimeSeriesNode} (hm : m.chain <:+ list) :
    stopAt r m < m.value.timestamps.length := by
  by_cases h : m.prev.length = r.node.prev.length
  · rw [stopAt_of_eq h, chain_eq hm hr.chain h]; exact hr.lt
  · rw [stopAt_of_ne h]
    exact Nat.sub_lt (length_pos (hv _ (hm.mem (by simp [AtomicNode.chain])))) Nat.zero_lt_one

/-- The slices of a range, from the node of its start on. -/
theorem asIter_eq (k : TimeSeriesNode) (older : TimeSeries) (ts : Int) (i : Nat) (r : TimestampRef) :
    (TimeSeriesSlice.mk ⟨⟨k, older⟩, ts, i⟩ r).asIter = ⟨⟨k, older⟩, i, stopAt r ⟨k, older⟩⟩ ::
      (atomicStackIter older).map fun m => ⟨m, 0, stopAt r m⟩ := by
  simp only [TimeSeriesSlice.asIter, AtomicNode.chain, atomicStackIter, List.map_cons]
  refine congrArg₂ _ (by rw [if_pos (show AtomicNode.ptrEq _ _ from rfl)]; rfl)
    (List.map_congr_left fun m hm => ?_)
  have := (mem_atomicStackIter hm).length_le
  rw [if_neg (show ¬ m.ptrEq ⟨k, older⟩ from fun h => by simp [AtomicNode.ptrEq, AtomicNode.chain] at h this; omega)]
  rfl

/-- What a range yields, node by node, from the node of its start on. -/
theorem asIter_samples (ts : Int) (hv : ∀ n ∈ list, n.Valid) (hs : k :: older <:+ list) (hr : Found list b r)
    (hle : i ≤ stopAt r ⟨k, older⟩ + 1) :
    let s : TimeSeriesSlice := ⟨⟨⟨k, older⟩, ts, i⟩, r⟩
    let parts := slice k.samples i (stopAt r ⟨k, older⟩ + 1) ::
      (atomicStackIter older).map fun m => slice m.value.samples 0 (stopAt r m + 1)
    s.asIter.mapM TimeSeriesNodeSlice.samples = some parts ∧ s.len = some parts.flatten.length := by
  intro s parts
  have hasIter := asIter_eq k older ts i r
  have hsub : ∀ m ∈ atomicStackIter older, m.chain <:+ list := fun m hm =>
    ((mem_atomicStackIter hm).trans (List.suffix_cons _ _)).trans hs
  have hk := samples_nodeSlice ⟨k, older⟩ i (hv _ (hs.mem (by simp))) (stopAt_lt hv hr hs) hle
  have hold : ∀ m ∈ atomicStackIter older, _ := fun m hm => samples_nodeSlice m 0
    (hv _ ((hsub m hm).mem (by simp [AtomicNode.chain]))) (stopAt_lt hv hr (hsub m hm)) (Nat.zero_le _)
  have hlen : ∀ (n : TimeSeriesNode) (i j : Nat), (slice n.timestamps i j).length = (slice n.samples i j).length :=
    fun n i j => by simp [slice, length_samples]
  constructor
  · have e := mapM_eq_some (f := TimeSeriesNodeSlice.samples ∘ fun m => ⟨m, 0, stopAt r m⟩)
      fun m hm => (hold m hm).2
    rw [hasIter, List.mapM_cons, hk.2, List.mapM_map, e]
    rfl
  · have e := mapM_eq_some (f := TimeSeriesNodeSlice.timestamps ∘ fun m => ⟨m, 0, stopAt r m⟩)
      fun m hm => (hold m hm).1
    rw [TimeSeriesSlice.len, hasIter, List.mapM_cons, hk.1, List.mapM_map, e]
    simp [parts, hlen, List.length_flatten, Function.comp_def]

end

/-! ## The ranges that are answered exactly -/

/-- The range falls in the node `k`: it begins no later than the range ends,
newer nodes lie after the range, older ones at its very start, and the search
for the start of the range finds the first sample of `k` in it. -/
structure InNode (newer : TimeSeries) (k : TimeSeriesNode) (older : TimeSeries) (a b : Int) : Prop where
  first : k.first ≤ b
  after : ∀ p ∈ newer, ∀ t ∈ p.timestamps, b < t
  before : ∀ p ∈ older, ∀ t ∈ p.timestamps, t = a
  once : k.timestamps.count a ≤ 1
  near : ¬ Gap newer k a

/-- The series is empty, or one node holds the range. -/
def InOneNode (list : TimeSeries) (a b : Int) : Prop :=
  list = [] ∨ ∃ newer k older, list = newer ++ k :: older ∧ (k.first ≤ a ∨ older = []) ∧ InNode newer k older a b

/-- Every series that is not empty has a node that a search for `a` comes to. -/
theorem exists_split {list : TimeSeries} (h : list ≠ []) (a : Int) : ∃ newer k older, list = newer ++ k :: older ∧
    (∀ p ∈ newer, a < p.first) ∧ (k.first ≤ a ∨ older = []) := by
  induction list with
  | nil => exact absurd rfl h
  | cons n rest ih =>
    rcases le_or_gt n.first a with hn | hn
    · exact ⟨[], n, rest, rfl, nofun, .inl hn⟩
    by_cases hr : rest = []
    · exact ⟨[], n, rest, rfl, nofun, .inr hr⟩
    · obtain ⟨newer, k, older, rfl, hnew, hk⟩ := ih hr
      refine ⟨n :: newer, k, older, rfl, fun p hp => ?_, hk⟩
      rcases List.mem_cons.mp hp with rfl | hp
      · exact hn
      · exact hnew p hp

/-- The search finds something, if it comes to the oldest node or to one that starts at or before `t`. -/
theorem searchNodes_isSome {newer older : TimeSeries} {k : TimeSeriesNode} {t : Int} (inclusive : Bool)
    {prevNode : Option TimestampRef} (hv : ∀ n ∈ newer, n.Valid) (hkv : k.Valid) (h : k.first ≤ t ∨ older = []) :
    (TimeSeries.searchNodes t inclusive prevNode (newer ++ k :: older)).isSome := by
  have hpast : ∀ {n : TimeSeriesNode} {rest : TimeSeries} {prevNode : Option TimestampRef}, n.Valid → n.last < t →
      (TimeSeries.searchNodes t inclusive prevNode (n :: rest)).isSome := by
    intro n rest prevNode hn h₂
    rw [searchNodes_past hn h₂]
    split
    · next hp => obtain ⟨p, hp, -⟩ := hp; rw [hp]; rfl
    · rfl
  induction newer generalizing prevNode with
  | nil =>
    rw [List.nil_append]
    rcases lt_or_ge t k.first with h₁ | h₁
    · obtain rfl := h.resolve_left (not_le.mpr h₁)
      rw [searchNodes_skip hkv h₁]
      rfl
    rcases le_or_gt t k.last with h₂ | h₂
    · obtain ⟨ts, e⟩ := searchNodes_mid inclusive prevNode older hkv h₁ h₂
      rw [e]; rfl
    · exact hpast hkv h₂
  | cons n newer ih =>
    have hn := hv n List.mem_cons_self
    rw [List.cons_append]
    rcases lt_or_ge t n.first with h₁ | h₁
    · rw [searchNodes_skip hn h₁]
      exact ih (fun m hm => hv m (List.mem_cons_of_mem _ hm))
    rcases le_or_gt t n.last with h₂ | h₂
    · obtain ⟨ts, e⟩ := searchNodes_mid inclusive prevNode (newer ++ k :: older) hn h₁ h₂
      rw [e]; rfl
    · exact hpast hn h₂

theorem slice_sublist {α : Type} (xs : List α) (i j : Nat) : (slice xs i j).Sublist xs :=
  (List.drop_sublist _ _).trans (List.take_sublist _ _)

section
variable {newer older : TimeSeries} {k : TimeSeriesNode} {a b ts : Int} {i : Nat} {r : TimestampRef}

theorem samples_split (newer : TimeSeries) (k : TimeSeriesNode) (older : TimeSeries) :
    (newer ++ k :: older).samples = newer.samples ++ (k.samples :: older.map TimeSeriesNode.samples).flatten := by
  simp [TimeSeries.samples, List.flatMap_def]

/-- A range that starts in `k` is exact just when nothing newer is in it and
each slice is what its node has in the range. -/
theorem exact_iff (hv : ∀ n ∈ newer ++ k :: older, n.Valid) (hr : Found (newer ++ k :: older) b r)
    (hle : i ≤ stopAt r ⟨k, older⟩ + 1) :
    Exact (newer ++ k :: older) a b ⟨⟨⟨k, older⟩, ts, i⟩, r⟩ ↔
      newer.samples.filter (inRange a b) = [] ∧
      slice k.samples i (stopAt r ⟨k, older⟩ + 1) = k.samples.filter (inRange a b) ∧
      ∀ m ∈ atomicStackIter older, slice m.value.samples 0 (stopAt r m + 1) = m.value.samples.filter (inRange a b) := by
  obtain ⟨hparts, hlen⟩ := asIter_samples ts hv (List.suffix_append newer (k :: older)) hr hle
  have hold : older.map TimeSeriesNode.samples = (atomicStackIter older).map fun m => m.value.samples := by
    conv_lhs => rw [← map_value_atomicStackIter older, List.map_map]
    rfl
  constructor
  · rintro ⟨parts, he, hp, -⟩
    rw [hparts] at he
    cases he
    rw [samples_split, List.filter_append, hold] at hp
    have hsub : List.Forall₂ List.Sublist
        (slice k.samples i (stopAt r ⟨k, older⟩ + 1) ::
          (atomicStackIter older).map fun m => slice m.value.samples 0 (stopAt r m + 1))
        (k.samples :: (atomicStackIter older).map fun m => m.value.samples) := by
      refine .cons (slice_sublist _ _ _) ?_
      rw [List.forall₂_map_left_iff, List.forall₂_map_right_iff, List.forall₂_same]
      exact fun m _ => slice_sublist _ _ _
    obtain ⟨hnew, he⟩ := eq_filter_of_perm hsub hp
    rw [List.map_cons, List.cons.injEq, List.map_map] at he
    exact ⟨hnew, he.1, fun m hm => List.map_inj_left.mp he.2 m hm⟩
  · rintro ⟨hnew, hk, ho⟩
    have he : (slice k.samples i (stopAt r ⟨k, older⟩ + 1) ::
        (atomicStackIter older).map fun m => slice m.value.samples 0 (stopAt r m + 1)).flatten =
        (newer ++ k :: older).samples.filter (inRange a b) := by
      rw [samples_split, List.filter_append, hnew, List.nil_append, List.filter_flatten, List.map_cons, ← hk, hold,
        List.map_map]
      refine congrArg (fun l => (_ :: l).flatten) (List.map_congr_left fun m hm => ho m hm)
    refine ⟨_, hparts, he ▸ List.Perm.refl _, ?_⟩
    rw [hlen, he, List.countP_eq_length_filter]

theorem exists_sample {n : TimeSeriesNode} {t : Int} (h : t ∈ n.timestamps) : ∃ x ∈ n.samples, x.1 = t := by
  rw [← map_fst_samples] at h
  exact List.mem_map.mp h

/-- A slice from the first sample on is in the range only if that sample is. -/
theorem first_inRange {n : TimeSeriesNode} (hn : n.Valid) {j : Nat}
    (h : slice n.samples 0 (j + 1) = n.samples.filter (inRange a b)) : a ≤ n.first ∧ n.first ≤ b := by
  have hf := head?_timestamps hn
  rw [← map_fst_samples, List.head?_map, Option.map_eq_some_iff] at hf
  obtain ⟨x, hx, hxf⟩ := hf
  cases e : n.samples with
  | nil => rw [e] at hx; cases hx
  | cons y ys =>
    rw [e] at h hx
    cases hx
    have : x ∈ (x :: ys).filter (inRange a b) := by rw [← h]; simp [slice]
    simpa [inRange, hxf] using (List.mem_filter.mp this).2

/-- A start in a gap that goes to the newer node yields all of `k`, which lies before the range. -/
theorem not_exact_of_gap (hv : ∀ n ∈ newer ++ k :: older, n.Valid) {newer' : TimeSeries} {p : TimeSeriesNode}
    (he : newer = newer' ++ [p]) (hr : Found (newer ++ k :: older) b r) (hgap : Gap newer k a) :
    ¬ Exact (newer ++ k :: older) a b ⟨⟨⟨p, k :: older⟩, ts, 0⟩, r⟩ := by
  have hkv := hv k (by simp)
  have hassoc : newer ++ k :: older = newer' ++ p :: k :: older := by rw [he, List.append_assoc]; rfl
  rw [hassoc] at hv hr ⊢
  rw [exact_iff hv hr (Nat.zero_le _)]
  rintro ⟨-, -, hold⟩
  have h₁ := (first_inRange hkv (hold ⟨k, older⟩ List.mem_cons_self)).1
  have h₂ := first_le hkv (last_mem hkv)
  have h₃ := hgap.1
  omega

/-- Where the start of the range falls in its node: at its first sample there, unless it is repeated. -/
theorem indexIn_eq_below_iff (xs : List Int) (a : Int) : indexIn xs a false = below xs a ↔ xs.count a ≤ 1 := by
  have hup := upTo_eq xs a
  by_cases h : a ∈ xs
  · have := List.count_pos_iff.mpr h
    rw [indexIn, if_pos (.inr h)]
    omega
  · rw [indexIn, if_neg (by simp [h]), hup, List.count_eq_zero_of_not_mem h]
    omega

theorem indexIn_le (xs : List Int) (a : Int) : indexIn xs a false ≤ upTo xs a ∧ below xs a ≤ indexIn xs a false := by
  have hup := upTo_eq xs a
  by_cases h : a ∈ xs
  · have := List.count_pos_iff.mpr h
    rw [indexIn, if_pos (.inr h)]
    omega
  · rw [indexIn, if_neg (by simp [h])]
    omega

/-- The end of the range is not before its start. -/
theorem indexIn_le_stopAt (hv : ∀ n ∈ newer ++ k :: older, n.Valid) (hab : a ≤ b)
    (hr : Found (newer ++ k :: older) b r) :
    indexIn k.timestamps a false ≤ stopAt r ⟨k, older⟩ + 1 := by
  have hkv := hv k (by simp)
  have hle := (indexIn_le k.timestamps a).1
  by_cases hat : older.length = r.node.prev.length
  · rw [stopAt_of_eq hat]
    have hnode : (⟨k, older⟩ : AtomicNode TimeSeriesNode) = r.node := chain_eq (List.suffix_append _ _) hr.chain hat
    rcases le_or_gt k.first a with h | h
    · have := upTo_mono k.timestamps hab
      have hv : r.node.value = k := by rw [← hnode]
      have hlast := hr.last
      rw [hv] at hlast
      have := hlast (by omega)
      omega
    · have := upTo_of_lt_first hkv h
      omega
  · rw [stopAt_of_ne hat]
    have := upTo_le k.timestamps a
    have := length_pos hkv
    simp only
    omega

/-- When the newer nodes lie after the range, its end is as wanted, and its start is unless it was stored twice. -/
theorem slice_stopAt_iff (hv : (newer ++ k :: older).Valid) (hab : a ≤ b)
    (hb : TimeSeries.binarySearchNearest (newer ++ k :: older) b true = some r) (hfirst : k.first ≤ b)
    (hafter : ∀ p ∈ newer, ∀ t ∈ p.timestamps, b < t) :
    slice k.samples (indexIn k.timestamps a false) (stopAt r ⟨k, older⟩ + 1) = k.samples.filter (inRange a b) ↔
      k.timestamps.count a ≤ 1 := by
  have hkv := hv.node k (by simp)
  have hix := indexIn_le k.timestamps a
  have hup := upTo_mono k.timestamps hab
  have hlen := upTo_le k.timestamps b
  rw [stopAt_eq (fun p hp => hv.node p (by simp [hp])) hkv
      (fun p hp => hafter p hp _ (first_mem (hv.node p (by simp [hp])))) hfirst hb,
    filter_samples hkv hab, ← indexIn_eq_below_iff]
  refine ⟨fun h => ?_, fun h => by rw [h]⟩
  have hcount := congrArg List.length h
  rw [length_slice (by rw [length_samples]; exact hlen), length_slice (by rw [length_samples]; exact hlen)] at hcount
  omega

/-- A range whose start a search finds in `k` is exact just when it falls in `k`. -/
theorem exact_iff_inNode (hv : (newer ++ k :: older).Valid) (hab : a ≤ b) (hnew : ∀ p ∈ newer, a < p.first)
    (hk : k.first ≤ a ∨ older = [])
    (hb : TimeSeries.binarySearchNearest (newer ++ k :: older) b true = some r) (hgap : ¬ Gap newer k a) :
    Exact (newer ++ k :: older) a b ⟨⟨⟨k, older⟩, ts, indexIn k.timestamps a false⟩, r⟩ ↔
      InNode newer k older a b := by
  have hr : Found (newer ++ k :: older) b r := nearest_found hv.node hb
  have hkv := hv.node k (by simp)
  have hix := indexIn_le k.timestamps a
  rw [exact_iff hv.node hr (indexIn_le_stopAt hv.node hab hr)]
  have hstop := slice_stopAt_iff hv hab hb
  constructor
  · rintro ⟨hn, hki, hold⟩
    have hafter : ∀ p ∈ newer, ∀ t ∈ p.timestamps, b < t := fun p hp t ht => lt_of_not_ge fun htb => by
      have h₁ := hnew p hp
      have h₂ := first_le (hv.node p (by simp [hp])) ht
      obtain ⟨x, hx, rfl⟩ := exists_sample ht
      have := List.filter_eq_nil_iff.mp hn x (List.mem_flatMap.mpr ⟨p, hp, hx⟩)
      exact this (by simp only [inRange, decide_eq_true_eq]; omega)
    have hfirst : k.first ≤ b := by
      rcases le_or_gt k.first a with h | h
      · omega
      · have := upTo_of_lt_first hkv h
        rw [show indexIn k.timestamps a false = 0 by omega] at hki
        exact (first_inRange hkv hki).2
    refine ⟨hfirst, hafter, fun m hm t ht => ?_, (hstop hfirst hafter).mp hki, hgap⟩
    rw [← map_value_atomicStackIter older] at hm
    obtain ⟨m, hm', rfl⟩ := List.mem_map.mp hm
    have hmo := (mem_atomicStackIter hm').mem (show m.value ∈ m.chain from List.mem_cons_self)
    have hmv := hv.node m.value (by simp [hmo])
    have h₁ := (first_inRange hmv (hold m hm')).1
    have h₂ := first_le hmv ht
    have h₃ := (List.pairwise_cons.mp (List.pairwise_append.mp hv.across).2.1).1 m.value hmo t ht _ (first_mem hkv)
    have h₄ := hk.resolve_right (List.ne_nil_of_mem hmo)
    omega
  · intro h
    refine ⟨?_, (hstop h.first h.after).mpr h.once, fun m hm => ?_⟩
    · rw [List.filter_eq_nil_iff]
      intro x hx
      obtain ⟨p, hp, hx⟩ := List.mem_flatMap.mp hx
      have := h.after p hp x.1 (fst_mem_of_mem_samples hx)
      simp only [inRange, decide_eq_true_eq]
      omega
    · have hsuf := mem_atomicStackIter hm
      have hmo := hsuf.mem (show m.value ∈ m.chain from List.mem_cons_self)
      have hlt := hsuf.length_le
      have hle := searchNodes_not_past (fun p hp => hv.node p (by simp [hp])) hkv h.first (by simp) hb
      simp only [AtomicNode.chain, List.length_cons] at hlt
      rw [stopAt_of_ne (by omega), Nat.sub_add_cancel (length_pos (hv.node _ (by simp [hmo]))),
        slice_full _ (Nat.le_of_eq (length_samples _)), eq_comm, List.filter_eq_self]
      intro x hx
      have := h.before m.value hmo x.1 (fst_mem_of_mem_samples hx)
      simp only [inRange, decide_eq_true_eq]
      omega

end

/-- A range query is answered exactly just when the range falls in one node. -/
theorem getRange_exact_iff {list : TimeSeries} (hv : list.Valid) {a b : Int} (hab : a ≤ b) :
    (∀ s, list.getRange a b = some s → Exact list a b s) ↔ InOneNode list a b := by
  by_cases hne : list = []
  · subst hne
    exact ⟨fun _ => .inl rfl, fun _ _ h => by cases h⟩
  have hsome : (list.binarySearchNearest b true).isSome := by
    obtain ⟨newer, k, rfl⟩ := (List.eq_nil_or_concat' list).resolve_left hne
    exact searchNodes_isSome true (fun p hp => hv.node p (by simp [hp])) (hv.node k (by simp)) (.inr rfl)
  obtain ⟨r, hb⟩ := Option.isSome_iff_exists.mp hsome
  -- The range's two ends are found, so the query is a slice.
  have hget : ∀ r₀, list.binarySearchNearest a false = some r₀ →
      ((∀ s, list.getRange a b = some s → Exact list a b s) ↔ Exact list a b ⟨r₀, r⟩) := fun r₀ h₀ => by
    simp [TimeSeries.getRange, h₀, show list.binarySearchNearest b true = some r from hb]
  have split : ∀ newer k older, list = newer ++ k :: older → (∀ p ∈ newer, a < p.first) →
      (k.first ≤ a ∨ older = []) →
      ((∀ s, list.getRange a b = some s → Exact list a b s) ↔ InNode newer k older a b) := by
    rintro newer k older rfl hnew hk
    have hvn : ∀ p ∈ newer, p.Valid := fun p hp => hv.node p (by simp [hp])
    have hkv := hv.node k (by simp)
    by_cases hgap : Gap newer k a
    · obtain ⟨newer', p, ts, he, h₀⟩ := nearest_start_gap hvn hkv hnew hgap
      rw [hget _ h₀]
      exact ⟨fun h => absurd h (not_exact_of_gap hv.node he
        (nearest_found hv.node hb) hgap), fun h => absurd hgap h.near⟩
    · obtain ⟨ts, h₀⟩ := nearest_start hvn hkv hnew hk hgap
      rw [hget _ h₀]
      exact exact_iff_inNode hv hab hnew hk hb hgap
  constructor
  · intro h
    obtain ⟨newer, k, older, he, hnew, hk⟩ := exists_split hne a
    exact .inr ⟨newer, k, older, he, hk, (split newer k older he hnew hk).mp h⟩
  · rintro (h | ⟨newer, k, older, he, hk, h⟩)
    · exact absurd h hne
    · refine (split newer k older he (fun p hp => ?_) hk).mpr h
      have := h.after p hp p.first (first_mem (hv.node p (by simp [he, hp])))
      omega

/-- A node with one-byte elements. -/
def byteNode (timestamps : List Int) (data : Bytes) : TimeSeriesNode :=
  ⟨"0", ⟨0, TimeSeriesNode.nodeSize + 1, timestamps⟩, ⟨1, TimeSeriesNode.nodeSize + 1, data⟩⟩

/-- The last two of three samples in one node, under a newer one. -/
theorem getRange_exact_two : ∃ s, TimeSeries.getRange [byteNode [9] [4], byteNode [1, 2, 3] [1, 2, 3]] 2 5 = some s ∧
    Exact [byteNode [9] [4], byteNode [1, 2, 3] [1, 2, 3]] 2 5 s := by
  have hv : TimeSeries.Valid [byteNode [9] [4], byteNode [1, 2, 3] [1, 2, 3]] := by
    refine ⟨fun n hn => ?_, by decide⟩
    simp only [List.mem_cons, List.not_mem_nil, or_false] at hn
    rcases hn with rfl | rfl <;> exact ⟨by decide, by decide, by decide⟩
  refine ⟨_, rfl, (getRange_exact_iff hv (by decide)).mpr (.inr ⟨[byteNode [9] [4]], _, [], rfl, .inr rfl, ?_⟩) _ rfl⟩
  exact ⟨by decide, by decide, by decide, by decide, fun h => absurd h.1 (by decide)⟩

/-- Two samples in two nodes: a range of both yields only the older. -/
theorem two_nodes_not_exact : ¬ ∀ (list : TimeSeries) (a b : Int), list.Valid → a ≤ b →
    ∀ s, list.getRange a b = some s → Exact list a b s := by
  intro h
  have hv : TimeSeries.Valid [byteNode [2] [8], byteNode [1] [7]] := by
    refine ⟨fun n hn => ?_, by decide⟩
    simp only [List.mem_cons, List.not_mem_nil, or_false] at hn
    rcases hn with rfl | rfl <;> exact ⟨by decide, by decide, by decide⟩
  obtain ⟨-, -, -, hlen⟩ := h _ 1 2 hv (by decide) _ rfl
  revert hlen
  decide

end Metor.Proof.TimeSeries
