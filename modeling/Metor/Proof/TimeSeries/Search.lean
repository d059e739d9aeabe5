import Metor.Lib.Sorted
import Metor.Spec.Series

/-!
# The searches over a time series

`binarySearch` on a sorted list is decided by how many items are at most the
one searched for (`binarySearch_spec`): it finds the last of them. The walk of
`binary_search_nearest` skips the nodes that start after the time searched
for, keeping the last of them (`searchNodes_append`), and stops at the first
other node (`searchNodes_cons`).
-/

namespace Metor.Proof.TimeSeries

open Metor.Lib Metor.Impl

/-! ## `binary_search` -/

/-- How many of the items are at most `x`. -/
def upTo (xs : List Int) (x : Int) : Nat := xs.countP fun y => decide (y ≤ x)

/-- How many of the items are below `x`. -/
def below (xs : List Int) (x : Int) : Nat := xs.countP fun y => decide (y < x)

theorem upTo_eq (xs : List Int) (x : Int) : upTo xs x = below xs x + xs.count x := by
  simpa [upTo, below] using countP_le_eq id xs x

theorem upTo_le (xs : List Int) (x : Int) : upTo xs x ≤ xs.length := List.countP_le_length

/-- The items at most `x` are the first `n`. -/
theorem upTo_eq_of_split {xs : List Int} {x : Int} {n : Nat} (hn : n ≤ xs.length)
    (hlow : ∀ i (h : i < xs.length), i < n → xs[i] ≤ x) (hhigh : ∀ i (h : i < xs.length), n ≤ i → x < xs[i]) :
    upTo xs x = n := by
  rw [upTo, ← List.take_append_drop n xs, List.countP_append, List.countP_eq_length.mpr, List.countP_eq_zero.mpr]
  · simp [hn]
  · intro y hy
    obtain ⟨i, hi, rfl⟩ := List.mem_drop_iff_getElem.mp hy
    simpa using hhigh (n + i) (by omega) (by omega)
  · intro y hy
    obtain ⟨i, hi, rfl⟩ := List.mem_take_iff_getElem.mp hy
    simpa using hlow i (by omega) (by omega)

theorem upTo_cons_of_lt {x t : Int} {xs : List Int} (hs : (x :: xs).Pairwise (· ≤ ·)) (h : t < x) : upTo (x :: xs) t = 0 := by
  refine List.countP_eq_zero.mpr fun y hy => ?_
  have : x ≤ y := by
    rcases List.mem_cons.mp hy with rfl | hy
    · exact Int.le_refl _
    · exact (List.pairwise_cons.mp hs).1 y hy
  simp only [decide_eq_true_eq]
  omega

theorem upTo_cons_of_le {x t : Int} {xs : List Int} (h : x ≤ t) : upTo (x :: xs) t = upTo xs t + 1 :=
  List.countP_cons_of_pos (decide_eq_true h)

/-- The items of a sorted list before `upTo` are at most `t`, the others are after it. -/
theorem getElem_le_iff {xs : List Int} (hs : xs.Pairwise (· ≤ ·)) (t : Int) {i : Nat} (hi : i < xs.length) :
    xs[i] ≤ t ↔ i < upTo xs t := by
  induction xs generalizing i with
  | nil => exact absurd hi (Nat.not_lt_zero i)
  | cons x xs ih =>
    rcases lt_or_ge t x with h | h
    · have hx : x ≤ (x :: xs)[i] := getElem_le_getElem hs (Nat.zero_lt_succ _) hi (Nat.zero_le i)
      rw [upTo_cons_of_lt hs h]
      omega
    · rw [upTo_cons_of_le h]
      cases i with
      | zero => exact iff_of_true h (Nat.zero_lt_succ _)
      | succ i =>
        rw [List.getElem_cons_succ, ih (List.pairwise_cons.mp hs).2 (Nat.lt_of_succ_lt_succ hi)]
        exact Nat.succ_lt_succ_iff.symm

/-- An item of a sorted list is the last of those up to it. -/
theorem getElem?_upTo {xs : List Int} (hs : xs.Pairwise (· ≤ ·)) {t : Int} (ht : t ∈ xs) :
    xs[upTo xs t - 1]? = some t := by
  obtain ⟨j, hj, e⟩ := List.mem_iff_getElem.mp ht
  have hlt : j < upTo xs t := (getElem_le_iff hs t hj).mp e.le
  have hi : upTo xs t - 1 < xs.length := by
    have := upTo_le xs t
    omega
  have hle : xs[upTo xs t - 1] ≤ t := (getElem_le_iff hs t hi).mpr (by omega)
  have hge : xs[j] ≤ xs[upTo xs t - 1] := getElem_le_getElem hs hj hi (by omega)
  rw [List.getElem?_eq_getElem hi]
  exact congrArg some (le_antisymm hle (e ▸ hge))

/-- The loop keeps the last item that is at most `x` between `base` and
`base + size`, if there is one; otherwise `base` stays 0. -/
theorem searchLoop_spec {xs : List Int} (hs : xs.Pairwise (· ≤ ·)) {x : Int} {fuel base size : Nat}
    (hf : size ≤ fuel + 1) (hpos : 0 < size) (hle : base + size ≤ xs.length)
    (hlow : base = 0 ∨ ∀ i (h : i < xs.length), i ≤ base → xs[i] ≤ x)
    (hhigh : ∀ i (h : i < xs.length), base + size ≤ i → x < xs[i]) :
    ∃ r, searchLoop xs x fuel base size = r ∧ r < xs.length ∧
      (r = 0 ∨ ∀ i (h : i < xs.length), i ≤ r → xs[i] ≤ x) ∧
      ∀ i (h : i < xs.length), r < i → x < xs[i] := by
  induction fuel generalizing base size with
  | zero => exact ⟨base, rfl, by omega, hlow, fun i h hi => hhigh i h (by omega)⟩
  | succ fuel ih =>
    rw [searchLoop]
    split
    · have hmid : base + size / 2 < xs.length := by omega
      have hget : xs.getD (base + size / 2) 0 = xs[base + size / 2] := by simp [hmid]
      simp only [hget]
      refine ih (by omega) (by omega) ?_ ?_ ?_
      · split <;> omega
      · split
        · exact hlow
        · refine .inr fun i h hi => ?_
          have := getElem_le_getElem hs h hmid hi
          omega
      · split
        · intro i h hi
          have := getElem_le_getElem hs hmid h (by omega)
          omega
        · intro i h hi
          exact hhigh i h (by omega)
    · exact ⟨base, rfl, by omega, hlow, fun i h hi => hhigh i h (by omega)⟩

/-- `binary_search` finds the last item at most `x`, or the place after it. -/
theorem binarySearch_spec {xs : List Int} (hs : xs.Pairwise (· ≤ ·)) (x : Int) :
    (x ∈ xs → binarySearch xs x = .ok (upTo xs x - 1)) ∧ (x ∉ xs → binarySearch xs x = .error (upTo xs x)) := by
  rcases Nat.eq_zero_or_pos xs.length with h0 | hpos
  · obtain rfl := List.eq_nil_of_length_eq_zero h0
    exact ⟨nofun, fun _ => rfl⟩
  obtain ⟨r, hr, hlt, hlow, hhigh⟩ := @searchLoop_spec xs hs x xs.length 0 xs.length
    (by omega) hpos (by omega) (.inl rfl) (fun i h hi => by omega)
  have hget : xs.getD r 0 = xs[r] := by simp [hlt]
  simp only [binarySearch, hr, hget, if_neg (Nat.ne_of_gt hpos)]
  by_cases hx : xs[r] ≤ x
  · have hup : upTo xs x = r + 1 := by
      refine upTo_eq_of_split (by omega) (fun i h hi => ?_) fun i h hi => hhigh i h (by omega)
      rcases hlow with rfl | hlow
      · obtain rfl : i = 0 := by omega
        exact hx
      · exact hlow i h (by omega)
    constructor
    · intro hm
      obtain ⟨i, hi, rfl⟩ := List.mem_iff_getElem.mp hm
      have hir : i ≤ r := Nat.le_of_not_lt fun h => by have := hhigh i hi h; omega
      have hle := getElem_le_getElem hs hi hlt hir
      rw [if_pos (by omega), hup, Nat.add_sub_cancel]
    · intro hm
      have hne : xs[r] ≠ x := fun e => hm (e ▸ List.getElem_mem hlt)
      rw [if_neg hne, if_pos (by omega), hup]
  · have hr0 : r = 0 := hlow.resolve_right fun h => hx (h r hlt (Nat.le_refl r))
    have hup : upTo xs x = 0 := by
      refine upTo_eq_of_split (Nat.zero_le _) (fun i h hi => by omega) fun i h hi => ?_
      rcases Nat.eq_zero_or_pos i with rfl | hi
      · subst hr0; omega
      · exact hhigh i h (by omega)
    constructor
    · intro hm
      obtain ⟨i, hi, rfl⟩ := List.mem_iff_getElem.mp hm
      have : 0 < upTo xs xs[i] := List.countP_pos_iff.mpr ⟨xs[i], hm, by simp⟩
      omega
    · intro hm
      rw [if_neg (by omega), if_neg (by omega), hup, hr0]

/-- The last of a sorted list. -/
theorem le_of_getLast? {xs : List Int} (hs : xs.Pairwise (· ≤ ·)) {l : Int} (hl : xs.getLast? = some l) {x : Int}
    (hx : x ∈ xs) : x ≤ l := by
  obtain ⟨ys, e⟩ := List.getLast?_eq_some_iff.mp hl
  rw [e] at hs hx
  rcases List.mem_append.mp hx with hx | hx
  · exact (List.pairwise_append.mp hs).2.2 x hx _ (List.mem_singleton_self _)
  · rw [List.mem_singleton.mp hx]

/-! ## Nodes -/

section
variable {n : TimeSeriesNode}

theorem head?_eq_first (h : n.timestamps ≠ []) : n.timestamps.head? = some n.first := by
  obtain ⟨x, xs, e⟩ := List.exists_cons_of_ne_nil h
  rw [TimeSeriesNode.first, e]
  rfl

theorem getLast?_eq_last (h : n.timestamps ≠ []) : n.timestamps.getLast? = some n.last := by
  rw [TimeSeriesNode.last, List.getLastD_eq_getLast?, List.getLast?_eq_some_getLast h, Option.getD_some]

theorem head?_timestamps (h : n.Valid) : n.timestamps.head? = some n.first := head?_eq_first h.ne_nil

theorem getLast?_timestamps (h : n.Valid) : n.timestamps.getLast? = some n.last := getLast?_eq_last h.ne_nil

theorem length_pos (h : n.Valid) : 0 < n.timestamps.length := List.length_pos_iff.mpr h.ne_nil

theorem first_mem (h : n.Valid) : n.first ∈ n.timestamps := List.mem_of_head? (head?_timestamps h)

theorem last_mem (h : n.Valid) : n.last ∈ n.timestamps := List.mem_of_getLast? (getLast?_timestamps h)

theorem first_le (h : n.Valid) {x : Int} (hx : x ∈ n.timestamps) : n.first ≤ x := by
  have hs := h.sorted
  have hf := head?_timestamps h
  cases e : n.timestamps with
  | nil => exact absurd e h.ne_nil
  | cons y ys =>
    rw [e] at hs hf hx
    cases hf
    rcases List.mem_cons.mp hx with rfl | hx
    · exact Int.le_refl _
    · exact (List.pairwise_cons.mp hs).1 x hx

theorem le_last (h : n.Valid) {x : Int} (hx : x ∈ n.timestamps) : x ≤ n.last :=
  le_of_getLast? h.sorted (getLast?_timestamps h) hx

theorem upTo_of_last_le (h : n.Valid) {x : Int} (hx : n.last ≤ x) : upTo n.timestamps x = n.timestamps.length :=
  List.countP_eq_length.mpr fun _ hy => decide_eq_true ((le_last h hy).trans hx)

theorem upTo_of_lt_first (h : n.Valid) {x : Int} (hx : x < n.first) : upTo n.timestamps x = 0 :=
  List.countP_eq_zero.mpr fun _ hy => by simpa using hx.trans_le (first_le h hy)

theorem upTo_pos (h : n.Valid) {x : Int} (hx : n.first ≤ x) : 0 < upTo n.timestamps x :=
  List.countP_pos_iff.mpr ⟨n.first, first_mem h, decide_eq_true hx⟩

theorem upTo_mono (xs : List Int) {x y : Int} (h : x ≤ y) : upTo xs x ≤ upTo xs y :=
  List.countP_mono_left fun _ _ hz => decide_eq_true ((of_decide_eq_true hz).trans h)

end

/-! ## `binary_search_nearest` -/

section
variable {t : Int} {inclusive : Bool} {prevNode : Option TimestampRef} {k : TimeSeriesNode} {older : TimeSeries}

/-- A node that starts after `t` is kept and skipped. -/
theorem searchNodes_skip (hk : k.Valid) (h : t < k.first) : TimeSeries.searchNodes t inclusive prevNode (k :: older) =
    TimeSeries.searchNodes t inclusive (some ⟨⟨k, older⟩, k.last, 0⟩) older := by
  have := first_le hk (last_mem hk)
  simp only [TimeSeries.searchNodes, head?_timestamps hk, getLast?_timestamps hk]
  rw [if_neg (by omega), if_pos h]

theorem searchNodes_append {newer : TimeSeries} (hv : ∀ p ∈ newer, p.Valid) (h : ∀ p ∈ newer, t < p.first)
    (rest : TimeSeries) : TimeSeries.searchNodes t inclusive prevNode (newer ++ rest) =
      TimeSeries.searchNodes t inclusive ((newer.getLast?.map fun p => ⟨⟨p, rest⟩, p.last, 0⟩).or prevNode) rest := by
  induction newer generalizing prevNode with
  | nil => rfl
  | cons p newer ih =>
    rw [List.cons_append, searchNodes_skip (hv p List.mem_cons_self) (h p List.mem_cons_self),
      ih (fun q hq => hv q (List.mem_cons_of_mem _ hq)) fun q hq => h q (List.mem_cons_of_mem _ hq)]
    cases newer with
    | nil => rfl
    | cons q newer => rw [List.getLast?_cons_cons, List.getLast?_eq_some_getLast (List.cons_ne_nil q newer)]; rfl

/-- Where the search in a node that spans `t` ends. -/
def indexIn (xs : List Int) (t : Int) (inclusive : Bool) : Nat :=
  if inclusive ∨ t ∈ xs then upTo xs t - 1 else upTo xs t

theorem searchNodes_within (inclusive : Bool) (prevNode : Option TimestampRef) (older : TimeSeries) (hk : k.Valid)
    (h₁ : k.first ≤ t) (h₂ : t ≤ k.last) : TimeSeries.searchNodes t inclusive prevNode (k :: older) =
      some ⟨⟨k, older⟩, k.timestamps.getD (indexIn k.timestamps t inclusive) k.last,
        indexIn k.timestamps t inclusive⟩ := by
  simp only [TimeSeries.searchNodes, head?_timestamps hk, getLast?_timestamps hk]
  rw [if_neg (by omega), if_neg (by omega)]
  obtain ⟨hm, hn⟩ := binarySearch_spec hk.sorted t
  by_cases ht : t ∈ k.timestamps
  · simp only [hm ht, indexIn, ht, or_true, if_true]
  · cases inclusive <;> simp [hn ht, indexIn, ht]

theorem searchNodes_mid (inclusive : Bool) (prevNode : Option TimestampRef) (older : TimeSeries) (hk : k.Valid)
    (h₁ : k.first ≤ t) (h₂ : t ≤ k.last) :
    ∃ ts, TimeSeries.searchNodes t inclusive prevNode (k :: older) =
      some ⟨⟨k, older⟩, ts, indexIn k.timestamps t inclusive⟩ :=
  ⟨_, searchNodes_within inclusive prevNode older hk h₁ h₂⟩

theorem searchNodes_past (hk : k.Valid) (h : k.last < t) :
    TimeSeries.searchNodes t inclusive prevNode (k :: older) =
      if ∃ p ∈ prevNode, (p.timestamp - t).natAbs < (k.first - t).natAbs then prevNode
      else some ⟨⟨k, older⟩, k.first, k.timestamps.length - inclusive.toNat⟩ := by
  simp only [TimeSeries.searchNodes, head?_timestamps hk, getLast?_timestamps hk, gt_iff_lt, if_pos h]
  cases prevNode with
  | none => simp
  | some p => simp

end

end Metor.Proof.TimeSeries
