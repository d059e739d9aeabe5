import Mathlib.Data.List.Sort
import Mathlib.Data.List.Forall2
import Metor.Lib.Slice

/-!
# Ranges of a sorted list

The items of a sorted list whose keys lie in a range are a slice of it, from
the number of keys below the range to the number of keys not above it
(`filter_range_eq_slice`). `eq_filter_of_perm` is for a range assembled from
several parts: parts taken in order from the items, which together are a
permutation of the items wanted, are each exactly the items wanted. A sorted
list is what is below a bound, then the rest (`filter_append_filter`), and what
comes before a place is at most what is there (`le_of_mem_take`).
-/

namespace Metor.Lib

variable {α β : Type*} [LinearOrder α]

theorem getElem_le_getElem {xs : List α} (hs : xs.Pairwise (· ≤ ·)) {i j : Nat} (hi : i < xs.length)
    (hj : j < xs.length) (h : i ≤ j) : xs[i] ≤ xs[j] := by
  rcases Nat.lt_or_eq_of_le h with h | rfl
  · exact List.pairwise_iff_getElem.mp hs i j hi hj h
  · exact le_refl _

theorem countP_lt_eq_zero {a : α} {x : β} {xs : List β} {key : β → α} (hx : a ≤ key x)
    (h : ∀ y ∈ xs, key x ≤ key y) : xs.countP (fun y => decide (key y < a)) = 0 := by
  rw [List.countP_eq_zero]
  intro y hy
  simpa using hx.trans (h y hy)

theorem countP_le_eq_zero {b : α} {x : β} {xs : List β} {key : β → α} (hx : b < key x)
    (h : ∀ y ∈ xs, key x ≤ key y) : xs.countP (fun y => decide (key y ≤ b)) = 0 := by
  rw [List.countP_eq_zero]
  intro y hy
  simpa using hx.trans_le (h y hy)

/-- The items of a sorted list with a key in `a..=b`. -/
theorem filter_range_eq_slice (key : β → α) {xs : List β} (hs : xs.Pairwise fun x y => key x ≤ key y) {a b : α}
    (hab : a ≤ b) : xs.filter (fun x => decide (a ≤ key x ∧ key x ≤ b)) =
      slice xs (xs.countP fun x => decide (key x < a)) (xs.countP fun x => decide (key x ≤ b)) := by
  induction xs with
  | nil => rfl
  | cons x xs ih =>
    obtain ⟨hx, hs⟩ := List.pairwise_cons.mp hs
    have ih := ih hs
    rcases lt_or_ge (key x) a with h | h
    · rw [List.filter_cons_of_neg (by simp [h]), List.countP_cons_of_pos (by simpa using h),
        List.countP_cons_of_pos (by simpa using h.le.trans hab), ih]
      simp [slice]
    rw [List.countP_cons_of_neg (by simpa using h), countP_lt_eq_zero h hx] at *
    rcases le_or_gt (key x) b with h' | h'
    · rw [List.filter_cons_of_pos (by simp [h, h']), List.countP_cons_of_pos (by simpa using h'), ih]
      simp [slice]
    · rw [List.countP_cons_of_neg (by simpa using h'), countP_le_eq_zero h' hx, slice_of_le _ (Nat.le_refl 0),
        List.filter_eq_nil_iff]
      rintro y hy
      rcases List.mem_cons.mp hy with rfl | hy
      · simp [h']
      · have := h'.trans_le (hx y hy)
        simp [this]

/-- How many keys of a list are at most `a`: those below, and those equal. -/
theorem countP_le_eq (key : β → α) [BEq α] [LawfulBEq α] (xs : List β) (a : α) :
    xs.countP (fun x => decide (key x ≤ a)) =
      xs.countP (fun x => decide (key x < a)) + (xs.map key).count a := by
  induction xs with
  | nil => rfl
  | cons x xs ih =>
    simp only [List.countP_cons, List.map_cons, List.count_cons, ih, decide_eq_true_eq, beq_iff_eq]
    rcases lt_trichotomy (key x) a with h | h | h
    · simp [h, h.le, h.ne]; omega
    · simp [h]; omega
    · simp [h.not_ge, h.not_gt, h.ne']

section
variable {γ : Type*} {ps xs : List (List γ)}

theorem sublist_flatten (h : List.Forall₂ List.Sublist ps xs) : ps.flatten.Sublist xs.flatten := by
  induction h with
  | nil => exact .slnil
  | cons hp _ ih => exact hp.append ih

/-- Sublists that are as long, all together, as the lists they are taken from. -/
theorem eq_of_forall₂_sublist (h : List.Forall₂ List.Sublist ps xs)
    (hl : xs.flatten.length ≤ ps.flatten.length) : ps = xs := by
  induction h with
  | nil => rfl
  | @cons p x ps xs hp h ih =>
    have h₁ := hp.length_le
    have h₂ := (sublist_flatten h).length_le
    simp only [List.flatten_cons, List.length_append] at hl
    rw [hp.eq_of_length (by omega), ih (by omega)]

/-- Parts of `xs` that together are the items of `rest` and `xs` with `q` are
just those of each, and `rest` has none. -/
theorem eq_filter_of_perm {q : γ → Bool} {rest : List γ} (h : List.Forall₂ List.Sublist ps xs)
    (hp : ps.flatten.Perm (rest.filter q ++ xs.flatten.filter q)) :
    rest.filter q = [] ∧ ps = xs.map (List.filter q) := by
  have hq : ∀ p ∈ ps, ∀ y ∈ p, q y = true := fun p hp' y hy => by
    have := hp.mem_iff.mp (List.mem_flatten_of_mem hp' hy)
    simp only [List.mem_append, List.mem_filter] at this
    rcases this with h | h <;> exact h.2
  have hs : List.Forall₂ List.Sublist ps (xs.map (List.filter q)) := by
    clear hp
    induction h with
    | nil => exact .nil
    | @cons p x ps xs hpx _ ih =>
      refine .cons ?_ (ih fun p hp => hq p (List.mem_cons_of_mem _ hp))
      rw [← List.filter_eq_self.mpr (hq p List.mem_cons_self)]
      exact hpx.filter q
  have hl := hp.length_eq
  have hle := (sublist_flatten hs).length_le
  rw [List.length_append, List.filter_flatten] at hl
  refine ⟨List.eq_nil_of_length_eq_zero (by omega), eq_of_forall₂_sublist hs (by omega)⟩

end

section
variable {l : List α} {t v : α} {n : Nat}

theorem filter_lt_eq_nil {a : α} (h : ∀ b ∈ l, a ≤ b) (ht : t ≤ a) : l.filter (fun b => decide (b < t)) = [] := by
  refine List.filter_eq_nil_iff.mpr fun b hb => ?_
  simpa using ht.trans (h b hb)

theorem filter_le_eq_self {a : α} (h : ∀ b ∈ l, a ≤ b) (ht : t ≤ a) : l.filter (fun b => decide (t ≤ b)) = l := by
  refine List.filter_eq_self.mpr fun b hb => ?_
  simpa using ht.trans (h b hb)

/-- A sorted list is what is below a bound, and then what is not. -/
theorem filter_append_filter (h : l.Pairwise (· ≤ ·)) (t : α) :
    l.filter (fun a => decide (a < t)) ++ l.filter (fun a => decide (t ≤ a)) = l := by
  induction l with
  | nil => rfl
  | cons a l ih =>
    obtain ⟨ha, hl⟩ := List.pairwise_cons.mp h
    rcases lt_or_ge a t with hat | hta
    · rw [List.filter_cons_of_pos (by simpa using hat), List.filter_cons_of_neg (by simpa using hat), List.cons_append, ih hl]
    · rw [List.filter_cons_of_neg (by simpa using hta), List.filter_cons_of_pos (by simpa using hta), filter_lt_eq_nil ha hta,
        filter_le_eq_self ha hta, List.nil_append]

theorem dropWhile_lt_eq_filter (h : l.Pairwise (· ≤ ·)) (t : α) :
    l.dropWhile (fun a => decide (a < t)) = l.filter fun a => decide (t ≤ a) := by
  induction l with
  | nil => rfl
  | cons a l ih =>
    obtain ⟨ha, hl⟩ := List.pairwise_cons.mp h
    rcases lt_or_ge a t with hat | hta
    · rw [List.dropWhile_cons_of_pos (by simpa using hat), List.filter_cons_of_neg (by simpa using hat), ih hl]
    · rw [List.dropWhile_cons_of_neg (by simpa using hta), List.filter_cons_of_pos (by simpa using hta),
        filter_le_eq_self ha hta]

/-- What comes before a place is at most what is there. -/
theorem le_of_mem_take (h : l.Pairwise (· ≤ ·)) (ht : l[n]? = some t) {a : α} (ha : a ∈ l.take (n + 1)) : a ≤ t := by
  obtain ⟨k, hk, rfl⟩ := List.mem_iff_getElem.mp ha
  obtain ⟨hn, rfl⟩ := List.getElem?_eq_some_iff.mp ht
  rw [List.length_take] at hk
  rw [List.getElem_take]
  exact getElem_le_getElem h _ hn (by omega)

theorem le_of_mem_drop (h : l.Pairwise (· ≤ ·)) (ht : l[n]? = some t) {a : α} (ha : a ∈ l.drop n) : t ≤ a := by
  obtain ⟨k, hk, rfl⟩ := List.mem_iff_getElem.mp ha
  obtain ⟨hn, rfl⟩ := List.getElem?_eq_some_iff.mp ht
  rw [List.getElem_drop]
  exact getElem_le_getElem h hn _ (by omega)

/-- A place that its item has not filled alone has a smaller one before it. -/
theorem exists_lt_of_count (h : l.Pairwise (· ≤ ·)) (ht : l[n]? = some t) (hcount : l.count t < n + 1) : ∃ a ∈ l, a < t := by
  by_contra hnone
  have hall : ∀ a ∈ l.take (n + 1), t = a := fun a ha =>
    le_antisymm (not_lt.mp fun hlt => hnone ⟨a, List.mem_of_mem_take ha, hlt⟩) (le_of_mem_take h ht ha)
  have hlen : (l.take (n + 1)).length = n + 1 := by
    have hn := (List.getElem?_eq_some_iff.mp ht).1
    rw [List.length_take]
    omega
  have htake := List.count_eq_length.mpr hall
  have hle := (List.take_sublist (n + 1) l).count_le t
  omega

/-- What is below the item of a place is there less often than there are places up to it. -/
theorem count_lt_of_lt (h : l.Pairwise (· ≤ ·)) (ht : l[n]? = some t) (hv : v < t) : l.count v < n + 1 := by
  have hdrop : (l.drop n).count v = 0 :=
    List.count_eq_zero.mpr fun hmem => not_lt.mpr (le_of_mem_drop h ht hmem) hv
  have htake := List.count_le_length (a := v) (l := l.take n)
  have hlen := List.length_take_le n l
  rw [← List.take_append_drop n l, List.count_append, hdrop]
  omega

end

end Metor.Lib
