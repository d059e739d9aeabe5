import Mathlib.Algebra.BigOperators.Group.List.Basic
import Mathlib.Algebra.Order.BigOperators.Group.List
import Mathlib.Algebra.Order.Ring.Int
import Mathlib.Data.List.Induction

/-!
# Sums that saturate

`satSum lo hi` adds integers and clamps after each addition. While no partial
sum leaves the range it is the sum (`satSum_eq_sum`). Integers of one sign
saturate at most once, so that theirs is the clamped sum
(`satSum_of_oneSigned`); with both signs it may be neither.
-/

namespace Metor.Lib

/-- `n`, or the end of the range that it is beyond. -/
def clampTo (lo hi n : Int) : Int := max lo (min hi n)

def satSum (lo hi : Int) (xs : List Int) : Int := xs.foldl (fun acc x => clampTo lo hi (acc + x)) 0

/-- No value is negative, or none is positive. -/
def OneSigned (xs : List Int) : Prop := (∀ x ∈ xs, 0 ≤ x) ∨ ∀ x ∈ xs, x ≤ 0

variable {lo hi n : Int} {xs : List Int}

theorem clampTo_of_mem (h : lo ≤ n ∧ n ≤ hi) : clampTo lo hi n = n := by
  unfold clampTo
  omega

theorem clampTo_mem (h : lo ≤ hi) (n : Int) : lo ≤ clampTo lo hi n ∧ clampTo lo hi n ≤ hi := by
  unfold clampTo
  omega

theorem satSum_concat (lo hi : Int) (xs : List Int) (x : Int) :
    satSum lo hi (xs ++ [x]) = clampTo lo hi (satSum lo hi xs + x) := by
  rw [satSum, List.foldl_append]
  rfl

theorem satSum_mem (hlo : lo ≤ 0) (hhi : 0 ≤ hi) (xs : List Int) : lo ≤ satSum lo hi xs ∧ satSum lo hi xs ≤ hi := by
  rcases List.eq_nil_or_concat' xs with rfl | ⟨xs, x, rfl⟩
  · exact ⟨hlo, hhi⟩
  · rw [satSum_concat]
    exact clampTo_mem (by omega) _

/-- No partial sum leaves the range. -/
theorem satSum_eq_sum (h : ∀ k ≤ xs.length, lo ≤ (xs.take k).sum ∧ (xs.take k).sum ≤ hi) : satSum lo hi xs = xs.sum := by
  induction xs using List.reverseRecOn with
  | nil => rfl
  | append_singleton xs x ih =>
    have hlen : (xs ++ [x]).length = xs.length + 1 := by rw [List.length_append, List.length_singleton]
    have hinit : satSum lo hi xs = xs.sum := ih fun k hk => by
      have := h k (by omega)
      rwa [List.take_append_of_le_length hk] at this
    have hall := h (xs ++ [x]).length (Nat.le_refl _)
    rw [List.take_length, List.sum_append, List.sum_singleton] at hall
    rw [satSum_concat, hinit, clampTo_of_mem hall, List.sum_append, List.sum_singleton]

theorem sum_nonpos (h : ∀ x ∈ xs, x ≤ 0) : xs.sum ≤ 0 := by
  induction xs with
  | nil => exact Int.le_refl 0
  | cons x xs ih =>
    obtain ⟨hx, hxs⟩ := List.forall_mem_cons.mp h
    have := ih hxs
    rw [List.sum_cons]
    omega

theorem satSum_of_oneSigned (hlo : lo ≤ 0) (hhi : 0 ≤ hi) (h : OneSigned xs) : satSum lo hi xs = clampTo lo hi xs.sum := by
  induction xs using List.reverseRecOn with
  | nil => exact (clampTo_of_mem ⟨hlo, hhi⟩).symm
  | append_singleton xs x ih =>
    rw [satSum_concat, List.sum_append, List.sum_singleton]
    rcases h with h | h
    · have hx : 0 ≤ x := h x (by simp)
      have hxs : ∀ y ∈ xs, 0 ≤ y := fun y hy => h y (List.mem_append_left _ hy)
      have hsum : 0 ≤ xs.sum := List.sum_nonneg hxs
      rw [ih (.inl hxs)]
      unfold clampTo
      omega
    · have hx : x ≤ 0 := h x (by simp)
      have hxs : ∀ y ∈ xs, y ≤ 0 := fun y hy => h y (List.mem_append_left _ hy)
      have hsum : xs.sum ≤ 0 := sum_nonpos hxs
      rw [ih (.inr hxs)]
      unfold clampTo
      omega

/-- A fold over rows, column by column. -/
theorem getElem?_foldl_zipWith {f : Int → Int → Int} {acc : List Int} {rows : List (List Int)}
    (h : ∀ row ∈ rows, row.length = acc.length) {i : Nat} (hi : i < acc.length) :
    (rows.foldl (List.zipWith f) acc)[i]? = some ((rows.map (·.getD i 0)).foldl f acc[i]) := by
  induction rows generalizing acc with
  | nil => exact List.getElem?_eq_getElem hi
  | cons row rows ih =>
    obtain ⟨hrow, hrows⟩ := List.forall_mem_cons.mp h
    have hlen : (List.zipWith f acc row).length = acc.length := by rw [List.length_zipWith, hrow, Nat.min_self]
    have hi' : i < (List.zipWith f acc row).length := by rw [hlen]; exact hi
    rw [List.foldl_cons, ih (fun r hr => (hrows r hr).trans hlen.symm) hi', List.getElem_zipWith, List.map_cons, List.foldl_cons]
    congr 3
    rw [List.getD_eq_getElem?_getD, List.getElem?_eq_getElem (by omega), Option.getD_some]

end Metor.Lib
