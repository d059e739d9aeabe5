import Mathlib.Data.List.Basic

/-!
# Slices of a buffer

`slice xs a b` is `xs[a..b]`, and `overwrite xs o ys` is `xs` with `ys` copied
over its items from `o` on. Slices that meet end to end append, and a slice
that a write does not reach reads as before.
-/

namespace Metor.Lib

abbrev Bytes := List UInt8

variable {α : Type*}

/-- The items of `xs` at `a`, …, `b - 1`. -/
def slice (xs : List α) (a b : Nat) : List α := (xs.take b).drop a

/-- `xs` with `ys` in place of its items from `o` on. -/
def overwrite (xs : List α) (o : Nat) (ys : List α) : List α :=
  xs.take o ++ ys ++ xs.drop (o + ys.length)

theorem length_slice {xs : List α} {a b : Nat} (hb : b ≤ xs.length) : (slice xs a b).length = b - a := by
  simp [slice, hb]

theorem slice_of_le (xs : List α) {a b : Nat} (h : b ≤ a) : slice xs a b = [] := by
  simp only [slice, List.drop_eq_nil_iff, List.length_take]; omega

theorem slice_eq_take_drop (xs : List α) (a b : Nat) : slice xs a b = (xs.drop a).take (b - a) := by
  rw [slice, List.take_drop]
  rcases Nat.le_total a b with h | h
  · rw [Nat.add_sub_cancel' h]
  · rw [List.drop_eq_nil_iff.mpr (by simp; omega), List.drop_eq_nil_iff.mpr (by simp; omega)]

theorem getElem?_slice (xs : List α) (a b i : Nat) :
    (slice xs a b)[i]? = if a + i < b then xs[a + i]? else none := by
  simp only [slice, List.getElem?_drop, List.getElem?_take]

theorem slice_slice (xs : List α) (a b i j : Nat) :
    slice (slice xs a b) i j = slice xs (a + i) (min (a + j) b) := by
  refine List.ext_getElem? fun k => ?_
  rw [getElem?_slice, getElem?_slice, getElem?_slice, ← ite_and, Nat.add_assoc]
  exact if_congr (by omega) rfl rfl

theorem slice_append (xs : List α) {a b c : Nat} (hab : a ≤ b) (hbc : b ≤ c) :
    slice xs a b ++ slice xs b c = slice xs a c := by
  have e : slice xs a b = ((xs.take c).drop a).take (b - a) := by
    rw [slice, List.take_drop, Nat.add_sub_cancel' hab, List.take_take, Nat.min_eq_left hbc]
  have e' : slice xs b c = ((xs.take c).drop a).drop (b - a) := by
    rw [slice, List.drop_drop, Nat.add_sub_cancel' hab]
  rw [e, e', List.take_append_drop, slice]

theorem slice_full (xs : List α) {n : Nat} (h : xs.length ≤ n) : slice xs 0 n = xs := by
  simp [slice, List.take_of_length_le h]

theorem length_overwrite {xs ys : List α} {o : Nat} (h : o + ys.length ≤ xs.length) :
    (overwrite xs o ys).length = xs.length := by
  simp only [overwrite, List.length_append, List.length_take, List.length_drop]; omega

theorem le_length_overwrite (xs : List α) (o : Nat) (ys : List α) : xs.length ≤ (overwrite xs o ys).length := by
  simp only [overwrite, List.length_append, List.length_take, List.length_drop]
  omega

theorem getElem?_overwrite {xs ys : List α} {o : Nat} (h : o + ys.length ≤ xs.length) (i : Nat) :
    (overwrite xs o ys)[i]? = if o ≤ i ∧ i < o + ys.length then ys[i - o]? else xs[i]? := by
  have ho : (xs.take o).length = o := by simp; omega
  simp only [overwrite, List.append_assoc]
  by_cases h₁ : i < o
  · rw [List.getElem?_append_left (by rw [ho]; exact h₁), List.getElem?_take_of_lt h₁,
      if_neg (by omega)]
  rw [List.getElem?_append_right (by rw [ho]; omega), ho]
  by_cases h₂ : i < o + ys.length
  · rw [List.getElem?_append_left (by omega), if_pos ⟨by omega, h₂⟩]
  · rw [List.getElem?_append_right (by omega), List.getElem?_drop, if_neg (by omega)]
    congr 1; omega

/-- A slice that the write does not reach. -/
theorem slice_overwrite_of_disjoint {xs ys : List α} {o a b : Nat} (h : o + ys.length ≤ xs.length)
    (hd : b ≤ o ∨ o + ys.length ≤ a) : slice (overwrite xs o ys) a b = slice xs a b := by
  refine List.ext_getElem? fun i => ?_
  rw [getElem?_slice, getElem?_slice, getElem?_overwrite h]
  by_cases hi : a + i < b
  · rw [if_pos hi, if_pos hi, if_neg (by omega)]
  · rw [if_neg hi, if_neg hi]

/-- Two writes, one after the other. -/
theorem overwrite_overwrite {xs ys zs : List α} {o : Nat} (h : o + ys.length + zs.length ≤ xs.length) :
    overwrite (overwrite xs o ys) (o + ys.length) zs = overwrite xs o (ys ++ zs) := by
  have hys : (overwrite xs o ys).length = xs.length := length_overwrite (by omega)
  refine List.ext_getElem? fun i => ?_
  rw [getElem?_overwrite (by omega), getElem?_overwrite (by omega),
    getElem?_overwrite (by rw [List.length_append]; omega), List.length_append]
  by_cases hi : o ≤ i ∧ i < o + ys.length
  · rw [if_neg (by omega), if_pos hi, if_pos (by omega), List.getElem?_append_left (by omega)]
  · by_cases hj : o + ys.length ≤ i ∧ i < o + ys.length + zs.length
    · rw [if_pos hj, if_pos (by omega), List.getElem?_append_right (by omega), Nat.sub_add_eq]
    · rw [if_neg hj, if_neg hi, if_neg (by omega)]

/-- What was written goes on from what is before it. -/
theorem take_overwrite {xs ys : List α} {o : Nat} (h : o + ys.length ≤ xs.length) :
    (overwrite xs o ys).take (o + ys.length) = xs.take o ++ ys := by
  have ho : (xs.take o ++ ys).length = o + ys.length := by simp only [List.length_append, List.length_take]; omega
  rw [overwrite, ← ho, List.take_left]

/-- What was written is read back. -/
theorem slice_overwrite_self {xs ys : List α} {o : Nat} (h : o + ys.length ≤ xs.length) :
    slice (overwrite xs o ys) o (o + ys.length) = ys := by
  have ho : (xs.take o).length = o := by simp only [List.length_take]; omega
  rw [slice, take_overwrite h, List.drop_left' ho]

/-- Slices that agree still do after the same write. -/
theorem slice_overwrite_congr {xs xs' ys : List α} {o a b : Nat} (h : o + ys.length ≤ xs.length)
    (h' : o + ys.length ≤ xs'.length) (he : slice xs a b = slice xs' a b) :
    slice (overwrite xs o ys) a b = slice (overwrite xs' o ys) a b := by
  refine List.ext_getElem? fun i => ?_
  have hi := congrArg (·[i]?) he
  simp only [getElem?_slice] at hi
  rw [getElem?_slice, getElem?_slice, getElem?_overwrite h, getElem?_overwrite h']
  by_cases hb : a + i < b
  · rw [if_pos hb, if_pos hb] at hi ⊢
    split
    · rfl
    · exact hi
  · rw [if_neg hb, if_neg hb]

/-! ## Pieces of equal length -/

section
variable {β : Type*} {f : α → List β} {n : Nat}

theorem length_flatMap_of_forall {xs : List α} (h : ∀ x ∈ xs, (f x).length = n) : (xs.flatMap f).length = xs.length * n := by
  rw [List.length_flatMap, List.map_congr_left h, List.map_const', List.sum_replicate_nat]

/-- Piece `i`. -/
theorem slice_flatMap {xs : List α} (h : ∀ x ∈ xs, (f x).length = n) {i : Nat} (hi : i < xs.length) :
    slice (xs.flatMap f) (i * n) ((i + 1) * n) = f xs[i] := by
  induction xs generalizing i with
  | nil => exact absurd hi (Nat.not_lt_zero i)
  | cons x xs ih =>
    obtain ⟨hx, h⟩ := List.forall_mem_cons.mp h
    have hm (i : Nat) : (i + 1) * n - i * n = n := by rw [Nat.add_mul]; omega
    rw [List.flatMap_cons, slice_eq_take_drop, hm]
    cases i with
    | zero => rw [Nat.zero_mul, List.drop_zero, List.take_left' hx, List.getElem_cons_zero]
    | succ i =>
      have hi : i < xs.length := Nat.lt_of_succ_lt_succ hi
      have e : (i + 1) * n = (f x).length + i * n := by rw [hx, Nat.add_mul]; omega
      rw [e, ← List.drop_drop, List.drop_left, List.getElem_cons_succ, ← ih h hi, slice_eq_take_drop, hm]

end

/-- The part before the first `x` is determined. -/
theorem append_cons_inj_of_notMem {α : Type*} [DecidableEq α] {x : α} {a b s t : List α} (ha : x ∉ a) (hb : x ∉ b)
    (h : a ++ x :: s = b ++ x :: t) : a = b ∧ s = t := by
  have hi := congrArg (List.idxOf x) h
  rw [List.idxOf_append_of_notMem ha, List.idxOf_append_of_notMem hb, List.idxOf_cons_self, List.idxOf_cons_self] at hi
  obtain ⟨hab, hst⟩ := List.append_inj h (by omega)
  exact ⟨hab, (List.cons.inj hst).2⟩

end Metor.Lib
