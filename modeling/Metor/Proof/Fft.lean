import Mathlib.Tactic.FieldSimp
import Mathlib.Tactic.Linarith
import Mathlib.Tactic.Ring
import Metor.Spec.Fft

/-!
# Frequencies that do not line up

`fft` rotates its bins so that row `j` has the bin of frequency
`(j - n / 2) * sample_rate / n` (`magnitude_row`, `expected_row`). The axis of
`fftfreq` has its negative half one row too early, and for odd `n` all of it
is that of `n - 1` rows (`frequency_row`): only the rows from the middle on, or
the middle one, line up (`linesUp_iff`), also at the rate that it takes from the
timestamps (`fftfreq_iff`).
-/

namespace Metor.Proof.Fft

open Metor.Impl.Fft

variable {sampleRate : ℚ} {n j : Nat}

/-! ## The magnitudes -/

theorem magnitude_row {α β : Type} (transform : List α → List β) {input : List α} (hn : input.length = n)
    (ht : (transform input).length = n) (hj : j < n) :
    (computeFftMagnitudes transform input)[j]? = (transform input)[rowBin n j]? := by
  have hne : input ≠ [] := by
    rintro rfl
    exact absurd hj (by simp [← hn])
  rw [computeFftMagnitudes, if_neg hne]
  simp only [rotateRight, ht]
  have hlen : ((transform input).drop (n - n / 2)).length = n / 2 := by
    rw [List.length_drop, ht]
    omega
  rw [rowBin]
  by_cases h : j < n / 2
  · rw [List.getElem?_append_left (by omega), List.getElem?_drop, if_pos h]
  · rw [List.getElem?_append_right (by omega), hlen, List.getElem?_take_of_lt (by omega), if_neg h]

theorem expected_row (sampleRate : ℚ) (hj : j < n) :
    binFrequency sampleRate n (rowBin n j) = ((j : ℚ) - (n / 2 : Nat)) * sampleRate / n := by
  have hn : (n : ℚ) ≠ 0 := by
    have h : n ≠ 0 := by omega
    exact_mod_cast h
  rw [rowBin]
  by_cases h : j < n / 2
  · rw [if_pos h, binFrequency, if_neg (by omega)]
    have hsub : ((n - n / 2 : Nat) : ℚ) = (n : ℚ) - (n / 2 : Nat) := Nat.cast_sub (Nat.div_le_self n 2)
    rw [Nat.cast_add, hsub]
    field_simp
    ring
  · rw [if_neg h, binFrequency, if_pos (by omega), Nat.cast_sub (by omega)]
    ring

/-! ## The frequencies -/

/-- The number of rows that the axis is made for. -/
def evenLen (n : Nat) : Nat := if n % 2 = 0 then n else n - 1

theorem evenLen_div (n : Nat) : evenLen n / 2 = n / 2 := by
  unfold evenLen
  split <;> omega

/-- The row of the axis. -/
theorem frequency_row (sampleRate : ℚ) (hj : j < n) : (frequencies sampleRate n)[j]? = some (
    if j < n / 2 then -((n / 2 - 1 - j : Nat) : ℚ) * sampleRate / evenLen n
    else if j < 2 * (n / 2) then ((j - n / 2 : Nat) : ℚ) * sampleRate / evenLen n else 0) := by
  have hneg : ((List.range (evenLen n / 2)).reverse.map fun i : Nat => (i : ℚ) * -sampleRate / evenLen n).length = n / 2 := by
    rw [List.length_map, List.length_reverse, List.length_range, evenLen_div]
  show ((((List.range (evenLen n / 2)).reverse.map fun i : Nat => (i : ℚ) * -sampleRate / evenLen n) ++
    ((List.range (evenLen n / 2)).map fun i : Nat => (i : ℚ) * sampleRate / evenLen n) ++ List.replicate n 0).take n)[j]? = _
  rw [List.getElem?_take_of_lt hj, List.append_assoc]
  by_cases h : j < n / 2
  · rw [List.getElem?_append_left (by omega), List.getElem?_map, List.getElem?_reverse (by simp [evenLen_div, h]),
      List.length_range, evenLen_div, List.getElem?_range (by omega), if_pos h]
    simp only [Option.map_some, mul_neg, neg_mul]
  · rw [List.getElem?_append_right (by omega), hneg, if_neg h]
    by_cases h₂ : j < 2 * (n / 2)
    · rw [List.getElem?_append_left (by simp [evenLen_div]; omega), List.getElem?_map, evenLen_div,
        List.getElem?_range (by omega), if_pos h₂]
      rfl
    · rw [List.getElem?_append_right (by simp [evenLen_div]; omega), if_neg h₂, List.getElem?_replicate,
        if_pos (by simp [evenLen_div]; omega)]

/-- The row of the axis is that of the bin in the middle row, and from there on if `n` is even. -/
theorem frequency_iff (hr : sampleRate ≠ 0) (hj : j < n) :
    (frequencies sampleRate n)[j]? = some (((j : ℚ) - (n / 2 : Nat)) * sampleRate / n) ↔
      j = n / 2 ∨ (n % 2 = 0 ∧ n / 2 ≤ j) := by
  have hn : (n : ℚ) ≠ 0 := by
    have h : n ≠ 0 := by omega
    exact_mod_cast h
  rw [frequency_row sampleRate hj, Option.some.injEq]
  by_cases h : j < n / 2
  · -- one row too early: it is even less than half a row off that of the bin
    obtain ⟨k, hk⟩ : ∃ k, n / 2 = j + 1 + k := ⟨n / 2 - 1 - j, by omega⟩
    have hm : (evenLen n : ℚ) = 2 * (j + 1 + k) := by
      have h2 := evenLen_div n
      have : evenLen n = 2 * (j + 1 + k) := by
        unfold evenLen at h2 ⊢
        split <;> omega
      exact_mod_cast this
    have hpos : (0 : ℚ) < 2 * (j + 1 + k) := by positivity
    rw [if_pos h, hm, hk]
    constructor
    · intro he
      exfalso
      rw [show j + 1 + k - 1 - j = k by omega, div_eq_div_iff hpos.ne' hn] at he
      have he' : -(k : ℚ) * n = -(1 + k) * (2 * (j + 1 + k)) := by
        apply mul_right_cancel₀ hr
        push_cast at he
        linarith
      have hnat : k * n = (1 + k) * (2 * (j + 1 + k)) := by
        have : (k : ℚ) * n = (1 + k) * (2 * (j + 1 + k)) := by linarith
        exact_mod_cast this
      have hle : n ≤ 2 * (j + 1 + k) + 1 := by omega
      have hkn : k * n ≤ k * (2 * (j + 1 + k) + 1) := Nat.mul_le_mul_left k hle
      have : k * (2 * (j + 1 + k) + 1) < (1 + k) * (2 * (j + 1 + k)) := by ring_nf; omega
      omega
    · intro he
      omega
  · rw [if_neg h]
    by_cases h₂ : j < 2 * (n / 2)
    · rw [if_pos h₂, Nat.cast_sub (by omega)]
      by_cases hj' : j = n / 2
      · simp [hj']
      have hpos : (0 : ℚ) < evenLen n := by
        have : 0 < evenLen n := by unfold evenLen; split <;> omega
        exact_mod_cast this
      have hne : (j : ℚ) - (n / 2 : Nat) ≠ 0 := by
        rw [sub_ne_zero]
        exact_mod_cast hj'
      rw [div_eq_div_iff hpos.ne' hn, mul_right_inj' (mul_ne_zero hne hr)]
      constructor
      · intro he
        have he : n = evenLen n := by exact_mod_cast he
        unfold evenLen at he
        right
        split at he <;> omega
      · rintro (he | ⟨he, -⟩)
        · exact absurd he hj'
        · rw [evenLen, if_pos he]
    · rw [if_neg h₂]
      constructor
      · intro he
        have hz : (j : ℚ) - (n / 2 : Nat) = 0 := by
          have := div_eq_zero_iff.mp he.symm
          rcases this with h0 | h0
          · exact (mul_eq_zero.mp h0).resolve_right hr
          · exact absurd h0 hn
        left
        have : (j : ℚ) = (n / 2 : Nat) := sub_eq_zero.mp hz
        exact_mod_cast this
      · rintro (he | ⟨he, -⟩)
        · rw [he]
          simp
        · omega

/-! ## The sample rate -/

theorem length_differences (a : Int) (timestamps : List Int) : (differences (a :: timestamps)).length = timestamps.length := by
  induction timestamps generalizing a with
  | nil => rfl
  | cons b timestamps ih => exact congrArg (· + 1) (ih b)

/-- The differences add up to the time from the first timestamp to the last. -/
theorem sum_differences (a : Int) (timestamps : List Int) :
    (differences (a :: timestamps)).sum = (((a :: timestamps).getLastD 0 : ℚ) - a) / 1000000 := by
  induction timestamps generalizing a with
  | nil => simp [differences]
  | cons b timestamps ih =>
    rw [differences, List.sum_cons, ih b]
    simp only [List.getLastD_cons]
    ring

/-- The sample rate is the number of steps in the time from the first timestamp to the last. -/
theorem rate_eq {timestamps : List Int} {first last : Int} (hfirst : timestamps.head? = some first)
    (hlast : timestamps.getLast? = some last) :
    1 / period timestamps = ((timestamps.length - 1 : Nat) : ℚ) * 1000000 / (last - first) := by
  obtain ⟨timestamps, rfl⟩ : ∃ rest, timestamps = first :: rest := by
    cases timestamps with
    | nil => cases hfirst
    | cons a rest => exact ⟨rest, by rw [Option.some.inj hfirst]⟩
  rw [List.getLast?_cons, Option.some.injEq] at hlast
  rw [period, length_differences, sum_differences, List.getLastD_cons, List.getLastD_eq_getLast?, hlast,
    List.length_cons, Nat.add_sub_cancel, div_div, one_div_div, mul_comm (1000000 : ℚ)]

/-- At the mean rate of its timestamps, the frequency in row `j` is that of the bin in row `j` of `fft` only in the
middle, and for an even number of rows from there on. -/
theorem fftfreq_iff {timestamps : List Int} {first last : Int} (hfirst : timestamps.head? = some first)
    (hlast : timestamps.getLast? = some last) (hne : first ≠ last) (hj : j < timestamps.length) :
    (fftfreq timestamps)[j]? = some (((j : ℚ) - (timestamps.length / 2 : Nat)) *
        (((timestamps.length - 1 : Nat) : ℚ) * 1000000 / (last - first)) / timestamps.length) ↔
      j = timestamps.length / 2 ∨ (timestamps.length % 2 = 0 ∧ timestamps.length / 2 ≤ j) := by
  have hlen : 1 < timestamps.length := by
    by_contra hle
    obtain ⟨a, rfl⟩ : ∃ a, timestamps = [a] := List.length_eq_one_iff.mp (by omega)
    exact hne (Option.some.inj (hfirst.symm.trans hlast))
  have hrate : 1 / period timestamps ≠ 0 := by
    rw [rate_eq hfirst hlast]
    have hsub : ((last : ℚ) - first) ≠ 0 := sub_ne_zero.mpr (by exact_mod_cast hne.symm)
    have hsteps : (((timestamps.length - 1 : Nat) : ℚ)) ≠ 0 := by
      have hpos : timestamps.length - 1 ≠ 0 := by omega
      exact_mod_cast hpos
    exact div_ne_zero (mul_ne_zero hsteps (by norm_num)) hsub
  rw [fftfreq, if_neg (by omega), ← rate_eq hfirst hlast]
  exact frequency_iff hrate hj

/-! ## Rows that line up -/

/-- The rows that line up: the middle one, and for even `n` those after it. So not all do, whatever `n` is. -/
theorem linesUp_iff (hr : sampleRate ≠ 0) (hn : 2 ≤ n) :
    (∀ j < n, LinesUp sampleRate n j ↔ j = n / 2 ∨ (n % 2 = 0 ∧ n / 2 ≤ j)) ∧ ¬ ∀ j < n, LinesUp sampleRate n j := by
  have hrow : ∀ j < n, LinesUp sampleRate n j ↔ j = n / 2 ∨ (n % 2 = 0 ∧ n / 2 ≤ j) := by
    intro j hj
    rw [← frequency_iff hr hj]
    constructor
    · intro h
      rw [h.frequency, h.expected]
    · intro h
      exact ⟨fun α β transform input hl ht => magnitude_row transform hl ht hj, by rw [h, expected_row sampleRate hj],
        expected_row sampleRate hj⟩
  refine ⟨hrow, fun h => ?_⟩
  rcases (hrow 0 (by omega)).mp (h 0 (by omega)) with h | ⟨-, h⟩ <;> omega

theorem linesUp_four : LinesUp 1 4 2 := ((linesUp_iff one_ne_zero (by decide)).1 2 (by decide)).mpr (.inl rfl)

/-- Four rows of one sample a second: the first has the bin of -1/2 Hz, and the frequency -1/4 Hz. -/
theorem four_rows_shifted : ¬ LinesUp 1 4 0 ∧ rowBin 4 0 = 2 ∧ frequencies 1 4 = [-1 / 4, 0, 0, 1 / 4] := by
  refine ⟨fun h => ?_, rfl, by norm_num [frequencies, List.range_succ, List.replicate]⟩
  have h := h.frequency
  norm_num [frequencies, List.range_succ, List.replicate, rowBin, binFrequency] at h

end Metor.Proof.Fft
