import Mathlib.Algebra.GroupWithZero.Nat
import Metor.Lib.Slice

/-!
# Varints

`varint n` is `n` in groups of seven bits, low group first, each in a byte
whose high bit says that another one follows. It takes at most `k + 1`
bytes exactly if `n < 128 ^ (k + 1)` (`length_varint_le_iff`), and one byte at a time is
`varint_of_lt` and `varint_of_le`.
-/

namespace Metor.Lib

def varint (n : Nat) : Bytes :=
  if n < 128 then [UInt8.ofNat n] else UInt8.ofNat (n % 128 + 128) :: varint (n / 128)
termination_by n

theorem varint_of_lt {n : Nat} (h : n < 128) : varint n = [UInt8.ofNat n] := by
  rw [varint, if_pos h]

theorem varint_of_le {n : Nat} (h : 128 ≤ n) : varint n = UInt8.ofNat (n % 128 + 128) :: varint (n / 128) := by
  rw [varint, if_neg (Nat.not_lt.mpr h)]

theorem length_varint_pos (n : Nat) : 0 < (varint n).length := by
  by_cases h : n < 128
  · rw [varint_of_lt h]
    exact Nat.zero_lt_one
  · rw [varint_of_le (Nat.not_lt.mp h)]
    exact Nat.succ_pos _

theorem length_varint_le_iff (n k : Nat) : (varint n).length ≤ k + 1 ↔ n < 128 ^ (k + 1) := by
  induction k generalizing n with
  | zero =>
    by_cases h : n < 128
    · simp [varint_of_lt h, h]
    · have := length_varint_pos (n / 128)
      rw [varint_of_le (Nat.not_lt.mp h), List.length_cons]
      omega
  | succ k ih =>
    by_cases h : n < 128
    · have hpow : 128 ^ 1 ≤ 128 ^ (k + 1 + 1) := Nat.pow_le_pow_right (by decide) (by omega)
      rw [varint_of_lt h, List.length_singleton]
      omega
    · rw [varint_of_le (Nat.not_lt.mp h), List.length_cons, Nat.add_le_add_iff_right, ih,
        Nat.div_lt_iff_lt_mul (by decide), Nat.pow_succ 128 (k + 1)]

/-- How many bytes, exactly. -/
theorem length_varint_eq {n k : Nat} (h : n < 128 ^ (k + 1)) (hk : k = 0 ∨ 128 ^ k ≤ n) : (varint n).length = k + 1 := by
  have hle := (length_varint_le_iff n k).mpr h
  cases k with
  | zero =>
    have hpos := length_varint_pos n
    omega
  | succ k =>
    have hk : 128 ^ (k + 1) ≤ n := hk.resolve_left (Nat.succ_ne_zero k)
    have := mt (length_varint_le_iff n k).mp (Nat.not_lt.mpr hk)
    omega

end Metor.Lib
