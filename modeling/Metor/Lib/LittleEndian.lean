import Mathlib.Data.Nat.Basic
import Mathlib.Tactic.Ring
import Metor.Lib.Slice

/-!
# Little-endian integers

`leBytes w n` is the `w` bytes of `n`, low byte first, and `leNat` reads them
back (`leNat_leBytes`). `i64Bytes` and `i64OfBytes` are the same for signed
64-bit integers in two's complement (`i64OfBytes_i64Bytes`).
-/

namespace Metor.Lib

def leBytes : (width n : Nat) → Bytes
  | 0, _ => []
  | width + 1, n => UInt8.ofNat n :: leBytes width (n / 256)

def leNat : Bytes → Nat
  | [] => 0
  | b :: bs => b.toNat + 256 * leNat bs

@[simp] theorem length_leBytes (width n : Nat) : (leBytes width n).length = width := by
  induction width generalizing n with
  | zero => rfl
  | succ width ih => rw [leBytes, List.length_cons, ih]

theorem leNat_leBytes {width n : Nat} (h : n < 256 ^ width) : leNat (leBytes width n) = n := by
  induction width generalizing n with
  | zero => simp only [Nat.pow_zero, Nat.lt_one_iff] at h; rw [h]; rfl
  | succ width ih =>
    have hd : n / 256 < 256 ^ width := by
      rw [Nat.pow_succ] at h
      exact Nat.div_lt_of_lt_mul (by rwa [Nat.mul_comm] at h)
    rw [leBytes, leNat, ih hd, UInt8.toNat_ofNat']
    omega

theorem leBytes_leNat (bs : Bytes) : leBytes bs.length (leNat bs) = bs := by
  induction bs with
  | nil => rfl
  | cons b bs ih =>
    have hb := b.toNat_lt
    have hmod : UInt8.ofNat (b.toNat + 256 * leNat bs) = b := by
      apply UInt8.toNat_inj.mp
      rw [UInt8.toNat_ofNat']
      omega
    have hdiv : (b.toNat + 256 * leNat bs) / 256 = leNat bs := by omega
    rw [List.length_cons, leNat, leBytes, hmod, hdiv, ih]

theorem leNat_lt (bs : Bytes) : leNat bs < 256 ^ bs.length := by
  induction bs with
  | nil => exact Nat.zero_lt_one
  | cons b bs ih =>
    have hb := b.toNat_lt
    rw [leNat, List.length_cons, Nat.pow_succ]
    omega

/-- `i64::to_le_bytes` -/
def i64Bytes (t : Int) : Bytes := leBytes 8 (t % 2 ^ 64).toNat

/-- `i64::from_le_bytes` -/
def i64OfBytes (bs : Bytes) : Int :=
  if leNat bs < 2 ^ 63 then leNat bs else leNat bs - 2 ^ 64

/-- `i64::MIN` -/
def i64Min : Int := -9223372036854775808

/-- The integers that an `i64` holds. -/
def IsI64 (t : Int) : Prop := i64Min ≤ t ∧ t < -i64Min

instance (t : Int) : Decidable (IsI64 t) := inferInstanceAs (Decidable (_ ∧ _))

@[simp] theorem length_i64Bytes (t : Int) : (i64Bytes t).length = 8 := length_leBytes _ _

theorem i64OfBytes_i64Bytes {t : Int} (h : IsI64 t) : i64OfBytes (i64Bytes t) = t := by
  obtain ⟨h₁, h₂⟩ := h
  simp only [i64Min] at h₁ h₂
  have hn : leNat (i64Bytes t) = (t % 2 ^ 64).toNat := leNat_leBytes (by omega)
  rw [i64OfBytes, hn]
  split <;> omega

theorem i64Bytes_i64OfBytes {bs : Bytes} (h : bs.length = 8) : i64Bytes (i64OfBytes bs) = bs := by
  have hlt := leNat_lt bs
  rw [h] at hlt
  have hn : (i64OfBytes bs % 2 ^ 64).toNat = leNat bs := by
    rw [i64OfBytes]
    split <;> omega
  rw [i64Bytes, hn, ← h, leBytes_leNat]

end Metor.Lib
