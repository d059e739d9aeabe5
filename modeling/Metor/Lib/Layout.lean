import Mathlib.Data.Nat.Basic
import Mathlib.Tactic.Ring

/-!
# Offsets rounded up to an alignment

`roundUp n a` is the least multiple of `a` from `n` on (`le_roundUp`,
`roundUp_mod`). A layout that starts at a multiple of every alignment is the
same as one that starts at 0, shifted (`roundUp_add`).
-/

namespace Metor.Lib

/-- The least multiple of `a` from `n` on. -/
def roundUp (n a : Nat) : Nat := n + (a - n % a) % a

variable {n a k : Nat}

theorem le_roundUp (n a : Nat) : n ≤ roundUp n a := Nat.le_add_right n _

theorem roundUp_mod (ha : 0 < a) : roundUp n a % a = 0 := by
  have hn := Nat.mod_lt n ha
  rw [roundUp, Nat.add_mod, Nat.mod_mod]
  rcases Nat.eq_zero_or_pos (n % a) with h | h
  · rw [h, Nat.sub_zero, Nat.mod_self, Nat.add_zero, Nat.zero_mod]
  · rw [Nat.mod_eq_of_lt (by omega : a - n % a < a), Nat.add_sub_cancel' hn.le, Nat.mod_self]

theorem roundUp_add (h : k % a = 0) : roundUp (k + n) a = k + roundUp n a := by
  rw [roundUp, roundUp, Nat.add_mod, h, Nat.zero_add, Nat.mod_mod, Nat.add_assoc]

end Metor.Lib
