import Mathlib.Data.Nat.Notation

/-!
# Unsigned numbers in decimal

`parseUnsigned` is `str::parse` at an unsigned type whose values are below
`bound`. It undoes `toString` (`parseUnsigned_toString`), and the decimal form
of a number has digits and a sign only (`toString_ne`).
-/

namespace Metor.Lib

/-- An optional `+`, and digits. -/
def parseUnsigned (bound : Nat) (s : String) : Option Nat :=
  let digits := match s.toList with
    | '+' :: cs => cs
    | cs => cs
  let n := Nat.ofDigitChars 10 digits 0
  if digits ≠ [] ∧ digits.all Char.isDigit ∧ n < bound then some n else none

theorem isDigit_of_mem_toString {n : Nat} {c : Char} (h : c ∈ (toString n).toList) : c.isDigit := by
  rw [Nat.toString_eq_repr, Nat.toList_repr] at h
  exact Nat.isDigit_of_mem_toDigits (by decide) (by decide) h

theorem parseUnsigned_toString {bound n : Nat} (h : n < bound) : parseUnsigned bound (toString n) = some n := by
  have hs : (toString n).toList = Nat.toDigits 10 n := by rw [Nat.toString_eq_repr, Nat.toList_repr]
  have hd : ∀ c ∈ Nat.toDigits 10 n, c.isDigit := fun c hc =>
    Nat.isDigit_of_mem_toDigits (by decide) (by decide) hc
  have hp : (match (toString n).toList with
      | '+' :: cs => cs
      | cs => cs) = Nat.toDigits 10 n := by
    rw [hs]
    split
    next cs e => exact absurd (hd '+' (e ▸ List.mem_cons_self)) (by decide)
    next => rfl
  rw [parseUnsigned]
  simp only [hp, Nat.ofDigitChars_ten_toDigits]
  exact if_pos ⟨Nat.toDigits_ne_nil, List.all_eq_true.mpr hd, h⟩

theorem isDigit_or_minus_of_mem_toString {t : Int} {c : Char} (h : c ∈ (toString t).toList) :
    c.isDigit ∨ c = '-' := by
  cases t with
  | ofNat n => exact .inl (isDigit_of_mem_toString h)
  | negSucc n =>
    rw [show toString (Int.negSucc n) = "-" ++ toString (n + 1) from rfl, String.toList_append,
      List.mem_append] at h
    rcases h with h | h
    · exact .inr (List.mem_singleton.mp h)
    · exact .inl (isDigit_of_mem_toString h)

/-- A name with a letter in it is not a number's. -/
theorem toString_ne {t : Int} {s : String} (c : Char) (hc : c ∈ s.toList) (hd : ¬c.isDigit ∧ c ≠ '-') :
    toString t ≠ s := by
  rintro rfl
  exact (isDigit_or_minus_of_mem_toString hc).elim hd.1 hd.2

end Metor.Lib
