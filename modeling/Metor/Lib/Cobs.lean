import Metor.Lib.Slice

/-!
# Consistent overhead byte stuffing

`encode` writes a payload as groups, each a byte that counts the group and the
bytes up to the next zero, so that the encoding has no zero; `decode` reads the
groups back. For payloads too short to fill a group: `zero_notMem_encode`,
`length_encode`, and `decode_encode`.
-/

namespace Metor.Lib.Cobs

/-- The encoding of what follows the group `g` that is being filled. -/
def encodeFrom (g : Bytes) : Bytes → Bytes
  | [] => UInt8.ofNat (g.length + 1) :: g
  | b :: bs =>
    if b = 0 then UInt8.ofNat (g.length + 1) :: g ++ encodeFrom [] bs else encodeFrom (g ++ [b]) bs

/-- The encoding of a payload of at most 253 bytes. -/
def encode (payload : Bytes) : Bytes := encodeFrom [] payload

/-- `left` bytes of the group are still to come; a zero follows the group,
unless it is a full one or the last one. -/
def decodeFrom (left : Nat) (full : Bool) : Bytes → Option Bytes
  | [] => if left = 0 then some [] else none
  | b :: bs =>
    match left with
    | 0 => (decodeFrom (b.toNat - 1) (b == 0xff) bs).map fun out => if full then out else 0 :: out
    | left + 1 => (decodeFrom left full bs).map (b :: ·)

/-- The payload of an encoding, if its last group is complete. -/
def decode (bytes : Bytes) : Option Bytes := decodeFrom 0 true bytes

@[simp] theorem decode_nil : decode [] = some [] := rfl

theorem length_encodeFrom (g payload : Bytes) :
    (encodeFrom g payload).length = g.length + payload.length + 1 := by
  induction payload generalizing g with
  | nil => simp [encodeFrom]
  | cons b bs ih =>
    unfold encodeFrom
    split
    · rw [List.cons_append, List.length_cons, List.length_append, ih]
      simp only [List.length_cons, List.length_nil]
      omega
    · rw [ih]
      simp only [List.length_append, List.length_cons, List.length_nil]
      omega

theorem length_encode (payload : Bytes) : (encode payload).length = payload.length + 1 := by
  rw [encode, length_encodeFrom]
  simp

theorem toNat_count {n : Nat} (h : n < 255) : (UInt8.ofNat (n + 1)).toNat = n + 1 := by
  rw [UInt8.toNat_ofNat']
  omega

theorem count_ne_zero {n : Nat} (h : n < 255) : UInt8.ofNat (n + 1) ≠ 0 := by
  intro hz
  have := toNat_count h
  rw [hz] at this
  exact absurd this (by simp)

theorem zero_notMem_encodeFrom {g payload : Bytes} (hg : 0 ∉ g)
    (hl : g.length + payload.length < 255) : 0 ∉ encodeFrom g payload := by
  have hc : ∀ {n : Nat}, n < 255 → (0 : UInt8) ≠ UInt8.ofNat (n + 1) := fun h => (count_ne_zero h).symm
  induction payload generalizing g with
  | nil => exact List.not_mem_cons_of_ne_of_not_mem (hc (by simpa using hl)) hg
  | cons b bs ih =>
    rw [List.length_cons] at hl
    unfold encodeFrom
    split
    · rw [List.cons_append]
      refine List.not_mem_cons_of_ne_of_not_mem (hc (by omega)) ?_
      rw [List.mem_append, not_or]
      exact ⟨hg, ih List.not_mem_nil (by rw [List.length_nil]; omega)⟩
    · rename_i hb
      apply ih
      · rw [List.mem_append, List.mem_singleton, not_or]
        exact ⟨hg, fun h => hb h.symm⟩
      · rw [List.length_append, List.length_singleton]; omega

theorem zero_notMem_encode {payload : Bytes} (hl : payload.length < 255) : 0 ∉ encode payload :=
  zero_notMem_encodeFrom List.not_mem_nil (by simpa using hl)

theorem decodeFrom_append (g rest : Bytes) (full : Bool) :
    decodeFrom g.length full (g ++ rest) = (decodeFrom 0 full rest).map (g ++ ·) := by
  induction g with
  | nil => simp
  | cons b g ih =>
    rw [List.length_cons, List.cons_append, decodeFrom, ih, Option.map_map]
    rfl

/-- One group and what follows it. -/
theorem decodeFrom_group {g : Bytes} (hg : g.length < 254) (full : Bool) (rest : Bytes) :
    decodeFrom 0 full (UInt8.ofNat (g.length + 1) :: (g ++ rest)) =
      (decodeFrom 0 false rest).map fun out => if full then g ++ out else 0 :: (g ++ out) := by
  have hn := toNat_count (n := g.length) (by omega)
  have hf : (UInt8.ofNat (g.length + 1) == 0xff) = false := by
    rw [beq_eq_false_iff_ne]
    intro h
    rw [h] at hn
    have : (0xff : UInt8).toNat = 255 := by decide
    omega
  rw [decodeFrom, hn, hf, Nat.add_sub_cancel, decodeFrom_append, Option.map_map]
  rfl

theorem decodeFrom_encodeFrom {g payload : Bytes} (hl : g.length + payload.length < 254) (full : Bool) :
    decodeFrom 0 full (encodeFrom g payload) =
      some (if full then g ++ payload else 0 :: (g ++ payload)) := by
  induction payload generalizing g full with
  | nil =>
    rw [List.length_nil] at hl
    have h := decodeFrom_group (g := g) (by omega) full []
    rw [List.append_nil] at h
    rw [encodeFrom, h]
    simp [decodeFrom]
  | cons b bs ih =>
    rw [List.length_cons] at hl
    unfold encodeFrom
    split
    · rename_i hb
      rw [List.cons_append, decodeFrom_group (by omega), ih (by rw [List.length_nil]; omega), hb]
      simp
    · rw [ih (by rw [List.length_append, List.length_singleton]; omega)]
      simp

theorem decode_encode {payload : Bytes} (hl : payload.length < 254) :
    decode (encode payload) = some payload := by
  rw [decode, encode, decodeFrom_encodeFrom (by simpa using hl)]
  rfl

end Metor.Lib.Cobs
