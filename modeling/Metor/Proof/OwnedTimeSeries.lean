import Metor.Proof.Packet
import Metor.Spec.Packet

/-!
# The length of a received time series

Parsing keeps any 64-bit length. `timestamps` and `data` multiply it by 8 and
add 8 before they look at the body: they split the body where it says exactly
if that does not overflow (`splits_iff`).
-/

namespace Metor.Proof.Packet

open Metor.Lib Metor.Impl.Proto

variable {ts : OwnedTimeSeries} {packetBuf : Bytes} {offset : Nat} {id : UInt8 × UInt8} {reqId : UInt8} {len addr : Nat}
  {buf : Bytes}

theorem flatMap_slices (bs : Bytes) {n : Nat} (h : n * 8 ≤ bs.length) :
    (List.range n).flatMap (fun i => slice bs (i * 8) ((i + 1) * 8)) = bs.take (n * 8) := by
  induction n with
  | zero => rfl
  | succ n ih =>
    have hs : slice bs 0 ((n + 1) * 8) = slice bs 0 (n * 8) ++ slice bs (n * 8) ((n + 1) * 8) :=
      (slice_append bs (Nat.zero_le _) (by omega)).symm
    rw [List.range_succ, List.flatMap_append, ih (by omega)]
    simp only [slice, List.drop_zero] at hs
    simp only [List.flatMap_cons, List.flatMap_nil, List.append_nil, slice]
    exact hs.symm

/-- The timestamps of bytes are all of the bytes. -/
theorem stamps_flatMap {bs : Bytes} (h : bs.length % 8 = 0) : (stamps bs).flatMap i64Bytes = bs := by
  have hb : ∀ i ∈ List.range (bs.length / 8), i64Bytes (i64OfBytes (slice bs (i * 8) ((i + 1) * 8))) =
      slice bs (i * 8) ((i + 1) * 8) := by
    intro i hi
    have hi := List.mem_range.mp hi
    exact i64Bytes_i64OfBytes (by rw [length_slice (by omega)]; omega)
  rw [stamps, List.flatMap_map]
  rw [List.flatMap_congr hb, flatMap_slices bs (by omega), List.take_of_length_le (by omega)]

theorem length_stamps (bs : Bytes) : (stamps bs).length = bs.length / 8 := by
  rw [stamps, List.length_map, List.length_range]

/-- The length of a time series is what the first eight bytes of its body say. -/
theorem len_of_parse (h : OwnedPacket.parseWithOffset packetBuf offset = .ok (.timeSeries id reqId len buf)) :
    8 ≤ buf.length ∧ buf.take 8 = leBytes 8 len := by
  unfold OwnedPacket.parseWithOffset at h
  split at h
  · cases h
  split at h
  · split at h
    · cases h
    split at h
    · cases h
    split at h
    · cases h
    · split at h
      · cases h
      split at h <;> cases h
    · cases h
    · split at h
      · cases h
      next hlt =>
      cases h
      have hl : (buf.take 8).length = 8 := by rw [List.length_take]; omega
      have he := leBytes_leNat (buf.take 8)
      rw [hl] at he
      exact ⟨by omega, he.symm⟩
  · cases h

theorem stop_eq (h : 8 + ts.len * 8 < 2 ^ 64) : ts.stop = some (8 + ts.len * 8) :=
  if_pos ⟨by omega, h⟩

/-- The accessors of a received time series split its body exactly if its length, in bytes, does not overflow. -/
theorem splits_iff (h : OwnedPacket.parseWithOffset packetBuf offset = .ok (.timeSeries id reqId len buf)) (addr : Nat) :
    OwnedTimeSeries.Splits ⟨len, ⟨addr, buf⟩⟩ ↔ len < 2 ^ 61 - 1 := by
  obtain ⟨hle, htake⟩ := len_of_parse h
  constructor
  · rintro ⟨timestamps, data, htimes, -⟩
    apply Nat.lt_of_not_le
    intro hge
    have hstop : OwnedTimeSeries.stop ⟨len, ⟨addr, buf⟩⟩ = none := if_neg fun h => by
      have hlt : 8 + len * 8 < 2 ^ 64 := h.2
      omega
    rw [OwnedTimeSeries.timestamps, hstop] at htimes
    cases htimes
  · intro hlt
    have hstop : OwnedTimeSeries.stop ⟨len, ⟨addr, buf⟩⟩ = some (8 + len * 8) := stop_eq (show 8 + len * 8 < 2 ^ 64 by omega)
    unfold OwnedTimeSeries.Splits OwnedTimeSeries.timestamps OwnedTimeSeries.data
    rw [hstop]
    refine ⟨_, _, rfl, rfl, fun l hl => ?_⟩
    by_cases hfit : 8 + len * 8 ≤ buf.length
    · have hget : View.get ⟨addr, buf⟩ 8 (8 + len * 8) = some ⟨addr + 8, slice buf 8 (8 + len * 8)⟩ :=
        if_pos ⟨by omega, hfit⟩
      have hlen : (slice buf 8 (8 + len * 8)).length = len * 8 := by rw [length_slice hfit, Nat.add_sub_cancel_left]
      simp only [hget, asTimestamps, hlen, Nat.mul_mod_left, ne_eq, not_true_eq_false, if_false] at hl
      split at hl
      · cases hl
      cases hl
      refine ⟨by rw [length_stamps, hlen]; exact Nat.mul_div_cancel _ (by decide), buf.drop (8 + len * 8), if_pos hfit, ?_⟩
      rw [stamps_flatMap (by rw [hlen]; exact Nat.mul_mod_left _ _), ← htake]
      show buf = buf.take 8 ++ slice buf 8 (8 + len * 8) ++ buf.drop (8 + len * 8)
      have hs := slice_append buf (Nat.zero_le 8) (show 8 ≤ 8 + len * 8 by omega)
      simp only [slice, List.drop_zero] at hs
      rw [slice, hs, List.take_append_drop]
    · have hget : View.get ⟨addr, buf⟩ 8 (8 + len * 8) = none := if_neg fun h => hfit h.2
      simp only [hget] at hl
      cases hl

/-- A packet of one timestamp and two bytes of data. -/
def seriesPacket : Bytes := [2, 1, 2, 0] ++ leBytes 8 1 ++ i64Bytes (-5) ++ [7, 8]

theorem splits_one : OwnedTimeSeries.Splits ⟨1, ⟨16, seriesPacket.drop 4⟩⟩ := by
  have h : OwnedPacket.parseWithOffset seriesPacket 0 = .ok (.timeSeries (1, 2) 0 1 (seriesPacket.drop 4)) := by decide
  exact (splits_iff h 16).mpr (by decide)

/-- A packet that says it has `2 ^ 61` timestamps, and has none. -/
def longPacket : Bytes := [2, 1, 2, 0] ++ leBytes 8 (2 ^ 61)

/-- It is accepted, and `timestamps` overflows. -/
theorem long_overflows : OwnedPacket.parseWithOffset longPacket 0 = .ok (.timeSeries (1, 2) 0 (2 ^ 61) (leBytes 8 (2 ^ 61))) ∧
    OwnedTimeSeries.timestamps ⟨2 ^ 61, ⟨16, leBytes 8 (2 ^ 61)⟩⟩ = none := by
  decide

end Metor.Proof.Packet
