import Metor.Proof.Postcard.Integers

/-!
# Round trips and memory safety of `postcard.h`

`run_eq_none_iff` is when a call leaves the buffer: the byte loops never
do, and where a length is added to `slice->len` exactly if the sum is past
`SIZE_MAX` and not found out. `encoders_clean_iff` has it together with the round trips
of the integers, which are always clean, and of the byte arrays.
-/

namespace Metor.Proof.Postcard

open Metor.Lib Metor.Impl.Postcard

variable {slice slice' : Slice}

/-! ## Bytes -/

theorem push_of_lt (hd : slice.data ≠ none) (h : slice.len < slice.capacity) (byte : UInt8) :
    ∃ slice', slice.push byte = some slice' ∧ slice'.data ≠ none ∧ slice'.len.toNat = slice.len.toNat + 1 ∧
      slice'.capacity = slice.capacity := by
  obtain ⟨slice₁, hw, hdata, hlen, hcap⟩ := write_of_le slice.len [byte] hd (UInt64.lt_iff_toNat_lt.mp h)
  refine ⟨{ slice₁ with len := slice₁.len + 1 }, ?_, ?_, ?_, hcap⟩
  · rw [Slice.push, hw]
    rfl
  · show slice₁.data ≠ none
    rw [hdata]
    simpa using hd
  · show (slice₁.len + 1).toNat = _
    rw [hlen, toNat_succ_of_lt h]

theorem push_of_le (h : slice.capacity ≤ slice.len) (byte : UInt8) : slice.push byte = none := by
  rw [Slice.push, write_of_lt (Nat.lt_succ_of_le (UInt64.le_iff_toNat_le.mp h))]
  rfl

theorem pop_of_le (h : slice.capacity ≤ slice.len) : slice.pop = none := by
  rw [Slice.pop, Slice.read, if_neg (Nat.not_le.mpr (Nat.lt_succ_of_le (UInt64.le_iff_toNat_le.mp h)))]
  rfl

/-- As many bytes as there are up to the capacity can be pushed. -/
theorem pushAll_eq_none_iff (slice : Slice) (hd : slice.data ≠ none) {bytes : List UInt8} (hb : bytes ≠ []) :
    slice.pushAll bytes = none ↔ slice.capacity.toNat < slice.len.toNat + bytes.length := by
  induction bytes generalizing slice with
  | nil => exact absurd rfl hb
  | cons byte bytes ih =>
    have hcons : slice.pushAll (byte :: bytes) = (slice.push byte).bind (Slice.pushAll · bytes) := rfl
    rw [hcons, List.length_cons]
    by_cases hfull : slice.capacity ≤ slice.len
    · have := UInt64.le_iff_toNat_le.mp hfull
      rw [push_of_le hfull]
      exact iff_of_true rfl (by omega)
    · have hlt := UInt64.not_le.mp hfull
      have := UInt64.lt_iff_toNat_lt.mp hlt
      obtain ⟨slice₁, hpush, hd₁, hlen, hcap⟩ := push_of_lt hd hlt byte
      rw [hpush, Option.bind_some]
      by_cases hnil : bytes = []
      · subst hnil
        rw [List.length_nil]
        exact iff_of_false (Option.some_ne_none _) (by omega)
      · rw [ih slice₁ hd₁ hnil, hlen, hcap]
        omega

/-- And so many can be popped. -/
theorem popAll_eq_none_iff (slice : Slice) (hd : slice.data ≠ none) {n : Nat} (hn : 0 < n) :
    slice.popAll n = none ↔ slice.capacity.toNat < slice.len.toNat + n := by
  induction n generalizing slice with
  | zero => exact absurd hn (Nat.lt_irrefl 0)
  | succ n ih =>
    have hsucc : slice.popAll (n + 1) = slice.pop.bind fun p => (p.2.popAll n).bind fun q => some (p.1 :: q.1, q.2) := rfl
    rw [hsucc]
    by_cases hfull : slice.capacity ≤ slice.len
    · have := UInt64.le_iff_toNat_le.mp hfull
      rw [pop_of_le hfull]
      exact iff_of_true rfl (by omega)
    · have hlt := UInt64.not_le.mp hfull
      have := UInt64.lt_iff_toNat_lt.mp hlt
      obtain ⟨byte, hpop, -⟩ := pop_of_lt hd hlt
      have hlen : (slice.advance 1).len.toNat = slice.len.toNat + 1 := toNat_succ_of_lt hlt
      have hcap : (slice.advance 1).capacity = slice.capacity := rfl
      have hrest : ((slice.advance 1).popAll n).bind (fun q => some (byte :: q.1, q.2)) = none ↔
          (slice.advance 1).popAll n = none := by
        cases (slice.advance 1).popAll n with
        | none => exact iff_of_true rfl rfl
        | some q => exact iff_of_false (Option.some_ne_none _) (Option.some_ne_none _)
      rw [hpop, Option.bind_some, hrest]
      by_cases hzero : n = 0
      · subst hzero
        exact iff_of_false (Option.some_ne_none _) (by omega)
      · rw [ih (slice.advance 1) hd (Nat.pos_of_ne_zero hzero), hlen, hcap]
        omega

/-! ## Calls -/

theorem encodeByte_ne_none (slice : Slice) (byte : UInt8) : encodeByte slice byte ≠ none := by
  rw [encodeByte]
  by_cases hd : slice.data = none
  · rw [if_pos hd]
    exact Option.some_ne_none _
  by_cases hfull : slice.capacity ≤ slice.len
  · rw [if_neg hd, if_pos hfull]
    exact Option.some_ne_none _
  · obtain ⟨slice', hpush, -⟩ := push_of_lt hd (UInt64.not_le.mp hfull) byte
    rw [if_neg hd, if_neg hfull, hpush]
    exact Option.some_ne_none _

theorem decodeByte_ne_none {α : Type} (slice : Slice) (value : α) (decode : UInt8 → Error × α) :
    decodeByte slice value decode ≠ none := by
  rw [decodeByte]
  by_cases hd : slice.data = none
  · rw [if_pos hd]
    exact Option.some_ne_none _
  by_cases hfull : slice.capacity ≤ slice.len
  · rw [if_neg hd, if_pos hfull]
    exact Option.some_ne_none _
  · obtain ⟨byte, hpop, -⟩ := pop_of_lt hd (UInt64.not_le.mp hfull)
    rw [if_neg hd, if_neg hfull, hpop]
    exact Option.some_ne_none _

theorem encodeUnsignedVarint_ne_none (slice : Slice) {value m : UInt64}
    (h : (varint value.toNat).length ≤ m.toNat + 1) : encodeUnsignedVarint slice value m ≠ none := by
  obtain ⟨-, h⟩ | ⟨-, -, slice', h, -⟩ | ⟨-, -, slice', h, -⟩ := encodeUnsignedVarint_cases slice value m h
  · exact h ▸ Option.some_ne_none _
  · exact h ▸ Option.some_ne_none _
  · exact h ▸ Option.some_ne_none _

/-- The check of a length that is added to `slice->len`: it is passed by what fits, and by what wraps. -/
theorem not_capacity_lt_iff (hd : slice.data ≠ none) (length : UInt64) :
    ¬ slice.capacity < slice.len + length ↔
      slice.len.toNat + length.toNat ≤ slice.capacity.toNat ∨ slice.Wraps length.toNat := by
  have hcap := slice.capacity.toNat_lt
  have hwraps : slice.Wraps length.toNat ↔
      2 ^ 64 ≤ slice.len.toNat + length.toNat ∧ slice.len.toNat + length.toNat - 2 ^ 64 ≤ slice.capacity.toNat :=
    and_iff_right hd
  rw [hwraps, UInt64.lt_iff_toNat_lt]
  by_cases h : slice.len.toNat + length.toNat < 2 ^ 64
  · rw [toNat_add_of_lt h]
    omega
  · rw [toNat_add_of_le (Nat.not_lt.mp h)]
    omega

/-- Passing the check, it is only what wraps that leaves the buffer. -/
theorem capacity_lt_iff_wraps {length : UInt64} (hd : slice.data ≠ none) (h : ¬ slice.capacity < slice.len + length) :
    slice.capacity.toNat < slice.len.toNat + length.toNat ↔ slice.Wraps length.toNat := by
  have hcap := slice.capacity.toNat_lt
  constructor
  · intro hlt
    exact ((not_capacity_lt_iff hd length).mp h).resolve_left (Nat.not_le.mpr hlt)
  · rintro ⟨-, hwrap, -⟩
    omega

theorem encodeFixed_eq_none_iff (slice : Slice) {bytes : List UInt8} (hb : bytes ≠ []) (hlen : bytes.length < 2 ^ 64) :
    encodeFixed slice bytes = none ↔ slice.Wraps bytes.length := by
  have hn : (UInt64.ofNat bytes.length).toNat = bytes.length := by
    rw [UInt64.toNat_ofNat', Nat.mod_eq_of_lt hlen]
  rw [encodeFixed]
  by_cases hd : slice.data = none
  · rw [if_pos hd]
    exact iff_of_false (Option.some_ne_none _) fun h => h.1 hd
  rw [if_neg hd]
  by_cases hfull : slice.capacity < slice.len + UInt64.ofNat bytes.length
  · rw [if_pos hfull]
    refine iff_of_false (Option.some_ne_none _) fun h => ?_
    exact (not_capacity_lt_iff hd (UInt64.ofNat bytes.length)).mpr (.inr (hn.symm ▸ h)) hfull
  · have hwraps := capacity_lt_iff_wraps hd hfull
    rw [hn] at hwraps
    rw [if_neg hfull, ← hwraps, ← pushAll_eq_none_iff slice hd hb]
    cases slice.pushAll bytes with
    | none => exact iff_of_true rfl rfl
    | some slice' => exact iff_of_false (Option.some_ne_none _) (Option.some_ne_none _)

theorem decodeFixed_eq_none_iff {α : Type} (slice : Slice) (value : α) {n : Nat} (decode : Bytes → α) (hpos : 0 < n)
    (hlt : n < 2 ^ 64) : decodeFixed slice value n decode = none ↔ slice.Wraps n := by
  have hn : (UInt64.ofNat n).toNat = n := by
    rw [UInt64.toNat_ofNat', Nat.mod_eq_of_lt hlt]
  rw [decodeFixed]
  by_cases hd : slice.data = none
  · rw [if_pos hd]
    exact iff_of_false (Option.some_ne_none _) fun h => h.1 hd
  rw [if_neg hd]
  by_cases hfull : slice.capacity < slice.len + UInt64.ofNat n
  · rw [if_pos hfull]
    refine iff_of_false (Option.some_ne_none _) fun h => ?_
    exact (not_capacity_lt_iff hd (UInt64.ofNat n)).mpr (.inr (hn.symm ▸ h)) hfull
  · have hwraps := capacity_lt_iff_wraps hd hfull
    rw [hn] at hwraps
    rw [if_neg hfull, ← hwraps, ← popAll_eq_none_iff slice hd hpos]
    cases slice.popAll n with
    | none => exact iff_of_true rfl rfl
    | some p => exact iff_of_false (Option.some_ne_none _) (Option.some_ne_none _)

theorem encodeByteArray_eq_none_iff (slice : Slice) (source : Source) :
    encodeByteArray slice source.bytes source.length = none ↔ source.Overruns slice := by
  have hcap := slice.capacity.toNat_lt
  by_cases h : slice.data = none ∨ source.bytes = none ∧ 0 < source.length
  · rw [encodeByteArray_of_invalid h]
    exact iff_of_false (Option.some_ne_none _) fun ho => h.elim ho.1 fun hb => ho.2.1 hb.1
  by_cases hroom : slice.capacity.toNat < slice.len.toNat + (sizeUnsignedVarint source.length).toNat
  · obtain ⟨slice', hrun, -⟩ := encodeByteArray_of_lt h hroom
    rw [hrun]
    exact iff_of_false (Option.some_ne_none _) fun ho => Nat.not_lt.mpr ho.2.2.1 hroom
  have hroom := Nat.not_lt.mp hroom
  by_cases hwrap : 2 ^ 64 ≤ slice.len.toNat + (sizeUnsignedVarint source.length).toNat + source.length.toNat
  · have hpos : 0 < source.length := by
      rw [UInt64.lt_iff_toNat_lt]
      show 0 < source.length.toNat
      omega
    exact iff_of_true (encodeByteArray_of_wrap h hroom hwrap)
      ⟨(not_or.mp h).1, fun hb => h (.inr ⟨hb, hpos⟩), hroom, hwrap⟩
  refine iff_of_false ?_ fun ho => hwrap ho.2.2.2
  by_cases hfits : slice.len.toNat + (sizeUnsignedVarint source.length).toNat + source.length.toNat ≤ slice.capacity.toNat
  · obtain ⟨slice', hrun, -⟩ := encodeByteArray_of_le h hfits
    exact hrun ▸ Option.some_ne_none _
  · obtain ⟨slice', hrun, -⟩ := encodeByteArray_of_short h hroom (Nat.not_le.mp hfits) (Nat.not_le.mp hwrap)
    exact hrun ▸ Option.some_ne_none _

theorem decodeByteArray_eq_none_iff (slice : Slice) (bytes : Option Bytes) (max_length actual_length : UInt64) :
    decodeByteArray slice bytes max_length actual_length = none ↔
      bytes ≠ none ∧ actual_length ≤ max_length ∧ slice.Wraps actual_length.toNat := by
  rw [decodeByteArray]
  by_cases hinvalid : slice.data = none ∨ actual_length = 0
  · rw [if_pos hinvalid]
    refine iff_of_false (Option.some_ne_none _) fun h => hinvalid.elim h.2.2.1 fun hz => ?_
    have hwrap : 2 ^ 64 ≤ slice.len.toNat + actual_length.toNat := h.2.2.2.1
    have hlen := slice.len.toNat_lt
    rw [hz] at hwrap
    exact Nat.not_lt.mpr hwrap hlen
  have hd := (not_or.mp hinvalid).1
  rw [if_neg hinvalid, UInt64.add_comm]
  by_cases hfull : slice.capacity < slice.len + actual_length
  · rw [if_pos hfull]
    exact iff_of_false (Option.some_ne_none _) fun h => (not_capacity_lt_iff hd actual_length).mpr (.inr h.2.2) hfull
  rw [if_neg hfull]
  by_cases hmax : max_length < actual_length
  · rw [if_pos hmax]
    exact iff_of_false (Option.some_ne_none _) fun h => UInt64.not_lt.mpr h.2.1 hmax
  rw [if_neg hmax]
  cases bytes with
  | none => exact iff_of_false (Option.some_ne_none _) fun h => h.1 rfl
  | some bytes =>
    have hright : (some bytes ≠ none ∧ actual_length ≤ max_length ∧ slice.Wraps actual_length.toNat) ↔
        slice.Wraps actual_length.toNat := by
      rw [and_iff_right (Option.some_ne_none bytes), and_iff_right (UInt64.not_lt.mp hmax)]
    rw [hright, ← capacity_lt_iff_wraps hd hfull]
    by_cases hroom : slice.len.toNat + actual_length.toNat ≤ slice.capacity.toNat
    · rw [read_eq_rest hd hroom]
      exact iff_of_false (Option.some_ne_none _) (Nat.not_lt.mpr hroom)
    · rw [Slice.read, if_neg hroom]
      exact iff_of_true rfl (Nat.not_le.mp hroom)

theorem decodeInt_ne_none (ty : IntTy) (slice : Slice) (value : ty.Val) : ty.decode slice value ≠ none := by
  have hmap {α β : Type} {run : Option α} {f : α → β} (h : run ≠ none) : run.map f ≠ none := fun hn =>
    h (Option.map_eq_none_iff.mp hn)
  have hsigned (value : Int64) (m : Nat) : decodeSignedVarint slice value m ≠ none := by
    obtain ⟨⟨err, slice', zigzag⟩, hrun⟩ := Option.ne_none_iff_exists'.mp (decodeUnsignedVarint_ne_none slice 0 m)
    rw [decodeSignedVarint, hrun]
    by_cases herr : err = .success
    · subst herr
      exact Option.some_ne_none _
    · show (if err ≠ .success then _ else _) ≠ none
      rw [if_pos herr]
      exact Option.some_ne_none _
  cases ty with
  | u16 => exact hmap (decodeUnsignedVarint_ne_none slice 0 3)
  | u32 => exact hmap (decodeUnsignedVarint_ne_none slice 0 5)
  | u64 => exact decodeUnsignedVarint_ne_none slice value 10
  | i16 => exact hmap (hsigned 0 3)
  | i32 => exact hmap (hsigned 0 5)
  | i64 => exact hsigned value 10

theorem encodeInt_ne_none (ty : IntTy) (slice : Slice) (value : ty.Val) : ty.encode slice value ≠ none := by
  obtain ⟨err, slice', hrun, -⟩ := clean_encode ty slice value
  exact hrun ▸ Option.some_ne_none _

/-- Which calls leave the buffer. -/
theorem run_eq_none_iff (slice : Slice) (call : Call) : call.run slice = none ↔ call.Overruns slice := by
  have hten (value : UInt64) : encodeUnsignedVarint slice value 10 ≠ none :=
    encodeUnsignedVarint_ne_none slice (Nat.le_succ_of_le (length_varint_le_ten value))
  have hlen (value : UInt64) : decodeByteArrayLen slice value ≠ none := fun h =>
    decodeUnsignedVarint_ne_none slice 0 10 (Option.map_eq_none_iff.mp h)
  cases call with
  | encodeBool value => exact iff_of_false (encodeByte_ne_none slice _) id
  | encodeU8 value => exact iff_of_false (encodeByte_ne_none slice _) id
  | encodeI8 value => exact iff_of_false (encodeByte_ne_none slice _) id
  | encodeInt ty value => exact iff_of_false (encodeInt_ne_none ty slice value) id
  | encodeF32 bits => exact encodeFixed_eq_none_iff slice (List.cons_ne_nil _ _) (by rw [List.length_map]; decide)
  | encodeF64 bits => exact encodeFixed_eq_none_iff slice (List.cons_ne_nil _ _) (by rw [List.length_map]; decide)
  | encodeByteArray source => exact encodeByteArray_eq_none_iff slice source
  | encodeString source => exact encodeByteArray_eq_none_iff slice source
  | encodeOptionNone => exact iff_of_false (encodeByte_ne_none slice _) id
  | encodeOptionSome => exact iff_of_false (encodeByte_ne_none slice _) id
  | encodeVariant discriminant => exact iff_of_false (encodeInt_ne_none .u32 slice discriminant) id
  | startSeq count => exact iff_of_false (hten count) id
  | startMap count => exact iff_of_false (hten count) id
  | decodeBool => exact Option.map_eq_none_iff.trans (iff_of_false (decodeByte_ne_none slice _ _) id)
  | decodeU8 => exact Option.map_eq_none_iff.trans (iff_of_false (decodeByte_ne_none slice _ _) id)
  | decodeI8 => exact Option.map_eq_none_iff.trans (iff_of_false (decodeByte_ne_none slice _ _) id)
  | decodeInt ty value => exact Option.map_eq_none_iff.trans (iff_of_false (decodeInt_ne_none ty slice value) id)
  | decodeF32 => exact Option.map_eq_none_iff.trans (decodeFixed_eq_none_iff slice _ _ (by decide) (by decide))
  | decodeF64 => exact Option.map_eq_none_iff.trans (decodeFixed_eq_none_iff slice _ _ (by decide) (by decide))
  | decodeByteArrayLen => exact Option.map_eq_none_iff.trans (iff_of_false (hlen 0) id)
  | decodeByteArray bytes m n => exact Option.map_eq_none_iff.trans (decodeByteArray_eq_none_iff slice bytes m n)
  | decodeStringLen => exact Option.map_eq_none_iff.trans (iff_of_false (hlen 0) id)
  | decodeString bytes m n => exact Option.map_eq_none_iff.trans (decodeByteArray_eq_none_iff slice bytes m n)
  | decodeOptionTag => exact Option.map_eq_none_iff.trans (iff_of_false (decodeByte_ne_none slice _ _) id)
  | decodeVariant => exact Option.map_eq_none_iff.trans (iff_of_false (decodeInt_ne_none .u32 slice 0) id)
  | decodeSeqLen => exact Option.map_eq_none_iff.trans (iff_of_false (hlen 0) id)
  | decodeMapLen => exact Option.map_eq_none_iff.trans (iff_of_false (hlen 0) id)

/-! ## Main result -/

/-- Integers are always encoded cleanly, byte arrays under `Source.Clean`, and a call stays in the buffer unless it
overruns. -/
theorem encoders_clean_iff (slice : Slice) :
    (∀ (ty : IntTy) (v : ty.Val), Clean slice (ty.size v) (ty.Reads v) (ty.encode slice v)) ∧
    (∀ source : Source,
      Clean slice (sizeByteArray source.length) source.Reads (encodeByteArray slice source.bytes source.length) ↔
        source.Clean slice) ∧
    ∀ call : Call, call.run slice ≠ none ↔ ¬ call.Overruns slice :=
  ⟨fun ty v => clean_encode ty slice v, clean_encodeByteArray_iff slice, fun call => not_congr (run_eq_none_iff slice call)⟩

/-- An empty array, an array of two bytes with room for one, and a length of `SIZE_MAX`. -/
theorem not_clean :
    ¬ Clean (initSlice [0] (by decide)) (sizeByteArray 0) (Source.Reads ⟨some [], 0, by simp⟩)
      (encodeByteArray (initSlice [0] (by decide)) (some []) 0) ∧
    ¬ Clean (initSlice [0, 0] (by decide)) (sizeByteArray 2) (Source.Reads ⟨some [5, 6], 2, by simp⟩)
      (encodeByteArray (initSlice [0, 0] (by decide)) (some [5, 6]) 2) ∧
    decodeByteArray ((initSlice [7] (by decide)).advance 1) (some []) 0xffffffffffffffff 0xffffffffffffffff = none := by
  refine ⟨?_, ?_, ?_⟩
  · refine mt (clean_encodeByteArray_iff _ ⟨some [], 0, by simp⟩).mp ?_
    rw [Source.Clean]
    decide
  · refine mt (clean_encodeByteArray_iff _ ⟨some [5, 6], 2, by simp⟩).mp ?_
    rw [Source.Clean]
    decide
  · refine (decodeByteArray_eq_none_iff _ _ _ _).mpr ?_
    rw [Slice.Wraps]
    decide

end Metor.Proof.Postcard
