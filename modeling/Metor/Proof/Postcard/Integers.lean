import Metor.Proof.Postcard.Varint

/-!
# The integers of `postcard.h`

Each integer type is a varint of 64 bits, zigzag for the signed ones
(`toNat_zigzag`, `unzigzag_zigzag`), that fits the bytes its encoder allows
(`length_varint_wire`) and is cast back (`decode_of_rest`).
`clean_encode` is the round trip.
-/

namespace Metor.Proof.Postcard

open Metor.Lib Metor.Impl.Postcard

variable {slice slice' : Slice}

/-! ## Zigzag -/

theorem toInt_eq (x : BitVec 64) : x.toInt = if 2 ^ 63 ≤ x.toNat then (x.toNat : Int) - 2 ^ 64 else (x.toNat : Int) := by
  rw [BitVec.toInt_eq_msb_cond, BitVec.msb_eq_decide]
  exact if_congr decide_eq_true_iff rfl rfl

/-- The sign, 64 times. -/
theorem sshiftRight_sign (x : BitVec 64) :
    x.sshiftRight 63 = if 2 ^ 63 ≤ x.toNat then BitVec.allOnes 64 else 0#64 := by
  have hx := x.isLt
  apply BitVec.eq_of_toNat_eq
  by_cases h : 2 ^ 63 ≤ x.toNat
  · have hmsb : x.msb = true := (BitVec.msb_eq_decide x).trans (decide_eq_true h)
    rw [BitVec.toNat_sshiftRight_of_msb_true hmsb, if_pos h, BitVec.toNat_allOnes, Nat.shiftRight_eq_div_pow]
    omega
  · have hmsb : x.msb = false := (BitVec.msb_eq_decide x).trans (decide_eq_false h)
    rw [BitVec.toNat_sshiftRight_of_msb_false hmsb, if_neg h, Nat.shiftRight_eq_div_pow]
    show x.toNat / 2 ^ 63 = 0
    omega

theorem toNat_zigzag (value : Int64) :
    ((zigzag value).toNat : Int) = if 0 ≤ value.toInt then 2 * value.toInt else -2 * value.toInt - 1 := by
  have hx := value.toBitVec.isLt
  have hint : value.toInt = value.toBitVec.toInt := rfl
  have hzig : (zigzag value).toNat = ((value.toBitVec <<< 1) ^^^ (value.toBitVec.sshiftRight 63)).toNat := rfl
  rw [hint, toInt_eq, hzig, sshiftRight_sign]
  by_cases h : 2 ^ 63 ≤ value.toBitVec.toNat
  · rw [if_pos h, if_pos h, BitVec.xor_allOnes, BitVec.toNat_not, BitVec.toNat_shiftLeft, Nat.shiftLeft_eq,
      if_neg (by omega)]
    omega
  · rw [if_neg h, if_neg h, BitVec.xor_zero, BitVec.toNat_shiftLeft, Nat.shiftLeft_eq, if_pos (by omega)]
    omega

theorem toInt_unzigzag (zigzag : UInt64) :
    (unzigzag zigzag).toInt = if zigzag.toNat % 2 = 0 then (zigzag.toNat / 2 : Int) else -(zigzag.toNat / 2 : Int) - 1 := by
  have hx := zigzag.toBitVec.isLt
  have hnat : zigzag.toNat = zigzag.toBitVec.toNat := rfl
  have hun : (unzigzag zigzag).toInt = ((zigzag.toBitVec >>> 1) ^^^ (-(zigzag.toBitVec &&& 1#64))).toInt := rfl
  have hbit : (zigzag.toBitVec &&& 1#64).toNat = zigzag.toBitVec.toNat % 2 := by
    rw [BitVec.toNat_and]
    exact Nat.and_two_pow_sub_one_eq_mod _ 1
  have hhalf : (zigzag.toBitVec >>> 1).toNat = zigzag.toBitVec.toNat / 2 := by
    rw [BitVec.toNat_ushiftRight, Nat.shiftRight_eq_div_pow]
  rw [hun, hnat, toInt_eq]
  by_cases h : zigzag.toBitVec.toNat % 2 = 0
  · have hzero : zigzag.toBitVec &&& 1#64 = 0#64 := BitVec.eq_of_toNat_eq (by rw [hbit, h]; rfl)
    rw [if_pos h, hzero, BitVec.neg_zero, BitVec.xor_zero, hhalf, if_neg (by omega)]
    omega
  · have hone : zigzag.toBitVec &&& 1#64 = 1#64 := BitVec.eq_of_toNat_eq (by
      rw [hbit]
      show _ = 1
      omega)
    have hall : -(1#64) = BitVec.allOnes 64 := rfl
    rw [if_neg h, hone, hall, BitVec.xor_allOnes, BitVec.toNat_not, hhalf, if_pos (by omega)]
    omega

theorem unzigzag_zigzag (value : Int64) : unzigzag (zigzag value) = value := by
  have hz := toNat_zigzag value
  apply Int64.toInt.inj
  rw [toInt_unzigzag]
  by_cases h : 0 ≤ value.toInt
  · rw [if_pos h] at hz
    rw [if_pos (by omega)]
    omega
  · rw [if_neg h] at hz
    rw [if_neg (by omega)]
    omega

/-! ## Each type as a varint -/

theorem encode_eq (ty : IntTy) (slice : Slice) (v : ty.Val) :
    ty.encode slice v = encodeUnsignedVarint slice (ty.wire v) (UInt64.ofNat ty.maxBytes) := by
  cases ty <;> rfl

theorem size_eq (ty : IntTy) (v : ty.Val) : ty.size v = sizeUnsignedVarint (ty.wire v) := by
  cases ty <;> rfl

theorem length_varint_wire (ty : IntTy) (v : ty.Val) : (varint (ty.wire v).toNat).length ≤ ty.maxBytes := by
  cases ty with
  | u16 =>
    have hv : (IntTy.wire .u16 v).toNat < 2 ^ 16 := UInt16.toNat_lt v
    exact (length_varint_le_iff _ 2).mpr (by omega)
  | u32 =>
    have hv : (IntTy.wire .u32 v).toNat < 2 ^ 32 := UInt32.toNat_lt v
    exact (length_varint_le_iff _ 4).mpr (by omega)
  | u64 => exact length_varint_le_ten _
  | i16 =>
    have hz : ((IntTy.wire .i16 v).toNat : Int) = _ := toNat_zigzag (Int16.toInt64 v)
    rw [Int16.toInt_toInt64] at hz
    have hlo := Int16.le_toInt v
    have hhi := Int16.toInt_lt v
    exact (length_varint_le_iff _ 2).mpr (by split at hz <;> omega)
  | i32 =>
    have hz : ((IntTy.wire .i32 v).toNat : Int) = _ := toNat_zigzag (Int32.toInt64 v)
    rw [Int32.toInt_toInt64] at hz
    have hlo := Int32.le_toInt v
    have hhi := Int32.toInt_lt v
    exact (length_varint_le_iff _ 4).mpr (by split at hz <;> omega)
  | i64 => exact length_varint_le_ten _

theorem decodeSignedVarint_of_rest {value value₀ : Int64} {max_bytes : Nat}
    (hmax : (varint (zigzag value).toNat).length ≤ max_bytes) (hp : varint (zigzag value).toNat <+: slice.rest) :
    decodeSignedVarint slice value₀ max_bytes =
      some (.success, slice.advance (varint (zigzag value).toNat).length, value) := by
  rw [decodeSignedVarint, decodeUnsignedVarint_of_rest hmax hp]
  show some (Error.success, _, unzigzag (zigzag value)) = _
  rw [unzigzag_zigzag]

theorem map_narrow {α β : Type} {value : β} {fits : α → Bool} {cast : α → β} {val : α}
    {run : Option (Error × Slice × α)} (hrun : run = some (.success, slice, val)) (h : fits val = true) :
    run.map (narrow value fits cast) = some (.success, slice, cast val) := by
  rw [hrun, Option.map_some, narrow, if_neg fun hs => hs rfl, if_pos h]

/-- The value is read back from the bytes of its varint. -/
theorem decode_of_rest {ty : IntTy} {v : ty.Val} (hp : varint (ty.wire v).toNat <+: slice.rest) :
    ty.Reads v slice (slice.advance (varint (ty.wire v).toNat).length) := by
  have hmax := length_varint_wire ty v
  intro value
  cases ty with
  | u16 =>
    have hrun : decodeUnsignedVarint slice 0 3 = _ := decodeUnsignedVarint_of_rest hmax hp
    have hfits : decide (UInt16.toUInt64 v ≤ 0xffff) = true :=
      decide_eq_true (UInt64.le_iff_toNat_le.mpr (Nat.le_of_lt_succ (UInt16.toNat_lt v)))
    refine (map_narrow hrun hfits).trans ?_
    exact congrArg some (congrArg (Prod.mk _ ∘ Prod.mk _) (UInt16.toUInt16_toUInt64 v))
  | u32 =>
    have hrun : decodeUnsignedVarint slice 0 5 = _ := decodeUnsignedVarint_of_rest hmax hp
    have hfits : decide (UInt32.toUInt64 v ≤ 0xffffffff) = true :=
      decide_eq_true (UInt64.le_iff_toNat_le.mpr (Nat.le_of_lt_succ (UInt32.toNat_lt v)))
    refine (map_narrow hrun hfits).trans ?_
    exact congrArg some (congrArg (Prod.mk _ ∘ Prod.mk _) (UInt32.toUInt32_toUInt64 v))
  | u64 => exact decodeUnsignedVarint_of_rest hmax hp
  | i16 =>
    have hrun : decodeSignedVarint slice 0 3 = _ := decodeSignedVarint_of_rest hmax hp
    have hlo : -0x8000 ≤ Int16.toInt64 v := Int64.le_iff_toInt_le.mpr (by
      rw [Int16.toInt_toInt64]
      exact Int16.le_toInt v)
    have hhi : Int16.toInt64 v ≤ 0x7fff := Int64.le_iff_toInt_le.mpr (by
      rw [Int16.toInt_toInt64]
      exact Int.le_of_lt_add_one (Int16.toInt_lt v))
    have hfits : (decide (-0x8000 ≤ Int16.toInt64 v) && decide (Int16.toInt64 v ≤ 0x7fff)) = true := by
      rw [decide_eq_true hlo, decide_eq_true hhi]
      rfl
    refine (map_narrow hrun hfits).trans ?_
    exact congrArg some (congrArg (Prod.mk _ ∘ Prod.mk _) (Int16.toInt16_toInt64 v))
  | i32 =>
    have hrun : decodeSignedVarint slice 0 5 = _ := decodeSignedVarint_of_rest hmax hp
    have hlo : -0x80000000 ≤ Int32.toInt64 v := Int64.le_iff_toInt_le.mpr (by
      rw [Int32.toInt_toInt64]
      exact Int32.le_toInt v)
    have hhi : Int32.toInt64 v ≤ 0x7fffffff := Int64.le_iff_toInt_le.mpr (by
      rw [Int32.toInt_toInt64]
      exact Int.le_of_lt_add_one (Int32.toInt_lt v))
    have hfits : (decide (-0x80000000 ≤ Int32.toInt64 v) && decide (Int32.toInt64 v ≤ 0x7fffffff)) = true := by
      rw [decide_eq_true hlo, decide_eq_true hhi]
      rfl
    refine (map_narrow hrun hfits).trans ?_
    exact congrArg some (congrArg (Prod.mk _ ∘ Prod.mk _) (Int32.toInt32_toInt64 v))
  | i64 => exact decodeSignedVarint_of_rest hmax hp

/-! ## Round trip -/

theorem clean_of_failed {size : UInt64} {reads : Slice → Slice → Prop} {result : Option (Error × Slice)} {err : Error}
    (h : result = some (err, slice')) (herr : err ≠ .success) (hlen : slice'.len = slice.len) :
    Clean slice size reads result :=
  ⟨err, slice', h, fun hs => absurd hs herr, fun _ => hlen⟩

theorem clean_of_appended {size : UInt64} {reads : Slice → Slice → Prop} {result : Option (Error × Slice)} {out : Bytes}
    (h : result = some (.success, slice')) (happ : Appended slice slice' out) (hsize : out.length = size.toNat)
    (hreads : ∀ reader : Slice, out <+: reader.rest → reads reader (reader.advance out.length)) :
    Clean slice size reads result :=
  ⟨.success, slice', h, fun _ => ⟨out, happ, hsize, hreads⟩, fun hs => absurd rfl hs⟩

/-- Integers: the value comes back. -/
theorem clean_encode (ty : IntTy) (slice : Slice) (v : ty.Val) :
    Clean slice (ty.size v) (ty.Reads v) (ty.encode slice v) := by
  have hmax := length_varint_wire ty v
  have hten : ty.maxBytes ≤ 10 := by cases ty <;> decide
  have hmax' : (UInt64.ofNat ty.maxBytes).toNat = ty.maxBytes := by
    rw [UInt64.toNat_ofNat']
    omega
  rw [encode_eq, size_eq]
  obtain ⟨-, h⟩ | ⟨-, -, slice', h, happ⟩ | ⟨-, -, slice', h, hlen⟩ :=
    encodeUnsignedVarint_cases slice (ty.wire v) (UInt64.ofNat ty.maxBytes) (by omega)
  · exact clean_of_failed h (by decide) rfl
  · exact clean_of_appended h happ (toNat_sizeUnsignedVarint _).symm fun reader hp => decode_of_rest hp
  · exact clean_of_failed h (by decide) hlen

end Metor.Proof.Postcard

/-!
## The byte arrays of `postcard.h`

`encodeByteArray_of_le`, `encodeByteArray_of_short` and
`encodeByteArray_of_wrap` are what becomes of an array once its length is
written: it fits; it does not; or its end is past `SIZE_MAX`, and the copy
leaves the buffer. `reads_of_rest` reads an array back that is not
empty, and `clean_encodeByteArray_iff` is when the encoder is clean.
-/

namespace Metor.Proof.Postcard

open Metor.Lib Metor.Impl.Postcard

variable {slice slice' : Slice} {source : Source}

/-! ## Arguments -/

theorem length_value (h : source.bytes ≠ none) : source.value.length = source.length.toNat := by
  obtain ⟨array, ha⟩ := Option.ne_none_iff_exists'.mp h
  rw [Source.value, ha, Option.getD_some, List.length_take, Nat.min_eq_left (source.long array ha)]

theorem eq_zero_of_not_pos {length : UInt64} (h : ¬ 0 < length) : length = 0 :=
  UInt64.toNat_inj.mp (Nat.eq_zero_of_not_pos fun hpos => h (UInt64.lt_iff_toNat_lt.mpr hpos))

theorem value_of_empty (h : ¬ 0 < source.length) : source.value = [] := by
  rw [Source.value, eq_zero_of_not_pos h]
  exact List.take_zero

theorem firstBytes_source (h : source.bytes ≠ none) : firstBytes source.bytes source.length.toNat = some source.value := by
  obtain ⟨array, ha⟩ := Option.ne_none_iff_exists'.mp h
  rw [firstBytes, Source.value, ha]
  exact if_pos (source.long array ha)

theorem toNat_add_of_le {a b : UInt64} (h : 2 ^ 64 ≤ a.toNat + b.toNat) : (a + b).toNat = a.toNat + b.toNat - 2 ^ 64 := by
  have ha := a.toNat_lt
  have hb := b.toNat_lt
  rw [UInt64.toNat_add]
  omega

/-! ## Encoding -/

/-- `encode_unsigned_varint` of a length, once there is room for it. -/
theorem encodeLength_of_le (hd : slice.data ≠ none) {length : UInt64}
    (h : slice.len.toNat + (sizeUnsignedVarint length).toNat ≤ slice.capacity.toNat) :
    ∃ slice', encodeUnsignedVarint slice length 10 = some (.success, slice') ∧
      Appended slice slice' (varint length.toNat) := by
  rw [toNat_sizeUnsignedVarint] at h
  obtain ⟨hn, -⟩ | ⟨-, -, slice', hrun, happ⟩ | ⟨-, hlt, -⟩ :=
    encodeUnsignedVarint_cases slice length 10 (Nat.le_succ_of_le (length_varint_le_ten length))
  · exact absurd hn hd
  · exact ⟨slice', hrun, happ⟩
  · exact absurd hlt (Nat.not_lt.mpr h)

theorem encodeByteArray_of_invalid (h : slice.data = none ∨ source.bytes = none ∧ 0 < source.length) :
    encodeByteArray slice source.bytes source.length = some (.invalidInput, slice) := by
  rw [encodeByteArray, if_pos h]

theorem encodeByteArray_of_lt (h : ¬ (slice.data = none ∨ source.bytes = none ∧ 0 < source.length))
    (hroom : slice.capacity.toNat < slice.len.toNat + (sizeUnsignedVarint source.length).toNat) :
    ∃ slice', encodeByteArray slice source.bytes source.length = some (.bufferTooSmall, slice') ∧
      slice'.len = slice.len := by
  rw [toNat_sizeUnsignedVarint] at hroom
  obtain ⟨hn, -⟩ | ⟨-, hle, -⟩ | ⟨-, -, slice', hrun, hlen⟩ :=
    encodeUnsignedVarint_cases slice source.length 10 (Nat.le_succ_of_le (length_varint_le_ten source.length))
  · exact absurd (.inl hn) h
  · exact absurd hroom (Nat.not_lt.mpr hle)
  · refine ⟨slice', ?_, hlen⟩
    rw [encodeByteArray, if_neg h, hrun]
    rfl

/-- The data of an appended slice is still there. -/
theorem data_ne_of_appended {out : Bytes} (happ : Appended slice slice' out) (hd : slice.data ≠ none) :
    slice'.data ≠ none := by
  rw [happ.data]
  simpa using hd

theorem encodeByteArray_of_le (h : ¬ (slice.data = none ∨ source.bytes = none ∧ 0 < source.length))
    (hroom : slice.len.toNat + (sizeUnsignedVarint source.length).toNat + source.length.toNat ≤ slice.capacity.toNat) :
    ∃ slice', encodeByteArray slice source.bytes source.length = some (.success, slice') ∧
      Appended slice slice' (varint source.length.toNat ++ source.value) := by
  obtain ⟨hd, hb⟩ := not_or.mp h
  have hcap := slice.capacity.toNat_lt
  obtain ⟨slice₁, hrun, happ⟩ := encodeLength_of_le hd (Nat.le_of_add_right_le hroom)
  rw [toNat_sizeUnsignedVarint] at hroom
  have hsum : (slice₁.len + source.length).toNat = slice₁.len.toNat + source.length.toNat :=
    toNat_add_of_lt (by rw [happ.len]; omega)
  have hfits : ¬ slice₁.capacity < slice₁.len + source.length := by
    rw [UInt64.lt_iff_toNat_lt, hsum, happ.len, happ.capacity]
    omega
  rw [encodeByteArray, if_neg h, hrun]
  by_cases hpos : 0 < source.length
  · have hb : source.bytes ≠ none := fun hn => hb ⟨hn, hpos⟩
    obtain ⟨slice', hw, hdata, hlen, hcapacity⟩ := write_of_le slice₁.len source.value (data_ne_of_appended happ hd)
      (by rw [length_value hb, happ.len, happ.capacity]; omega)
    refine ⟨{ slice' with len := slice'.len + source.length }, ?_, ?_, hcapacity.trans happ.capacity, ?_⟩
    · show (if slice₁.capacity < slice₁.len + source.length then _ else _) = _
      rw [if_neg hfits, if_pos hpos, firstBytes_source hb]
      show (slice₁.write slice₁.len source.value).bind _ = _
      rw [hw]
      rfl
    · show (slice'.len + source.length).toNat = _
      rw [hlen, hsum, happ.len, List.length_append, length_value hb]
      omega
    · obtain ⟨bytes, hbytes⟩ := Option.ne_none_iff_exists'.mp hd
      have hlength := slice.room bytes hbytes
      show slice'.data = _
      rw [hdata, happ.data, hbytes, happ.len, Option.map_some, Option.map_some, Option.map_some,
        overwrite_overwrite (by rw [length_value hb]; omega)]
  · refine ⟨slice₁, ?_, ?_⟩
    · show (if slice₁.capacity < slice₁.len + source.length then _ else _) = _
      rw [if_neg hfits, if_neg hpos]
      rfl
    · rw [value_of_empty hpos, List.append_nil]
      exact happ

theorem encodeByteArray_of_short (h : ¬ (slice.data = none ∨ source.bytes = none ∧ 0 < source.length))
    (hroom : slice.len.toNat + (sizeUnsignedVarint source.length).toNat ≤ slice.capacity.toNat)
    (hshort : slice.capacity.toNat < slice.len.toNat + (sizeUnsignedVarint source.length).toNat + source.length.toNat)
    (hsize : slice.len.toNat + (sizeUnsignedVarint source.length).toNat + source.length.toNat < 2 ^ 64) :
    ∃ slice', encodeByteArray slice source.bytes source.length = some (.bufferTooSmall, slice') ∧
      slice'.len.toNat = slice.len.toNat + (sizeUnsignedVarint source.length).toNat := by
  obtain ⟨slice₁, hrun, happ⟩ := encodeLength_of_le (not_or.mp h).1 hroom
  rw [toNat_sizeUnsignedVarint] at *
  have hsum : (slice₁.len + source.length).toNat = slice₁.len.toNat + source.length.toNat :=
    toNat_add_of_lt (by rw [happ.len]; exact hsize)
  refine ⟨slice₁, ?_, happ.len⟩
  rw [encodeByteArray, if_neg h, hrun]
  show (if slice₁.capacity < slice₁.len + source.length then _ else _) = _
  rw [if_pos (by rw [UInt64.lt_iff_toNat_lt, hsum, happ.len, happ.capacity]; exact hshort)]
  rfl

theorem encodeByteArray_of_wrap (h : ¬ (slice.data = none ∨ source.bytes = none ∧ 0 < source.length))
    (hroom : slice.len.toNat + (sizeUnsignedVarint source.length).toNat ≤ slice.capacity.toNat)
    (hwrap : 2 ^ 64 ≤ slice.len.toNat + (sizeUnsignedVarint source.length).toNat + source.length.toNat) :
    encodeByteArray slice source.bytes source.length = none := by
  have hcap := slice.capacity.toNat_lt
  have hlength := source.length.toNat_lt
  have hpos : 0 < source.length := by
    rw [UInt64.lt_iff_toNat_lt]
    show 0 < source.length.toNat
    omega
  have hb : source.bytes ≠ none := fun hn => h (.inr ⟨hn, hpos⟩)
  obtain ⟨slice₁, hrun, happ⟩ := encodeLength_of_le (not_or.mp h).1 hroom
  rw [toNat_sizeUnsignedVarint] at *
  have hsum : (slice₁.len + source.length).toNat = slice₁.len.toNat + source.length.toNat - 2 ^ 64 :=
    toNat_add_of_le (by rw [happ.len]; exact hwrap)
  rw [encodeByteArray, if_neg h, hrun]
  show (if slice₁.capacity < slice₁.len + source.length then _ else _) = _
  rw [if_neg (by rw [UInt64.lt_iff_toNat_lt, hsum, happ.len, happ.capacity]; omega), if_pos hpos, firstBytes_source hb]
  show (slice₁.write slice₁.len source.value).bind _ = _
  rw [write_of_lt (by rw [length_value hb, happ.len, happ.capacity]; omega)]
  rfl

/-! ## Decoding -/

theorem read_eq_rest {n : Nat} (hd : slice.data ≠ none) (h : slice.len.toNat + n ≤ slice.capacity.toNat) :
    slice.read slice.len n = some (slice.rest.take n) := by
  obtain ⟨bytes, hb⟩ := Option.ne_none_iff_exists'.mp hd
  rw [Slice.read, if_pos h, Slice.rest, hb]
  rfl

theorem toNat_len_advance (slice : Slice) {n : Nat} (h : slice.len.toNat + n < 2 ^ 64) :
    (slice.advance n).len.toNat = slice.len.toNat + n := by
  have hn : (UInt64.ofNat n).toNat = n := by
    rw [UInt64.toNat_ofNat']
    omega
  rw [Slice.advance, toNat_add_of_lt (by rw [hn]; exact h), hn]

theorem rest_advance (slice : Slice) {n : Nat} (h : slice.len.toNat + n < 2 ^ 64) :
    (slice.advance n).rest = slice.rest.drop n := by
  rw [Slice.rest, Slice.rest, toNat_len_advance slice h, List.drop_drop]
  rfl

/-- The bytes that are left, if there are so many, and room for them. -/
theorem decodeByteArray_of_le (slice : Slice) (hd : slice.data ≠ none) (bytes : Option Bytes) {max_length actual_length : UInt64}
    (hpos : 0 < actual_length) (hroom : slice.len.toNat + actual_length.toNat ≤ slice.capacity.toNat)
    (hmax : actual_length ≤ max_length) :
    decodeByteArray slice bytes max_length actual_length = some (.success, slice.advance actual_length.toNat,
      bytes.map (overwrite · 0 (slice.rest.take actual_length.toNat))) := by
  have hcap := slice.capacity.toNat_lt
  have hvalid : ¬ (slice.data = none ∨ actual_length = 0) := not_or.mpr ⟨hd, fun hz => by
    rw [hz] at hpos
    exact absurd hpos (by decide)⟩
  have hsum : (actual_length + slice.len).toNat = actual_length.toNat + slice.len.toNat := toNat_add_of_lt (by omega)
  have hfits : ¬ slice.capacity < actual_length + slice.len := by
    rw [UInt64.lt_iff_toNat_lt, hsum]
    omega
  rw [decodeByteArray, if_neg hvalid, if_neg hfits, if_neg (UInt64.not_lt.mpr hmax), Slice.advance, UInt64.ofNat_toNat]
  cases bytes with
  | none => rfl
  | some bytes =>
    rw [read_eq_rest hd hroom]
    rfl

/-- An array that is not empty is read back. -/
theorem reads_of_rest (hpos : 0 < source.length) (hb : source.bytes ≠ none)
    (hp : varint source.length.toNat ++ source.value <+: slice.rest) :
    source.Reads slice (slice.advance (varint source.length.toNat ++ source.value).length) := by
  have hcap := slice.capacity.toNat_lt
  have hlength := length_value hb
  have hvarint : varint source.length.toNat <+: slice.rest := (List.prefix_append _ _).trans hp
  have hlen := hp.length_le
  have hrest := length_rest slice
  rw [List.length_append] at hlen
  have hd : slice.data ≠ none := by
    obtain ⟨b, out, hout⟩ := List.exists_cons_of_length_pos (length_varint_pos source.length.toNat)
    rw [hout] at hvarint
    exact data_of_rest hvarint
  have hpos' : 0 < source.length.toNat := UInt64.lt_iff_toNat_lt.mp hpos
  have hat := toNat_len_advance slice (n := (varint source.length.toNat).length) (by omega)
  have hleft : (slice.advance (varint source.length.toNat).length).rest.take source.length.toNat = source.value := by
    obtain ⟨tail, htail⟩ := hp
    rw [rest_advance slice (by omega), ← htail, List.append_assoc, List.drop_left, ← hlength, List.take_left]
  intro length bytes max_length hmax
  refine ⟨slice.advance (varint source.length.toNat).length, ?_, ?_⟩
  · exact map_narrow (decodeUnsignedVarint_of_rest (length_varint_le_ten _) hvarint) rfl
  · have hcopy := decodeByteArray_of_le (slice.advance (varint source.length.toNat).length) hd bytes
      hpos (by rw [hat]; show _ ≤ slice.capacity.toNat; omega) hmax
    rw [hcopy, hleft, advance_advance, List.length_append, hlength]

/-- An empty array is not. -/
theorem not_reads (hpos : ¬ 0 < source.length) : ¬ source.Reads slice slice' := by
  intro h
  obtain ⟨mid, -, hd⟩ := h 0 none source.length (UInt64.le_refl _)
  rw [decodeByteArray, if_pos (.inr (eq_zero_of_not_pos hpos))] at hd
  exact nomatch hd

/-! ## Round trip -/

theorem toNat_sizeByteArray {length : UInt64} (h : (sizeUnsignedVarint length).toNat + length.toNat < 2 ^ 64) :
    (sizeByteArray length).toNat = (sizeUnsignedVarint length).toNat + length.toNat := toNat_add_of_lt h

theorem clean_encodeByteArray_iff (slice : Slice) (source : Source) :
    Clean slice (sizeByteArray source.length) source.Reads (encodeByteArray slice source.bytes source.length) ↔
      source.Clean slice := by
  have hcap := slice.capacity.toNat_lt
  have hk := length_varint_pos source.length.toNat
  rw [Source.Clean, ← or_assoc]
  by_cases h : slice.data = none ∨ source.bytes = none ∧ 0 < source.length
  · exact iff_of_true (clean_of_failed (encodeByteArray_of_invalid h) (by decide) rfl) (.inl h)
  rw [or_iff_right h]
  by_cases hroom : slice.capacity.toNat < slice.len.toNat + (sizeUnsignedVarint source.length).toNat
  · obtain ⟨slice', hrun, hlen⟩ := encodeByteArray_of_lt h hroom
    exact iff_of_true (clean_of_failed hrun (by decide) hlen) (.inl hroom)
  rw [or_iff_right hroom]
  have hroom := Nat.not_lt.mp hroom
  by_cases hfits : slice.len.toNat + (sizeUnsignedVarint source.length).toNat + source.length.toNat ≤ slice.capacity.toNat
  · obtain ⟨slice', hrun, happ⟩ := encodeByteArray_of_le h hfits
    have hsize : (sizeByteArray source.length).toNat = _ := toNat_sizeByteArray (by omega)
    rw [and_iff_left hfits]
    constructor
    · rintro ⟨err, slice₁, hrun₁, hclean, -⟩
      obtain ⟨rfl, rfl⟩ := Prod.mk.inj (Option.some.inj (hrun.symm.trans hrun₁))
      obtain ⟨out, -, hout, hreads⟩ := hclean rfl
      have hout : out.length < 2 ^ 64 := by omega
      by_contra hpos
      -- the array alone, in a slice of its own
      exact not_reads hpos (hreads (initSlice out hout) (List.prefix_refl out))
    · intro hpos
      have hb : source.bytes ≠ none := fun hn => h (.inr ⟨hn, hpos⟩)
      refine clean_of_appended hrun happ ?_ fun reader hp => reads_of_rest hpos hb hp
      rw [List.length_append, length_value hb, hsize, toNat_sizeUnsignedVarint]
  · have hshort := Nat.not_le.mp hfits
    refine iff_of_false ?_ fun hc => hfits hc.2
    rintro ⟨err, slice₁, hrun₁, -, hfailed⟩
    by_cases hsum : slice.len.toNat + (sizeUnsignedVarint source.length).toNat + source.length.toNat < 2 ^ 64
    · obtain ⟨slice', hrun, hlen⟩ := encodeByteArray_of_short h hroom hshort hsum
      obtain ⟨rfl, rfl⟩ := Prod.mk.inj (Option.some.inj (hrun.symm.trans hrun₁))
      rw [hfailed (by decide), toNat_sizeUnsignedVarint] at hlen
      omega
    · rw [encodeByteArray_of_wrap h hroom (Nat.not_lt.mp hsum)] at hrun₁
      exact nomatch hrun₁

end Metor.Proof.Postcard
