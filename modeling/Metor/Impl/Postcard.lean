import Mathlib.Algebra.GroupWithZero.Nat
import Metor.Lib.Slice

/-!
# Postcard in C (`libs/postcard-c/postcard.h`)

A `postcard_slice_t` with the bytes that its pointer leads to, none for `NULL`:
as many as its capacity says. A function that reads or writes beyond them has
no result. `size_t` has 64 bits. An out parameter is passed in and returned;
the slice and the out parameters themselves are not `NULL`. A `float` or a
`double` is the bits that `memcpy` takes from it.
-/

namespace Metor.Impl.Postcard

open Metor.Lib

/-- `postcard_error_t` -/
inductive Error
  | success
  | bufferTooSmall
  | invalidInput
  | incompleteData
  | overflow
  deriving DecidableEq, Repr

/-- `postcard_slice_t` -/
@[ext] structure Slice where
  data : Option Bytes
  len : UInt64
  capacity : UInt64
  /-- The buffer is as large as the slice says. -/
  room : ∀ bytes ∈ data, bytes.length = capacity.toNat

/-- `postcard_init_slice` -/
def initSlice (buffer : Bytes) (h : buffer.length < 2 ^ 64) : Slice where
  data := some buffer
  len := 0
  capacity := UInt64.ofNat buffer.length
  room := by
    rintro _ ⟨⟩
    rw [UInt64.toNat_ofNat', Nat.mod_eq_of_lt h]

/-! ## Memory -/

theorem room_overwrite {data : Option Bytes} {capacity : Nat} (room : ∀ bytes ∈ data, bytes.length = capacity) {i : Nat}
    {src : Bytes} (h : i + src.length ≤ capacity) : ∀ bytes ∈ data.map (overwrite · i src), bytes.length = capacity := by
  intro bytes hb
  obtain ⟨old, hold, rfl⟩ := Option.map_eq_some_iff.mp hb
  rw [length_overwrite (by rw [room old hold]; exact h), room old hold]

/-- The bytes of the buffer from `i` on become `src`. -/
def Slice.write (slice : Slice) (i : UInt64) (src : Bytes) : Option Slice :=
  if h : slice.data.isSome ∧ i.toNat + src.length ≤ slice.capacity.toNat then
    some { slice with data := slice.data.map (overwrite · i.toNat src), room := room_overwrite slice.room h.2 }
  else none

/-- The `n` bytes of the buffer from `i` on. -/
def Slice.read (slice : Slice) (i : UInt64) (n : Nat) : Option Bytes :=
  if i.toNat + n ≤ slice.capacity.toNat then slice.data.map fun bytes => (bytes.drop i.toNat).take n else none

/-- The first `n` bytes of an array that is not `NULL`. -/
def firstBytes (array : Option Bytes) (n : Nat) : Option Bytes :=
  array.bind fun bytes => if n ≤ bytes.length then some (bytes.take n) else none

/-- `slice->data[slice->len++] = byte` -/
def Slice.push (slice : Slice) (byte : UInt8) : Option Slice := do
  let slice ← slice.write slice.len [byte]
  return { slice with len := slice.len + 1 }

/-- `slice->data[slice->len++]` -/
def Slice.pop (slice : Slice) : Option (UInt8 × Slice) := do
  let bytes ← slice.read slice.len 1
  return (← bytes.head?, { slice with len := slice.len + 1 })

/-- `push`, byte after byte. -/
def Slice.pushAll (slice : Slice) (bytes : List UInt8) : Option Slice := bytes.foldlM Slice.push slice

/-- `pop`, `n` times. -/
def Slice.popAll (slice : Slice) : Nat → Option (Bytes × Slice)
  | 0 => some ([], slice)
  | n + 1 => do
    let (byte, slice) ← slice.pop
    let (bytes, slice) ← slice.popAll n
    return (byte :: bytes, slice)

/-! ## Varints -/

theorem toNat_shiftRight_seven (value : UInt64) : (value >>> 7).toNat = value.toNat / 128 := by
  rw [UInt64.toNat_shiftRight]
  exact Nat.shiftRight_eq_div_pow _ _

/-- The loop of `encode_unsigned_varint`. -/
def encodeLoop (slice : Slice) (value i max_bytes : UInt64) : Option (Error × Slice) :=
  if _h : 0x80 ≤ value then
    if slice.capacity ≤ slice.len + i then some (.bufferTooSmall, slice)
    else if max_bytes ≤ i then some (.overflow, slice)
    else do
      let slice ← slice.write (slice.len + i) [((value &&& 0x7f) ||| 0x80).toUInt8]
      encodeLoop slice (value >>> 7) (i + 1) max_bytes
  else if slice.capacity ≤ slice.len + i then some (.bufferTooSmall, slice)
  else do
    let slice ← slice.write (slice.len + i) [(value &&& 0x7f).toUInt8]
    return (.success, { slice with len := slice.len + (i + 1) })
termination_by value.toNat
decreasing_by
  rw [toNat_shiftRight_seven]
  have h : 0x80 ≤ value.toNat := UInt64.le_iff_toNat_le.mp _h
  omega

/-- `encode_unsigned_varint` -/
def encodeUnsignedVarint (slice : Slice) (value max_bytes : UInt64) : Option (Error × Slice) :=
  if slice.data = none then some (.invalidInput, slice) else encodeLoop slice value 0 max_bytes

/-- `(n << 1) ^ (n >> 63)` -/
def zigzag (value : Int64) : UInt64 := ((value <<< 1) ^^^ (value >>> 63)).toUInt64

/-- `encode_signed_varint` -/
def encodeSignedVarint (slice : Slice) (value : Int64) (max_bytes : UInt64) : Option (Error × Slice) :=
  encodeUnsignedVarint slice (zigzag value) max_bytes

/-- The loop of `decode_unsigned_varint`, with the number of bytes that it may still read. -/
def decodeLoop (slice : Slice) (value shift : UInt64) : Nat → Option (Error × Slice × UInt64)
  | 0 => some (.overflow, slice, value)
  | n + 1 =>
    if slice.capacity ≤ slice.len then some (.incompleteData, slice, value)
    else do
      let (byte, slice) ← slice.pop
      let value := value ||| ((byte &&& 0x7f).toUInt64 <<< shift)
      if byte &&& 0x80 = 0 then return (.success, slice, value)
      let shift := shift + 7
      if 63 < shift then return (.overflow, slice, value)
      decodeLoop slice value shift n

/-- `decode_unsigned_varint` -/
def decodeUnsignedVarint (slice : Slice) (value : UInt64) (max_bytes : Nat) : Option (Error × Slice × UInt64) :=
  if slice.data = none then some (.invalidInput, slice, value) else decodeLoop slice 0 0 max_bytes

/-- `(n >> 1) ^ (-(n & 1))` -/
def unzigzag (zigzag : UInt64) : Int64 := ((zigzag >>> 1) ^^^ (-(zigzag &&& 1))).toInt64

/-- `decode_signed_varint` -/
def decodeSignedVarint (slice : Slice) (value : Int64) (max_bytes : Nat) : Option (Error × Slice × Int64) := do
  let (err, slice, zigzag) ← decodeUnsignedVarint slice 0 max_bytes
  if err ≠ .success then return (err, slice, value)
  return (.success, slice, unzigzag zigzag)

/-! ## Encoders -/

/-- A byte, if there is room for it: `postcard_encode_bool` and others. -/
def encodeByte (slice : Slice) (byte : UInt8) : Option (Error × Slice) :=
  if slice.data = none then some (.invalidInput, slice)
  else if slice.capacity ≤ slice.len then some (.bufferTooSmall, slice)
  else do return (.success, ← slice.push byte)

/-- `postcard_encode_bool` -/
def encodeBool (slice : Slice) (value : Bool) : Option (Error × Slice) := encodeByte slice (if value then 0x01 else 0x00)

/-- `postcard_encode_u8` -/
def encodeU8 (slice : Slice) (value : UInt8) : Option (Error × Slice) := encodeByte slice value

/-- `postcard_encode_i8` -/
def encodeI8 (slice : Slice) (value : Int8) : Option (Error × Slice) := encodeByte slice value.toUInt8

/-- `postcard_encode_u16` -/
def encodeU16 (slice : Slice) (value : UInt16) : Option (Error × Slice) := encodeUnsignedVarint slice value.toUInt64 3

/-- `postcard_encode_i16` -/
def encodeI16 (slice : Slice) (value : Int16) : Option (Error × Slice) := encodeSignedVarint slice value.toInt64 3

/-- `postcard_encode_u32` -/
def encodeU32 (slice : Slice) (value : UInt32) : Option (Error × Slice) := encodeUnsignedVarint slice value.toUInt64 5

/-- `postcard_encode_i32` -/
def encodeI32 (slice : Slice) (value : Int32) : Option (Error × Slice) := encodeSignedVarint slice value.toInt64 5

/-- `postcard_encode_u64` -/
def encodeU64 (slice : Slice) (value : UInt64) : Option (Error × Slice) := encodeUnsignedVarint slice value 10

/-- `postcard_encode_i64` -/
def encodeI64 (slice : Slice) (value : Int64) : Option (Error × Slice) := encodeSignedVarint slice value 10

/-- Bytes of a fixed number: `postcard_encode_f32` and `postcard_encode_f64`. -/
def encodeFixed (slice : Slice) (bytes : List UInt8) : Option (Error × Slice) :=
  if slice.data = none then some (.invalidInput, slice)
  else if slice.capacity < slice.len + UInt64.ofNat bytes.length then some (.bufferTooSmall, slice)
  else do return (.success, ← slice.pushAll bytes)

/-- `postcard_encode_f32` -/
def encodeF32 (slice : Slice) (bits : UInt32) : Option (Error × Slice) :=
  encodeFixed slice (([0, 8, 16, 24] : List UInt32).map fun shift => ((bits >>> shift) &&& 0xff).toUInt8)

/-- `postcard_encode_f64` -/
def encodeF64 (slice : Slice) (bits : UInt64) : Option (Error × Slice) :=
  encodeFixed slice (([0, 8, 16, 24, 32, 40, 48, 56] : List UInt64).map fun shift => ((bits >>> shift) &&& 0xff).toUInt8)

/-- `postcard_encode_byte_array` -/
def encodeByteArray (slice : Slice) (bytes : Option Bytes) (length : UInt64) : Option (Error × Slice) :=
  if slice.data = none ∨ bytes = none ∧ 0 < length then some (.invalidInput, slice)
  else do
    let (err, slice) ← encodeUnsignedVarint slice length 10
    if err ≠ .success then return (err, slice)
    if slice.capacity < slice.len + length then return (.bufferTooSmall, slice)
    if 0 < length then
      let slice ← slice.write slice.len (← firstBytes bytes length.toNat)
      return (.success, { slice with len := slice.len + length })
    return (.success, slice)

/-- `postcard_encode_string` -/
def encodeString (slice : Slice) (string : Option Bytes) (length : UInt64) : Option (Error × Slice) :=
  encodeByteArray slice string length

/-- `postcard_encode_option_none` -/
def encodeOptionNone (slice : Slice) : Option (Error × Slice) := encodeByte slice 0x00

/-- `postcard_encode_option_some` -/
def encodeOptionSome (slice : Slice) : Option (Error × Slice) := encodeByte slice 0x01

/-- `postcard_encode_variant` -/
def encodeVariant (slice : Slice) (discriminant : UInt32) : Option (Error × Slice) := encodeU32 slice discriminant

/-- `postcard_start_seq` -/
def startSeq (slice : Slice) (count : UInt64) : Option (Error × Slice) := encodeUnsignedVarint slice count 10

/-- `postcard_start_map` -/
def startMap (slice : Slice) (count : UInt64) : Option (Error × Slice) := encodeUnsignedVarint slice count 10

/-! ## Decoders -/

/-- A byte, if there is one left. -/
def decodeByte {α : Type} (slice : Slice) (value : α) (decode : UInt8 → Error × α) : Option (Error × Slice × α) :=
  if slice.data = none then some (.invalidInput, slice, value)
  else if slice.capacity ≤ slice.len then some (.incompleteData, slice, value)
  else do
    let (byte, slice) ← slice.pop
    return ((decode byte).1, slice, (decode byte).2)

/-- `0x00` and `0x01`. -/
def tag (value : Bool) (byte : UInt8) : Error × Bool :=
  if byte = 0x00 then (.success, false) else if byte = 0x01 then (.success, true) else (.invalidInput, value)

/-- `postcard_decode_bool` -/
def decodeBool (slice : Slice) (value : Bool) : Option (Error × Slice × Bool) := decodeByte slice value (tag value)

/-- `postcard_decode_u8` -/
def decodeU8 (slice : Slice) (value : UInt8) : Option (Error × Slice × UInt8) := decodeByte slice value (.success, ·)

/-- `postcard_decode_i8` -/
def decodeI8 (slice : Slice) (value : Int8) : Option (Error × Slice × Int8) :=
  decodeByte slice value fun byte => (.success, byte.toInt8)

/-- A decoded varint, if it is one of the narrower type: `postcard_decode_u16` and others. -/
def narrow {α β : Type} (value : β) (fits : α → Bool) (cast : α → β) : Error × Slice × α → Error × Slice × β
  | (err, slice, val) =>
    if err ≠ .success then (err, slice, value)
    else if fits val then (.success, slice, cast val)
    else (.overflow, slice, value)

/-- `postcard_decode_u16` -/
def decodeU16 (slice : Slice) (value : UInt16) : Option (Error × Slice × UInt16) :=
  (decodeUnsignedVarint slice 0 3).map (narrow value (· ≤ 0xffff) UInt64.toUInt16)

/-- `postcard_decode_i16` -/
def decodeI16 (slice : Slice) (value : Int16) : Option (Error × Slice × Int16) :=
  (decodeSignedVarint slice 0 3).map (narrow value (fun val => -0x8000 ≤ val && val ≤ 0x7fff) Int64.toInt16)

/-- `postcard_decode_u32` -/
def decodeU32 (slice : Slice) (value : UInt32) : Option (Error × Slice × UInt32) :=
  (decodeUnsignedVarint slice 0 5).map (narrow value (· ≤ 0xffffffff) UInt64.toUInt32)

/-- `postcard_decode_i32` -/
def decodeI32 (slice : Slice) (value : Int32) : Option (Error × Slice × Int32) :=
  (decodeSignedVarint slice 0 5).map (narrow value (fun val => -0x80000000 ≤ val && val ≤ 0x7fffffff) Int64.toInt32)

/-- `postcard_decode_u64` -/
def decodeU64 (slice : Slice) (value : UInt64) : Option (Error × Slice × UInt64) := decodeUnsignedVarint slice value 10

/-- `postcard_decode_i64` -/
def decodeI64 (slice : Slice) (value : Int64) : Option (Error × Slice × Int64) := decodeSignedVarint slice value 10

/-- Bytes of a fixed number: `postcard_decode_f32` and `postcard_decode_f64`. -/
def decodeFixed {α : Type} (slice : Slice) (value : α) (n : Nat) (decode : Bytes → α) : Option (Error × Slice × α) :=
  if slice.data = none then some (.invalidInput, slice, value)
  else if slice.capacity < slice.len + UInt64.ofNat n then some (.incompleteData, slice, value)
  else do
    let (bytes, slice) ← slice.popAll n
    return (.success, slice, decode bytes)

/-- `postcard_decode_f32` -/
def decodeF32 (slice : Slice) (value : UInt32) : Option (Error × Slice × UInt32) :=
  decodeFixed slice value 4 fun bytes =>
    (bytes.zip ([0, 8, 16, 24] : List UInt32)).foldl (fun bits b => bits ||| b.1.toUInt32 <<< b.2) 0

/-- `postcard_decode_f64` -/
def decodeF64 (slice : Slice) (value : UInt64) : Option (Error × Slice × UInt64) :=
  decodeFixed slice value 8 fun bytes =>
    (bytes.zip ([0, 8, 16, 24, 32, 40, 48, 56] : List UInt64)).foldl (fun bits b => bits ||| b.1.toUInt64 <<< b.2) 0

/-- `postcard_decode_byte_array_len`: no length is greater than `SIZE_MAX`. -/
def decodeByteArrayLen (slice : Slice) (length : UInt64) : Option (Error × Slice × UInt64) :=
  (decodeUnsignedVarint slice 0 10).map (narrow length (fun _ => true) id)

/-- `postcard_decode_byte_array`, to `bytes` or to nowhere. -/
def decodeByteArray (slice : Slice) (bytes : Option Bytes) (max_length actual_length : UInt64) :
    Option (Error × Slice × Option Bytes) :=
  if slice.data = none ∨ actual_length = 0 then some (.invalidInput, slice, bytes)
  else if slice.capacity < actual_length + slice.len then some (.incompleteData, slice, bytes)
  else if max_length < actual_length then some (.bufferTooSmall, slice, bytes)
  else do
    let slice' := { slice with len := slice.len + actual_length }
    match bytes with
    | some bytes => return (.success, slice', overwrite bytes 0 (← slice.read slice.len actual_length.toNat))
    | none => return (.success, slice', none)

/-- `postcard_decode_string_len` -/
def decodeStringLen (slice : Slice) (length : UInt64) : Option (Error × Slice × UInt64) := decodeByteArrayLen slice length

/-- `postcard_decode_string` -/
def decodeString (slice : Slice) (string : Option Bytes) (max_length actual_length : UInt64) :
    Option (Error × Slice × Option Bytes) :=
  decodeByteArray slice string max_length actual_length

/-- `postcard_decode_option_tag` -/
def decodeOptionTag (slice : Slice) (is_some : Bool) : Option (Error × Slice × Bool) :=
  decodeByte slice is_some (tag is_some)

/-- `postcard_decode_variant` -/
def decodeVariant (slice : Slice) (discriminant : UInt32) : Option (Error × Slice × UInt32) := decodeU32 slice discriminant

/-- `postcard_decode_seq_len` -/
def decodeSeqLen (slice : Slice) (count : UInt64) : Option (Error × Slice × UInt64) :=
  (decodeUnsignedVarint slice 0 10).map (narrow count (fun _ => true) id)

/-- `postcard_decode_map_len` -/
def decodeMapLen (slice : Slice) (count : UInt64) : Option (Error × Slice × UInt64) := decodeSeqLen slice count

/-! ## Sizes -/

/-- `postcard_size_unsigned_varint` -/
def sizeUnsignedVarint (value : UInt64) : UInt64 :=
  if value < 0x80 then 1
  else if value < 0x4000 then 2
  else if value < 0x200000 then 3
  else if value < 0x10000000 then 4
  else if value < 0x800000000 then 5
  else if value < 0x40000000000 then 6
  else if value < 0x2000000000000 then 7
  else if value < 0x100000000000000 then 8
  else if value < 0x8000000000000000 then 9
  else 10

/-- `postcard_size_signed_varint` -/
def sizeSignedVarint (value : Int64) : UInt64 := sizeUnsignedVarint (zigzag value)

/-- `postcard_size_u16` -/
def sizeU16 (value : UInt16) : UInt64 := sizeUnsignedVarint value.toUInt64

/-- `postcard_size_i16` -/
def sizeI16 (value : Int16) : UInt64 := sizeSignedVarint value.toInt64

/-- `postcard_size_u32` -/
def sizeU32 (value : UInt32) : UInt64 := sizeUnsignedVarint value.toUInt64

/-- `postcard_size_i32` -/
def sizeI32 (value : Int32) : UInt64 := sizeSignedVarint value.toInt64

/-- `postcard_size_u64` -/
def sizeU64 (value : UInt64) : UInt64 := sizeUnsignedVarint value

/-- `postcard_size_i64` -/
def sizeI64 (value : Int64) : UInt64 := sizeSignedVarint value

/-- `postcard_size_byte_array` -/
def sizeByteArray (length : UInt64) : UInt64 := sizeUnsignedVarint length + length

end Metor.Impl.Postcard
