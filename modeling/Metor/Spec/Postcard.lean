import Metor.Impl.Postcard

/-!
# Clean encoding

What is asked of an encoder of `postcard.h`: it appends as many bytes as the
size function says, and the decoder reads the value back from wherever these
bytes stand; or it fails, and the slice is as long as before (`Clean`). A call
that stays in the buffer has a result; `Call.Overruns` is when it does not.
-/

namespace Metor.Impl.Postcard

open Metor.Lib

/-! ## Integers -/

inductive IntTy
  | u16
  | u32
  | u64
  | i16
  | i32
  | i64
  deriving DecidableEq, Repr

abbrev IntTy.Val : IntTy → Type
  | .u16 => UInt16
  | .u32 => UInt32
  | .u64 => UInt64
  | .i16 => Int16
  | .i32 => Int32
  | .i64 => Int64

def IntTy.encode : (ty : IntTy) → Slice → ty.Val → Option (Error × Slice)
  | .u16 => encodeU16
  | .u32 => encodeU32
  | .u64 => encodeU64
  | .i16 => encodeI16
  | .i32 => encodeI32
  | .i64 => encodeI64

def IntTy.decode : (ty : IntTy) → Slice → ty.Val → Option (Error × Slice × ty.Val)
  | .u16 => decodeU16
  | .u32 => decodeU32
  | .u64 => decodeU64
  | .i16 => decodeI16
  | .i32 => decodeI32
  | .i64 => decodeI64

def IntTy.size : (ty : IntTy) → ty.Val → UInt64
  | .u16 => sizeU16
  | .u32 => sizeU32
  | .u64 => sizeU64
  | .i16 => sizeI16
  | .i32 => sizeI32
  | .i64 => sizeI64

/-- The 64 bits that are encoded. -/
def IntTy.wire : (ty : IntTy) → ty.Val → UInt64
  | .u16, v => v.toUInt64
  | .u32, v => v.toUInt64
  | .u64, v => v
  | .i16, v => zigzag v.toInt64
  | .i32, v => zigzag v.toInt64
  | .i64, v => zigzag v

/-- `max_bytes` -/
def IntTy.maxBytes : IntTy → Nat
  | .u16 | .i16 => 3
  | .u32 | .i32 => 5
  | .u64 | .i64 => 10

/-! ## Byte arrays -/

/-- An array that its caller passes, with the length that it declares: `NULL`, or at least so many bytes. -/
structure Source where
  bytes : Option Bytes
  length : UInt64
  long : ∀ array ∈ bytes, length.toNat ≤ array.length

/-- The bytes to encode. -/
def Source.value (source : Source) : Bytes := (source.bytes.getD []).take source.length.toNat

/-! ## Clean encoding -/

/-- The bytes not yet read. -/
def Slice.rest (slice : Slice) : Bytes := (slice.data.getD []).drop slice.len.toNat

/-- `n` bytes further. -/
def Slice.advance (slice : Slice) (n : Nat) : Slice := { slice with len := slice.len + UInt64.ofNat n }

/-- The bytes `out` stand at the end of the slice, and nothing else of its buffer is written. -/
structure Appended (slice slice' : Slice) (out : Bytes) : Prop where
  len : slice'.len.toNat = slice.len.toNat + out.length
  capacity : slice'.capacity = slice.capacity
  data : slice'.data = slice.data.map (overwrite · slice.len.toNat out)

/-- An encoder appends bytes, as many as `size`, from which `reads` gets the value back; or it fails and appends none. -/
def Clean (slice : Slice) (size : UInt64) (reads : Slice → Slice → Prop) (result : Option (Error × Slice)) : Prop :=
  ∃ err slice', result = some (err, slice') ∧
    (err = .success → ∃ out, Appended slice slice' out ∧ out.length = size.toNat ∧
      ∀ reader : Slice, out <+: reader.rest → reads reader (reader.advance out.length)) ∧
    (err ≠ .success → slice'.len = slice.len)

/-- The decoder of an integer type. -/
def IntTy.Reads (ty : IntTy) (v : ty.Val) (reader reader' : Slice) : Prop :=
  ∀ value, ty.decode reader value = some (.success, reader', v)

/-- `postcard_decode_byte_array_len`, and then `postcard_decode_byte_array` with that length to any buffer that it fits. -/
def Source.Reads (source : Source) (reader reader' : Slice) : Prop :=
  ∀ length bytes max_length, source.length ≤ max_length → ∃ mid,
    decodeByteArrayLen reader length = some (.success, mid, source.length) ∧
    decodeByteArray mid bytes max_length source.length = some (.success, reader', bytes.map (overwrite · 0 source.value))

/-- When a byte array is encoded cleanly: the encoder gives up before its first byte, or with too little room for the
length; or there is room for everything, and the array is not empty. -/
def Source.Clean (source : Source) (slice : Slice) : Prop :=
  slice.data = none ∨ source.bytes = none ∧ 0 < source.length ∨
    slice.capacity.toNat < slice.len.toNat + (sizeUnsignedVarint source.length).toNat ∨
    0 < source.length ∧
      slice.len.toNat + (sizeUnsignedVarint source.length).toNat + source.length.toNat ≤ slice.capacity.toNat

/-! ## Calls -/

/-- A call of an encoder or a decoder. -/
inductive Call
  | encodeBool (value : Bool)
  | encodeU8 (value : UInt8)
  | encodeI8 (value : Int8)
  | encodeInt (ty : IntTy) (value : ty.Val)
  | encodeF32 (bits : UInt32)
  | encodeF64 (bits : UInt64)
  | encodeByteArray (source : Source)
  | encodeString (source : Source)
  | encodeOptionNone
  | encodeOptionSome
  | encodeVariant (discriminant : UInt32)
  | startSeq (count : UInt64)
  | startMap (count : UInt64)
  | decodeBool
  | decodeU8
  | decodeI8
  | decodeInt (ty : IntTy) (value : ty.Val)
  | decodeF32
  | decodeF64
  | decodeByteArrayLen
  | decodeByteArray (bytes : Option Bytes) (max_length actual_length : UInt64)
  | decodeStringLen
  | decodeString (string : Option Bytes) (max_length actual_length : UInt64)
  | decodeOptionTag
  | decodeVariant
  | decodeSeqLen
  | decodeMapLen

/-- What it leaves of the slice. -/
def Call.run (slice : Slice) : Call → Option (Error × Slice)
  | .encodeBool value => Postcard.encodeBool slice value
  | .encodeU8 value => Postcard.encodeU8 slice value
  | .encodeI8 value => Postcard.encodeI8 slice value
  | .encodeInt ty value => ty.encode slice value
  | .encodeF32 bits => Postcard.encodeF32 slice bits
  | .encodeF64 bits => Postcard.encodeF64 slice bits
  | .encodeByteArray source => Postcard.encodeByteArray slice source.bytes source.length
  | .encodeString source => Postcard.encodeString slice source.bytes source.length
  | .encodeOptionNone => Postcard.encodeOptionNone slice
  | .encodeOptionSome => Postcard.encodeOptionSome slice
  | .encodeVariant discriminant => Postcard.encodeVariant slice discriminant
  | .startSeq count => Postcard.startSeq slice count
  | .startMap count => Postcard.startMap slice count
  | .decodeBool => (Postcard.decodeBool slice false).map fun r => (r.1, r.2.1)
  | .decodeU8 => (Postcard.decodeU8 slice 0).map fun r => (r.1, r.2.1)
  | .decodeI8 => (Postcard.decodeI8 slice 0).map fun r => (r.1, r.2.1)
  | .decodeInt ty value => (ty.decode slice value).map fun r => (r.1, r.2.1)
  | .decodeF32 => (Postcard.decodeF32 slice 0).map fun r => (r.1, r.2.1)
  | .decodeF64 => (Postcard.decodeF64 slice 0).map fun r => (r.1, r.2.1)
  | .decodeByteArrayLen => (Postcard.decodeByteArrayLen slice 0).map fun r => (r.1, r.2.1)
  | .decodeByteArray bytes max_length actual_length =>
    (Postcard.decodeByteArray slice bytes max_length actual_length).map fun r => (r.1, r.2.1)
  | .decodeStringLen => (Postcard.decodeStringLen slice 0).map fun r => (r.1, r.2.1)
  | .decodeString string max_length actual_length =>
    (Postcard.decodeString slice string max_length actual_length).map fun r => (r.1, r.2.1)
  | .decodeOptionTag => (Postcard.decodeOptionTag slice false).map fun r => (r.1, r.2.1)
  | .decodeVariant => (Postcard.decodeVariant slice 0).map fun r => (r.1, r.2.1)
  | .decodeSeqLen => (Postcard.decodeSeqLen slice 0).map fun r => (r.1, r.2.1)
  | .decodeMapLen => (Postcard.decodeMapLen slice 0).map fun r => (r.1, r.2.1)

/-- The end of `n` bytes from `len` on, as a `size_t`, is not after the capacity only because it is past `SIZE_MAX`. -/
def Slice.Wraps (slice : Slice) (n : Nat) : Prop :=
  slice.data ≠ none ∧ 2 ^ 64 ≤ slice.len.toNat + n ∧ slice.len.toNat + n - 2 ^ 64 ≤ slice.capacity.toNat

/-- An encoder of a byte array gets past its length, and then past `SIZE_MAX`. -/
def Source.Overruns (source : Source) (slice : Slice) : Prop :=
  slice.data ≠ none ∧ source.bytes ≠ none ∧
    slice.len.toNat + (sizeUnsignedVarint source.length).toNat ≤ slice.capacity.toNat ∧
    2 ^ 64 ≤ slice.len.toNat + (sizeUnsignedVarint source.length).toNat + source.length.toNat

/-- When a call reads or writes beyond the buffer. -/
def Call.Overruns (slice : Slice) : Call → Prop
  | .encodeF32 _ | .decodeF32 => slice.Wraps 4
  | .encodeF64 _ | .decodeF64 => slice.Wraps 8
  | .encodeByteArray source | .encodeString source => source.Overruns slice
  | .decodeByteArray bytes max_length actual_length | .decodeString bytes max_length actual_length =>
    bytes ≠ none ∧ actual_length ≤ max_length ∧ slice.Wraps actual_length.toNat
  | _ => False

end Metor.Impl.Postcard
