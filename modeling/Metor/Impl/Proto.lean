import Metor.Lib.Eval
import Metor.Lib.LittleEndian

/-!
# Primitive types and byte views (`libs/metor-proto/src/types.rs`, `error.rs`)

A byte slice is a `View`: its bytes and the address they lie at, which the
casts of `zerocopy` check. Machine words are 64 bits wide.
-/

namespace Metor.Impl.Proto

open Metor.Lib

/-- `as u32` -/
def asU32 (n : Nat) : Nat := n % 2 ^ 32

/-- The variants of `metor_proto::error::Error` that reading a table can give. -/
inductive Error
  | bufferUnderflow
  | bufferOverflow
  | offsetOverflow
  | alignment
  | invalidComponentData
  | opRefNotFound
  | invalidOp
  | schemaNotFound
  deriving DecidableEq, Repr

inductive PrimType
  | u8 | u16 | u32 | u64 | i8 | i16 | i32 | i64 | bool | f32 | f64
  deriving DecidableEq, Repr

namespace PrimType

/-- The discriminants of `#[repr(u64)]`. -/
def toNat : PrimType → Nat
  | u8 => 0
  | u16 => 1
  | u32 => 2
  | u64 => 3
  | i8 => 4
  | i16 => 5
  | i32 => 6
  | i64 => 7
  | bool => 8
  | f32 => 9
  | f64 => 10

def ofNat? : Nat → Option PrimType
  | 0 => some u8
  | 1 => some u16
  | 2 => some u32
  | 3 => some u64
  | 4 => some i8
  | 5 => some i16
  | 6 => some i32
  | 7 => some i64
  | 8 => some bool
  | 9 => some f32
  | 10 => some f64
  | _ => none

def size : PrimType → Nat
  | u8 | i8 | bool => 1
  | u16 | i16 => 2
  | u32 | i32 | f32 => 4
  | u64 | i64 | f64 => 8

/-- `align_of`, which is the size for all primitive types. -/
def alignment (ty : PrimType) : Nat := ty.size

/-- `offset` is rounded up to a multiple of the alignment, a power of two. -/
def padding (ty : PrimType) (offset : Nat) : Nat :=
  let align := ty.alignment
  let offsetRounded := (offset + align - 1) / align * align
  offsetRounded - offset

end PrimType

/-- `&[u8]` -/
structure View where
  addr : Nat
  bytes : Bytes
  deriving DecidableEq, Repr

namespace View

/-- `get(start..stop)` -/
def get (v : View) (start stop : Nat) : Option View :=
  if start ≤ stop ∧ stop ≤ v.bytes.length then some ⟨v.addr + start, slice v.bytes start stop⟩ else none

/-- The words of `&[u64]`. -/
def words (bytes : Bytes) : List Nat :=
  (List.range (bytes.length / 8)).map fun i => leNat (slice bytes (i * 8) ((i + 1) * 8))

/-- `<[u64]>::try_ref_from_bytes` -/
def asU64s (v : View) : Eval Error (List Nat) :=
  if v.addr % 8 ≠ 0 then .err .alignment
  else if v.bytes.length % 8 ≠ 0 then .err .bufferUnderflow
  else .ok (words v.bytes)

end View

/-- `PrimType::try_read_from_bytes` -/
def primTypeOfBytes (bytes : Bytes) : Option PrimType :=
  if bytes.length = 8 then PrimType.ofNat? (leNat bytes) else none

/-- A typed view of the elements of a component: as many bytes as its shape needs. -/
structure ComponentView where
  ty : PrimType
  shape : List Nat
  bytes : Bytes
  deriving DecidableEq, Repr

/-- The number of elements of a shape: the fold with `checked_mul`. -/
def checkedProduct (shape : List Nat) : Eval Error Nat :=
  shape.foldlM (fun x xs => if x * xs < 2 ^ 64 then .ok (x * xs) else .err .offsetOverflow) 1

/-- `ComponentView::try_from_bytes_shape`: `ref_from_prefix_with_elems` at the element type; the
bytes of a `bool` must be 0 or 1. -/
def ComponentView.tryFromBytesShape (buf : View) (shape : List Nat) (ty : PrimType) : Eval Error ComponentView := do
  let len ← checkedProduct shape
  if 2 ^ 64 ≤ len * ty.size then .err .bufferUnderflow
  else if buf.addr % ty.alignment ≠ 0 then .err .alignment
  else if buf.bytes.length < len * ty.size then .err .bufferUnderflow
  else
    let bytes := buf.bytes.take (len * ty.size)
    if ty = .bool ∧ bytes.any (fun b => b > 1) then .err .invalidComponentData
    else .ok ⟨ty, shape, bytes⟩

end Metor.Impl.Proto
