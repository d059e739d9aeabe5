import Metor.Impl.Proto

/-!
# Component values (`libs/metor-proto/wkt/src/value.rs`)

A `ComponentValue` is its type and the bytes of its elements (`as_bytes`).
Integers are added with saturation and divided through `f64`; what floating
point gives is a parameter. `none` is a panic.
-/

namespace Metor.Impl.Proto

open Metor.Lib

/-- Arithmetic of floating point, on the bytes of its operands. -/
structure Floats where
  addF32 : Bytes → Bytes → Bytes
  addF64 : Bytes → Bytes → Bytes
  /-- `*r /= count as f32` -/
  divF32 : Bytes → Nat → Bytes
  divF64 : Bytes → Nat → Bytes
  /-- `(*r as f64 / count) as` the type -/
  divInt : PrimType → Int → Nat → Int
  length_addF32 : ∀ a b, (addF32 a b).length = 4
  length_addF64 : ∀ a b, (addF64 a b).length = 8
  length_divF32 : ∀ a n, (divF32 a n).length = 4
  length_divF64 : ∀ a n, (divF64 a n).length = 8

/-- The signed integer of these bytes. -/
def signedOf (bytes : Bytes) : Int :=
  if leNat bytes < 2 ^ (8 * bytes.length - 1) then leNat bytes else leNat bytes - 2 ^ (8 * bytes.length)

/-- An integer in two's complement. -/
def intBytes (width : Nat) (n : Int) : Bytes := leBytes width (n % 2 ^ (8 * width)).toNat

variable (fl : Floats)

/-- `saturating_add`, `||` and `+=` on one element. -/
def addElem : PrimType → Bytes → Bytes → Bytes
  | .f32, r, val => fl.addF32 r val
  | .f64, r, val => fl.addF64 r val
  | .bool, r, val => [if leNat r ≠ 0 ∨ leNat val ≠ 0 then 1 else 0]
  | .i8, r, val => intBytes 1 (max (-2 ^ 7) (min (2 ^ 7 - 1) (signedOf r + signedOf val)))
  | .i16, r, val => intBytes 2 (max (-2 ^ 15) (min (2 ^ 15 - 1) (signedOf r + signedOf val)))
  | .i32, r, val => intBytes 4 (max (-2 ^ 31) (min (2 ^ 31 - 1) (signedOf r + signedOf val)))
  | .i64, r, val => intBytes 8 (max (-2 ^ 63) (min (2 ^ 63 - 1) (signedOf r + signedOf val)))
  | .u8, r, val => leBytes 1 (min (2 ^ 8 - 1) (leNat r + leNat val))
  | .u16, r, val => leBytes 2 (min (2 ^ 16 - 1) (leNat r + leNat val))
  | .u32, r, val => leBytes 4 (min (2 ^ 32 - 1) (leNat r + leNat val))
  | .u64, r, val => leBytes 8 (min (2 ^ 64 - 1) (leNat r + leNat val))

/-- One element of `div`; a `bool` panics before it comes to one. -/
def divElem : PrimType → Bytes → Nat → Bytes
  | .f32, r, count => fl.divF32 r count
  | .f64, r, count => fl.divF64 r count
  | .bool, r, _ => r
  | .i8, r, count => intBytes 1 (fl.divInt .i8 (signedOf r) count)
  | .i16, r, count => intBytes 2 (fl.divInt .i16 (signedOf r) count)
  | .i32, r, count => intBytes 4 (fl.divInt .i32 (signedOf r) count)
  | .i64, r, count => intBytes 8 (fl.divInt .i64 (signedOf r) count)
  | .u8, r, count => intBytes 1 (fl.divInt .u8 (leNat r) count)
  | .u16, r, count => intBytes 2 (fl.divInt .u16 (leNat r) count)
  | .u32, r, count => intBytes 4 (fl.divInt .u32 (leNat r) count)
  | .u64, r, count => intBytes 8 (fl.divInt .u64 (leNat r) count)

/-- The elements in these bytes. -/
def elements (size : Nat) (bytes : Bytes) : List Bytes :=
  (List.range (bytes.length / size)).map fun i => slice bytes (i * size) ((i + 1) * size)

structure ComponentValue where
  ty : PrimType
  bytes : Bytes
  deriving DecidableEq, Repr

namespace ComponentValue

/-- `zeros`: `0`, `0.0` and `false` are zero bytes. -/
def zeros (shape : List Nat) (ty : PrimType) : ComponentValue := ⟨ty, List.replicate (shape.prod * ty.size) 0⟩

/-- `fill_zeros` -/
def fillZeros (v : ComponentValue) : ComponentValue := { v with bytes := List.replicate v.bytes.length 0 }

/-- `add_view`: elements that the view does not have stay. -/
def addView (v : ComponentValue) (view : ComponentView) : Option ComponentValue :=
  if v.ty ≠ view.ty then none
  else
    let vals := elements view.ty.size view.bytes
    let rs := (elements v.ty.size v.bytes).mapIdx fun i r => (vals[i]?).elim r (addElem fl v.ty r)
    some { v with bytes := rs.flatten }

/-- `div` -/
def div (v : ComponentValue) (count : Nat) : Option ComponentValue :=
  if v.ty = .bool then none
  else some { v with bytes := ((elements v.ty.size v.bytes).map fun r => divElem fl v.ty r count).flatten }

end ComponentValue

end Metor.Impl.Proto
