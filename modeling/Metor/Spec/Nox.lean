import Mathlib.Data.Set.Function
import Metor.Impl.Nox

/-!
# What array operations give

An array holds one element for each index of its shape, in row-major order.
An operation is described by the shape of its result and the element at each
index.
-/

namespace Metor.Impl.Nox

open Metor.Lib

variable {T : Type}

/-- An array of the shape: one element for each index, in row-major order. -/
structure Laid (D : Dim) (shape : List Nat) (b : D.Buf T) : Prop where
  arrayShape : D.arrayShape b = shape
  length : (D.asBuf b).length = shape.prod
  strides : D.strides b = rowMajor shape

/-- The strides give each index a position of its own. -/
structure Sound (D : Dim) (shape : List Nat) (b : D.Buf T) : Prop extends Laid D shape b where
  bijOn : Set.BijOn (offset (D.strides b)) {idx | ValidIndex shape idx} (Set.Iio (D.asBuf b).length)

/-- The last two of three constants are equal, and their product is below 2^64. -/
def Dim.Square : Dim → Prop
  | .const3 _ d2 d3 => d2 = d3 ∧ d3 * d2 < 2 ^ 64
  | _ => True

/-- The strides of the shape are below 2^64. -/
def StridesFit (shape : List Nat) : Prop := ∀ s ∈ rowMajor shape, s < 2 ^ 64

/-- The element of an index. -/
def Dim.get? (D : Dim) (b : D.Buf T) (idx : List Nat) : Option T := (D.asBuf b)[offset (rowMajor (D.arrayShape b)) idx]?

/-- An array of exactly these elements. -/
structure Holds (D : Dim) (b : D.Buf T) (shape : List Nat) (elem : List Nat → Option T) : Prop where
  arrayShape : D.arrayShape b = shape
  elems : (D.asBuf b).map some = (allIndices shape).map elem

/-! ## Broadcasting -/

/-- Two shapes, reversed, agree where neither has size 1. -/
def BroadcastableRev : (s1 s2 : List Nat) → Prop
  | x :: s1, y :: s2 => (x = y ∨ x = 1 ∨ y = 1) ∧ BroadcastableRev s1 s2
  | _, _ => True

/-- The common shape of two shapes, reversed. -/
def broadcastRev : (s1 s2 : List Nat) → List Nat
  | x :: s1, y :: s2 => (if x = 1 then y else x) :: broadcastRev s1 s2
  | [], s2 => s2
  | s1, [] => s1

def Broadcastable (s1 s2 : List Nat) : Prop := BroadcastableRev s1.reverse s2.reverse

/-- The common shape: axes are matched from the last one on. -/
def broadcastShape (s1 s2 : List Nat) : List Nat := (broadcastRev s1.reverse s2.reverse).reverse

/-- The index in an array of this shape, where axes of size 1 and missing ones are pinned to zero. -/
def pin (shape idx : List Nat) : List Nat :=
  List.zipWith (fun d i => if d = 1 then 0 else i) shape (idx.drop (idx.length - shape.length))

/-- A result: the operator at each index. -/
def Broadcasts (op : T → T → T) {D1 D2 : Dim} (Out : Dim) (a : D1.Buf T) (b : D2.Buf T) (result : Option (Out.Buf T)) :
    Prop :=
  ∃ out, result = some out ∧ Holds Out out (broadcastShape (D1.arrayShape a) (D2.arrayShape b)) fun idx =>
    Option.map₂ op (D1.get? a (pin (D1.arrayShape a) idx)) (D2.get? b (pin (D2.arrayShape b) idx))

/-! ## Windows -/

/-- Item number `n`: the position it is looked up at. -/
def StrideIterator.position (it : StrideIterator) (n : Nat) : Nat := ((fun it : StrideIterator => it.next.2)^[n] it).next.1

/-- The first items are the elements of a window, in row-major order. -/
structure Items (it : StrideIterator) (shape dims offsets : List Nat) : Prop where
  positions : (List.range dims.prod).map it.position =
    (allIndices dims).map fun idx => offset (rowMajor shape) (shift offsets idx)
  inside : ∀ n < dims.prod, it.position n < shape.prod

/-- No axis without an offset has to advance. -/
def Covers (dims offsets : List Nat) : Prop := dims.prod = 0 ∨ (dims.drop offsets.length).prod = 1

/-- A result: the elements of a window. -/
def Slices {D : Dim} (Out : Dim) (dims offsets : List Nat) (a : D.Buf T) (result : Option (Out.Buf T)) : Prop :=
  ∃ out, result = some out ∧ Holds Out out dims fun idx => D.get? a (shift offsets idx)

/-- The window is copied from every array of the shape. -/
def SlicesAll (T : Type) [Inhabited T] (D Out : Dim) (shape dims offsets : List Nat) : Prop :=
  ∀ a : D.Buf T, Laid D shape a → Slices Out dims offsets a (copyFixedSlice storageLen Out dims a offsets)

/-- A result: the array with its two indices swapped. -/
def Transposes {D : Dim} (Out : Dim) (a : D.Buf T) (result : Option (Out.Buf T)) : Prop :=
  ∃ out, result = some out ∧ Holds Out out (D.arrayShape a).reverse fun idx => D.get? a idx.reverse

/-! ## Concatenation -/

/-- The argument and the index in it, of an index in a concatenation along an axis. -/
def concatSource (shape : List Nat) (axis : Nat) (idx : List Nat) : Nat × List Nat :=
  (idx.getD axis 0 / shape.getD axis 0, idx.modify axis (· % shape.getD axis 0))

/-- The argument and the index in it, of an index in a stack along a new axis. -/
def stackSource (axis : Nat) (idx : List Nat) : Nat × List Nat := (idx.getD axis 0, idx.eraseIdx axis)

/-- A result: an array of the shape, with the elements of the arguments. -/
def Joins {D : Dim} (Out : Dim) (args : List (D.Buf T)) (shape : List Nat) (source : List Nat → Nat × List Nat)
    (result : Option (Out.Buf T)) : Prop :=
  ∃ out, result = some out ∧ Holds Out out shape fun idx =>
    args[(source idx).1]?.bind fun arg => D.get? arg (source idx).2

/-- All arguments of the shape, so many of them, are joined. -/
def JoinsAll (T : Type) [Inhabited T] (D Out : Dim) (s : List Nat) (axis count : Nat) (shape : List Nat)
    (source : List Nat → Nat × List Nat) : Prop :=
  ∀ args : List (D.Buf T), args.length = count → (∀ arg ∈ args, Laid D s arg) →
    Joins Out args shape source (concatMany storageLen Out args axis)

/-- Of two neighbouring sizes, one is 1. -/
def Sparse (shape : List Nat) : Prop := shape.IsChain fun x y => x = 1 ∨ y = 1

/-! ## Rows -/

/-- Row `i` of a matrix of `c` columns, as an array. -/
structure IsRow {D E : Dim} (c : Nat) (a : D.Buf T) (i : Nat) (row : E.Buf T) : Prop where
  laid : Laid E [c] row
  elem : ∀ k < c, E.get? row [k] = D.get? a [i, k]

/-- A result: row `i` is the function applied to row `i`. -/
def Maps {T2 : Type} {D E D2 : Dim} (Out : Dim) (r c m : Nat) (func : E.Buf T → D2.Buf T2) (a : D.Buf T)
    (result : Option (Out.Buf T2)) : Prop :=
  ∃ out, result = some out ∧ ∃ rows : Nat → E.Buf T, (∀ i < r, IsRow c a i (rows i)) ∧
    Holds Out out [r, m] fun idx => D2.get? (func (rows (idx.getD 0 0))) (idx.drop 1)

end Metor.Impl.Nox
