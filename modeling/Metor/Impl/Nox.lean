import Metor.Lib.RowMajor

/-!
# Arrays (`libs/nox/src/array`)

An `Array<T, D>` is its buffer `D::Buf<T>`: a scalar or nested arrays if all
dimensions are constant, and a `DynArray` for every dimension type with a `Dyn`
in it. A `usize` has 64 bits and wraps. `zeroed` is given the length that
`DynArray::default` allocates for a shape: in the source it is `storageLen`,
and what is claimed of other operations assumes that it is the product.
Operations that panic have no result.
-/

namespace Metor.Impl.Nox

open Metor.Lib

variable {T : Type}

/-! ## Storage -/

/-- `calculate_strides` -/
def calculateStrides (shape : List Nat) : List Nat :=
  let scan : List Nat × Nat := shape.reverse.foldl (fun s x => (s.1 ++ [s.2], s.2 * x % 2 ^ 64)) ([], 1)
  scan.1.reverse

/-- `DynArray` -/
structure DynArray (T : Type) where
  storage : List T
  shape : List Nat
  strides : List Nat
  deriving DecidableEq, Repr

/-- `DynArray::from_shape_vec` -/
def DynArray.fromShapeVec (shape : List Nat) (storage : List T) : Option (DynArray T) :=
  let expectedLen := if shape.isEmpty then 1 else shape.foldl (fun n x => n * x % 2 ^ 64) 1
  if expectedLen ≠ storage.length then none else some ⟨storage, shape, calculateStrides shape⟩

/-- The length of the storage in `DynArray::default`. -/
def storageLen (dims : List Nat) : Nat := dims.foldl (fun n x => (n + x) % 2 ^ 64) 0

/-- `DynArray::default` -/
def DynArray.default [Inhabited T] (len : List Nat → Nat) (dims : List Nat) : DynArray T :=
  ⟨List.replicate (len dims) Inhabited.default, dims, calculateStrides dims⟩

/-- A dimension type: `()`, `Const<D1>`, `(Const<D1>, Const<D2>)`, `(Const<D1>, Const<D2>, Const<D3>)`, or one with a
`Dyn`. -/
inductive Dim
  | scalar
  | const1 (d1 : Nat)
  | const2 (d1 d2 : Nat)
  | const3 (d1 d2 d3 : Nat)
  | dyn
  deriving DecidableEq, Repr

/-- The shape of a type without a `Dyn`. -/
def Dim.fixed : Dim → Option (List Nat)
  | .scalar => some []
  | .const1 d1 => some [d1]
  | .const2 d1 d2 => some [d1, d2]
  | .const3 d1 d2 d3 => some [d1, d2, d3]
  | .dyn => none

/-- `ArrayDim::Buf` -/
abbrev Dim.Buf (T : Type) : Dim → Type
  | .scalar => T
  | .const1 d1 => Vector T d1
  | .const2 d1 d2 => Vector (Vector T d2) d1
  | .const3 d1 d2 d3 => Vector (Vector (Vector T d3) d2) d1
  | .dyn => DynArray T

/-- `ArrayBuf::as_buf` -/
def Dim.asBuf : (D : Dim) → D.Buf T → List T
  | .scalar, x => [x]
  | .const1 _, v => v.toList
  | .const2 _ _, v => v.flatten.toList
  | .const3 _ _ _, v => v.flatten.flatten.toList
  | .dyn, a => a.storage

/-- The buffer once `as_mut_buf` has been written. -/
def Dim.withBuf : (D : Dim) → D.Buf T → List T → D.Buf T
  | .scalar, x, l => l.headD x
  | .const1 _, v, l => .ofFn fun i => l.getD i v[i]
  | .const2 _ d2, v, l => .ofFn fun i => .ofFn fun j => l.getD (i * d2 + j) v[i][j]
  | .const3 _ d2 d3, v, l => .ofFn fun i => .ofFn fun j => .ofFn fun k => l.getD ((i * d2 + j) * d3 + k) v[i][j][k]
  | .dyn, a, l => { a with storage := l }

/-- `ArrayDim::array_shape`, and `shape_slice` -/
def Dim.arrayShape : (D : Dim) → D.Buf T → List Nat
  | .scalar, _ => []
  | .const1 d1, _ => [d1]
  | .const2 d1 d2, _ => [d1, d2]
  | .const3 d1 d2 d3, _ => [d1, d2, d3]
  | .dyn, a => a.shape

/-- `ArrayDim::strides` -/
def Dim.strides : (D : Dim) → D.Buf T → List Nat
  | .scalar, _ => []
  | .const1 _, _ => [1]
  | .const2 _ d2, _ => [d2, 1]
  | .const3 _ d2 d3, _ => [d3 * d2 % 2 ^ 64, d2, 1]
  | .dyn, a => a.strides

/-- `Array::zeroed`: `ArrayBuf::default` -/
def zeroed [Inhabited T] (len : List Nat → Nat) : (D : Dim) → List Nat → D.Buf T
  | .scalar, _ => Inhabited.default
  | .const1 _, _ => .replicate _ Inhabited.default
  | .const2 _ _, _ => .replicate _ (.replicate _ Inhabited.default)
  | .const3 _ _ _, _ => .replicate _ (.replicate _ (.replicate _ Inhabited.default))
  | .dyn, dims => DynArray.default len dims

/-! ## Strided iteration -/

/-- `StrideIterator` and `StrideIteratorMut`, without the buffer -/
structure StrideIterator where
  stride : List Nat
  indexes : List Nat
  dims : List Nat
  offsets : List Nat
  bumpIndex : Bool
  deriving DecidableEq, Repr

/-- The loop over `dims.zip(indexes).zip(offsets).rev()`: the new indexes, and `carry`. The three are as long as the
shortest of them; indexes beyond stay as they are. -/
def bump : (dims indexes offsets : List Nat) → List Nat × Bool
  | dim :: dims, index :: indexes, offset :: offsets =>
    let (rest, carry) := bump dims indexes offsets
    let index := if carry then index + 1 else index
    let carry := decide (dim + offset ≤ index)
    ((if carry then offset else index) :: rest, carry)
  | _, indexes, _ => (indexes, true)

/-- `next`: the position that is looked up in the buffer. -/
def StrideIterator.next (it : StrideIterator) : Nat × StrideIterator :=
  let indexes := if it.bumpIndex then (bump it.dims it.indexes it.offsets).1 else it.indexes
  (offset it.stride indexes, { it with indexes := indexes, bumpIndex := true })

/-- `for (a, out) in iter.zip(out.iter_mut()) { *out = *a; }` -/
def copyInto (buf : List T) : StrideIterator → List T → List T
  | _, [] => []
  | it, o :: out =>
    match buf[it.next.1]? with
    | none => o :: out
    | some a => a :: copyInto buf it.next.2 out

/-- `for ((a, b), out) in iter_a.zip(iter_b).zip(out.iter_mut()) { *out = f(*a, *b); }` -/
def zipInto (f : T → T → T) (bufA bufB : List T) : StrideIterator → StrideIterator → List T → List T
  | _, _, [] => []
  | itA, itB, o :: out =>
    match bufA[itA.next.1]?, bufB[itB.next.1]? with
    | some a, some b => f a b :: zipInto f bufA bufB itA.next.2 itB.next.2 out
    | _, _ => o :: out

/-- `iter_mut.zip(args).for_each(|(a, b)| *a = *b)` -/
def scatter : StrideIterator → (args out : List T) → List T
  | _, [], out => out
  | it, b :: args, out => if it.next.1 < out.length then scatter it.next.2 args (out.set it.next.1 b) else out

/-! ## Broadcasting -/

/-- The loop of `cobroadcast_dims`, on the reversed shapes; none for `false`. -/
def cobroadcastRev : (output other : List Nat) → Option (List Nat)
  | output :: outputs, other :: others =>
    if output = other ∨ other = 1 then (cobroadcastRev outputs others).map (output :: ·)
    else if output = 1 then (cobroadcastRev outputs others).map (other :: ·)
    else none
  | outputs, _ => some outputs

/-- `cobroadcast_dims` -/
def cobroadcastDims (output other : List Nat) : Option (List Nat) :=
  (cobroadcastRev output.reverse other.reverse).map List.reverse

/-- The first loop of `broadcast_iter`, on the reversed dims, strides and new dims; `chain(repeat(1))` prolongs the dims. -/
def newStridesRev : (dims strides newDims : List Nat) → Option (List Nat)
  | dims, stride :: strides, newDim :: newDims =>
    let dim := dims.headD 1
    if dim = newDim then (newStridesRev dims.tail strides newDims).map (stride :: ·)
    else if dim = 1 then (newStridesRev dims.tail strides newDims).map (0 :: ·)
    else none
  | _, _, newDims => some newDims

/-- `broadcast_iter`; also none where `new_dims[existing_dims.len()..]` panics. -/
def broadcastIter (dims strides newDims : List Nat) : Option StrideIterator := do
  let newStrides ← newStridesRev dims.reverse strides.reverse newDims.reverse
  if newDims.length < dims.length then none
  else
    let zeros := newDims.length - dims.length
    let newStrides := List.replicate zeros 0 ++ newStrides.reverse.drop zeros
    let indexes := newDims.map fun _ => 0
    some { stride := newStrides, offsets := indexes, indexes := indexes, dims := newDims, bumpIndex := false }

/-- `impl_op!`, with the operator `op`; `Out` is `BroadcastedDim<D1, D2>`. None for `todo!` and the `unwrap`s. -/
def elementwise [Inhabited T] (len : List Nat → Nat) (op : T → T → T) {D1 D2 : Dim} (Out : Dim) (a : D1.Buf T)
    (b : D2.Buf T) : Option (Out.Buf T) := do
  let d1 := D1.arrayShape a
  let d2 := D2.arrayShape b
  if d1.length ≤ d2.length then
    let out : Out.Buf T := zeroed len Out d2
    let broadcastDims ← cobroadcastDims d2 d1
    let itA ← broadcastIter d1 (D1.strides a) broadcastDims
    let itB ← broadcastIter d2 (D2.strides b) broadcastDims
    return Out.withBuf out (zipInto op (D1.asBuf a) (D2.asBuf b) itA itB (Out.asBuf out))
  else
    let out : Out.Buf T := zeroed len Out d2
    let broadcastDims ← cobroadcastDims d1 d2
    let itB ← broadcastIter d2 (D2.strides b) broadcastDims
    let itA ← broadcastIter d1 (D1.strides a) broadcastDims
    return Out.withBuf out (zipInto (fun b a => op a b) (D2.asBuf b) (D1.asBuf a) itB itA (Out.asBuf out))

/-! ## Windows -/

/-- `offset_iter`, and `offset_iter_mut`, for an array of the dims and strides -/
def offsetIter (dims strides offsets : List Nat) : StrideIterator :=
  let indexes := List.zipWith (fun offset _ => offset) (offsets ++ List.replicate dims.length 0) dims
  { stride := strides, indexes := indexes, offsets := offsets, dims := dims, bumpIndex := false }

/-- `transpose_iter`, for an array of the shape and strides -/
def transposeIter (shape strides : List Nat) : StrideIterator :=
  let dims := shape.reverse
  let indexes := dims.map fun _ => 0
  { stride := strides.reverse, offsets := indexes, indexes := indexes, dims := dims, bumpIndex := false }

/-- `transpose` of an array of rank 2; `Out` is `TransposedDim<D>`. `swap(0, 1)` panics at a smaller rank. -/
def transpose [Inhabited T] (len : List Nat → Nat) {D : Dim} (Out : Dim) (a : D.Buf T) : Option (Out.Buf T) :=
  match D.arrayShape a with
  | d0 :: d1 :: rest =>
    let out : Out.Buf T := zeroed len Out (d1 :: d0 :: rest)
    some (Out.withBuf out (copyInto (D.asBuf a) (transposeIter (D.arrayShape a) (D.strides a)) (Out.asBuf out)))
  | _ => none

/-- `copy_fixed_slice`, with the shape `D2::DIM` of `Out`. -/
def copyFixedSlice [Inhabited T] (len : List Nat → Nat) {D : Dim} (Out : Dim) (dim : List Nat) (a : D.Buf T)
    (offsets : List Nat) : Option (Out.Buf T) :=
  let out : Out.Buf T := zeroed len Out dim
  let inDim := D.arrayShape a
  if inDim.length ≠ dim.length then none
  else if ((dim.zip inDim).zip offsets).any fun x => x.1.2 < x.2 + x.1.1 then none
  else
    let iter := offsetIter inDim (D.strides a) offsets
    some (Out.withBuf out (copyInto (D.asBuf a) { iter with dims := dim } (Out.asBuf out)))

/-! ## Concatenation -/

/-- `ArrayShape::from_len_elem`, for the shapes of a dimension type; none for its panics. -/
def fromLenElem (D : Dim) (len axis : Nat) (elem : List Nat) : Option (List Nat) :=
  match D.fixed with
  | some shape =>
    if shape.length ≤ axis then none
    else if elem.length = shape.length then some (elem.modify axis (· * len))
    else if elem.length + 1 = shape.length then some (elem.insertIdx axis len)
    else none
  | none => if elem.length < axis then none else some (elem.insertIdx axis len)

/-- One argument of `concat_many`, and the offset of the next one. -/
def concatArg {D1 D2 : Dim} (dim : Nat) (out : D2.Buf T) (offset : Nat) (arg : D1.Buf T) : Option (D2.Buf T × Nat) :=
  let argShape := D1.arrayShape arg
  let outShape := D2.arrayShape out
  if outShape.length < argShape.length then none
  else
    let elemShape := List.replicate (outShape.length - argShape.length) 1 ++ argShape
    let currentOffsets := outShape.mapIdx fun i _ => if i ≠ dim then 0 else offset
    let iter := offsetIter outShape (D2.strides out) currentOffsets
    elemShape[dim]?.map fun offsetDelta =>
      (D2.withBuf out (scatter { iter with dims := elemShape } (D1.asBuf arg) (D2.asBuf out)), offset + offsetDelta)

/-- The loop of `concat_many`. -/
def concatArgs {D1 D2 : Dim} (dim : Nat) : (out : D2.Buf T) → (offset : Nat) → List (D1.Buf T) → Option (D2.Buf T)
  | out, _, [] => some out
  | out, offset, arg :: args => do
    let (out, offset) ← concatArg dim out offset arg
    concatArgs dim out offset args

/-- `concat_many`; none for an error or a panic. -/
def concatMany [Inhabited T] (len : List Nat → Nat) {D1 : Dim} (D2 : Dim) (args : List (D1.Buf T)) (dim : Nat) :
    Option (D2.Buf T) :=
  if D1 = .scalar then
    if dim ≠ 0 then none
    else
      let out : D2.Buf T := zeroed len D2 [args.length]
      let values := args.flatMap D1.asBuf
      some (D2.withBuf out (values.take (D2.asBuf out).length ++ (D2.asBuf out).drop values.length))
  else
    match args with
    | [] => none
    | arg :: _ => do
      let outShape ← fromLenElem D2 args.length dim (D1.arrayShape arg)
      concatArgs dim (zeroed len D2 outShape) 0 args

/-! ## Rows -/

/-- The loop of `map`, from row `i` on; `OutShape` and `out` are there once the first row is mapped. None for its panics. -/
def mapRows {T2 : Type} [Inhabited T] [Inhabited T2] (len : List Nat → Nat) {E D2 : Dim} (Out : Dim) (n : Nat)
    (elemDim : List Nat) (func : E.Buf T → D2.Buf T2) :
    (i : Nat) → Option (List Nat × Out.Buf T2) → List (List T) → Option (Option (List Nat × Out.Buf T2))
  | _, out, [] => some out
  | i, out, chunk :: chunks => do
    let elem : E.Buf T := zeroed len E elemDim
    if (E.asBuf elem).length ≠ chunk.length then none
    else
      let newElem := func (E.withBuf elem chunk)
      let newElemDim := D2.arrayShape newElem
      let (outElemDim, arr) ← match out with
        | some out => some out
        | none => (fromLenElem Out n 0 newElemDim).map fun outDim => (newElemDim, zeroed len Out outDim)
      if outElemDim ≠ newElemDim then none
      else
        let outElemSize := storageLen outElemDim
        let values := D2.asBuf newElem
        if (Out.asBuf arr).length < (i + 1) * outElemSize ∨ values.length ≠ outElemSize then none
        else
          let arr := Out.withBuf arr ((Out.asBuf arr).take (i * outElemSize) ++ values ++
            (Out.asBuf arr).drop ((i + 1) * outElemSize))
          mapRows len Out n elemDim func (i + 1) (some (outElemDim, arr)) chunks

/-- `chunks_exact` -/
def chunksExact (size : Nat) (buf : List T) : List (List T) :=
  (List.range (buf.length / size)).map fun i => (buf.drop (i * size)).take size

/-- `map` of an array of rank 2; `E` is `ElemDim` and `Out` is `MappedDim`. -/
def map {T2 : Type} [Inhabited T] [Inhabited T2] (len : List Nat → Nat) {D E D2 : Dim} (Out : Dim)
    (func : E.Buf T → D2.Buf T2) (a : D.Buf T) : Option (Out.Buf T2) := do
  let dim := D.arrayShape a
  let elemDim := dim.drop 1
  let elemSize := storageLen elemDim
  let n ← dim[1]?
  if elemSize = 0 then none
  else
    let out ← mapRows len Out n elemDim func 0 none (chunksExact elemSize (D.asBuf a))
    let (_, arr) ← out
    return arr

end Metor.Impl.Nox
