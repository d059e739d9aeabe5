import Metor.Impl.Component

/-!
# Export to Arrow (`libs/db/src/arrow/mod.rs`)

A node of a time series becomes a record batch: a column of times and one of
values, whose buffers are the maps of the node. `as_mem_table` and
`save_archive` make a batch of each node, from the newest on.

The `arrow` crate is a parameter, `Arrow`. The data of a log starts 24 bytes
into a page, so that every buffer is aligned for its type. A data type is as
good as the elements of its column, so schemas keep the names of the columns
only. `none` is a panic.
-/

namespace Metor.Impl

open Metor.Lib Metor.Impl.Proto

/-! ## The `arrow` crate -/

/-- An element of a column: the bytes of a native value, or a truth value. -/
inductive Scalar
  | native (bytes : Bytes)
  | bool (b : Bool)
  deriving DecidableEq, Repr

/-- The arrays `A` and the record batches `B` of the `arrow` crate. -/
structure Arrow (A B : Type) where
  /-- `PrimitiveArray::new(ScalarBuffer::new(buffer, 0, len), None)`, for a native type of `width` bytes. -/
  primitive (width : Nat) (buffer : Bytes) (len : Nat) : Option A
  /-- `BooleanArray::new(BooleanBuffer::new(buffer, 0, len), None)` -/
  boolean (buffer : Bytes) (len : Nat) : Option A
  /-- `FixedSizeListArray::new`, without nulls. -/
  fixedSizeList (size : Int) (values : A) : Option A
  len (a : A) : Nat
  slice (a : A) (offset len : Nat) : Option A
  /-- The elements in row `i`. -/
  value (a : A) (i : Nat) : List Scalar
  /-- `RecordBatch::try_new`, with a field for each column. -/
  tryNew (columns : List (String × A)) : Option B
  numRows (b : B) : Nat
  columns (b : B) : List A

/-- `MemTable` of one partition, and its sort order: columns, each ascending or not. -/
structure MemTable (B : Type) where
  batches : List B
  sortOrder : List (List (String × Bool))
  deriving DecidableEq, Repr

/-! ## Buffers -/

/-- `std::ops::Bound<usize>` -/
inductive Bound
  | included (n : Nat)
  | excluded (n : Nat)
  | unbounded
  deriving DecidableEq, Repr

/-- `RangeBounds<usize>` -/
structure RangeBounds where
  start : Bound
  stop : Bound
  deriving DecidableEq, Repr

/-- `..` -/
def RangeBounds.full : RangeBounds := ⟨.unbounded, .unbounded⟩

/-- `as i32`, from `usize`. -/
def asI32 (n : Nat) : Int := if n % 2 ^ 32 < 2 ^ 31 then n % 2 ^ 32 else n % 2 ^ 32 - 2 ^ 32

namespace Arrow

/-- `AppendLog::as_arrow_buffer_range`, over the bytes of `data()`; products of `usize` wrap. -/
def asArrowBufferRange (data : Bytes) (range : RangeBounds) (elementSize : Nat) : Bytes :=
  let start := match range.start with
    | .included n => n * elementSize % 2 ^ 64
    | .excluded n => (n + 1) * elementSize % 2 ^ 64
    | .unbounded => 0
  let stop := match range.stop with
    | .included n => (n + 1) * elementSize % 2 ^ 64
    | .excluded n => n * elementSize % 2 ^ 64
    | .unbounded => data.length
  let start := min start data.length
  let stop := min stop data.length
  let len := stop - start
  Lib.slice data start (start + len)

variable {A B : Type} (arrow : Arrow A B)

/-- `node_array_ref` with `node_scalar_buffer`, for a native type of `width` bytes. -/
def nodeArrayRef (width : Nat) (node : TimeSeriesNode) (range : RangeBounds) (elementSize : Nat) : Option A :=
  let buffer := asArrowBufferRange node.data.data range elementSize
  let len := buffer.length / width
  arrow.primitive width buffer len

/-- `node_bool_ref` -/
def nodeBoolRef (node : TimeSeriesNode) (range : RangeBounds) (elementSize : Nat) : Option A :=
  let buffer := asArrowBufferRange node.data.data range elementSize
  let len := buffer.length
  arrow.boolean buffer len

/-- `size`, the length of the lists of a component with dimensions. -/
def listSize (schema : ComponentSchema) : Int := asI32 (schema.dim.prod % 2 ^ 64)

/-! ## Batches -/

/-- `as_data_array_range`: the name of the field, and the array. -/
def asDataArrayRange (node : TimeSeriesNode) (name : String) (range : RangeBounds) (schema : ComponentSchema) :
    Option (String × A) := do
  let elementSize := node.elementSize
  let array ← match schema.primType with
    | .f64 => arrow.nodeArrayRef 8 node range elementSize
    | .f32 => arrow.nodeArrayRef 4 node range elementSize
    | .u64 => arrow.nodeArrayRef 8 node range elementSize
    | .u32 => arrow.nodeArrayRef 4 node range elementSize
    | .u16 => arrow.nodeArrayRef 2 node range elementSize
    | .u8 => arrow.nodeArrayRef 1 node range elementSize
    | .i64 => arrow.nodeArrayRef 8 node range elementSize
    | .i32 => arrow.nodeArrayRef 4 node range elementSize
    | .i16 => arrow.nodeArrayRef 2 node range elementSize
    | .i8 => arrow.nodeArrayRef 1 node range elementSize
    | .bool => arrow.nodeBoolRef node range elementSize
  if schema.dim = [] then return (name, array)
  else return (name, ← arrow.fixedSizeList (listSize schema) array)

/-- `as_time_series_array_range` -/
def asTimeSeriesArrayRange (node : TimeSeriesNode) (range : RangeBounds) : Option A :=
  let buffer := asArrowBufferRange (node.timestamps.flatMap i64Bytes) range 8
  let len := buffer.length / 8
  arrow.primitive 8 buffer len

/-- `as_record_batch_range` -/
def asRecordBatchRange (node : TimeSeriesNode) (name : String) (range : RangeBounds) (schema : ComponentSchema) :
    Option B := do
  let (dataField, dataArray) ← arrow.asDataArrayRange node name range schema
  let timeArray ← arrow.asTimeSeriesArrayRange node range
  let len := min (arrow.len dataArray) (arrow.len timeArray)
  let times ← arrow.slice timeArray 0 len
  let values ← arrow.slice dataArray 0 len
  arrow.tryNew [("time", times), (dataField, values)]

/-- `as_record_batch` -/
def asRecordBatch (node : TimeSeriesNode) (name : String) (schema : ComponentSchema) : Option B :=
  arrow.asRecordBatchRange node name .full schema

/-- The batches that `as_mem_table` and `save_archive` collect. -/
def recordBatches (name : String) (schema : ComponentSchema) (list : TimeSeries) : Option (List B) :=
  list.mapM fun node => arrow.asRecordBatch node name schema

/-- `Component::as_mem_table`: no table without a batch, which would have its schema. -/
def asMemTable (name : String) (schema : ComponentSchema) (list : TimeSeries) : Option (Option (MemTable B)) :=
  (arrow.recordBatches name schema list).map fun
    | [] => none
    | batches => some ⟨batches, [[("time", true)]]⟩

/-- One round of the loop of `save_archive`: the batches that are written to the file of a component. -/
def archive (name : String) (schema : ComponentSchema) (list : TimeSeries) : Option (Option (List B)) :=
  (arrow.recordBatches name schema list).map fun
    | [] => none
    | batches => some batches

/-- `DB::save_archive` of components, each with the name in its metadata: the files and the batches written to them. -/
def saveArchive (components : List (Option String × ComponentSchema × TimeSeries)) : Option (List (String × List B)) := do
  let files ← components.mapM fun (metadata, schema, list) =>
    match metadata with
    | none => some none
    | some name => do
      let file ← arrow.archive name schema list
      return file.map fun batches => (name, batches)
  return files.reduceOption

end Arrow

end Metor.Impl
