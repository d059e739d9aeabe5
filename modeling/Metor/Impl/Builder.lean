import Metor.Impl.VTable

/-!
# Building vtables (`builder` in `libs/metor-proto/src/vtable.rs`)

An `Arc<OpBuilder>` is a node with its address, by which `VTableBuilder::visit`
knows a node it has already visited. The casts `as u32` are kept.

`Cpp` is the builder in C++ (`libs/db/cpp/vtable.hpp`). The nodes and the vtable
are those of the Rust builder; `OpBuilder.addr` is `op.get()`. The casts
`static_cast<uint16_t>` are kept, also those of a value that has been cast
before.
-/

namespace Metor.Impl.Proto

open Metor.Lib

/-- `Arc<OpBuilder>`: `addr` is `Arc::as_ptr`. -/
inductive OpBuilder
  | data (addr align : Nat) (data : Bytes)
  | table (addr offset len : Nat)
  | component (addr : Nat) (componentId : OpBuilder)
  | schema (addr : Nat) (ty dim arg : OpBuilder)
  | timestamp (addr : Nat) (timestamp arg : OpBuilder)
  | ext (addr id : Nat) (data arg : OpBuilder)
  deriving DecidableEq, Repr

/-- `Arc::as_ptr` -/
def OpBuilder.addr : OpBuilder → Nat
  | .data a _ _ | .table a _ _ | .component a _ | .schema a _ _ _ | .timestamp a _ _ | .ext a _ _ _ => a

structure FieldBuilder where
  offset : Nat
  len : Nat
  arg : OpBuilder
  deriving DecidableEq, Repr

/-- The vtable under construction, without the address its data will have, and the operations of
the nodes visited. -/
structure VTableBuilder where
  ops : List Op
  fields : List Field
  data : Bytes
  visited : List (Nat × OpRef)
  deriving DecidableEq, Repr

namespace VTableBuilder

/-- `VTableBuilder::default()` -/
def empty : VTableBuilder := ⟨[], [], [], []⟩

/-- The case of a data node: padding up to its alignment, and its bytes. -/
def pushData (b : VTableBuilder) (align : Nat) (data : Bytes) : VTableBuilder × Op :=
  let len := asU32 data.length
  let padding := (align - b.data.length % align) % align
  let padded := b.data ++ List.replicate padding 0
  let offset := asU32 padded.length
  ({ b with data := padded ++ data }, .data offset len)

/-- The frame of `visit`: the operation of a node visited before, or a new one. -/
def memo (b : VTableBuilder) (id : Nat) (op : VTableBuilder → VTableBuilder × Op) : VTableBuilder × OpRef :=
  match b.visited.lookup id with
  | some r => (b, r)
  | none =>
    let (b, op) := op b
    let opRef := asU32 b.ops.length
    ({ b with ops := b.ops ++ [op], visited := (id, opRef) :: b.visited }, opRef)

/-- `visit` -/
def visit : OpBuilder → VTableBuilder → VTableBuilder × OpRef
  | .data id align data, b => b.memo id fun b => b.pushData align data
  | .table id offset len, b => b.memo id fun b => (b, .table offset len)
  | .component id componentId, b => b.memo id fun b =>
    let (b, componentId) := visit componentId b
    (b, .component componentId)
  | .schema id ty dim arg, b => b.memo id fun b =>
    let (b, ty) := visit ty b
    let (b, dim) := visit dim b
    let (b, arg) := visit arg b
    (b, .schema ty dim arg)
  | .timestamp id timestamp arg, b => b.memo id fun b =>
    let (b, source) := visit timestamp b
    let (b, arg) := visit arg b
    (b, .timestamp source arg)
  | .ext id extId data arg, b => b.memo id fun b =>
    let (b, arg) := visit arg b
    let (b, data) := visit data b
    (b, .ext arg extId data)

/-- One field of `builder::vtable`. -/
def pushField (b : VTableBuilder) (field : FieldBuilder) : VTableBuilder :=
  let (b, arg) := visit field.arg b
  { b with fields := b.fields ++ [⟨field.offset, field.len, arg⟩] }

end VTableBuilder

/-- `builder::vtable`, with its data at `addr`. -/
def vtable (fields : List FieldBuilder) (addr : Nat) : VTable :=
  let b := fields.foldl VTableBuilder.pushField .empty
  ⟨b.ops, b.fields, ⟨addr, b.data⟩⟩

/-! ## The functions that make nodes

Each new node takes an address of its own. -/

namespace OpBuilder

/-- `builder::component` -/
def ofComponent (addr dataAddr componentId : Nat) : OpBuilder :=
  .component addr (.data dataAddr 8 (leBytes 8 componentId))

/-- `builder::schema` -/
def ofSchema (addr tyAddr dimAddr : Nat) (ty : PrimType) (dim : List Nat) (arg : OpBuilder) : OpBuilder :=
  .schema addr (.data tyAddr 8 (leBytes 8 ty.toNat)) (.data dimAddr 8 (dim.flatMap (leBytes 8))) arg

end OpBuilder

end Metor.Impl.Proto

namespace Metor.Impl.Cpp

open Metor.Lib Metor.Impl.Proto

/-- `static_cast<uint16_t>` -/
def asU16 (n : Nat) : Nat := n % 2 ^ 16

/-- The case of `OpBuilder::Data` in `visit`. -/
def pushData (b : VTableBuilder) (align : Nat) (data : Bytes) : VTableBuilder × Op :=
  let padding := (align - b.data.length % align) % align
  let padded := b.data ++ List.replicate padding 0
  let offset := asU16 padded.length
  let len := asU16 data.length
  ({ b with data := padded ++ data }, .data offset len)

/-- The frame of `visit`: `visited.find(op.get())`, and the operation that is pushed. -/
def memo (b : VTableBuilder) (id : Nat) (op : VTableBuilder → VTableBuilder × Op) : VTableBuilder × OpRef :=
  match b.visited.lookup id with
  | some r => (b, r)
  | none =>
    let (b, resultOp) := op b
    let opRef := asU16 b.ops.length
    ({ b with ops := b.ops ++ [resultOp], visited := (id, opRef) :: b.visited }, opRef)

/-- `visit` -/
def visit : OpBuilder → VTableBuilder → VTableBuilder × OpRef
  | .data id align data, b => memo b id fun b => pushData b align data
  | .table id offset len, b => memo b id fun b => (b, .table offset len)
  | .component id componentId, b => memo b id fun b =>
    let (b, componentId) := visit componentId b
    (b, .component (asU16 componentId))
  | .schema id ty dim arg, b => memo b id fun b =>
    let (b, ty) := visit ty b
    let (b, dim) := visit dim b
    let (b, arg) := visit arg b
    (b, .schema (asU16 ty) (asU16 dim) (asU16 arg))
  | .timestamp id timestamp arg, b => memo b id fun b =>
    let (b, timestamp) := visit timestamp b
    let (b, arg) := visit arg b
    (b, .timestamp (asU16 timestamp) (asU16 arg))
  | .ext id extId data arg, b => memo b id fun b =>
    let (b, data) := visit data b
    let (b, arg) := visit arg b
    (b, .ext (asU16 arg) extId (asU16 data))

/-- `push_field` -/
def pushField (b : VTableBuilder) (fieldBuilder : FieldBuilder) : VTableBuilder :=
  let (b, arg) := visit fieldBuilder.arg b
  { b with fields := b.fields ++ [⟨fieldBuilder.offset, fieldBuilder.len, asU16 arg⟩] }

/-- `builder::vtable`, with its data at `addr`. -/
def vtable (fields : List FieldBuilder) (addr : Nat) : VTable :=
  let builder := fields.foldl pushField .empty
  ⟨builder.ops, builder.fields, ⟨addr, builder.data⟩⟩

end Metor.Impl.Cpp
