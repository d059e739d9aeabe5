import Metor.Impl.Proto

/-!
# VTables (`libs/metor-proto/src/vtable.rs`)

`realize` evaluates an operation, following its operands, and `realize_fields`
follows the arguments of each field's operation down to a component. Neither
has a bound of its own: `fuel` bounds the depth of the recursion and the
rounds of the loop here, and an evaluation that needs more is `running`.
-/

namespace Metor.Impl.Proto

open Metor.Lib

/-- An index into the operations of a vtable. -/
abbrev OpRef := Nat

inductive Op
  | data (offset len : Nat)
  | table (offset len : Nat)
  | none
  | component (componentId : OpRef)
  | schema (ty dim arg : OpRef)
  | timestamp (source arg : OpRef)
  | ext (arg : OpRef) (id : Nat) (data : OpRef)
  deriving DecidableEq, Repr

structure Field where
  offset : Nat
  len : Nat
  arg : OpRef
  deriving DecidableEq, Repr

structure VTable where
  ops : List Op
  fields : List Field
  data : View
  deriving DecidableEq, Repr

structure RealizedSchema where
  dim : List Nat
  ty : PrimType
  arg : OpRef
  deriving DecidableEq, Repr

structure RealizedTimestamp where
  timestamp : Option Int
  range : Option (Nat × Nat)
  arg : OpRef
  deriving DecidableEq, Repr

structure RealizedExt where
  id : Nat
  data : View
  arg : OpRef
  deriving DecidableEq, Repr

inductive RealizedOp
  | data (v : View)
  | table (slice : Option View) (range : Nat × Nat)
  | component (componentId : Nat)
  | schema (s : RealizedSchema)
  | timestamp (t : RealizedTimestamp)
  | ext (e : RealizedExt)
  | none
  deriving DecidableEq, Repr

structure RealizedField where
  componentId : Nat
  shape : List Nat
  ty : PrimType
  offset : Nat
  view : Option ComponentView
  timestamp : Option Int
  deriving DecidableEq, Repr

namespace RealizedOp

/-- `as_slice` -/
def asSlice : RealizedOp → Option View
  | .data v => some v
  | .table v _ => v
  | _ => .none

/-- `as_component_id` -/
def asComponentId (op : RealizedOp) : Option Nat :=
  op.asSlice.bind fun v => if v.bytes.length = 8 then some (leNat v.bytes) else .none

/-- `as_prim_ty` -/
def asPrimTy (op : RealizedOp) : Option PrimType := op.asSlice.bind fun v => primTypeOfBytes v.bytes

/-- `as_table_range` -/
def asTableRange : RealizedOp → Option (Nat × Nat)
  | .table _ range => some range
  | _ => .none

end RealizedOp

/-- `Timestamp::read_from_bytes` -/
def readTimestamp (v : View) : Eval Error Int :=
  if v.bytes.length = 8 then .ok (i64OfBytes v.bytes) else .err .offsetOverflow

namespace VTable

/-- `get_op` -/
def getOp (v : VTable) (r : OpRef) : Eval Error Op := .okOr .opRefNotFound v.ops[r]?

/-- `realize` -/
def realize (v : VTable) (table : Option View) : (fuel : Nat) → OpRef → Eval Error RealizedOp
  | 0, _ => .running
  | fuel + 1, r => do
    match ← v.getOp r with
    | .data offset len => do
      let data ← .okOr .bufferOverflow (v.data.get offset (offset + len))
      return .data data
    | .table offset len =>
      match table with
      | some table => do
        let slice ← .okOr .bufferUnderflow (table.get offset (offset + len))
        return .table (some slice) (offset, offset + len)
      | .none => return .table .none (offset, offset + len)
    | .component componentId => do
      let op ← v.realize table fuel componentId
      let componentId ← .okOr .invalidOp op.asComponentId
      return .component componentId
    | .schema ty dim arg => do
      let op ← v.realize table fuel ty
      let ty ← .okOr .invalidOp op.asPrimTy
      let op ← v.realize table fuel dim
      let slice ← .okOr .invalidOp op.asSlice
      let dim ← slice.asU64s
      return .schema ⟨dim, ty, arg⟩
    | .timestamp source arg => do
      let source ← v.realize table fuel source
      match source.asSlice with
      | some data => do
        let timestamp ← readTimestamp data
        return .timestamp ⟨some timestamp, source.asTableRange, arg⟩
      | .none => return .timestamp ⟨.none, source.asTableRange, arg⟩
    | .none => return .none
    | .ext arg id data => do
      let op ← v.realize table fuel data
      let data ← .okOr .invalidOp op.asSlice
      return .ext ⟨id, data, arg⟩

/-- What the loop of `realize_fields` returns when it comes to a component. -/
def finish (table : Option View) (field : Field) (componentId : Nat) (timestamp : Option RealizedTimestamp)
    (schema : Option RealizedSchema) : Eval Error RealizedField := do
  let schema ← .okOr .schemaNotFound schema
  let shape := schema.dim
  let timestamp := timestamp.bind (·.timestamp)
  match table with
  | some table => do
    let data ← .okOr .bufferUnderflow (table.get field.offset (field.offset + field.len))
    let view ← ComponentView.tryFromBytesShape data shape schema.ty
    return ⟨componentId, shape, schema.ty, field.offset, some view, timestamp⟩
  | .none => return ⟨componentId, shape, schema.ty, field.offset, .none, timestamp⟩

/-- The loop of `realize_fields`, from the operation at `arg` on; the innermost timestamp and
schema stay. -/
def fieldLoop (v : VTable) (table : Option View) (fuel : Nat) (field : Field) :
    (rounds : Nat) → OpRef → Option RealizedTimestamp → Option RealizedSchema → Eval Error RealizedField
  | 0, _, _, _ => .running
  | rounds + 1, arg, timestamp, schema => do
    match ← v.realize table fuel arg with
    | .component componentId => finish table field componentId timestamp schema
    | .schema s => v.fieldLoop table fuel field rounds s.arg timestamp (some s)
    | .timestamp t => v.fieldLoop table fuel field rounds t.arg (some t) schema
    | .ext e => v.fieldLoop table fuel field rounds e.arg timestamp schema
    | _ => .err .invalidOp

/-- One item of `realize_fields`. -/
def realizeField (v : VTable) (table : Option View) (fuel : Nat) (field : Field) : Eval Error RealizedField :=
  v.fieldLoop table fuel field fuel field.arg .none .none

end VTable

end Metor.Impl.Proto
