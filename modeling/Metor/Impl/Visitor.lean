import Metor.Impl.Builder
import Metor.Impl.Component
import Metor.Impl.Packet

/-!
# Tables of a fixed-rate stream (`DBVisitor` in `libs/db/src/lib.rs`)

`vtable` lays out a table for the components that are not empty, and
`populate_table` writes one. Both visit the components of a map in the same
order, so a map is the list of its components here.
-/

namespace Metor.Impl

open Metor.Lib Metor.Impl.Proto

namespace Visitor

/-- What the visitor reads of a `Component`. -/
structure Component where
  componentId : Nat
  schema : ComponentSchema
  timeSeries : TimeSeries
  deriving DecidableEq, Repr

/-- `as_vtable_op`, its five nodes at the addresses from `addr` on. -/
def Component.asVtableOp (c : Component) (addr : Nat) : OpBuilder :=
  .ofSchema addr (addr + 1) (addr + 2) c.schema.primType c.schema.dim (.ofComponent (addr + 3) (addr + 4) c.componentId)

/-- What `vtable` does for one component, with the offset and the fields so far. Nodes of different
fields have different addresses. -/
def vtableEntity (acc : Nat × List FieldBuilder) (entity : Component) : Nat × List FieldBuilder :=
  let (offset, fields) := acc
  if !entity.timeSeries.isEmpty then
    let offset := offset + PrimType.u64.padding offset
    let addr := 7 * fields.length
    let op := .timestamp addr (.table (addr + 1) (asU32 offset) 8) (entity.asVtableOp (addr + 2))
    let offset := offset + 8
    let offset := offset + entity.schema.primType.padding offset
    let len := entity.schema.size
    let fields := fields ++ [⟨asU32 offset, asU32 len, op⟩]
    (offset + len, fields)
  else acc

/-- The fields that `vtable` builds. -/
def vtableFields (components : List Component) : List FieldBuilder := (components.foldl vtableEntity (0, [])).2

/-- `DBVisitor::vtable`, with its data at `dataAddr`. -/
def vtable (components : List Component) (dataAddr : Nat) : VTable := Proto.vtable (vtableFields components) dataAddr

/-- The sample of a component that `populate_table` writes. -/
def nearest (entity : Component) (timestamp : Int) : Option TimestampRef := do
  let startTimestamp ← entity.timeSeries.startTimestamp
  let tick := max startTimestamp timestamp
  entity.timeSeries.binarySearchNearest tick true

/-- What `populate_table` does for one component; `none` is a panic. -/
def populateEntity (timestamp : Int) (acc : LenPacket × Nat) (entity : Component) : Option (LenPacket × Nat) :=
  let (table, fields) := acc
  match nearest entity timestamp with
  | none => some (table, fields)
  | some nearest => do
    let table := table.pushAligned 8 (i64Bytes nearest.timestamp)
    let table := table.padForType entity.schema.primType
    let data ← nearest.data
    let table := table.extendFromSlice data
    return (table, fields + 1)

/-- `DBVisitor::populate_table` -/
def populateTable (components : List Component) (table : LenPacket) (timestamp : Int) : Option (LenPacket × Nat) :=
  components.foldlM (populateEntity timestamp) (table, 0)

end Visitor

end Metor.Impl
