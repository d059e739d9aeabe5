import Metor.Impl.Db
import Metor.Impl.Sink

/-!
# What registering a vtable has to keep

A vtable that is refused leaves no trace: `Unchanged`. `FirstFails` is the
case in which nothing has been inserted when the loop of `insert_vtable` ends.
-/

namespace Metor.Spec.Register

open Metor.Lib Metor.Impl.Db
open Metor.Impl (Proto.VTable Proto.Field)

variable {B M : Type}

/-- A field does not realize, or its component has another schema. -/
def Refused : Error → Prop
  | .impeller _ | .schemaMismatch => True
  | _ => False

/-- The components, their metadata, the registry, `vtable_gen` and the directory. -/
structure Unchanged (db db' : DB B M) : Prop where
  components : db'.state.components = db.state.components
  componentMetadata : db'.state.componentMetadata = db.state.componentMetadata
  vtableRegistry : db'.state.vtableRegistry = db.state.vtableRegistry
  vtableGen : db'.vtableGen = db.vtableGen
  disk : db'.disk = db.disk

/-- The field does not realize, or there is its component with another schema. -/
def Fails (db : DB B M) (fuel : Nat) (vtable : Proto.VTable) (field : Proto.Field) : Prop :=
  (∃ e, vtable.realizeField none fuel field = .err e) ∨
    ∃ realized component, vtable.realizeField none fuel field = .ok realized ∧
      db.state.components.lookup (.ofNat realized.componentId) = some component ∧
      component.schema ≠ ⟨realized.ty, realized.shape⟩

/-- The first field of the list fails. -/
def FirstFails (db : DB B M) (fuel : Nat) (vtable : Proto.VTable) : Prop :=
  ∃ field ∈ vtable.fields.head?, Fails db fuel vtable field

/-- The component of the field is there, with the schema that the field realizes to. -/
def Registers (components : Finmap fun _ : UInt64 => Component) (fuel : Nat) (vtable : Proto.VTable)
    (field : Proto.Field) : Prop :=
  ∃ realized component, vtable.realizeField none fuel field = .ok realized ∧
    components.lookup (.ofNat realized.componentId) = some component ∧
    component.schema = ⟨realized.ty, realized.shape⟩

/-- Every field of every vtable in the registry has its component. -/
def Sound (state : State M) : Prop :=
  ∀ (id : UInt16) (vtable : Proto.VTable), state.vtableRegistry.lookup id = some vtable →
    ∃ fuel, ∀ field ∈ vtable.fields, Registers state.components fuel vtable field

/-- A database that was just created or opened. -/
def Started (pc : Platform B M) (db : DB B M) : Prop :=
  (∃ disk timeStep, DB.withTimeStep pc disk timeStep = .ok db) ∨ ∃ disk listing, DB.open pc disk listing = .ok db

end Metor.Spec.Register

/-!
## What a table may push

The records that a table leaves in the WALs: of the components that its vtable
registered, and each as long as a message that `persist` takes off the WAL.
-/

namespace Metor.Spec.Sink

open Metor.Lib Metor.Impl Metor.Impl.Sink

/-- A field of the vtable realizes to the component. -/
def RegisteredBy (vtable : Proto.VTable) (id : UInt64) : Prop :=
  ∃ fuel, ∃ field ∈ vtable.fields, ∃ realized, vtable.realizeField none fuel field = .ok realized ∧
    .ofNat realized.componentId = id

/-- The WAL was handed these records. -/
def Pushed (wal wal' : Wal) (records : List Bytes) : Prop :=
  wal'.ring.log.map (·.bytes) = wal.ring.log.map (·.bytes) ++ records

/-- A record of a component that the vtable registered, of the component's `msg_size`. -/
structure Expected (sink : DBSink) (vtable : Proto.VTable) (id : UInt64) (record : Bytes) : Prop where
  registered : RegisteredBy vtable id
  length : ∃ component, sink.components.lookup id = some component ∧ record.length = component.schema.size + 8

/-- The number of bytes of a value, as it would be without a bound on numbers. -/
def bytesOf (schema : ComponentSchema) : Nat := schema.dim.prod * schema.primType.size

/-- The sizes that are computed from a schema fit a `usize`, and its WALs have room for a record. -/
structure Admissible (schema : ComponentSchema) : Prop where
  product : ∀ k, (schema.dim.take k).prod < 2 ^ 64
  size : bytesOf schema < 2 ^ 64
  create : schema.size * 1024 < 2 ^ 64
  reopen : schema.size * 256 < 2 ^ 64
  message : schema.size + 8 < 2 ^ 64
  capacity : ∀ capacity ∈ [createCapacity schema, openCapacity schema], 0 < capacity ∧ schema.size + 8 ≤ capacity
  push : ∀ (wal : Wal) (timestamp : Int) (valueBuf : Bytes),
    wal.ring.cap ∈ [createCapacity schema, openCapacity schema] → valueBuf.length = schema.size →
      wal.pushBuf timestamp valueBuf ≠ .error .panicked ∧
        Disruptor.tryGrant wal.ring.head wal.ring.cursors wal.ring.cap (valueBuf.length + 8) ≠
          .error .insufficientCapacity

end Metor.Spec.Sink
