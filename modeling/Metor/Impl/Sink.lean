import Metor.Impl.Db
import Metor.Impl.Disruptor

/-!
# Sinking tables (`libs/db/src/lib.rs`, `libs/metor-proto/src/vtable.rs`)

`VTable::apply` realizes the fields of a vtable over a table and hands each
value to `DBSink::apply_value`, which pushes it into the WAL of its component.
An error ends it, and what was pushed before stays.
-/

namespace Metor.Impl.Sink

open Metor.Lib Metor.Impl.Proto Metor.Impl.Db

inductive Error
  | impeller (e : Proto.Error)
  | vtableNotFound
  | componentNotFound (id : UInt64)
  | timeTravel
  /-- not an error of the source: a panic -/
  | panicked
  deriving DecidableEq, Repr

/-- `last_timestamp` and `wal` of a component. -/
structure Wal where
  lastTimestamp : Int
  ring : Disruptor.State
  deriving DecidableEq, Repr

/-- The capacity of the WAL in `Component::create`. -/
def createCapacity (schema : ComponentSchema) : Nat := schema.size * 1024 % 2 ^ 64

/-- The capacity of the WAL in `Component::open`. -/
def openCapacity (schema : ComponentSchema) : Nat := schema.size * 256 % 2 ^ 64

/-- `Component::push_buf`: the remainder by the length of an empty ring panics, and a sample that is
not granted room is passed over. -/
def Wal.pushBuf (wal : Wal) (timestamp : Int) (valueBuf : Bytes) : Except Error Wal :=
  if timestamp < wal.lastTimestamp then .error .timeTravel
  else if wal.ring.cap = 0 then .error .panicked
  else
    match Disruptor.tryGrant wal.ring.head wal.ring.cursors wal.ring.cap (valueBuf.length + 8) with
    | .error _ => .ok wal
    | .ok (head, range) =>
      let ring := { wal.ring with
        head := head
        ringbuf := overwrite wal.ring.ringbuf range.start (record timestamp valueBuf) }
      .ok ⟨max wal.lastTimestamp timestamp, Disruptor.commitStep ring range⟩

/-- `DBSink`: `wals` and `empty` (`time_series.is_empty()`) belong to its components. -/
structure DBSink where
  components : Finmap fun _ : UInt64 => Db.Component
  wals : UInt64 → Wal
  empty : UInt64 → Bool
  lastUpdated : Int
  sunkNewTimeSeries : Bool
  tableReceived : Int

/-- `apply_value` -/
def DBSink.applyValue (sink : DBSink) (componentId : UInt64) (value : ComponentView) (timestamp : Option Int) :
    Except Error DBSink :=
  let timestamp := timestamp.getD sink.tableReceived
  let valueBuf := value.bytes
  match sink.components.lookup componentId with
  | none => .error (.componentNotFound componentId)
  | some _ =>
    match (sink.wals componentId).pushBuf timestamp valueBuf with
    | .error e => .error e
    | .ok wal => .ok { sink with
        wals := Function.update sink.wals componentId wal
        sunkNewTimeSeries := sink.empty componentId || sink.sunkNewTimeSeries
        lastUpdated := max sink.lastUpdated timestamp }

/-- The loop of `VTable::apply`, with `fuel` for each field it realizes. -/
def applyFields (v : Proto.VTable) (table : View) (fuel : Nat) : List Proto.Field → DBSink → Eval Error Unit × DBSink
  | [], sink => (.ok (), sink)
  | field :: fields, sink =>
    match v.realizeField (some table) fuel field with
    | .running => (.running, sink)
    | .err e => (.err (.impeller e), sink)
    | .ok realized =>
      match realized.view with
      | none => (.err .panicked, sink)
      | some view =>
        match sink.applyValue (.ofNat realized.componentId) view realized.timestamp with
        | .error e => (.err e, sink)
        | .ok sink => applyFields v table fuel fields sink

/-- `OwnedTable::sink` -/
def sink (registry : Finmap fun _ : UInt16 => Proto.VTable) (id : UInt16) (table : View) (fuel : Nat)
    (sink : DBSink) : Eval Error Unit × DBSink :=
  match registry.lookup id with
  | none => (.err .vtableNotFound, sink)
  | some vtable => applyFields vtable table fuel vtable.fields sink

end Metor.Impl.Sink
