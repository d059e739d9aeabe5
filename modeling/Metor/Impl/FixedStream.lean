import Metor.Impl.Visitor

/-!
# The tables of a fixed-rate stream (`handle_fixed_stream` in `libs/db/src/lib.rs`)

The stream reads `vtable_gen` and the map of components, and sends vtables and
tables. Meanwhile connections insert vtables and sink tables, and the `persist`
task of each component appends what was sunk to its time series, which every
clone of the map shares. A component is never removed, so a clone is the list
of the components' places here, in its own order of iteration.
-/

namespace Metor.Impl.FixedStream

open Metor.Lib Metor.Impl.Proto

/-! ## Components and their `persist` tasks -/

/-- Where `persist` is. -/
inductive Persist
  | next
  /-- In the loop of `push_buf`. -/
  | push (timestamp : Int) (value : Bytes)
  /-- In `try_push_buf`, the data written and the index to write. -/
  | index (timestamp : Int)
  deriving DecidableEq, Repr

/-- A component, the records of its WAL that are not read yet, and its task. -/
structure Live where
  component : Visitor.Component
  wal : List (Int × Bytes)
  persist : Persist
  deriving DecidableEq, Repr

namespace Live

/-- `Component::create` -/
def create (id : Nat) (schema : ComponentSchema) : Live := ⟨⟨id, schema, []⟩, [], .next⟩

/-- The `is_empty` of its time series. -/
def isEmpty (l : Live) : Bool := l.component.timeSeries.isEmpty

/-- The time series and the task after a step. -/
def put (l : Live) (list : TimeSeries) (persist : Persist) : Live :=
  { l with component := { l.component with timeSeries := list }, persist := persist }

/-- `push_buf` when `try_push_buf` found no node with room. -/
def createNode (l : Live) (timestamp : Int) (value : Bytes) : Live :=
  match l.component.timeSeries.createNode (toString timestamp) timestamp value.length with
  | .error _ => { l with persist := .next }
  | .ok node => l.put (node :: l.component.timeSeries) (.push timestamp value)

/-- The next step of `persist`; an error is logged. -/
def step (l : Live) : Option Live :=
  match l.persist with
  | .next =>
    match l.wal with
    | [] => none
    | (timestamp, value) :: wal => some { l with wal := wal, persist := .push timestamp value }
  | .push timestamp value =>
    match l.component.timeSeries with
    | [] => some (l.createNode timestamp value)
    | head :: prev =>
      match head.data.write 1 value with
      | .error .mapOverflow => some (l.createNode timestamp value)
      | .error _ => some { l with persist := .next }
      | .ok data => some (l.put ({ head with data := data } :: prev) (.index timestamp))
  | .index timestamp =>
    match l.component.timeSeries with
    | [] => none
    | head :: prev =>
      match head.index.write 8 [timestamp] with
      | .error _ => some { l with persist := .next }
      | .ok index => some (l.put ({ head with index := index } :: prev) .next)

/-- `push_buf` of a component, when the WAL has room. -/
def pushBuf (l : Live) (timestamp : Int) (value : Bytes) : Live := { l with wal := l.wal ++ [(timestamp, value)] }

end Live

/-! ## The database -/

/-- What the stream shares with the connections; `sinks` is the `sunk_new_time_series` of each table
that is being sunk. -/
structure Db where
  components : List Live
  vtableGen : Nat
  sinks : List Bool
  deriving DecidableEq, Repr

inductive DbAct
  /-- `insert_vtable`, for one of its fields. -/
  | insertField (id : Nat) (schema : ComponentSchema)
  | startTable
  /-- `DBSink::apply_value`; `try_grant` has `room` or the value is skipped. -/
  | applyValue (j i : Nat) (timestamp : Int) (buf : View) (room : Bool)
  /-- The table is sunk, or an error ended it. -/
  | endTable (j : Nat) (ok : Bool)
  | persist (i : Nat)
  deriving DecidableEq, Repr

/-- `vtable_gen.fetch_add(1, ..)` -/
def Db.bump (db : Db) : Db := { db with vtableGen := (db.vtableGen + 1) % 2 ^ 64 }

/-- `insert_component` and, if it did not fail, the generation after it. Ids and dimensions are `u64`. -/
def Db.insertField (db : Db) (id : Nat) (schema : ComponentSchema) : Option Db :=
  if id < 2 ^ 64 ∧ ∀ d ∈ schema.dim, d < 2 ^ 64 then
    match db.components.find? (·.component.componentId = id) with
    | some existing => if existing.component.schema ≠ schema then some db else some db.bump
    | none => some (Db.bump { db with components := db.components ++ [.create id schema] })
  else none

/-- The vtables of tables that are sunk were inserted, so a value has the schema of its component. Which
timestamps pass the comparison with `last_timestamp` is left open. -/
def Db.applyValue (db : Db) (j i : Nat) (timestamp : Int) (buf : View) (room : Bool) : Option Db := do
  let sunkNewTimeSeries ← db.sinks[j]?
  let l ← db.components[i]?
  if IsI64 timestamp then
    match ComponentView.tryFromBytesShape buf l.component.schema.dim l.component.schema.primType with
    | .ok view =>
      return { db with
        components := if room then db.components.set i (l.pushBuf timestamp view.bytes) else db.components
        sinks := db.sinks.set j (sunkNewTimeSeries || l.isEmpty) }
    | _ => none
  else none

def Db.step (db : Db) : DbAct → Option Db
  | .insertField id schema => db.insertField id schema
  | .startTable => some { db with sinks := db.sinks ++ [false] }
  | .applyValue j i timestamp buf room => db.applyValue j i timestamp buf room
  | .endTable j ok => db.sinks[j]?.map fun sunkNewTimeSeries =>
    let db := { db with sinks := db.sinks.eraseIdx j }
    if ok && sunkNewTimeSeries then db.bump else db
  | .persist i => do
    let l ← db.components[i]?
    let l ← l.step
    return { db with components := db.components.set i l }

/-- The components of a clone, as they are now. -/
def Db.view (db : Db) (components : List Nat) : List Visitor.Component :=
  components.filterMap fun i => db.components[i]?.map (·.component)

/-- Those of a clone that satisfy `p` now. -/
def Db.which (db : Db) (p : Visitor.Component → Bool) (components : List Nat) : List Nat :=
  components.filter fun i => (db.components[i]?.map (·.component)).any p

/-! ## The stream -/

/-- What is sent on the stream. A `VTableMsg` holds the vtable of `fields`; which components they are
for is recorded with it, and with a table the components it was written from. -/
inductive Sent
  | vtableMsg (listed : List Nat) (fields : List FieldBuilder)
  | streamTimestamp (timestamp : Int)
  | table (timestamp : Int) (components : List Visitor.Component) (table : LenPacket)
  deriving DecidableEq

/-- Where the stream is; `timestamp` is its `current_timestamp`. -/
inductive Pc
  | start
  | opened
  | top
  | readGen (timestamp : Int)
  | clone (timestamp : Int) (vtableGen : Nat)
  | sendVtable (timestamp : Int) (vtableGen : Nat)
  | populate (timestamp : Int)
  | compare (timestamp : Int) (fields : Nat)
  | sendVtableAgain (timestamp : Int) (fields : Nat)
  | sendTable (timestamp : Int)
  deriving DecidableEq, Repr

/-- The variables of `handle_fixed_stream`, and what it sent, the last first. `written` are the
components as they were when the table was written. -/
structure Stream where
  currentVtableGen : Nat
  currentFieldCount : Option Nat
  components : List Nat
  table : LenPacket
  written : List Visitor.Component
  sent : List Sent
  pc : Pc
  deriving DecidableEq

/-- `order` is the order of a clone of the map, `timestamp` the tick of the stream. -/
inductive StreamAct
  | clone (order : List Nat)
  | play (timestamp : Int)
  | next
  deriving DecidableEq, Repr

/-- Before the first step. -/
def Stream.start (id : UInt8 × UInt8) : Stream := ⟨0, none, [], .table id, [], [], .start⟩

/-- The vtable of the components of the map, sent. -/
def Stream.send (s : Stream) (db : Db) : List Sent :=
  .vtableMsg (db.which (!·.timeSeries.isEmpty) s.components) (Visitor.vtableFields (db.view s.components)) :: s.sent

/-- The clone of the map, in some order. -/
def Stream.clone (s : Stream) (db : Db) (order : List Nat) (pc : Pc) : Option Stream :=
  if order.Perm (List.range db.components.length) then some { s with components := order, pc := pc } else none

def Stream.step (db : Db) (s : Stream) : StreamAct → Option Stream
  | .clone order =>
    match s.pc with
    | .opened => s.clone db order .top
    | .clone timestamp vtableGen => s.clone db order (.sendVtable timestamp vtableGen)
    | _ => none
  | .play timestamp => if s.pc = .top then some { s with pc := .readGen timestamp } else none
  | .next =>
    match s.pc with
    | .start => some { s with currentVtableGen := db.vtableGen, pc := .opened }
    | .readGen timestamp =>
      if db.vtableGen ≠ s.currentVtableGen then some { s with pc := .clone timestamp db.vtableGen }
      else some { s with pc := .populate timestamp }
    | .sendVtable timestamp vtableGen =>
      some { s with sent := s.send db, currentVtableGen := vtableGen, pc := .populate timestamp }
    | .populate timestamp =>
      (Visitor.populateTable (db.view s.components) s.table.clear timestamp).map fun (table, fields) =>
        { s with table := table, written := db.view s.components, pc := .compare timestamp fields }
    | .compare timestamp fields =>
      if s.currentFieldCount = some fields then some { s with pc := .sendTable timestamp }
      else some { s with pc := .sendVtableAgain timestamp fields }
    | .sendVtableAgain timestamp fields =>
      some { s with sent := s.send db, currentFieldCount := some fields, pc := .sendTable timestamp }
    | .sendTable timestamp =>
      some { s with sent := .table timestamp s.written s.table :: .streamTimestamp timestamp :: s.sent, pc := .top }
    | _ => none

/-! ## Together -/

structure State where
  db : Db
  stream : Stream
  deriving DecidableEq

inductive Act
  | db (act : DbAct)
  | stream (act : StreamAct)
  deriving DecidableEq, Repr

def step (s : State) : Act → Option State
  | .db act => (s.db.step act).map fun db => { s with db := db }
  | .stream act => (s.stream.step s.db act).map fun stream => { s with stream := stream }

/-- A database whose components were opened, and a stream that was just started. -/
def State.init (components : List Visitor.Component) (vtableGen : Nat) (id : UInt8 × UInt8) : State :=
  ⟨⟨components.map fun c => ⟨c, [], .next⟩, vtableGen, []⟩, .start id⟩

end Metor.Impl.FixedStream
