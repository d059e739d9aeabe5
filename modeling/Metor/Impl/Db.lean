import Mathlib.Data.Finmap
import Metor.Impl.Component
import Metor.Impl.VTable
import Metor.Lib.Decimal
import Metor.Lib.FileSys

/-!
# The database and its directory (`libs/db/src/lib.rs`, `msg_log_2.rs`)

`DB` is a running database together with its directory (`disk`), whose paths
are relative to `DB::path`. `handlePacket` answers one request, `persist` and
`persistMsg` are what the background tasks do to the directory, and `DB.open`
reads a directory back. What a request leaves in the WALs and the time series
of memory is not here; the tasks may therefore create any node at any time.

`postcard` and the allocator are parameters: files hold `B`, a codec for each
stored type encodes to and decodes from `B`, and a WAL is there only if its
capacity can be allocated.
-/

namespace Metor.Impl.Db

open Metor.Lib

/-- A `HashMap<String, String>` -/
abbrev Metadata := Finmap fun _ : String => String

structure ComponentMetadata where
  componentId : UInt64
  name : String
  metadata : Metadata
  deriving DecidableEq

/-- `default_stream_time_step` is in nanoseconds. -/
structure DbConfig where
  recording : Bool
  defaultStreamTimeStep : Nat
  metadata : Metadata
  deriving DecidableEq

/-- `DbConfig::default` -/
def DbConfig.default : DbConfig := ⟨true, 10 * 1000 * 1000, ∅⟩

/-- `SetDbConfig` -/
structure SetDbConfig where
  recording : Option Bool
  metadata : Metadata
  deriving DecidableEq

/-! ## Files -/

/-- `postcard::to_allocvec` and `postcard::from_bytes` at one type. -/
structure Codec (B α : Type) where
  toAllocvec : α → B
  fromBytes : B → Option α

/-- The types the database stores, of which `M` is `MsgMetadata`, and what `vec![0; capacity]` can allocate for a WAL. -/
structure Platform (B M : Type) where
  schema : Codec B ComponentSchema
  componentMetadata : Codec B ComponentMetadata
  msgMetadata : Codec B M
  dbConfig : Codec B DbConfig
  allocates : Nat → Bool

/-- What was encoded is decoded, and nothing above `isize::MAX` is allocated. -/
structure Platform.Lawful {B M : Type} (pc : Platform B M) : Prop where
  schema : ∀ a, pc.schema.fromBytes (pc.schema.toAllocvec a) = some a
  componentMetadata : ∀ a, pc.componentMetadata.fromBytes (pc.componentMetadata.toAllocvec a) = some a
  msgMetadata : ∀ a, pc.msgMetadata.fromBytes (pc.msgMetadata.toAllocvec a) = some a
  dbConfig : ∀ a, pc.dbConfig.fromBytes (pc.dbConfig.toAllocvec a) = some a
  allocates : ∀ capacity, pc.allocates capacity → capacity < 2 ^ 63

/-- A file that was written, or one of an `AppendLog`, which is mapped into memory. -/
inductive Content (B : Type) where
  | bytes (b : B)
  | log
  deriving DecidableEq, Repr

abbrev Disk (B : Type) := FileSys (Content B)

inductive Error
  | io
  | postcard
  | impeller (e : Proto.Error)
  | invalidComponentId
  | invalidMsgId
  | schemaMismatch
  /-- not an error of the source: a panic, or that memory cannot be allocated, which aborts -/
  | panicked
  deriving DecidableEq, Repr

variable {B M : Type}

/-- `read` of `MetadataExt` and of `ComponentSchema`. -/
def Codec.read {α : Type} (codec : Codec B α) (disk : Disk B) (path : Path) : Except Error α :=
  match disk.read path with
  | none => .error .io
  | some .log => .error .postcard
  | some (.bytes b) =>
    match codec.fromBytes b with
    | none => .error .postcard
    | some a => .ok a

/-- `write` of `MetadataExt` and of `ComponentSchema`. -/
def Codec.write {α : Type} (codec : Codec B α) (disk : Disk B) (path : Path) (a : α) : Option (Disk B) :=
  disk.write path (.bytes (codec.toAllocvec a))

/-- `AppendLog::with_size` of each file of a node: `TimeSeriesNode::create` and `MsgLogNode::create`. -/
def createNode (files : List String) (disk : Disk B) (path : Path) : Option (Disk B) := do
  let disk ← disk.createDirAll path
  files.foldlM (fun disk file => disk.createNew (path ++ [file]) .log) disk

/-- The files of a `TimeSeriesNode`. -/
def timeSeriesFiles : List String := ["index", "data"]

/-- The files of a `MsgLogNode`. -/
def msgLogFiles : List String := ["timestamps", "offsets", "data_log"]

/-- The node directories below `path` that open, the one listed last at the head; the others are
passed over. -/
def openNodes (files : List String) (disk : Disk B) (path : Path) (names : List String) : List String :=
  (names.filter fun n => disk.isDir (path ++ [n]) && files.all fun f => disk.isFile (path ++ [n, f])).reverse

/-! ## Components and message logs -/

/-- `nodes` are the directories of its time series, newest first. -/
structure Component where
  componentId : UInt64
  schema : ComponentSchema
  nodes : List String
  deriving DecidableEq, Repr

/-- The directory of a component or of a message log is its id. -/
def componentDir (id : UInt64) : Path := [toString id.toNat]

def msgDir (id : UInt16) : Path := ["msgs", toString id.toNat]

/-- `Component::create` -/
def Component.create (pc : Platform B M) (disk : Disk B) (id : UInt64) (schema : ComponentSchema) :
    Except Error (Component × Disk B) :=
  let path := componentDir id
  match disk.createDirAll path with
  | none => .error .io
  | some disk =>
    let schemaPath := path ++ ["schema"]
    match if disk.exists schemaPath then some disk else pc.schema.write disk schemaPath schema with
    | none => .error .io
    | some disk =>
      if pc.allocates (schema.size * 1024 % 2 ^ 64) then .ok (⟨id, schema, []⟩, disk) else .error .panicked

/-- `Component::open`, its directory listed as `names`. -/
def Component.open (pc : Platform B M) (disk : Disk B) (path : Path) (names : List String) (id : UInt64)
    (schema : ComponentSchema) : Except Error Component :=
  let nodes := openNodes timeSeriesFiles disk path names
  if pc.allocates (schema.size * 256 % 2 ^ 64) then .ok ⟨id, schema, nodes⟩ else .error .panicked

structure MsgLog (M : Type) where
  metadata : Option M
  nodes : List String
  deriving DecidableEq, Repr

/-- `MsgLog::create`, which leaves the disk alone. -/
def MsgLog.create : MsgLog M := ⟨none, []⟩

/-- `MsgLog::open`, its directory listed as `names`. -/
def MsgLog.open (pc : Platform B M) (disk : Disk B) (path : Path) (names : List String) : Except Error (MsgLog M) := do
  let metadataPath := path ++ ["metadata"]
  let metadata ← if disk.exists metadataPath then some <$> pc.msgMetadata.read disk metadataPath else .ok none
  if disk.isDir path then .ok ⟨metadata, openNodes msgLogFiles disk path (names.filter (· ≠ "metadata"))⟩
  else .error .io

/-! ## The database -/

structure State (M : Type) where
  components : Finmap fun _ : UInt64 => Component
  componentMetadata : Finmap fun _ : UInt64 => ComponentMetadata
  msgLogs : Finmap fun _ : UInt16 => MsgLog M
  vtableRegistry : Finmap fun _ : UInt16 => Proto.VTable
  dbConfig : DbConfig

/-- `State::default` -/
def State.default : State M := ⟨∅, ∅, ∅, ∅, .default⟩

structure DB (B M : Type) where
  vtableGen : Nat
  state : State M
  recordingCell : Bool
  defaultStreamTimeStep : Nat
  disk : Disk B

namespace DB

variable (pc : Platform B M)

/-- `save_db_state` -/
def saveDbState (db : DB B M) : Eval Error Unit × DB B M :=
  match pc.dbConfig.write db.disk ["db_state"] db.state.dbConfig with
  | none => (.err .io, db)
  | some disk => (.ok (), { db with disk := disk })

/-- `with_time_step`, on a directory that may hold anything. -/
def withTimeStep (disk : Disk B) (timeStep : Nat) : Except Error (DB B M) :=
  match disk.createDirAll [] with
  | none => .error .io
  | some disk =>
    let state := { State.default with dbConfig := { DbConfig.default with defaultStreamTimeStep := timeStep } }
    let db : DB B M := ⟨0, state, true, timeStep % 2 ^ 64, disk⟩
    match db.saveDbState pc with
    | (.ok (), db) => .ok db
    | _ => .error .io

/-- `create`: `Duration::from_secs_f64(1.0 / 120.0)` is 8333333 ns. -/
def create (disk : Disk B) : Except Error (DB B M) := withTimeStep pc disk 8333333

/-- `State::set_component_metadata` -/
def setComponentMetadata (db : DB B M) (metadata : ComponentMetadata) : Eval Error Unit × DB B M :=
  let path := componentDir metadata.componentId
  match db.disk.createDirAll path with
  | none => (.err .io, db)
  | some disk =>
    let path := path ++ ["metadata"]
    match if disk.exists path then (decide <| · = metadata) <$> pc.componentMetadata.read disk path else .ok false with
    | .error e => (.err e, { db with disk := disk })
    | .ok true => (.ok (), { db with disk := disk })
    | .ok false =>
      match pc.componentMetadata.write disk path metadata with
      | none => (.err .io, db)
      | some disk => (.ok (), { db with
          disk := disk
          state.componentMetadata := db.state.componentMetadata.insert metadata.componentId metadata })

/-- `State::insert_component` -/
def insertComponent (db : DB B M) (id : UInt64) (schema : ComponentSchema) : Eval Error Unit × DB B M :=
  match db.state.components.lookup id with
  | some existing => if existing.schema = schema then (.ok (), db) else (.err .schemaMismatch, db)
  | none =>
    match Component.create pc db.disk id schema with
    | .error e => (.err e, db)
    | .ok (component, disk) =>
      let db := { db with disk := disk }
      match if id ∈ db.state.componentMetadata then (Eval.ok (), db)
        else db.setComponentMetadata pc ⟨id, toString id.toNat, ∅⟩ with
      | (.ok (), db) => (.ok (), { db with state.components := db.state.components.insert id component })
      | res => res

/-- The loop of `insert_vtable`: the first field that does not realize, or whose component cannot be
inserted, ends it. -/
def insertFields (fuel : Nat) (vtable : Proto.VTable) : List Proto.Field → DB B M → Eval Error Unit × DB B M
  | [], db => (.ok (), db)
  | field :: fields, db =>
    match vtable.realizeField none fuel field with
    | .running => (.running, db)
    | .err e => (.err (.impeller e), db)
    | .ok realized =>
      match db.insertComponent pc (.ofNat realized.componentId) ⟨realized.ty, realized.shape⟩ with
      | (.ok (), db) => insertFields fuel vtable fields { db with vtableGen := db.vtableGen + 1 }
      | res => res

/-- `insert_vtable` -/
def insertVTable (db : DB B M) (fuel : Nat) (id : UInt16) (vtable : Proto.VTable) : Eval Error Unit × DB B M :=
  match insertFields pc fuel vtable vtable.fields db with
  | (.ok (), db) => (.ok (), { db with state.vtableRegistry := db.state.vtableRegistry.insert id vtable })
  | res => res

/-- `State::get_or_insert_msg_log` -/
def getOrInsertMsgLog (db : DB B M) (id : UInt16) : MsgLog M × DB B M :=
  match db.state.msgLogs.lookup id with
  | some log => (log, db)
  | none => (.create, { db with state.msgLogs := db.state.msgLogs.insert id .create })

/-- `State::set_msg_metadata` and `MsgLog::set_metadata` -/
def setMsgMetadata (db : DB B M) (id : UInt16) (metadata : M) : Eval Error Unit × DB B M :=
  let (log, db) := db.getOrInsertMsgLog id
  let db := { db with state.msgLogs := db.state.msgLogs.insert id { log with metadata := some metadata } }
  match db.disk.createDirAll (msgDir id) with
  | none => (.err .io, db)
  | some disk =>
    match pc.msgMetadata.write disk (msgDir id ++ ["metadata"]) metadata with
    | none => (.err .io, db)
    | some disk => (.ok (), { db with disk := disk })

/-- `push_msg`, without the push: only the log is inserted. -/
def pushMsg (db : DB B M) (id : UInt16) : DB B M := (db.getOrInsertMsgLog id).2

end DB

/-- What a `SetDbConfig` makes of the configuration: `extend` lets the new values win. -/
def DbConfig.update (config : DbConfig) (req : SetDbConfig) : DbConfig :=
  { config with
    recording := req.recording.getD config.recording
    metadata := req.metadata ∪ config.metadata }

namespace DB

variable (pc : Platform B M)

/-- The branch of `handle_packet` for `SetDbConfig`. -/
def setDbConfig (db : DB B M) (req : SetDbConfig) : Eval Error Unit × DB B M :=
  let db := { db with
    state.dbConfig := db.state.dbConfig.update req
    recordingCell := req.recording.getD db.recordingCell }
  db.saveDbState pc

end DB

/-- The requests that change the database. What the WALs answer to the samples of a table, or to a
message, comes with the request. -/
inductive Request (M : Type) where
  | setComponentMetadata (metadata : ComponentMetadata)
  | vtableMsg (id : UInt16) (vtable : Proto.VTable)
  | table (result : Eval Error Unit) (sunkNewTimeSeries : Bool)
  | setMsgMetadata (id : UInt16) (metadata : M)
  | msg (id : UInt16) (result : Eval Error Unit)
  | setDbConfig (req : SetDbConfig)

/-- `handle_packet`, with `fuel` for the vtables it realizes. -/
def handlePacket (pc : Platform B M) (fuel : Nat) (db : DB B M) : Request M → Eval Error Unit × DB B M
  | .setComponentMetadata metadata => db.setComponentMetadata pc metadata
  | .vtableMsg id vtable => db.insertVTable pc fuel id vtable
  | .table result sunkNewTimeSeries =>
    (result, if sunkNewTimeSeries then { db with vtableGen := db.vtableGen + 1 } else db)
  | .setMsgMetadata id metadata => db.setMsgMetadata pc id metadata
  | .msg id result => (result, db.pushMsg id)
  | .setDbConfig req => db.setDbConfig pc req

/-- It returned, whether with an error or not, and met no I/O error. -/
def Handled : Eval Error Unit → Prop
  | .running | .err .io | .err .panicked => False
  | _ => True

instance (res : Eval Error Unit) : Decidable (Handled res) := by
  unfold Handled
  split <;> infer_instance

inductive Action (M : Type) where
  | handle (fuel : Nat) (req : Request M)
  /-- `persist` of a component adds a node for a timestamp. -/
  | persist (id : UInt64) (timestamp : Int)
  /-- `persist` of a message log adds a node for a timestamp. -/
  | persistMsg (id : UInt16) (timestamp : Int)

/-- One step of a running database; a step that meets an I/O error is none. -/
def step (pc : Platform B M) (db : DB B M) : Action M → Option (DB B M)
  | .handle fuel req =>
    let (res, db) := handlePacket pc fuel db req
    if Handled res then some db else none
  | .persist id timestamp => do
    let component ← db.state.components.lookup id
    let node := toString timestamp
    let disk ← createNode timeSeriesFiles db.disk (componentDir id ++ [node])
    let component := { component with nodes := node :: component.nodes }
    return { db with disk := disk, state.components := db.state.components.insert id component }
  | .persistMsg id timestamp => do
    let log ← db.state.msgLogs.lookup id
    let node := toString timestamp
    let disk ← createNode msgLogFiles db.disk (msgDir id ++ [node])
    let log := { log with nodes := node :: log.nodes }
    return { db with disk := disk, state.msgLogs := db.state.msgLogs.insert id log }

/-! ## Opening a directory -/

variable (pc : Platform B M) (disk : Disk B) (listing : Path → List String)

/-- The round of the first loop of `DB::open` for the directory entry `name`. -/
def openEntry (acc : (Finmap fun _ : UInt64 => Component) × (Finmap fun _ : UInt64 => ComponentMetadata))
    (name : String) :
    Except Error ((Finmap fun _ : UInt64 => Component) × (Finmap fun _ : UInt64 => ComponentMetadata)) :=
  let (components, componentMetadata) := acc
  if !disk.isDir [name] || name = "msgs" then .ok (components, componentMetadata)
  else
    match parseUnsigned (2 ^ 64) name with
    | none => .error .invalidComponentId
    | some id => do
      let id := UInt64.ofNat id
      let schema ← pc.schema.read disk [name, "schema"]
      let metadata ← pc.componentMetadata.read disk [name, "metadata"]
      let component ← Component.open pc disk [name] (listing [name]) id schema
      return (components.insert id component, componentMetadata.insert id metadata)

/-- The round of the second loop of `DB::open` for the entry `name` of `msgs`. -/
def openMsgEntry (msgLogs : Finmap fun _ : UInt16 => MsgLog M) (name : String) :
    Except Error (Finmap fun _ : UInt16 => MsgLog M) :=
  match parseUnsigned (2 ^ 16) name with
  | none => .error .invalidMsgId
  | some id => do
    let log ← MsgLog.open pc disk ["msgs", name] (listing ["msgs", name])
    return msgLogs.insert (.ofNat id) log

/-- `DB::open`, each directory listed by `listing`. -/
def DB.open : Except Error (DB B M) := do
  if !disk.isDir [] then throw .io
  let (components, componentMetadata) ← (listing []).foldlM (openEntry pc disk listing) (∅, ∅)
  let msgLogs ←
    if disk.isDir ["msgs"] then (listing ["msgs"]).foldlM (openMsgEntry pc disk listing) ∅ else .ok ∅
  let dbState ← pc.dbConfig.read disk ["db_state"]
  let state : State M := { (State.default : State M) with
    components := components
    componentMetadata := componentMetadata
    msgLogs := msgLogs }
  return ⟨0, state, dbState.recording, dbState.defaultStreamTimeStep % 2 ^ 64, disk⟩

end Metor.Impl.Db
