import Metor.Impl.Db
import Metor.Impl.Eql.Context
import Metor.Impl.OwnedPacket
import Metor.Lib.Run

/-!
# The editor's packets (`libs/metor-proto/bevy/src/lib.rs`)

In each frame `sink` takes packets off the queue of the connection and passes
each of them to the systems that wait for its id, for the request it answers,
and for any packet; then it has its built-in effect. A system may change the
resources of the world and queue commands, which are applied after it has run.

The systems, what postcard reads and what a table does to the entities are
parameters. A `HashMap` is the function from its keys to their values.
-/

namespace Metor.Impl.Editor

open Metor.Lib
open Metor.Impl.Proto (OwnedPacket VTable tryRecvPkt)
open Metor.Impl.Db (ComponentMetadata DbConfig)

/-- Systems are entities of the world. -/
abbrev SystemId := Nat

abbrev PacketId := UInt8 × UInt8

/-! ## Requests -/

/-- `RequestIdAlloc` and `RequestIdHandlers`. -/
structure Requests where
  alloc : UInt8
  handlers : UInt8 → Option SystemId

namespace Requests

def init : Requests := ⟨0, fun _ => none⟩

def insert (r : Requests) (reqId : UInt8) (handler : SystemId) : Requests :=
  { r with handlers := Function.update r.handlers reqId (some handler) }

def remove (r : Requests) (reqId : UInt8) : Requests :=
  { r with handlers := Function.update r.handlers reqId none }

/-- `RequestIdAlloc::alloc_next_id`: the id, which is the field from then on. -/
def allocNextId (r : Requests) : UInt8 := r.alloc + 1

/-- `ReplyHandlerCommand::apply`, where `sent` is whether the request was sent. -/
def reply (r : Requests) (system : SystemId) (sent : Bool) : Requests :=
  let reqId := r.allocNextId
  let r := { r with alloc := reqId }.insert reqId system
  if sent then r else r.remove reqId

/-- After a handler has run: it is put back if it has not completed. -/
def finish (r : Requests) (reqId : UInt8) (handler : SystemId) (result : Option Bool) : Requests :=
  if result = some false then r.insert reqId handler else r

end Requests

/-! ## The world -/

/-- The resources that packets and systems change; `ext` is what else there is. -/
structure Resources (E : Type) where
  ext : E
  metadataReg : UInt64 → Option ComponentMetadata
  entityMap : UInt64 → Option Nat
  schemaReg : UInt64 → Option ComponentSchema
  pathReg : UInt64 → Option (List Eql.Str)
  maxTick : Int
  recording : Bool
  currentStreamId : UInt64
  currentTimestamp : Int
  earliestTimestamp : Int
  dbConfig : DbConfig
  invalidatedEqlCtx : Bool

structure World (E : Type) where
  res : Resources E
  /-- The next entity. -/
  next : Nat
  packetIdHandlers : PacketId → Option SystemId
  requests : Requests
  /-- `HashMapRegistry` -/
  registry : PacketId → Option VTable

/-- `ReqHandlerCommand`, `ReplyHandlerCommand` -/
inductive Command
  | reqHandler (packetId : PacketId) (sent : Bool)
  | replyHandler (sent : Bool)
  deriving DecidableEq, Repr

/-- What a system does; it has no result if it cannot be run. -/
structure Outcome (E : Type) where
  res : Resources E
  commands : List Command
  result : Option Bool

/-- `run` takes a packet, and `runHandler` a `PacketHandlerInput`. -/
structure Systems (E : Type) where
  run : SystemId → OwnedPacket → Resources E → Outcome E
  runHandler : SystemId → OwnedPacket → (PacketId → Option VTable) → Resources E → Outcome E

section
variable {E : Type}

/-- `apply` of a command -/
def World.applyCommand (w : World E) : Command → World E
  | .reqHandler packetId sent =>
    let handlers := Function.update w.packetIdHandlers packetId (some w.next)
    { w with
      next := w.next + 1
      packetIdHandlers := if sent then handlers else Function.update handlers packetId none }
  | .replyHandler sent => { w with next := w.next + 1, requests := w.requests.reply w.next sent }

/-- The world after `run_system_with`. -/
def World.ran (w : World E) (outcome : Outcome E) : World E :=
  outcome.commands.foldl World.applyCommand { w with res := outcome.res }

end

/-! ## Built-in effects -/

/-- What the payloads of the messages that have an effect are read as. -/
inductive Payload
  | vtable (id : PacketId) (vtable : VTable)
  | metadata (metadata : ComponentMetadata)
  | dumpMetadata (componentMetadata : List ComponentMetadata) (dbConfig : DbConfig)
  | lastUpdated (timestamp : Int)
  | dbConfig (config : DbConfig)
  | dumpSchema (schemas : List (UInt64 × ComponentSchema))
  | earliestTimestamp (timestamp : Int)
  | streamTimestamp (timestamp : Int) (streamId : UInt64)
  /-- The arm for any other message. -/
  | ignored

/-- `postcard::from_bytes` at the types of these messages, the hash that the ids of two of them are,
`ComponentId::new`, and `TableExt::sink` with whether it succeeds. -/
structure Codec (E : Type) where
  msgId : String → PacketId
  vtableMsg : Bytes → Option (PacketId × VTable)
  componentMetadata : Bytes → Option ComponentMetadata
  dumpMetadataResp : Bytes → Option (List ComponentMetadata × DbConfig)
  timestamp : Bytes → Option Int
  dbConfig : Bytes → Option DbConfig
  dumpSchemaResp : Bytes → Option (List (UInt64 × ComponentSchema))
  streamTimestamp : Bytes → Option (Int × UInt64)
  componentId : Eql.Str → UInt64
  sink : PacketId → Bytes → World E → World E × Bool

section
variable {E : Type} (codec : Codec E)

/-- The arms for messages, each with its `parse`. -/
def parseMsg (id : PacketId) (buf : Bytes) : Option Payload :=
  if id = codec.msgId "VTableMsg" then (codec.vtableMsg buf).map fun m => .vtable m.1 m.2
  else if id = codec.msgId "ComponentMetadata" then (codec.componentMetadata buf).map .metadata
  else if id = (224, 15) then (codec.dumpMetadataResp buf).map fun m => .dumpMetadata m.1 m.2
  else if id = (224, 18) then (codec.timestamp buf).map .lastUpdated
  else if id = (224, 20) then (codec.dbConfig buf).map .dbConfig
  else if id = (224, 25) then (codec.dumpSchemaResp buf).map .dumpSchema
  else if id = (224, 23) then (codec.timestamp buf).map .earliestTimestamp
  else if id = (224, 26) then (codec.streamTimestamp buf).map fun m => .streamTimestamp m.1 m.2
  else some .ignored

/-- `try_insert_entity` -/
def tryInsertEntity (w : World E) (name : Eql.Str) : World E :=
  let id := codec.componentId name
  match w.res.entityMap id with
  | some _ => w
  | none =>
    let metadata := (w.res.metadataReg id).getD ⟨id, .ofList name, ∅⟩
    { w with
      next := w.next + 1
      res := { w.res with
        metadataReg := Function.update w.res.metadataReg id (some metadata)
        entityMap := Function.update w.res.entityMap id (some w.next)
        invalidatedEqlCtx := true } }

/-- One round of the loop over the metadata of a `DumpMetadataResp`. -/
def insertMetadata (w : World E) (metadata : ComponentMetadata) : World E :=
  let path := Eql.fromName metadata.name.toList
  let w := tryInsertEntity codec w metadata.name.toList
  { w with res := { w.res with
    invalidatedEqlCtx := true
    pathReg := Function.update w.res.pathReg metadata.componentId (some path)
    metadataReg := Function.update w.res.metadataReg metadata.componentId (some metadata) } }

/-- What the arms do. -/
def applyPayload (w : World E) : Payload → World E
  | .vtable id vtable => { w with registry := Function.update w.registry id (some vtable) }
  | .metadata metadata => { w with res := { w.res with
      metadataReg := Function.update w.res.metadataReg metadata.componentId (some metadata) } }
  | .dumpMetadata componentMetadata dbConfig =>
    let w := componentMetadata.foldl (insertMetadata codec) w
    { w with res := { w.res with dbConfig := dbConfig } }
  | .lastUpdated timestamp => { w with res := { w.res with maxTick := timestamp } }
  | .dbConfig config => { w with res := { w.res with recording := config.recording } }
  | .dumpSchema schemas => { w with res := { w.res with
      schemaReg := schemas.foldl (fun reg s => Function.update reg s.1 (some s.2)) w.res.schemaReg } }
  | .earliestTimestamp timestamp => { w with res := { w.res with earliestTimestamp := timestamp } }
  | .streamTimestamp timestamp streamId =>
    if streamId = w.res.currentStreamId then { w with res := { w.res with currentTimestamp := timestamp } } else w
  | .ignored => w

/-- `CurrentStreamId::packet_id` -/
def currentPacketId (w : World E) : PacketId :=
  (w.res.currentStreamId.toUInt8, (w.res.currentStreamId >>> 8).toUInt8)

/-- The `match` at the end of the loop of `sink_inner`, and whether it gets past its `?`. -/
def builtin (w : World E) : OwnedPacket → World E × Bool
  | .msg id _ _ buf =>
    match parseMsg codec id buf with
    | some payload => (applyPayload codec w payload, true)
    | none => (w, false)
  | .table id _ buf => if id = currentPacketId w then codec.sink id buf w else (w, true)
  | .timeSeries .. => (w, true)

end

/-! ## `sink_inner` -/

def packetId : OwnedPacket → PacketId
  | .msg id _ _ _ => id
  | .table id _ _ => id
  | .timeSeries id _ _ _ => id

def reqId : OwnedPacket → UInt8
  | .msg _ reqId _ _ => reqId
  | .table _ reqId _ => reqId
  | .timeSeries _ reqId _ _ => reqId

section
variable {E : Type} (sys : Systems E)

/-- The first block: the handler of the packet's id. -/
def runPacketIdHandler (w : World E) (pkt : OwnedPacket) : World E :=
  match w.packetIdHandlers (packetId pkt) with
  | none => w
  | some handler =>
    let w := { w with packetIdHandlers := Function.update w.packetIdHandlers (packetId pkt) none }
    w.ran (sys.run handler pkt w.res)

/-- The second block: the handler of the request. -/
def runRequestIdHandler (w : World E) (pkt : OwnedPacket) : World E :=
  match w.requests.handlers (reqId pkt) with
  | none => w
  | some handler =>
    let w := { w with requests := w.requests.remove (reqId pkt) }
    let outcome := sys.run handler pkt w.res
    let w := w.ran outcome
    { w with requests := w.requests.finish (reqId pkt) handler outcome.result }

/-- The loop over `packet_handlers`, with the handlers that the packet is passed to. -/
def runPacketHandlers (pkt : OwnedPacket) : List SystemId → World E → World E × List SystemId
  | [], w => (w, [])
  | handler :: handlers, w =>
    let outcome := sys.runHandler handler pkt w.registry w.res
    let (w, passed) := runPacketHandlers pkt handlers (w.ran outcome)
    (w, handler :: passed)

end

/-- A packet that was taken off the queue: the handlers registered then, those it was passed to, and the
world before and after its built-in effect, if it came to that. -/
structure Round (E : Type) where
  frame : Nat × Bytes
  registered : List SystemId
  passed : List SystemId
  effect : Option (World E × World E)

/-- The queue has frames at their addresses. `count` is the number of packets of the call of `sink` under
way; what arrived and the rounds are not in the code. -/
structure State (E : Type) where
  queue : List (Nat × Bytes)
  world : World E
  packetHandlers : List SystemId
  count : Option Nat
  arrived : List (Nat × Bytes)
  rounds : List (Round E)

inductive Act (E : Type)
  /-- The connection writes a packet to the queue. -/
  | arrive (frame : Nat × Bytes)
  /-- `sink` is called. -/
  | sink
  /-- One round of the loop of `sink_inner`. -/
  | next
  /-- What is done between the calls of `sink`. -/
  | other (world : World E) (packetHandlers : List SystemId)

section
variable {E : Type} (sys : Systems E) (codec : Codec E)

def init (world : World E) (packetHandlers : List SystemId) : State E := ⟨[], world, packetHandlers, none, [], []⟩

/-- The frame is off the queue, and `sink_inner` returns without a look at it. -/
def State.lose (s : State E) (frame : Nat × Bytes) (queue : List (Nat × Bytes)) : State E :=
  { s with queue := queue, count := none, rounds := s.rounds ++ [⟨frame, s.packetHandlers, [], none⟩] }

/-- The body of the loop after `count += 1`. -/
def State.handle (s : State E) (count : Nat) (frame : Nat × Bytes) (queue : List (Nat × Bytes))
    (pkt : OwnedPacket) : State E :=
  let w := runRequestIdHandler sys (runPacketIdHandler sys s.world pkt) pkt
  let (before, passed) := runPacketHandlers sys pkt s.packetHandlers w
  let (after, parsed) := builtin codec before pkt
  { s with
    queue := queue
    world := after
    count := if parsed then some (count + 1) else none
    rounds := s.rounds ++ [⟨frame, s.packetHandlers, passed, some (before, after)⟩] }

/-- `try_recv_pkt` takes a frame off the queue also if it cannot read it. -/
def State.next (s : State E) (count : Nat) : State E :=
  match s.queue with
  | [] => { s with count := none }
  | frame :: queue =>
    match tryRecvPkt frame.1 frame.2 with
    | none => s.lose frame queue
    | some pkt => if 2048 < count then s.lose frame queue else s.handle sys codec count frame queue pkt

def step (s : State E) : Act E → Option (State E)
  | .arrive frame => some { s with queue := s.queue ++ [frame], arrived := s.arrived ++ [frame] }
  | .sink => if s.count = none then some { s with count := some 0 } else none
  | .next => s.count.map (s.next sys codec)
  | .other world packetHandlers =>
    if s.count = none then some { s with world := world, packetHandlers := packetHandlers } else none

end

end Metor.Impl.Editor
