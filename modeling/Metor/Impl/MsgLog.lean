import Metor.Impl.Disruptor
import Metor.Impl.Proto
import Metor.Impl.TimeSeries

/-!
# Message logs (`libs/db/src/msg_log_2.rs`)

A log is a stack of nodes, newest first, and a WAL. `push` writes a record to
the WAL (the timestamp, the length and the message); `persist` reads what was
committed and appends it to the newest node. The WAL of a `Ring` is its ring of
bytes, that of a `State` a queue of records. A node's messages lie in a data
log, each found by an entry of `offsets`; one of up to 12 bytes is its own
entry. `MsgLogNode::push`, which compares timestamps, is called nowhere.

Messages are shorter than `2 ^ 32` bytes, as the packets they come in.
-/

namespace Metor.Impl.Msg

open Metor.Lib Metor.Impl.Proto

/-- An entry of `offsets`: the bytes of a message, or its length, its first four bytes and where it begins. -/
inductive UmbraBuf
  | inline (data : Bytes) (le : data.length ≤ 12)
  | offset (len : Nat) (start : Bytes) (offset : Nat) (lt : 12 < len)
  deriving DecidableEq, Repr

/-- `offset`; of 12 bytes inline it is the last four. -/
def UmbraBuf.getOffset : UmbraBuf → Option Nat
  | .inline data _ => if data.length ≥ 12 then some (leNat (data.drop 8)) else none
  | .offset len _ begins _ => if len ≥ 12 then some begins else none

/-! ## `BufLog` -/

structure BufLog where
  offsets : AppendLog Unit UmbraBuf
  dataLog : AppendLog Unit UInt8
  deriving DecidableEq, Repr

namespace BufLog

/-- `get_msg` -/
def getMsg (b : BufLog) (index : Nat) : Option Bytes :=
  match b.offsets.data[index]? with
  | none => none
  | some (.inline data _) => some data
  | some (.offset len _ offset _) =>
    if offset + len ≤ b.dataLog.data.length then some (slice b.dataLog.data offset (offset + len)) else none

/-- `insert_msg`: a long message stays in the data log when there is no room for its entry. -/
def insertMsg (b : BufLog) (msg : Bytes) : Except Error Unit × BufLog :=
  let write (b : BufLog) (buf : UmbraBuf) : Except Error Unit × BufLog :=
    match b.offsets.writeAfter AppendLog.bareHeaderSize 16 [buf] with
    | .error e => (.error e, b)
    | .ok offsets => (.ok (), { b with offsets := offsets })
  if h : msg.length ≤ 12 then write b (.inline msg h)
  else
    let offset := b.dataLog.data.length
    match b.dataLog.writeAfter AppendLog.bareHeaderSize 1 msg with
    | .error e => (.error e, b)
    | .ok dataLog =>
      write { b with dataLog := dataLog } (.offset msg.length (msg.take 4) (asU32 offset) (Nat.lt_of_not_le h))

end BufLog

/-! ## `MsgLogNode` -/

structure MsgLogNode where
  /-- The name of the node's directory. -/
  path : String
  timestampLog : AppendLog Unit Int
  bufs : BufLog
  deriving DecidableEq, Repr

namespace MsgLogNode

/-- `FILE_SIZE` -/
def fileSize : Nat := 1024 * 1024 * 1024 * 8

/-- `MsgLogNode::create` in a directory where no node has this name. -/
def new (path : String) : MsgLogNode :=
  ⟨path, .withSize fileSize (), ⟨.withSize fileSize (), .withSize fileSize ()⟩⟩

def timestamps (node : MsgLogNode) : List Int := node.timestampLog.data

end MsgLogNode

/-! ## `MsgLog` -/

/-- The stack of a `MsgLog`, newest node first. -/
abbrev MsgLog := List MsgLogNode

structure MsgRef where
  node : AtomicNode MsgLogNode
  timestamp : Int
  index : Nat
  deriving DecidableEq, Repr

/-- `MsgRef::data` -/
def MsgRef.data (r : MsgRef) : Option Bytes := r.node.value.bufs.getMsg r.index

namespace MsgLog

/-- `try_push` -/
def tryPush (list : MsgLog) (timestamp : Int) (msg : Bytes) : Except Error Bool × MsgLog :=
  match list with
  | [] => (.ok false, [])
  | head :: prev =>
    match head.bufs.insertMsg msg with
    | (.error .mapOverflow, bufs) => (.ok false, { head with bufs := bufs } :: prev)
    | (.error e, bufs) => (.error e, { head with bufs := bufs } :: prev)
    | (.ok (), bufs) =>
      let head := { head with bufs := bufs }
      match head.timestampLog.writeAfter AppendLog.bareHeaderSize 8 [timestamp] with
      | .error e => (.error e, head :: prev)
      | .ok timestamps => (.ok true, { head with timestampLog := timestamps } :: prev)

/-- `MsgLogNode::create` under the directory of the log. -/
def createNode (list : MsgLog) (path : String) : Except Error MsgLogNode :=
  if path ∈ list.map (·.path) then .error .alreadyExists else .ok (.new path)

/-- The second round of `persist_msg` finds the directory of the first. -/
def persistRound : (rounds : Nat) → MsgLog → Int → Bytes → Except Error Unit × MsgLog
  | 0, list, _, _ => (.error .alreadyExists, list)
  | rounds + 1, list, timestamp, msg =>
    match list.tryPush timestamp msg with
    | (.error e, list) => (.error e, list)
    | (.ok true, list) => (.ok (), list)
    | (.ok false, list) =>
      match list.createNode (toString timestamp) with
      | .error e => (.error e, list)
      | .ok node => persistRound rounds (node :: list) timestamp msg

/-- `persist_msg`: try, add a node, and try again. -/
def persistMsg (list : MsgLog) (timestamp : Int) (msg : Bytes) : Except Error Unit × MsgLog :=
  persistRound 2 list timestamp msg

/-- `get` -/
def get : MsgLog → Int → Option MsgRef
  | [], _ => none
  | value :: prev, timestamp =>
    match binarySearch value.timestamps timestamp with
    | .error _ => get prev timestamp
    | .ok index =>
      if (value.bufs.getMsg index).isNone then get prev timestamp else some ⟨⟨value, prev⟩, timestamp, index⟩

/-- The loop of `binary_search_nearest`, from `prev_node` on. -/
def searchNodes (timestamp : Int) (inclusive : Bool) : Option MsgRef → MsgLog → Option MsgRef
  | prevNode, [] => prevNode
  | prevNode, value :: prev =>
    let node : AtomicNode MsgLogNode := ⟨value, prev⟩
    let timestamps := value.timestamps
    match timestamps.head?, timestamps.getLast? with
    | some start, some stop =>
      if timestamp > stop then
        match prevNode with
        | some p =>
          if (p.timestamp - timestamp).natAbs < (start - timestamp).natAbs then prevNode
          else some ⟨node, start, timestamps.length - inclusive.toNat⟩
        | none => some ⟨node, start, timestamps.length - inclusive.toNat⟩
      else if timestamp < start then
        searchNodes timestamp inclusive (some ⟨node, stop, 0⟩) prev
      else
        let index := match binarySearch timestamps timestamp with
          | .ok i => i
          | .error i => i - inclusive.toNat
        -- `timestamp ≤ stop`, so the index is in bounds.
        some ⟨node, timestamps.getD index stop, index⟩
    | _, _ => none

/-- `binary_search_nearest` -/
def binarySearchNearest (list : MsgLog) (timestamp : Int) (inclusive : Bool) : Option MsgRef :=
  searchNodes timestamp inclusive none list

/-- `get_nearest` -/
def getNearest (list : MsgLog) (timestamp : Int) : Option MsgRef := list.binarySearchNearest timestamp true

/-- `latest` -/
def latest (list : MsgLog) : Option MsgRef :=
  match list with
  | [] => none
  | value :: prev =>
    value.timestamps.getLast?.map fun t => ⟨⟨value, prev⟩, t, value.timestamps.length - 1⟩

end MsgLog

/-! ## The WAL -/

/-- The bytes of a grant in `push`. -/
def record (timestamp : Int) (msg : Bytes) : Bytes := i64Bytes timestamp ++ leBytes 4 msg.length ++ msg

/-- The loop `'parse` of `persist`, over the bytes of one read; a message that cannot be persisted is logged and
passed over. -/
def persistLoop (buf : Bytes) (list : MsgLog) : MsgLog :=
  if 8 + 4 ≤ buf.length then
    let timestamp := i64OfBytes (buf.take 8)
    let buf := buf.drop 8
    let msgLen := leNat (buf.take 4)
    let buf := buf.drop 4
    if buf.length < msgLen then list
    else persistLoop (buf.drop msgLen) (list.persistMsg timestamp (buf.take msgLen)).2
  else list
termination_by buf.length
decreasing_by simp only [List.length_drop]; omega

/-- `read_msg` -/
def readMsg (buf : Bytes) : Option (Bytes × Int × Bytes) :=
  if buf.length < 8 + 4 then none
  else
    let timestamp := i64OfBytes (buf.take 8)
    let buf := buf.drop 8
    if buf.length < 4 then none
    else
      let msgLen := leNat (buf.take 4)
      let buf := buf.drop 4
      if buf.length < msgLen then none else some (buf.drop msgLen, timestamp, buf.take msgLen)

/-- The bytes of the WAL's buffer. -/
def walSize : Nat := 1024 * 1024

/-- A log and what its WAL holds while it loses nothing: the records that were committed and not read yet. -/
structure State where
  list : MsgLog
  wal : List (Int × Bytes)
  deriving DecidableEq, Repr

inductive Act
  | push (timestamp : Int) (msg : Bytes)
  /-- A `push` that is given no grant. -/
  | walFull
  /-- `persist` is handed the next `n` records. -/
  | persist (n : Nat)
  deriving DecidableEq, Repr

def new : State := ⟨[], []⟩

def step (s : State) : Act → Option State
  | .push timestamp msg =>
    if IsI64 timestamp ∧ 8 + 4 + msg.length ≤ walSize then some { s with wal := s.wal ++ [(timestamp, msg)] } else none
  | .walFull => some s
  | .persist n =>
    if n ≤ s.wal.length then
      some { list := persistLoop ((s.wal.take n).flatMap fun r => record r.1 r.2) s.list, wal := s.wal.drop n }
    else none

/-! ## The ring -/

/-- A log whose WAL is the ring itself, which may lose records. -/
structure Ring where
  list : MsgLog
  wal : Disruptor.Wal
  deriving DecidableEq, Repr

inductive RingAct
  /-- A step of a `push`, or of a reader from `wal_reader`. -/
  | wal (a : Disruptor.WalAct)
  /-- `persist` polls its reader. -/
  | next
  /-- The rest of its round: the loop, and the grant is dropped. -/
  | persist
  deriving DecidableEq, Repr

namespace Ring

/-- `create` -/
def new : Ring := ⟨[], .new walSize⟩

def encode (r : Disruptor.Record) : Bytes := record r.1 r.2

def step (s : Ring) : RingAct → Option Ring
  | .wal a =>
    if ∀ r ∈ a.loaded, IsI64 r.1 then (s.wal.step encode a).map fun wal => { s with wal := wal } else none
  | .next => s.wal.next.map fun wal => { s with wal := wal }
  | .persist => do
    let buf ← s.wal.held
    let wal ← s.wal.release
    return ⟨persistLoop buf s.list, wal⟩

end Ring

end Metor.Impl.Msg
