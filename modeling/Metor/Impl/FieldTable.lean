import Metor.Impl.Packet
import Metor.Impl.VTableStream

/-!
# The table of a vtable stream (`libs/db/src/vtable_stream.rs`)

One task sends the packet of a `FieldTable` and one task for each field fills
it. The packet is in the table or with the sender; the bit of a field says
whether the field has been written for the packet that is sent next. Waking a
waiter only lets it look at its condition again, so a task past a `wait_for`
is one that has seen the condition hold, and wakeups are not part of the model.
-/

namespace Metor.Impl.FieldTable

open Metor.Lib Metor.Impl.Proto

/-! ## `AtomicBitVec` -/

structure AtomicBitVec where
  store : List (BitVec 64)
  size : Nat
  deriving DecidableEq, Repr

namespace AtomicBitVec

def new (size : Nat) : AtomicBitVec := ⟨List.replicate ((size + 63) / 64) 0, size⟩

/-- `set` never clears a bit: a `false` is or-ed in. -/
def set (v : AtomicBitVec) (index : Nat) (value : Bool) : Option AtomicBitVec :=
  if index ≥ v.size then none
  else
    let bit := index % 64
    let word := index / 64
    v.store[word]?.map fun w => { v with store := v.store.set word (w ||| BitVec.ofNat 64 value.toNat <<< bit) }

def get (v : AtomicBitVec) (index : Nat) : Option Bool :=
  if index ≥ v.size then none
  else
    let bit := index % 64
    let word := index / 64
    v.store[word]?.map fun value => decide (value &&& 1#64 <<< bit ≠ 0)

/-- `count_ones` -/
def countOnes (w : BitVec 64) : Nat := ((List.range 64).map w.getLsbD).count true

def allSet (v : AtomicBitVec) : Bool := (v.store.map countOnes).sum ≥ v.size

/-- `set_all`, all words at once. -/
def setAll (v : AtomicBitVec) (value : Bool) : AtomicBitVec :=
  let value := if value then BitVec.allOnes 64 else 0#64
  { v with store := v.store.map fun _ => value }

/-- The store of `set_all(false)` into one word; the loop makes them one after the other. -/
def clearWord (v : AtomicBitVec) (word : Nat) : AtomicBitVec := { v with store := v.store.set word 0 }

end AtomicBitVec

/-! ## The fields of the table -/

/-- The two fields of a plan: `shard` and `timestamp_shard`. -/
inductive Which
  | value | timestamp
  deriving DecidableEq, Repr

structure Shard where
  value : VTableStream.Field
  timestamp : Option VTableStream.Field
  deriving DecidableEq, Repr

def Shard.field (s : Shard) : Which → Option VTableStream.Field
  | .value => some s.value
  | .timestamp => s.timestamp

/-- What the tasks are given. `table_len` is the maximum over all fields, so they are in the table. -/
structure Config where
  id : UInt8 × UInt8
  reqId : UInt8
  len : Nat
  shards : List Shard
  inTable : ∀ s ∈ shards, ∀ which, ∀ f ∈ s.field which, f.start ≤ f.stop ∧ f.stop ≤ len

/-- `PACKET_HEADER_LEN + size_of::<u32>()` -/
def headerOffset : Nat := packetHeaderLen + 4

/-- `FieldTable::new`: a table packet of zeros. -/
def Config.table (cfg : Config) : LenPacket := (List.range cfg.len).foldl (fun p _ => p.push 0) (.table cfg.id)

/-- `with_buf`: the closure leaves `bytes` in the field. -/
def withBuf (pkt : LenPacket) (f : VTableStream.Field) (bytes : Bytes) : LenPacket :=
  ⟨overwrite pkt.inner (headerOffset + f.start) bytes, pkt.le_length.trans (le_length_overwrite ..)⟩

/-- `with_request_id` -/
def withRequestId (pkt : LenPacket) (reqId : UInt8) : LenPacket :=
  ⟨overwrite pkt.inner 7 [reqId], pkt.le_length.trans (le_length_overwrite ..)⟩

/-! ## The tasks -/

/-- Where `handle_vtable_stream` stands in its loop. -/
inductive Sender
  | waitReady
  | take
  | send (pkt : LenPacket)
  | replacePkt (pkt : LenPacket)
  /-- `notify_writers`, before the store into this word. -/
  | clear (word : Nat)
  | ended
  deriving DecidableEq

/-- Where `handle_plan` stands in its loop; `running` remembers what the iteration has written. -/
inductive Plan
  | waitWriteable
  | running (written : List (Which × Bytes))
  | ended
  deriving DecidableEq

/-- A plan, with how many iterations it has finished since the last send and what the last of them wrote. -/
structure Task where
  plan : Plan
  completed : Nat
  last : List (Which × Bytes)
  deriving DecidableEq

/-- A packet that was sent, with what the tasks had done by then. -/
structure Sent where
  pkt : LenPacket
  tasks : List Task
  deriving DecidableEq

structure State where
  table : Option LenPacket
  filledFields : AtomicBitVec
  sender : Sender
  tasks : List Task
  sends : List Sent
  /-- A task found the table missing. -/
  panicked : Bool
  deriving DecidableEq

def Config.init (cfg : Config) : State where
  table := some cfg.table
  filledFields := .new cfg.shards.length
  sender := .waitReady
  tasks := cfg.shards.map fun _ => ⟨.waitWriteable, 0, []⟩
  sends := []
  panicked := false

inductive Act
  /-- `wait_ready` returns. -/
  | ready
  | take
  /-- The send succeeds, or its error ends `handle_vtable_stream`. -/
  | send (ok : Bool)
  | replacePkt
  | notify
  /-- `wait_writeable` of a plan returns. -/
  | writeable (i : Nat)
  /-- A stage of a plan calls `with_buf`, which leaves these bytes. -/
  | withBuf (i : Nat) (which : Which) (bytes : Bytes)
  /-- All stages of a plan have returned. -/
  | endIteration (i : Nat) (finished : Bool)
  /-- A stage of a plan returns an error. -/
  | fail (i : Nat)
  deriving DecidableEq, Repr

def State.setTask (s : State) (i : Nat) (t : Task) : State := { s with tasks := s.tasks.set i t }

/-- `wait_writeable`: a field without a bit is never writeable. -/
def writeable (v : AtomicBitVec) (i : Nat) : Bool := !(v.get i).getD true

def step (cfg : Config) (s : State) : Act → Option State
  | .ready => if s.sender = .waitReady ∧ s.filledFields.allSet then some { s with sender := .take } else none
  | .take =>
    if s.sender = .take then
      match s.table with
      | none => some { s with panicked := true }
      | some pkt => some { s with table := none, sender := .send pkt }
    else none
  | .send ok =>
    match s.sender with
    | .send pkt =>
      if ok then
        let pkt := withRequestId pkt cfg.reqId
        some { s with
          sender := .replacePkt pkt
          sends := s.sends ++ [⟨pkt, s.tasks⟩]
          tasks := s.tasks.map fun t => { t with completed := 0 } }
      else some { s with sender := .ended }
    | _ => none
  | .replacePkt =>
    match s.sender with
    | .replacePkt pkt => some { s with table := some pkt, sender := .clear 0 }
    | _ => none
  | .notify =>
    match s.sender with
    | .clear word =>
      if word < s.filledFields.store.length then
        some { s with filledFields := s.filledFields.clearWord word, sender := .clear (word + 1) }
      else some { s with sender := .waitReady }
    | _ => none
  | .writeable i => do
    let t ← s.tasks[i]?
    if t.plan = .waitWriteable ∧ writeable s.filledFields i then some (s.setTask i { t with plan := .running [] })
    else none
  | .withBuf i which bytes => do
    let t ← s.tasks[i]?
    let shard ← cfg.shards[i]?
    let f ← shard.field which
    match t.plan with
    | .running written =>
      if bytes.length = f.stop - f.start then
        match s.table with
        | none => some { s with panicked := true }
        | some pkt => some { s.setTask i { t with plan := .running (written ++ [(which, bytes)]) } with
            table := some (withBuf pkt f bytes) }
      else none
    | _ => none
  | .endIteration i finished => do
    let t ← s.tasks[i]?
    match t.plan with
    | .running written =>
      if finished then
        some { s.setTask i ⟨.waitWriteable, t.completed + 1, written⟩ with
          filledFields := (s.filledFields.set i true).getD s.filledFields }
      else some (s.setTask i { t with plan := .waitWriteable })
    | _ => none
  | .fail i => do
    let t ← s.tasks[i]?
    match t.plan with
    | .running _ => some (s.setTask i { t with plan := .ended })
    | _ => none

end Metor.Impl.FieldTable
