import Metor.Lib.LittleEndian
import Metor.Lib.Run

/-!
# The states of fixed-rate streams (`libs/db/src/lib.rs`)

A `FixedRateStreamState` is shared by the tasks of a stream and by the handler
of `SetStreamState`, which finds it in the database's map; `handle_stream`
puts a new one in the map, and the tasks of the old one keep theirs. Each
access of an atomic is one step, but for those of one `SetStreamState`. A
task panics on a division by zero, and, where overflows are checked, on an
addition that overflows an `i64`.
-/

namespace Metor.Impl.Streams

open Metor.Lib

/-! ## Messages (`libs/metor-proto/wkt/src/msgs.rs`) -/

inductive InitialTimestamp
  | earliest
  | latest
  | manual (timestamp : Int)
  deriving DecidableEq, Repr

/-- `timestep` is in nanoseconds. -/
structure FixedRateBehavior where
  initialTimestamp : InitialTimestamp
  timestep : UInt64
  frequency : UInt64
  deriving DecidableEq, Repr

structure FixedRateOp where
  streamId : UInt64
  behavior : FixedRateBehavior
  deriving DecidableEq, Repr

/-- `time_step` is a `Duration`: its nanoseconds. -/
structure SetStreamState where
  id : UInt64
  playing : Option Bool
  timestamp : Option Int
  timeStep : Option Nat
  frequency : Option UInt64
  deriving DecidableEq, Repr

/-! ## `FixedRateStreamState` -/

structure FixedRateStreamState where
  timeStep : UInt64
  frequency : UInt64
  isScrubbed : Bool
  currentTick : Int
  isPlaying : Bool
  deriving DecidableEq, Repr

namespace FixedRateStreamState

def new (timeStep : UInt64) (currentTick : Int) (frequency : UInt64) : FixedRateStreamState :=
  ⟨timeStep, frequency, false, currentTick, true⟩

def setPlaying (st : FixedRateStreamState) (playing : Bool) : FixedRateStreamState := { st with isPlaying := playing }

def setTimestamp (st : FixedRateStreamState) (timestamp : Int) : FixedRateStreamState :=
  { st with isScrubbed := true, currentTick := timestamp }

def setFrequency (st : FixedRateStreamState) (frequency : UInt64) : FixedRateStreamState := { st with frequency := frequency }

/-- `sleep_time`, in microseconds. -/
def sleepTime (st : FixedRateStreamState) : Option Nat :=
  if st.frequency = 0 then none else some (1000000 / st.frequency.toNat)

/-- `Timestamp + Duration`: the microseconds of the time step. -/
def nextTick (st : FixedRateStreamState) (lastTimestamp : Int) : Option Int :=
  let tick := lastTimestamp + (st.timeStep.toNat / 1000 : Nat)
  if tick < 2 ^ 63 then some tick else none

/-- `try_increment_tick` -/
def tryIncrementTick (st : FixedRateStreamState) (lastTimestamp : Int) : Option FixedRateStreamState :=
  (st.nextTick lastTimestamp).map fun tick => if st.currentTick = lastTimestamp then { st with currentTick := tick } else st

/-- The handler of `SetStreamState`, on the state it finds. -/
def handle (st : FixedRateStreamState) (msg : SetStreamState) : FixedRateStreamState :=
  let st := msg.playing.elim st st.setPlaying
  let st := msg.timestamp.elim st st.setTimestamp
  msg.frequency.elim st st.setFrequency

end FixedRateStreamState

/-! ## Tasks -/

/-- `handle_fixed_stream` and `handle_fixed_rate_msg_stream`, or a `FixedRateStage` in a plan. -/
inductive Kind
  | stream
  | stage
  deriving DecidableEq, Repr

inductive Panic
  | divisionByZero
  | overflow
  deriving DecidableEq, Repr

/-- Where a task is in its loop. -/
inductive Pc
  | top
  /-- A stage that has slept. -/
  | slept
  /-- The stream plays, or was scrubbed. -/
  | playing
  /-- `current_timestamp` was read. -/
  | current (timestamp : Int)
  /-- A stream that has slept until its next tick. -/
  | tick (timestamp : Int)
  | ended
  | panicked (p : Panic)
  deriving DecidableEq, Repr

/-- A task, with the index of its `Arc<FixedRateStreamState>`. -/
structure Task where
  kind : Kind
  state : Nat
  pc : Pc
  deriving DecidableEq, Repr

/-- `Arc`s are in `states`, the map of the database in `streams`. -/
structure State where
  earliestTimestamp : Int
  lastUpdated : Int
  states : List FixedRateStreamState
  streams : List (UInt64 × Nat)
  tasks : List Task
  /-- The messages that were handled, with what they found and what they left. -/
  handled : List (SetStreamState × FixedRateStreamState × FixedRateStreamState)
  deriving DecidableEq, Repr

/-- A database without streams. -/
def init (earliestTimestamp lastUpdated : Int) : State := ⟨earliestTimestamp, lastUpdated, [], [], [], []⟩

inductive Act
  /-- `last_updated.update_max` -/
  | update (timestamp : Int)
  /-- `handle_stream` with a fixed rate. -/
  | stream (id : UInt64) (behavior : FixedRateBehavior)
  /-- `FixedRateMsgStream` -/
  | fixedRateMsgStream (op : FixedRateOp)
  /-- `handle_vtable_stream` comes to a fixed rate; a later error keeps it from spawning the plan. -/
  | vtableStream (op : FixedRateOp) (spawned : Bool)
  | setStreamState (msg : SetStreamState)
  /-- `sleep_time` of a task. -/
  | sleep (i : Nat)
  /-- `wait_for_playing` of a task returns. -/
  | play (i : Nat)
  /-- `current_timestamp` -/
  | read (i : Nat)
  /-- There is nothing to emit for the tick. -/
  | skip (i : Nat)
  /-- `try_increment_tick` -/
  | increment (i : Nat)
  /-- The connection is closed. -/
  | finish (i : Nat)
  deriving DecidableEq, Repr

/-- The first tick of a new stream. -/
def State.firstTick (s : State) : InitialTimestamp → Int
  | .earliest => s.earliestTimestamp
  | .latest => s.lastUpdated
  | .manual timestamp => timestamp

/-- `FixedRateStreamState::new`, with an `Arc` of its own. -/
def State.newState (s : State) (behavior : FixedRateBehavior) : State :=
  { s with states := s.states ++ [.new behavior.timestep (s.firstTick behavior.initialTimestamp) behavior.frequency] }

def State.insertStream (s : State) (id : UInt64) (i : Nat) : State := { s with streams := (id, i) :: s.streams }

def State.spawn (s : State) (kind : Kind) (i : Nat) : State := { s with tasks := s.tasks ++ [⟨kind, i, .top⟩] }

/-- `get_or_insert_fixed_rate_state` -/
def State.getOrInsert (s : State) (op : FixedRateOp) : State × Nat :=
  match s.streams.lookup op.streamId with
  | some i => (s, i)
  | none => ((s.newState op.behavior).insertStream op.streamId s.states.length, s.states.length)

def State.setTask (s : State) (i : Nat) (task : Task) (pc : Pc) : State :=
  { s with tasks := s.tasks.set i { task with pc := pc } }

/-- Whether a behavior can come out of a message: its timestamp is an `i64`. -/
def FixedRateBehavior.WellTyped (b : FixedRateBehavior) : Prop :=
  ∀ timestamp, b.initialTimestamp = .manual timestamp → IsI64 timestamp

instance (b : FixedRateBehavior) : Decidable b.WellTyped :=
  match h : b.initialTimestamp with
  | .manual t => decidable_of_iff (IsI64 t) ⟨fun ht t' e => by cases h.symm.trans e; exact ht, fun ht => ht t h⟩
  | .earliest | .latest => isTrue fun t e => by cases h.symm.trans e

/-- A task goes on, with the state it shares. -/
def State.onTask (s : State) (i : Nat) (f : Task → FixedRateStreamState → Option (FixedRateStreamState × Pc)) : Option State := do
  let task ← s.tasks[i]?
  let st ← s.states[task.state]?
  let (st, pc) ← f task st
  return { s.setTask i task pc with states := s.states.set task.state st }

def step (s : State) : Act → Option State
  | .update timestamp => if IsI64 timestamp then some { s with lastUpdated := max s.lastUpdated timestamp } else none
  | .stream id behavior =>
    if behavior.WellTyped then
      some (((s.newState behavior).insertStream id s.states.length).spawn .stream s.states.length)
    else none
  | .fixedRateMsgStream op =>
    if op.behavior.WellTyped then
      let (s, i) := s.getOrInsert op
      some (s.spawn .stream i)
    else none
  | .vtableStream op spawned =>
    if op.behavior.WellTyped then
      let (s, i) := s.getOrInsert op
      some (if spawned then s.spawn .stage i else s)
    else none
  | .setStreamState msg =>
    if ∀ timestamp ∈ msg.timestamp, IsI64 timestamp then
      match s.streams.lookup msg.id with
      -- `StreamNotFound`
      | none => some s
      | some i => do
        let st ← s.states[i]?
        return { s with states := s.states.set i (st.handle msg), handled := s.handled ++ [(msg, st, st.handle msg)] }
    else none
  | .sleep i => s.onTask i fun task st =>
    match task.kind, task.pc with
    | .stage, .top => some (st, if st.sleepTime.isSome then .slept else .panicked .divisionByZero)
    | .stream, .current last => some (st, if st.sleepTime.isSome then .tick last else .panicked .divisionByZero)
    | _, _ => none
  | .play i => s.onTask i fun task st =>
    match task.kind, task.pc with
    | .stage, .slept | .stream, .top =>
      if st.isPlaying then some (st, .playing)
      -- `is_scrubbed` reads the flag and clears it.
      else if st.isScrubbed then some ({ st with isScrubbed := false }, .playing)
      else none
    | _, _ => none
  | .read i => s.onTask i fun task st =>
    match task.pc with
    | .playing => some (st, .current st.currentTick)
    | _ => none
  | .skip i => s.onTask i fun task st =>
    match task.pc with
    | .current _ => some (st, .top)
    | _ => none
  | .increment i => s.onTask i fun task st =>
    match task.kind, task.pc with
    | .stage, .current last | .stream, .tick last =>
      match st.tryIncrementTick last with
      | some st => some (st, .top)
      | none => some (st, .panicked .overflow)
    | _, _ => none
  | .finish i => s.onTask i fun task st =>
    match task.pc with
    | .panicked _ => none
    | _ => some (st, .ended)

end Metor.Impl.Streams
