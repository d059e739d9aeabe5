import Metor.Impl.MsgLog
import Metor.Impl.WaitQueue

/-!
# Fixed-rate streams (`FixedRateStreamState` in `libs/db/src/lib.rs`)

The tasks of a stream share its state: plans with a `FixedRateStage`
(`libs/db/src/vtable_stream.rs`) and `handle_fixed_rate_msg_stream`s. Each
waits until the stream plays or is scrubbed, and then emits its sample for the
current tick. What they read from does not change here. The time a task sleeps
for may be over at once.
-/

namespace Metor.Impl.FixedRate

open Metor.Lib Metor.Impl.Msg

/-- `FixedRateStreamState`; `wakeAlls` is the count of `playing_cell.wait_cell`. -/
structure FixedRateStreamState where
  timeStep : Int
  isScrubbed : Bool
  currentTick : Int
  isPlaying : Bool
  wakeAlls : Nat
  deriving DecidableEq, Repr

/-- What a task takes its samples from; `lastSent` is `last_sent_timestamp`. -/
inductive Source
  | stage (timeSeries : TimeSeries)
  | msgs (log : MsgLog) (lastSent : Option Int)
  deriving DecidableEq, Repr

/-- A sample that was written or sent, for the tick `time`. -/
structure Emission where
  time : Int
  timestamp : Int
  data : Bytes
  deriving DecidableEq, Repr

/-- Where a task is: `wait_for` subscribes, looks, and awaits a wakeup. -/
inductive Pc
  | top
  | started (waiter : Waiter)
  | check (waiter : Waiter)
  | await (waiter : Waiter)
  | sample
  /-- The sample is out; `try_increment_tick` is to come. -/
  | tick (last : Int)
  /-- The field is written; the table is sent once its other fields are. -/
  | written
  | panicked
  deriving DecidableEq, Repr

structure Task where
  source : Source
  pc : Pc
  emitted : List Emission
  deriving DecidableEq, Repr

/-- What a task finds for a tick. -/
inductive Sample
  | nothing
  /-- The message that was sent last. -/
  | sentLast
  | outOfBounds
  | found (timestamp : Int) (data : Bytes)
  deriving DecidableEq, Repr

def Source.sample (current : Int) : Source → Sample
  | .stage timeSeries =>
    match timeSeries.binarySearchNearest current true with
    | none => .nothing
    | some nearest =>
      match nearest.data with
      | none => .outOfBounds
      | some data => .found nearest.timestamp data
  | .msgs log lastSent =>
    match log.getNearest current with
    | none => .nothing
    | some msgRef =>
      match msgRef.data with
      | none => .nothing
      | some msg => if some msgRef.timestamp = lastSent then .sentLast else .found msgRef.timestamp msg

/-- `last_sent_timestamp = Some(..)` -/
def Source.sent (timestamp : Int) : Source → Source
  | .stage timeSeries => .stage timeSeries
  | .msgs log _ => .msgs log (some timestamp)

/-- A plan has then written its field, a message stream goes on. -/
def Source.next : Source → Pc
  | .stage _ => .written
  | .msgs _ _ => .top

/-- `try_increment_tick` -/
def tryIncrementTick (st : FixedRateStreamState) (last : Int) : FixedRateStreamState :=
  if st.currentTick = last then { st with currentTick := last + st.timeStep } else st

/-- The next step of a task. -/
def Task.step (st : FixedRateStreamState) (task : Task) : Option (FixedRateStreamState × Task) :=
  match task.pc with
  | .top => some (st, { task with pc := .started (.start st.wakeAlls) })
  | .started waiter => some (st, { task with pc := .check (waiter.poll st.wakeAlls) })
  | .check waiter =>
    if st.isPlaying then some (st, { task with pc := .sample })
    -- `is_scrubbed` reads the flag and clears it.
    else if st.isScrubbed then some ({ st with isScrubbed := false }, { task with pc := .sample })
    else some (st, { task with pc := .await waiter })
  | .await waiter => if waiter.poll st.wakeAlls = .woken then some (st, { task with pc := .top }) else none
  | .sample =>
    match task.source.sample st.currentTick with
    | .nothing => some (st, { task with pc := task.source.next })
    | .sentLast => some (st, { task with pc := .tick st.currentTick })
    | .outOfBounds => some (st, { task with pc := .panicked })
    | .found timestamp data => some (st,
      { source := task.source.sent timestamp
        pc := .tick st.currentTick
        emitted := task.emitted ++ [⟨st.currentTick, timestamp, data⟩] })
  | .tick last => some (tryIncrementTick st last, { task with pc := task.source.next })
  | .written | .panicked => none

/-- What `wake_all` does to a task. -/
def Task.wakeAll (task : Task) : Task :=
  match task.pc with
  | .started waiter => { task with pc := .started waiter.wakeAll }
  | .check waiter => { task with pc := .check waiter.wakeAll }
  | .await waiter => { task with pc := .await waiter.wakeAll }
  | _ => task

structure State where
  state : FixedRateStreamState
  tasks : List Task
  /-- The time that was set. -/
  scrub : Option Int
  deriving DecidableEq, Repr

inductive Act
  /-- `set_timestamp`, once -/
  | setTimestamp (timestamp : Int)
  | task (i : Nat)
  /-- The table that a plan has written to is sent. -/
  | notifyWriters (i : Nat)
  deriving DecidableEq, Repr

def step (s : State) : Act → Option State
  | .setTimestamp timestamp =>
    if s.scrub = none then
      some
        { state := { s.state with isScrubbed := true, currentTick := timestamp, wakeAlls := s.state.wakeAlls + 1 }
          tasks := s.tasks.map Task.wakeAll
          scrub := some timestamp }
    else none
  | .task i => s.tasks[i]?.bind fun task => (task.step s.state).map fun (state, task') =>
    { s with state := state, tasks := s.tasks.set i task' }
  | .notifyWriters i => s.tasks[i]?.bind fun task =>
    if task.pc = .written then some { s with tasks := s.tasks.set i { task with pc := .top } } else none

end Metor.Impl.FixedRate
