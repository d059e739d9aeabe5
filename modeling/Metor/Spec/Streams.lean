import Metor.Impl.FixedRate
import Metor.Impl.MsgStream
import Metor.Impl.Streams
import Metor.Lib.Run

/-!
# Streams that obey their messages
-/

namespace Metor.Impl.Streams

/-- Every field that is given in the message is the value in the state. -/
structure Obeys (msg : SetStreamState) (st : FixedRateStreamState) : Prop where
  playing : ∀ playing ∈ msg.playing, st.isPlaying = playing
  timestamp : ∀ timestamp ∈ msg.timestamp, st.currentTick = timestamp
  timeStep : ∀ timeStep ∈ msg.timeStep, st.timeStep.toNat = timeStep
  frequency : ∀ frequency ∈ msg.frequency, st.frequency = frequency

/-- No task has divided by zero or overflowed, and every message was obeyed. -/
structure Obedient (s : State) : Prop where
  quiet : ∀ task ∈ s.tasks, ∀ p, task.pc ≠ .panicked p
  obeyed : ∀ h ∈ s.handled, Obeys h.1 h.2.2

/-- The state that `SetStreamState` finds. -/
def State.found (s : State) (id : UInt64) : Option FixedRateStreamState := (s.streams.lookup id).bind (s.states[·]?)

/-- The tick a task has read. -/
def Pc.last : Pc → Option Int
  | .current timestamp | .tick timestamp => some timestamp
  | _ => none

/-- The tick that the task has read, and the state it is about to increment. -/
def State.due (s : State) (i : Nat) : Option (Int × FixedRateStreamState) := do
  let task ← s.tasks[i]?
  let last ← task.pc.last
  let st ← s.states[task.state]?
  return (last, st)

/-- A stream is made with a frequency, a message that finds a stream sets no
frequency of zero and no other time step than the stream has, and no tick is
past the last `i64`. -/
def Sound (s : State) : Act → Prop
  | .stream _ behavior => behavior.frequency ≠ 0
  | .fixedRateMsgStream op | .vtableStream op _ =>
    (s.streams.lookup op.streamId).isNone → op.behavior.frequency ≠ 0
  | .setStreamState msg => ∀ st ∈ s.found msg.id,
    msg.frequency ≠ some 0 ∧ ∀ timeStep ∈ msg.timeStep, timeStep = st.timeStep.toNat
  | .increment i => ∀ due ∈ s.due i, due.1 + (due.2.timeStep.toNat / 1000 : Nat) < 2 ^ 63
  | _ => True

instance (s : State) : (a : Act) → Decidable (Sound s a)
  | .stream _ _ => inferInstanceAs (Decidable (_ ≠ _))
  | .fixedRateMsgStream _ | .vtableStream _ _ => inferInstanceAs (Decidable (_ → _))
  | .setStreamState msg => inferInstanceAs (Decidable (∀ st ∈ s.found msg.id, _))
  | .increment i => inferInstanceAs (Decidable (∀ due ∈ s.due i, _))
  | .update _ | .sleep _ | .play _ | .read _ | .skip _ | .finish _ => isTrue trivial

end Metor.Impl.Streams

/-!
## Subscribers that keep up
-/

namespace Metor.Impl.MsgStream

open Metor.Lib Metor.Impl.Msg

/-- The message that `latest` finds. -/
def latestMsg (log : Msg.State) : Option Bytes := log.list.latest.bind MsgRef.data

/-- The messages pushed are persisted, down to the last, no wakeup is pending, and every subscriber waits. -/
structure Settled (s : State) : Prop where
  wal : s.log.wal = []
  latest : latestMsg s.log = s.pushed.getLast?
  waking : s.waking = 0
  waiting : ∀ sub ∈ s.subscribers, sub.pc = .wait .waiting

/-- No subscriber that waited for the last message is left behind. -/
def UpToDate (s : State) : Prop :=
  Settled s → ∀ sub ∈ s.subscribers, sub.waited → sub.sent.getLast? = s.pushed.getLast?

/-- A subscriber that waited for the last message reads the log only once all of the WAL is persisted. -/
def PersistedFirst (s : State) : Act → Prop
  | .subscriber i .read => ∀ sub ∈ s.subscribers[i]?, sub.waited → s.log.wal = []
  | _ => True

instance (s : State) : (a : Act) → Decidable (PersistedFirst s a)
  | .subscriber i .read => inferInstanceAs (Decidable (∀ sub ∈ s.subscribers[i]?, sub.waited → s.log.wal = []))
  | .subscriber _ .wait | .subscriber _ .poll | .subscriber _ .send => isTrue trivial
  | .push _ _ | .wake | .persist _ | .subscribe | .hangUp _ => isTrue trivial

end Metor.Impl.MsgStream

/-!
## Scrubs that reach their consumers
-/

namespace Metor.Impl.FixedRate

open Metor.Lib

/-- A task that is about to wait. -/
def Task.idle (source : Source) : Task := ⟨source, .top, []⟩

/-- The stream neither plays nor was scrubbed. -/
def Paused (state : FixedRateStreamState) : Prop := state.isPlaying = false ∧ state.isScrubbed = false

instance (state : FixedRateStreamState) : Decidable (Paused state) := inferInstanceAs (Decidable (_ ∧ _))

/-- No task can take a step. -/
def Stuck (s : State) : Prop := ∀ i, step s (.task i) = none

def Task.HasEmitted (t : Int) (task : Task) : Prop := ∃ e ∈ task.emitted, e.time = t

/-- There is a sample for the time, other than the message sent last. -/
def Source.HasSample (t : Int) (source : Source) : Prop := ∃ timestamp data, source.sample t = .found timestamp data

/-- After a scrub to `t`, when no task can go on, each has emitted its sample for `t`. -/
def ScrubReaches (state : FixedRateStreamState) (sources : List Source) (t : Int) : Prop :=
  ∀ s, Run step (fun _ _ => True) ⟨state, sources.map Task.idle, none⟩ s → s.scrub = some t → Stuck s →
    ∀ task ∈ s.tasks, task.HasEmitted t

end Metor.Impl.FixedRate
