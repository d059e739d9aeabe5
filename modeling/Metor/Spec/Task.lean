import Metor.Impl.Task
import Metor.Lib.Run

/-!
# What a task is

To the scheduler, a task is idle, scheduled, being polled or over
(`Sched.Move`). To its `JoinHandle`, it is an output and a waker that is
registered, taken and woken (`Joining.Move`). Every step of a thread is to be
one of each, and to count the references that are left.
-/

namespace Metor.Impl.Task

open Metor.Lib

/-! ## The scheduler -/

/-- What the scheduler has of a task: `scheduled` counts where it has it, or will have it, and `polls` who polls it. -/
structure Sched where
  polling : Bool
  woken : Bool
  completed : Bool
  canceled : Bool
  closed : Bool
  scheduled : Nat
  polls : Nat

namespace Sched

inductive Move : Sched → Sched → Prop
  | keep {v : Sched} : Move v v
  | enqueue {v : Sched} : v.polling = false → v.woken = false → v.completed = false →
    Move v { v with woken := true, scheduled := v.scheduled + 1 }
  | wake {v : Sched} : v.polling = true → Move v { v with woken := true }
  | cancel {v : Sched} : Move v { v with canceled := true, woken := true }
  | start {v : Sched} : 0 < v.scheduled → v.polling = false → v.completed = false → v.canceled = false →
    Move v { v with polling := true, woken := false, scheduled := v.scheduled - 1, polls := v.polls + 1 }
  | refuse {v : Sched} : 0 < v.scheduled → v.polling = true ∨ v.completed = true ∨ v.canceled = true ∨ v.closed = true →
    Move v { v with scheduled := v.scheduled - 1 }
  | complete {v : Sched} : 0 < v.polls → Move v { v with polling := false, completed := true, polls := v.polls - 1 }
  | pause {v : Sched} : 0 < v.polls → v.woken = false →
    Move v { v with polling := false, completed := false, polls := v.polls - 1 }
  | again {v : Sched} : 0 < v.polls → v.woken = true →
    Move v { v with polling := false, completed := false, polls := v.polls - 1, scheduled := v.scheduled + 1 }
  | close {v : Sched} : Move v { v with closed := true }

/-- The task is in one place; it is where its flags say, and one that is woken is not forgotten. -/
structure Ok (v : Sched) : Prop where
  one : v.scheduled + v.polls ≤ 1
  polling : v.polling = true ↔ 0 < v.polls
  woken : 0 < v.scheduled → v.woken = true
  completed : v.completed = true → v.scheduled + v.polls = 0
  kept : v.woken = true → v.completed = false → v.canceled = false → v.closed = false → 0 < v.scheduled + v.polls

/-- It is not polled any more. -/
def Over (v : Sched) : Prop := v.scheduled + v.polls = 0 ∧ (v.completed = true ∨ v.canceled = true ∧ v.woken = true)

end Sched

/-! ## The `JoinHandle` -/

/-- What the `JoinHandle` and its waker are to a task -/
structure Joining where
  completed : Bool
  canceled : Bool
  hasJoinHandle : Bool
  joinWaker : JoinWakerState
  hasOutput : Bool
  join : Join
  slot : Bool
  output : Output
  waiting : Nat
  reading : Nat
  taken : Nat
  freed : Nat

namespace Joining

/-- A join waker is registered, or about to be. -/
def HasWaker (v : Joining) : Prop := v.joinWaker = .registering ∨ v.joinWaker = .waiting

/-- The join waker is taken, to be waited for or to be woken. -/
def takeWaker (v : Joining) : Joining :=
  match v.joinWaker with
  | .registering => { v with waiting := v.waiting + 1 }
  | .waiting => { v with joinWaker := .empty, reading := v.reading + 1 }
  | _ => v

/-- Nobody has taken the join waker. -/
def Unclaimed (v : Joining) : Prop := v.waiting = 0 ∧ v.reading = 0 ∧ v.joinWaker ≠ .woken ∧ v.freed = 0

inductive Move : Joining → Joining → Prop
  | keep {v : Joining} : Move v v
  | cancel {v : Joining} : Move v { v with canceled := true }
  | refuse {v : Joining} : v.canceled = true → v.Unclaimed → Move v v.takeWaker
  | complete {v : Joining} : v.completed = false → v.Unclaimed →
    Move v { v with completed := true, hasOutput := true, output := .ready }.takeWaker
  | waited {v : Joining} : 0 < v.waiting → v.joinWaker = .waiting →
    Move v { v with joinWaker := .woken, waiting := v.waiting - 1, reading := v.reading + 1 }
  | wake {v : Joining} : 0 < v.reading → Move v { v with slot := false, reading := v.reading - 1 }
  | register {v : Joining} : v.join = .idle → v.canceled = false → v.completed = false ∨ v.hasOutput = false →
    Move v { v with joinWaker := .registering, join := .registering (v.joinWaker = .empty) }
  | write {v : Joining} {first : Bool} :
      v.join = .registering first → Move v { v with join := .registered, slot := true }
  | registered {v : Joining} : v.join = .registered →
    Move v { v with join := .idle, hasJoinHandle := true, joinWaker := .waiting }
  | take {v : Joining} (hasOutput : Bool) : v.join = .idle → v.hasOutput = true →
    Move v { v with hasOutput := hasOutput, join := .done, output := .joined, taken := v.taken + 1 }
  | done {v : Joining} : v.join = .idle → Move v { v with join := .done }
  | dropHandle {v : Joining} : v.join = .done → Move v { v with join := .leaving, hasJoinHandle := false }
  | gone {v : Joining} : v.join = .leaving → Move v { v with join := .gone }
  | free {v : Joining} : v.join = .gone → v.waiting = 0 → v.reading = 0 → v.freed = 0 →
    Move v { v with freed := 1, slot := if v.joinWaker = .waiting then false else v.slot }

/-- The `JoinHandle` may still take the output. -/
def Joins (v : Joining) : Prop := v.join ≠ .done ∧ v.join ≠ .leaving ∧ v.join ≠ .gone

/-- The join waker is written before it is used, and woken where there is one; the output is taken once. -/
structure Ok (v : Joining) : Prop where
  one : v.waiting + v.reading ≤ 1
  past : 0 < v.waiting + v.reading ∨ v.joinWaker = .woken → v.completed = true ∨ v.canceled = true
  waiting : 0 < v.waiting → v.HasWaker
  reading : 0 < v.reading → ¬ v.HasWaker
  registering : v.joinWaker = .registering ↔ (∃ first, v.join = .registering first) ∨ v.join = .registered
  slot : v.freed = 0 → (v.slot = true ↔
    v.joinWaker = .waiting ∨ v.join = .registering false ∨ v.join = .registered ∨ 0 < v.reading)
  freed : 0 < v.freed → v.slot = false ∧ v.join = .gone ∧ v.waiting = 0 ∧ v.reading = 0
  kept : v.completed = true → v.HasWaker → 0 < v.waiting
  handle : v.hasJoinHandle = true ↔ v.join ≠ .leaving ∧ v.join ≠ .gone
  ready : v.completed = true → v.Joins → v.hasOutput = true ∧ v.output = .ready
  pending : v.completed = false → v.hasOutput = false ∧ v.output = .pending
  taken : v.taken = if v.output = .joined then 1 else 0
  joined : v.output = .joined → ¬ v.Joins

end Joining

namespace Sys

/-- The references that somebody has -/
def references (s : Sys) : Nat :=
  s.handles + s.entering + 2 * s.waking + s.leaving + s.queued + s.dequeued + s.polling + s.waiting + s.reading +
  s.finishing +
    if s.join = .gone then 0 else 1

def sched (s : Sys) : Sched :=
  ⟨s.state.polling, s.state.woken, s.state.completed, s.state.canceled, s.closed,
  s.entering + s.waking + s.queued + s.dequeued, s.polling⟩

def joining (s : Sys) : Joining :=
  ⟨s.state.completed, s.state.canceled, s.state.hasJoinHandle, s.state.joinWaker, s.state.hasOutput, s.join,
  s.slot, s.output,
    s.waiting, s.reading, s.taken, s.freed⟩

/-- There is memory for fewer references than can be counted. -/
def Fits (s : Sys) (_ : Action) : Prop := s.references + 1 < refsBound

/-! ## What is asserted -/

/-- `debug_assert`s of `has_join_waker` -/
def JoinWakerAsserts (s : Sys) : Prop := s.state.joinWaker ≠ .woken ∧
    (s.joining.HasWaker → s.state.hasJoinHandle = true)

/-- A step that deallocates the task leaves its count at zero. -/
def FreeAsserts (s : Sys) (a : Action) : Prop := ∀ t, s.step a = some t → s.freed < t.freed → t.state.refs = 0

/-- The output or the slot that `poll_join` uses is there. -/
def JoinAsserts (s : Sys) : JoinAction → Prop
  | .canceled completed => completed = true → s.output = .ready
  | .takeOutput => s.output = .ready
  | .register => s.slot = false
  | .reregister => s.state.joinWaker = .waiting ∧ s.slot = true

/-- What the code asserts in a step, or relies on -/
def Asserts (s : Sys) : Action → Prop
  | .startPoll => s.state.polling = false → s.state.completed = false → s.state.canceled = true → s.JoinWakerAsserts
  | .endPoll completed =>
    s.state.polling = true ∧ s.state.completed = false ∧ 0 < s.state.refs ∧ (completed = true → s.JoinWakerAsserts)
  | .wakeByVal => s.state.polling = true → 1 < s.state.refs
  | .wakeJoinWaker => s.slot = true
  | .tryJoin => s.JoinAsserts s.state.tryJoin.1
  | .setJoinWakerRegistered => s.state.joinWaker = .registering
  | .dropJoinHandle => s.state.hasJoinHandle = true
  | .drop => s.FreeAsserts .drop
  | .leave => s.FreeAsserts .leave
  | .dropLast => s.FreeAsserts .dropLast
  | .finish => s.FreeAsserts .finish
  | .leaveJoin => s.FreeAsserts .leaveJoin
  | _ => True

/-- The task is done with while the waker of a `JoinHandle` that was dropped is registered. -/
def WakesDropped (s : Sys) (a : Action) : Prop :=
  s.state.joinWaker = .waiting ∧ s.state.hasJoinHandle = false ∧
  (a = .startPoll ∧ s.state.canceled = true ∨ a = .endPoll true)

end Sys

/-- The runs of a task from when it is spawned -/
def Reached (s : Sys) : Prop := Run Sys.step Sys.Fits .spawned s

/-- The runs that go on from a state -/
def Continues (s t : Sys) : Prop := Run Sys.step Sys.Fits s t

end Metor.Impl.Task
