import Mathlib.Algebra.GroupWithZero.Nat

/-!
# A task and its references (`libs/stellarator/maitake/src/task.rs`)

With `task/state.rs`, `task/join_handle.rs` and `scheduler.rs`.

`task/state.rs`: a `StateCell` is one word, and each of its functions changes
it in one atomic step: `transition` runs its closure again until no other thread
came between. The lowest 8 bits are the flags, and the 56 above them count
references, so that a count below zero borrows from nothing. What `debug_assert`
checks is said where the functions are used.

The threads that deal with one task, between any two atomic steps: those that
wake it, cancel it, enqueue it, poll it or join it. Threads at the same place
are alike, so there is a count of them for each place (`Sys`). An owner of a
reference may lend it: a thread that wakes or cancels by reference has none of
its own. `Task::poll`, `poll_join`, `wake_by_val`, `tick_n` and the drops are
cut where another thread may come between (`Action`).
-/

namespace Metor.Impl.Task

/-! ## The state -/

/-- `JoinWakerState` -/
inductive JoinWakerState
  | empty
  | registering
  | waiting
  | woken
  deriving DecidableEq, Repr

/-- `State` -/
structure State where
  polling : Bool
  woken : Bool
  completed : Bool
  canceled : Bool
  hasJoinHandle : Bool
  joinWaker : JoinWakerState
  hasOutput : Bool
  refs : Nat
  deriving DecidableEq, Repr

/-- How many references the bits of `REFS` can count, and one more. -/
def refsBound : Nat := 2 ^ 56

/-- `ScheduleAction` -/
inductive ScheduleAction
  | enqueue
  | none
  deriving DecidableEq, Repr

/-- `OrDrop<ScheduleAction>` -/
inductive WakeAction
  | action (action : ScheduleAction)
  | drop
  deriving DecidableEq, Repr

/-- `JoinAction` -/
inductive JoinAction
  | takeOutput
  | canceled (completed : Bool)
  | register
  | reregister
  deriving DecidableEq, Repr

/-- `StartPollAction` -/
inductive StartPollAction
  | poll
  | canceled (wakeJoinWaker : Bool)
  | cantPoll
  deriving DecidableEq, Repr

/-- `PollResult` -/
inductive PollResult
  | ready
  | readyJoined
  | pending
  | pendingSchedule
  deriving DecidableEq, Repr

namespace State

/-- `StateCell::new` -/
def new : State := ⟨false, false, false, false, false, .empty, false, 1⟩

/-- A reference less, and from zero the most there can be -/
def decRefs (state : State) : State := { state with refs := if state.refs = 0 then refsBound - 1 else state.refs - 1 }

/-- `clone_ref` -/
def cloneRef (state : State) : State := { state with refs := if state.refs + 1 = refsBound then 0 else state.refs + 1 }

/-- `StateCell::drop_ref`: whether it was the last one -/
def dropRef (state : State) : Bool × State := (¬ state.refs > 1, state.decRefs)

/-- `has_join_waker`: whether there is one, and whether it is to be waited for -/
def takeJoinWaker (state : State) : Bool × Bool × State :=
  match state.joinWaker with
  | .empty => (false, false, state)
  | .registering => (true, true, state)
  | .waiting => (true, false, { state with joinWaker := .empty })
  | .woken => (false, false, state)

/-- `start_poll`, and whether the join waker is waited for -/
def startPoll (state : State) : StartPollAction × Bool × State :=
  if state.polling || state.completed then (.cantPoll, false, state)
  else if state.canceled then
    let (wakeJoinWaker, shouldWait, state) := state.takeJoinWaker
    (.canceled wakeJoinWaker, shouldWait, state)
  else (.poll, false, { state with polling := true, woken := false })

/-- `end_poll`, and whether the join waker is waited for -/
def endPoll (state : State) (completed : Bool) : PollResult × Bool × State :=
  let state := { state with polling := false, completed := completed }
  if !completed && state.woken then (.pendingSchedule, false, state)
  else if completed then
    let (hadJoinWaker, shouldWait, state) := { state with hasOutput := true }.takeJoinWaker
    (if hadJoinWaker then .readyJoined else .ready, shouldWait, state)
  else (.pending, false, state)

/-- `wake_by_val` -/
def wakeByVal (state : State) : WakeAction × State :=
  if state.polling then (.action .none, { state with woken := true }.decRefs)
  else if state.completed || state.woken then
    let state := state.decRefs
    (if state.refs = 0 then .drop else .action .none, state)
  else (.action .enqueue, { state with woken := true }.cloneRef)

/-- `wake_by_ref` -/
def wakeByRef (state : State) : ScheduleAction × State :=
  if state.completed || state.woken then (.none, state)
  else if state.polling then (.none, { state with woken := true })
  else (.enqueue, { state with woken := true }.cloneRef)

/-- `set_woken` -/
def setWoken (state : State) : State := { state with woken := true }

/-- `cancel`: whether it was not canceled before -/
def cancel (state : State) : Bool × State :=
  if state.canceled then (false, state) else (true, { state with canceled := true, woken := true })

/-- `create_join_handle` -/
def createJoinHandle (state : State) : State := { state with hasJoinHandle := true }

/-- `drop_join_handle` -/
def dropJoinHandle (state : State) : State := { state with hasJoinHandle := false }

/-- `should_register` -/
def shouldRegister (state : State) : JoinAction × State :=
  (if state.joinWaker = .empty then .register else .reregister, { state with joinWaker := .registering })

/-- `try_join` -/
def tryJoin (state : State) : JoinAction × State :=
  if state.canceled then (.canceled state.hasOutput, state)
  else if !state.completed then state.shouldRegister
  else if !state.hasOutput then state.shouldRegister
  else (.takeOutput, { state with hasOutput := false })

/-- `set_join_waker_registered` -/
def setJoinWakerRegistered (state : State) : State := { state with hasJoinHandle := true, joinWaker := .waiting }

/-- `wait_for_join_waker`: it spins until the join waker is registered. -/
def waitForJoinWaker (state : State) : Option State :=
  if state.joinWaker = .waiting then some { state with joinWaker := .woken } else none

end State

/-! ## The threads -/

/-- Where the `JoinHandle` is -/
inductive Join
  /-- It is not being polled. -/
  | idle
  /-- `poll_join` is to write the waker, the first one or another one. -/
  | registering (first : Bool)
  /-- The waker is written. -/
  | registered
  /-- It was ready, or is being dropped: `drop_join_handle` is next, -/
  | done
  /-- then its reference is dropped, -/
  | leaving
  /-- and there is none. -/
  | gone
  deriving DecidableEq, Repr

/-- `Cell` -/
inductive Output
  | pending
  | ready
  | joined
  deriving DecidableEq, Repr

/-- A task, and how many threads are where. -/
structure Sys where
  state : State
  join : Join
  /-- The slot of the join waker is initialized. -/
  slot : Bool
  output : Output
  /-- Wakers and `TaskRef`s -/
  handles : Nat
  /-- After `cancel`, before `wake_by_ref` -/
  canceling : Nat
  /-- `schedule` is next, with the reference that is enqueued. -/
  entering : Nat
  /-- The same in `wake_by_val`, which has the waker's reference as well -/
  waking : Nat
  /-- `drop_ref` of that waker is next. -/
  leaving : Nat
  /-- `drop_ref` is next where `wake_by_val` has dropped the last reference. -/
  dropping : Nat
  queued : Nat
  /-- Dequeued: `start_poll` is next. -/
  dequeued : Nat
  /-- The future is being polled. -/
  polling : Nat
  /-- In `wait_for_join_waker` -/
  waiting : Nat
  /-- `wake_join_waker` is next. -/
  reading : Nat
  /-- The scheduler, after a poll, or a queue that is gone: the reference is dropped next. -/
  finishing : Nat
  /-- The executor polls no more: `cancel_all` empties its queue, and later it cannot be upgraded to. -/
  closed : Bool
  /-- How often the join waker was woken -/
  wakes : Nat
  /-- How often the output was taken -/
  taken : Nat
  /-- How often the task was deallocated -/
  freed : Nat
  deriving DecidableEq, Repr

/-- An atomic step of some thread, with what comes before the next one -/
inductive Action
  | clone | drop | wakeByRef | wakeByVal
  | cancel | wakeCanceled
  | schedule | scheduleVal | leave | dropLast
  | dequeue | startPoll | endPoll (completed : Bool) | waitForJoinWaker | wakeJoinWaker | finish
  | tryJoin | writeJoinWaker | setJoinWakerRegistered | dropJoin | dropJoinHandle | leaveJoin
  | close | consume | scheduleClosed | scheduleValClosed
  deriving DecidableEq, Repr

namespace Sys

/-- `spawn`: the task with its `JoinHandle`, `set_woken` and about to be scheduled -/
def spawned : Sys where
  state := State.new.cloneRef.createJoinHandle.setWoken
  join := .idle
  slot := false
  output := .pending
  handles := 0
  canceling := 0
  entering := 1
  waking := 0
  leaving := 0
  dropping := 0
  queued := 0
  dequeued := 0
  polling := 0
  waiting := 0
  reading := 0
  finishing := 0
  closed := false
  wakes := 0
  taken := 0
  freed := 0

/-- `deallocate`: `Drop for Task` drops the join waker where there is one. -/
def deallocate (s : Sys) : Sys :=
  { s with freed := s.freed + 1, slot := if s.state.joinWaker = .waiting then false else s.slot }

/-- `Schedulable::drop_ref` and `Drop for TaskRef` -/
def dropRef (s : Sys) : Sys :=
  let (last, state) := s.state.dropRef
  let s := { s with state := state }
  if last then s.deallocate else s

/-- Somebody has the task and may lend it: a waker or a `TaskRef`, the poll of the task, or the `JoinHandle`. -/
def Lends (s : Sys) : Prop := 0 < s.handles ∨ 0 < s.polling ∨ s.join = .idle

instance (s : Sys) : Decidable s.Lends := inferInstanceAs (Decidable (_ ∨ _ ∨ _))

/-- Where a join waker is to be woken, perhaps after it is waited for -/
def wakesJoin (s : Sys) (shouldWait : Bool) : Sys :=
  if shouldWait then { s with waiting := s.waiting + 1 } else { s with reading := s.reading + 1 }

/-- The match in `Task::poll`; after a poll the reference is dropped, or the task is enqueued again. -/
def startPoll (s : Sys) : Sys :=
  let (action, shouldWait, state) := s.state.startPoll
  let s := { s with state := state }
  match action with
  | .poll => { s with polling := s.polling + 1 }
  | .canceled wakeJoinWaker => if wakeJoinWaker then s.wakesJoin shouldWait else { s with finishing := s.finishing + 1 }
  | .cantPoll => { s with finishing := s.finishing + 1 }

/-- The end of `Task::poll`, after the future has left its output where it has completed -/
def endPoll (s : Sys) (completed : Bool) : Sys :=
  let (result, shouldWait, state) := s.state.endPoll completed
  let s := { s with state := state, output := if completed then .ready else s.output }
  match result with
  | .pendingSchedule => { s with entering := s.entering + 1 }
  | .readyJoined => s.wakesJoin shouldWait
  | .pending | .ready => { s with finishing := s.finishing + 1 }

/-- `Schedulable::wake_by_val` -/
def wakeByVal (s : Sys) : Sys :=
  let (action, state) := s.state.wakeByVal
  let s := { s with state := state, handles := s.handles - 1 }
  match action with
  | .drop => { s with dropping := s.dropping + 1 }
  | .action .enqueue => { s with waking := s.waking + 1 }
  | .action .none => s

/-- `Schedulable::wake_by_ref` -/
def wakeByRef (s : Sys) : Sys :=
  let (action, state) := s.state.wakeByRef
  let s := { s with state := state }
  match action with
  | .enqueue => { s with entering := s.entering + 1 }
  | .none => s

/-- `TaskRef::cancel`, up to `wake_by_ref` -/
def cancel (s : Sys) : Sys :=
  let (canceled, state) := s.state.cancel
  let s := { s with state := state }
  if canceled then { s with canceling := s.canceling + 1 } else s

/-- `take_output` -/
def takeOutput (s : Sys) : Sys := { s with output := .joined, taken := s.taken + 1, join := .done }

/-- The match in `poll_join` -/
def tryJoin (s : Sys) : Sys :=
  let (action, state) := s.state.tryJoin
  let s := { s with state := state }
  match action with
  | .canceled completed => if completed then s.takeOutput else { s with join := .done }
  | .takeOutput => s.takeOutput
  | .register => { s with join := .registering true }
  | .reregister => { s with join := .registering false }

/-- A step of a thread, where there is one that can take it -/
def step (s : Sys) : Action → Option Sys
  | .clone => if s.Lends then some { s with state := s.state.cloneRef, handles := s.handles + 1 } else none
  | .drop => if 0 < s.handles then some { s with handles := s.handles - 1 }.dropRef else none
  | .wakeByRef => if s.Lends then some s.wakeByRef else none
  | .wakeByVal => if 0 < s.handles then some s.wakeByVal else none
  | .cancel => if s.Lends then some s.cancel else none
  | .wakeCanceled =>
    if 0 < s.canceling ∧ s.Lends then some { s with canceling := s.canceling - 1 }.wakeByRef else none
  | .schedule =>
    if 0 < s.entering then some { s with entering := s.entering - 1, queued := s.queued + 1 } else none
  | .scheduleVal =>
    if 0 < s.waking then some { s with waking := s.waking - 1, queued := s.queued + 1, leaving := s.leaving + 1 }
      else none
  | .leave => if 0 < s.leaving then some { s with leaving := s.leaving - 1 }.dropRef else none
  | .dropLast => if 0 < s.dropping then some { s with dropping := s.dropping - 1 }.dropRef else none
  | .dequeue =>
    if 0 < s.queued ∧ s.closed = false then some { s with queued := s.queued - 1, dequeued := s.dequeued + 1 } else none
  | .startPoll => if 0 < s.dequeued then some { s with dequeued := s.dequeued - 1 }.startPoll else none
  | .endPoll completed => if 0 < s.polling then some ({ s with polling := s.polling - 1 }.endPoll completed) else none
  | .waitForJoinWaker =>
    if 0 < s.waiting then
      s.state.waitForJoinWaker.map fun state =>
        { s with state := state, waiting := s.waiting - 1, reading := s.reading + 1 }
    else none
  | .wakeJoinWaker =>
    if 0 < s.reading then
      some { s with reading := s.reading - 1, finishing := s.finishing + 1, slot := false, wakes := s.wakes + 1 }
    else none
  | .finish => if 0 < s.finishing then some { s with finishing := s.finishing - 1 }.dropRef else none
  | .tryJoin => if s.join = .idle then some s.tryJoin else none
  | .writeJoinWaker =>
    if s.join = .registering true ∨ s.join = .registering false then some { s with join := .registered, slot := true }
      else none
  | .setJoinWakerRegistered =>
    if s.join = .registered then some { s with join := .idle, state := s.state.setJoinWakerRegistered } else none
  | .dropJoin => if s.join = .idle then some { s with join := .done } else none
  | .dropJoinHandle => if s.join = .done then some { s with join := .leaving, state := s.state.dropJoinHandle }
      else none
  | .leaveJoin => if s.join = .leaving then some { s with join := .gone }.dropRef else none
  | .close => some { s with closed := true }
  | .consume =>
    if 0 < s.queued ∧ s.closed then some { s with queued := s.queued - 1, finishing := s.finishing + 1 } else none
  | .scheduleClosed =>
    if 0 < s.entering ∧ s.closed then some { s with entering := s.entering - 1, finishing := s.finishing + 1 } else none
  | .scheduleValClosed =>
    if 0 < s.waking ∧ s.closed then
      some { s with waking := s.waking - 1, finishing := s.finishing + 1, leaving := s.leaving + 1 }
    else none

end Sys

end Metor.Impl.Task
