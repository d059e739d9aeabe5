import Mathlib.Logic.Function.Basic

/-!
# Wait queues (`libs/stellarator/maitake/sync/src/wait_queue.rs`)

`wait` remembers how many times the whole queue was woken. The first poll
returns if it was woken since, and otherwise enqueues the waiter, for a later
`wake_all` to wake. A queue that is only ever woken as a whole keeps nothing
for those who wait afterwards: `Waiter` is enough for its users.

`WaitQueue.Sys` is the queue itself, with all its operations. A step is one
access of its atomic state, by any thread. The list is behind a lock: a thread
that accesses the state more than once while it holds the lock is the `holder`
in between, and what a thread does to the list shows when it unlocks. The list
is kept in the order of `pop_back`. A waker is the number of its task, and is
called as the thread unlocks that has taken it from the list.
-/

namespace Metor.Impl

/-- A waiter, from `wait` on; `woken` is ready. -/
inductive Waiter
  | start (wakeAlls : Nat)
  | waiting
  | woken
  deriving DecidableEq, Repr

namespace Waiter

/-- `poll_wait`; `wakeAlls` is the queue's count. -/
def poll (wakeAlls : Nat) : Waiter → Waiter
  | start n => if n = wakeAlls then waiting else woken
  | w => w

/-- What `wake_all` does to a waiter. -/
def wakeAll : Waiter → Waiter
  | waiting => woken
  | w => w

end Waiter

namespace WaitQueue

/-- `State` of a queue -/
inductive State
  | empty
  | waiting
  | woken
  | closed
  deriving DecidableEq, Repr

/-- The word of a queue. The count of `wake_all` has 62 bits there, and wraps; here it does not. -/
structure QueueState where
  state : State
  wakeAlls : Nat
  deriving DecidableEq, Repr

def QueueState.withState (q : QueueState) (state : State) : QueueState := { q with state }

inductive WaitState
  | start
  | waiting
  | woken
  deriving DecidableEq, Repr

inductive Wakeup
  | empty
  | waiting (waker : Nat)
  | one
  | all
  | closed
  deriving DecidableEq, Repr

/-- A `Waiter` with its `Node` -/
structure Waiter where
  state : WaitState
  wakeAlls : Nat
  waker : Wakeup
  deriving DecidableEq, Repr

/-- `Poll<WaitResult<()>>` -/
inductive Poll
  | pending
  | ready
  | closed
  deriving DecidableEq, Repr

/-- `WaitQueue::waiter` -/
def QueueState.waiter (q : QueueState) : Waiter := ⟨.start, q.wakeAlls, .empty⟩

namespace Waiter

/-- `Waiter::wake`; `none` is `unreachable!`. -/
def wake (w : Waiter) (wakeup : Wakeup) : Option (Waiter × Option Nat) :=
  match w.waker with
  | .waiting waker => some ({ w with waker := wakeup }, some waker)
  | .empty => some ({ w with waker := wakeup }, none)
  | _ => none

/-- The end of `poll_wait`'s first poll, where the node is enqueued. `none` is the `debug_assert!`. -/
def enqueue (w : Waiter) : Option Nat → Option Waiter
  | none => some { w with state := .waiting }
  | some waker => if w.waker = .empty then some { w with state := .waiting, waker := .waiting waker } else none

/-- What `poll_wait` does with the lock in the first poll: the state of the queue, the waiter, whether it is pushed
to the list, and what the poll returns -/
def pollStart (w : Waiter) (q : QueueState) (waker : Option Nat) : Option (QueueState × Waiter × Bool × Poll) :=
  if q.wakeAlls ≠ w.wakeAlls then some (q, { w with state := .woken }, false, .ready)
  else match q.state with
    | .empty => (w.enqueue waker).map fun w => (q.withState .waiting, w, true, .pending)
    | .waiting => (w.enqueue waker).map fun w => (q, w, true, .pending)
    | .woken => some (q.withState .empty, { w with state := .woken }, false, .ready)
    | .closed => some (q, w, false, .closed)

/-- What `poll_wait` does with the lock when the waiter has been enqueued -/
def pollWaiting (w : Waiter) (waker : Option Nat) : Waiter × Poll :=
  match w.waker with
  | .waiting curr => ({ w with waker := .waiting (waker.getD curr) }, .pending)
  | .all => ({ w with state := .woken }, .ready)
  | .one => ({ w with state := .woken }, .ready)
  | .closed => ({ w with state := .woken }, .closed)
  | .empty => ({ w with waker := waker.elim .empty .waiting }, .pending)

end Waiter

/-- Where a poll of a `Wait` is: it has loaded the state, or it is at the lock. -/
inductive Polling
  | idle
  | loaded (waker : Option Nat) (state : QueueState)
  | locking (waker : Option Nat)
  deriving DecidableEq, Repr

/-- A `Wait`, with what its last poll returned and the last waker that it was polled with while it was pending -/
structure Wait where
  waiter : Waiter
  polling : Polling
  polled : Option Poll
  waker : Option Nat
  deriving DecidableEq, Repr

/-- A `Wait` whose poll returns -/
def Wait.returns (wait : Wait) (waker : Option Nat) (waiter : Waiter) (polled : Poll) : Wait :=
  ⟨waiter, .idle, some polled, if polled = .pending then waker.or wait.waker else wait.waker⟩

/-- `MAX_WAKERS` -/
def maxWakers : Nat := 16

/-- `drain_to_wake_batch`, with the wakers that are in the batch -/
def drainToWakeBatch (wakeup : Wakeup) :
    List Nat → (Nat → Option Wait) → List Nat → Option (List Nat × (Nat → Option Wait) × List Nat)
  | [], waits, batch => some ([], waits, batch)
  | i :: queue, waits, batch => do
    let wait ← waits i
    let (waiter, waker) ← wait.waiter.wake wakeup
    let waits := Function.update waits i (some { wait with waiter })
    match waker with
    | none => drainToWakeBatch wakeup queue waits batch
    | some waker =>
      if batch.length + 1 < maxWakers then drainToWakeBatch wakeup queue waits (waker :: batch)
      else some (queue, waits, waker :: batch)

/-- Who holds the lock, with the state it has loaded: `wake_locked`, called for the wakeup of the `Wait` that is
dropped or for a new one, which may be about to store what it failed to exchange; `release` of a `Wait`, whose
node it has removed; or `wake_all`. -/
inductive Holder
  | wakeLocked (dropped : Option Nat) (curr : QueueState)
  | store (dropped : Option Nat) (actual : QueueState)
  | release (dropped : Nat) (waker : Wakeup) (curr : QueueState)
  | wakeAll (curr : QueueState)
  deriving DecidableEq, Repr

structure Sys where
  state : QueueState
  /-- The list, from its back. -/
  queue : List Nat
  /-- Each `Wait` there is. -/
  waits : Nat → Option Wait
  /-- How many there have been. -/
  created : Nat
  /-- The calls of `wake` that are at the lock. -/
  waking : Nat
  /-- The calls of `wake_all` that have waiters remaining. -/
  draining : Nat
  /-- The calls of `close` that have waiters remaining. -/
  closing : Nat
  holder : Option Holder
  /-- The wakers that were called. -/
  woken : List Nat
  panicked : Bool

namespace Sys

/-- `new` and `new_woken` -/
def new (state : State) : Sys := ⟨⟨state, 0⟩, [], fun _ => none, 0, 0, 0, 0, none, [], false⟩

def panic (s : Sys) : Sys := { s with panicked := true }

def set (s : Sys) (i : Nat) (wait : Option Wait) : Sys := { s with waits := Function.update s.waits i wait }

/-- `wait` -/
def wait (s : Sys) : Sys :=
  { s.set s.created (some ⟨s.state.waiter, .idle, none, none⟩) with created := s.created + 1 }

/-- `poll_wait` up to the exchange or to the lock -/
def poll (s : Sys) (i : Nat) (waker : Option Nat) (wait : Wait) : Sys :=
  match wait.waiter.state with
  | .start => s.set i (some { wait with polling := .loaded waker s.state })
  | .waiting => s.set i (some { wait with polling := .locking waker })
  | .woken => s.set i (some (wait.returns waker wait.waiter .ready))

/-- The exchange in `poll_wait` that consumes a pending wakeup -/
def tryConsume (s : Sys) (i : Nat) (wait : Wait) (waker : Option Nat) (loaded : QueueState) : Sys :=
  if s.state = loaded.withState .woken then
    { s.set i (some (wait.returns waker { wait.waiter with state := .woken } .ready)) with
      state := loaded.withState .empty }
  else s.set i (some { wait with polling := .locking waker })

/-- `poll_wait` with the lock -/
def pollWait (s : Sys) (i : Nat) (wait : Wait) (waker : Option Nat) : Sys :=
  match wait.waiter.state with
  | .start =>
    match wait.waiter.pollStart s.state waker with
    | none => s.panic
    | some (state, waiter, pushed, polled) =>
      { s.set i (some (wait.returns waker waiter polled)) with
        state, queue := if pushed then s.queue ++ [i] else s.queue }
  | _ =>
    let (waiter, polled) := wait.waiter.pollWaiting waker
    s.set i (some (wait.returns waker waiter polled))

/-- `release` up to where the node is removed -/
def release (s : Sys) (i : Nat) (wait : Wait) : Option Sys :=
  if wait.waiter.state ≠ .waiting then some (s.set i none)
  else if s.holder = none then
    some { s.set i none with queue := s.queue.erase i, holder := some (.release i wait.waiter.waker s.state) }
  else none

/-- The rest of `release` -/
def released (s : Sys) (dropped : Nat) (waker : Wakeup) (curr : QueueState) : Sys :=
  { s with
    state := if s.queue = [] ∧ curr.state = .waiting then curr.withState .empty else s.state
    holder := if waker = .one then some (.wakeLocked (some dropped) curr) else none }

/-- `wake` up to where it returns or waits for the lock -/
def wake (s : Sys) : Sys :=
  match s.state.state with
  | .closed => s
  | .waiting => { s with waking := s.waking + 1 }
  | _ => { s with state := s.state.withState .woken }

/-- `wake_locked` -/
def wakeLocked (s : Sys) (dropped : Option Nat) (curr : QueueState) : Sys :=
  if curr.state ≠ .waiting then
    if s.state = curr then { s with state := curr.withState .woken, holder := none }
    else if s.state.state = .waiting then s.panic
    else { s with holder := some (.store dropped s.state) }
  else match s.queue with
    | [] => s.panic
    | i :: queue =>
      match s.waits i with
      | none => s.panic
      | some wait =>
        match wait.waiter.wake .one with
        | none => s.panic
        | some (waiter, waker) =>
          { s.set i (some { wait with waiter }) with
            queue
            state := if queue = [] then curr.withState .empty else s.state
            woken := waker.toList ++ s.woken
            holder := none }

/-- A batch of `wake_all` or `close` -/
def drain (s : Sys) (wakeup : Wakeup) : Option Sys := do
  let (queue, waits, batch) ← drainToWakeBatch wakeup s.queue s.waits []
  return { s with queue, waits, woken := batch ++ s.woken }

/-- `wake_all` from where it has loaded the state to the end of its first batch -/
def wakeAll (s : Sys) (curr : QueueState) : Sys :=
  match curr.state with
  | .closed => { s with holder := none }
  | .waiting =>
    if s.state = curr then
      match s.drain .all with
      | none => s.panic
      | some t =>
        { t with
          state := ⟨.empty, curr.wakeAlls + 1⟩
          holder := none
          draining := if t.queue = [] then s.draining else s.draining + 1 }
    else s.panic
  | _ => { s with state := { s.state with wakeAlls := s.state.wakeAlls + 1 }, holder := none }

/-- `close` up to its first batch -/
def close (s : Sys) : Sys :=
  { s with
    state := s.state.withState .closed
    closing := if s.state.state = .waiting then s.closing + 1 else s.closing }

/-- The next access of the state by the thread that holds the lock -/
def locked (s : Sys) : Holder → Sys
  | .wakeLocked dropped curr => s.wakeLocked dropped curr
  | .store _ actual => { s with state := actual.withState .woken, holder := none }
  | .release dropped waker curr => s.released dropped waker curr
  | .wakeAll curr => s.wakeAll curr

end Sys

/-- A thread calls `wait`; begins to poll, makes the exchange, polls with the lock; drops a `Wait`; calls `wake`, and
gets its lock; gets the lock of `wake_all`; goes on with the lock; gets the lock for another batch; calls `close` or
`try_wait`. -/
inductive Action
  | wait
  | poll (i : Nat) (waker : Option Nat)
  | tryConsume (i : Nat)
  | pollWait (i : Nat)
  | drop (i : Nat)
  | wake
  | lockWake
  | lockWakeAll
  | locked
  | drainAll
  | drainClosed
  | close
  | tryWait
  deriving DecidableEq, Repr

/-- A step; `none` where it cannot be taken. -/
def Sys.step (s : Sys) (a : Action) : Option Sys :=
  if s.panicked then none
  else match a with
    | .wait => some s.wait
    | .poll i waker => do
      let wait ← s.waits i
      if wait.polling = .idle then some (s.poll i waker wait) else none
    | .tryConsume i => do
      let wait ← s.waits i
      match wait.polling with
      | .loaded waker loaded => some (s.tryConsume i wait waker loaded)
      | _ => none
    | .pollWait i => do
      let wait ← s.waits i
      match wait.polling with
      | .locking waker => if s.holder = none then some (s.pollWait i wait waker) else none
      | _ => none
    | .drop i => do
      let wait ← s.waits i
      if wait.polling = .idle then s.release i wait else none
    | .wake => some s.wake
    | .lockWake =>
      if 0 < s.waking ∧ s.holder = none then
        some { s with waking := s.waking - 1, holder := some (.wakeLocked none s.state) }
      else none
    | .lockWakeAll => if s.holder = none then some { s with holder := some (.wakeAll s.state) } else none
    | .locked => s.holder.map s.locked
    | .drainAll =>
      if 0 < s.draining ∧ s.holder = none then
        match s.drain .all with
        | none => some s.panic
        | some t => some { t with draining := if t.queue = [] then s.draining - 1 else s.draining }
      else none
    | .drainClosed =>
      if 0 < s.closing ∧ s.holder = none then
        match s.drain .closed with
        | none => some s.panic
        | some t => some { t with closing := if t.queue = [] then s.closing - 1 else s.closing }
      else none
    | .close => some s.close
    | .tryWait => some (if s.state.state = .woken then { s with state := s.state.withState .empty } else s)

end WaitQueue

end Metor.Impl
