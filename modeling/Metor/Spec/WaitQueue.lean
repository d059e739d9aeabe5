import Metor.Impl.WaitQueue
import Metor.Lib.Run

/-!
# What a wait queue is for

`Notify` stores at most one wakeup, and has those that wait in order. Each of
its actions is one step, where the queue takes several and other threads come
in between. The queue, seen as such (`Sys.notify`), is to do what it does. If it
is only woken as a whole, a count and the waiters are enough (`Users`).
-/

namespace Metor.Impl.WaitQueue

open Metor.Lib

/-! ## Runs -/

/-- The runs of a queue, whatever its threads do -/
def Reached (s : Sys) : Prop :=
  ∃ stored, (stored = .empty ∨ stored = .woken) ∧ Run Sys.step (fun _ _ => True) (.new stored) s

/-- What the thread that holds the lock does not expect: it has loaded `Waiting`, but `wake_all` finds the queue closed,
or `wake_locked` finds nothing in the list. -/
def Sys.Unexpected (s : Sys) : Prop :=
  (∃ curr, s.holder = some (.wakeAll curr) ∧ curr.state = .waiting ∧ s.state.state = .closed) ∨
    ∃ dropped curr, s.holder = some (.wakeLocked dropped curr) ∧ curr.state = .waiting ∧ s.queue = []

/-- Nothing is enqueued while `wake_all` has waiters remaining from its last batch, which would be taken from the list
with them, while the queue is `Waiting`. -/
def Sys.Ok (s : Sys) (a : Action) : Prop :=
  ∀ t, s.step a = some t → s.queue.length < t.queue.length → s.draining + s.closing = 0

/-- The runs of a queue in which that is so and it is not closed, with their actions -/
def OpenTrace (stored : State) (as : List Action) (s : Sys) : Prop :=
  Trace Sys.step (fun s a => s.Ok a ∧ a ≠ .close) (.new stored) as s

/-! ## Notifications -/

/-- What has become of a `Wait`: it has not been polled, it waits, or it has been woken by itself or with all -/
inductive Status
  | new
  | waiting
  | one
  | all
  deriving DecidableEq, Repr

def Status.wakeAll : Status → Status
  | .one => .one
  | _ => .all

/-- Whether a wakeup is stored, those that wait, the first one first, and what has become of each `Wait` that has been
created; `none` is one that is done with. -/
structure Notify where
  permit : Bool
  waiting : List Nat
  status : Nat → Option Status
  created : Nat

namespace Notify

def new (permit : Bool) : Notify := ⟨permit, [], fun _ => none, 0⟩

def set (n : Notify) (i : Nat) (status : Option Status) : Notify :=
  { n with status := Function.update n.status i status }

/-- The first one that waits is woken; if none does, the wakeup is stored. -/
def wake (n : Notify) : Notify :=
  match n.waiting with
  | [] => { n with permit := true }
  | i :: waiting => { n.set i (some .one) with waiting }

inductive Act
  | wait
  | take (i : Nat)
  | enqueue (i : Nat)
  | ready (i : Nat)
  | drop (i : Nat)
  | wake
  | wakeAll
  | tryWait
  deriving DecidableEq, Repr

/-- A wakeup that is dropped is for another one. -/
def step (n : Notify) : Act → Notify
  | .wait => { n.set n.created (some .new) with created := n.created + 1 }
  | .take i => { n.set i none with permit := false }
  | .enqueue i => { n.set i (some .waiting) with waiting := n.waiting ++ [i] }
  | .ready i => n.set i none
  | .drop i =>
    let rest := { n.set i none with waiting := n.waiting.erase i }
    if n.status i = some .one then rest.wake else rest
  | .wake => n.wake
  | .wakeAll => { n with waiting := [], status := fun i => (n.status i).map Status.wakeAll }
  | .tryWait => { n with permit := false }

/-- One waits only if no wakeup is stored, and is ready when it has been woken. A wakeup that is stored may be taken by
one that is woken with all before its first poll. -/
def Allowed (n : Notify) : Act → Prop
  | .take i => n.permit = true ∧ (n.status i = some .new ∨ n.status i = some .all)
  | .enqueue i => n.permit = false ∧ n.status i = some .new
  | .ready i => n.status i = some .one ∨ n.status i = some .all
  | .drop i => n.status i ≠ none
  | .tryWait => n.permit = true
  | _ => True

end Notify

/-- The runs of notifications, with their actions -/
def NotifyTrace (permit : Bool) (acts : List Notify.Act) (n : Notify) : Prop :=
  Trace (fun n a => some (Notify.step n a)) Notify.Allowed (.new permit) acts n

/-! ## The queue as notifications -/

/-- A node that is in the list -/
def Waiter.Linked (w : Waiter) : Prop := w.state = .waiting ∧ (w.waker = .empty ∨ ∃ waker, w.waker = .waiting waker)

/-- `wake_all` wakes all nodes of the list as it sets the state, though it takes some of them from it later. -/
def Waiter.status (q : QueueState) (w : Waiter) : Option Status :=
  match w.state, w.waker with
  | .start, _ => some (if w.wakeAlls = q.wakeAlls then .new else .all)
  | .waiting, .one => some .one
  | .waiting, .all => some .all
  | .waiting, .closed => none
  | .waiting, _ => some (if q.state = .waiting then .waiting else .all)
  | .woken, _ => none

/-- The `Wait` that has been dropped with a wakeup that is not yet another one's -/
def Holder.dropped : Holder → Option Nat
  | .wakeLocked dropped _ => dropped
  | .store dropped _ => dropped
  | .release dropped waker _ => if waker = .one then some dropped else none
  | .wakeAll _ => none

/-- The queue as notifications -/
def Sys.notify (s : Sys) : Notify where
  permit := s.state.state = .woken
  waiting := if s.state.state = .waiting then s.queue else []
  status i :=
    match s.waits i with
    | some wait => wait.waiter.status s.state
    | none => if s.holder.bind Holder.dropped = some i then some .one else none
  created := s.created

/-! ## What the steps of a queue are to the notifications -/

/-- A poll with the lock -/
def Waiter.act (w : Waiter) (q : QueueState) (i : Nat) : Option Notify.Act :=
  match w.state, w.waker with
  | .start, _ =>
    if q.wakeAlls ≠ w.wakeAlls then some (.ready i) else if q.state = .woken then some (.take i) else some (.enqueue i)
  | .waiting, .one => some (.ready i)
  | .waiting, .all => some (.ready i)
  | _, _ => none

/-- A wakeup that is dropped, or a new one -/
def handed : Option Nat → Notify.Act
  | none => .wake
  | some i => .drop i

/-- An access by the thread that holds the lock: `wake_locked` may fail to exchange the state, and stores it next. -/
def Holder.act (q : QueueState) : Holder → Option Notify.Act
  | .wakeLocked dropped curr => if curr.state ≠ .waiting ∧ q ≠ curr then none else some (handed dropped)
  | .store dropped _ => some (handed dropped)
  | .release .. => none
  | .wakeAll _ => some .wakeAll

/-- The action of the notifications that a step is, if it is one. A `wake` that finds others waiting is for later, and
so is the wakeup of a `Wait` that is dropped; one that has been ready is done with. -/
def Sys.act (s : Sys) : Action → Option Notify.Act
  | .wait => some .wait
  | .tryConsume i => do
    let wait ← s.waits i
    match wait.polling with
    | .loaded _ loaded => if s.state = loaded.withState .woken then some (.take i) else none
    | _ => none
  | .pollWait i => do
    let wait ← s.waits i
    wait.waiter.act s.state i
  | .drop i => do
    let wait ← s.waits i
    if wait.waiter.state = .woken ∨ wait.waiter.state = .waiting ∧ wait.waiter.waker = .one then none
    else some (.drop i)
  | .wake => if s.state.state = .waiting then none else some .wake
  | .locked => do
    let holder ← s.holder
    holder.act s.state
  | .tryWait => if s.state.state = .woken then some .tryWait else none
  | _ => none

/-- What a run of the queue is to the notifications -/
def acts (stored : State) (as : List Action) : List Notify.Act := labels Sys.step Sys.act (.new stored) as

/-- Whether it calls `wake`, and not for a `Wait` that is dropped -/
def Holder.wakes : Holder → Nat
  | .wakeLocked none _ => 1
  | .store none _ => 1
  | _ => 0

def Holder.wakesAll : Holder → Nat
  | .wakeAll _ => 1
  | _ => 0

/-- The calls of `wake` that are yet to wake one -/
def Sys.wakes (s : Sys) : Nat := s.waking + s.holder.elim 0 Holder.wakes

/-- The calls of `wake_all` that are yet to wake all -/
def Sys.wakesAll (s : Sys) : Nat := s.holder.elim 0 Holder.wakesAll

/-! ## A queue that is only woken as a whole -/

/-- What its users have of such a queue: how often it was woken, and each waiter -/
structure Users where
  wakeAlls : Nat
  waiters : Nat → Option Impl.Waiter
  created : Nat

namespace Users

def new : Users := ⟨0, fun _ => none, 0⟩

def set (u : Users) (i : Nat) (waiter : Option Impl.Waiter) : Users :=
  { u with waiters := Function.update u.waiters i waiter }

inductive Act
  | wait
  | poll (i : Nat)
  | drop (i : Nat)
  | wakeAll
  deriving DecidableEq, Repr

def step (u : Users) : Act → Users
  | .wait => { u.set u.created (some (.start u.wakeAlls)) with created := u.created + 1 }
  | .poll i => u.set i ((u.waiters i).map (Impl.Waiter.poll u.wakeAlls))
  | .drop i => u.set i none
  | .wakeAll => { u with wakeAlls := u.wakeAlls + 1, waiters := fun i => (u.waiters i).map Impl.Waiter.wakeAll }

end Users

def UsersTrace (acts : List Users.Act) (u : Users) : Prop :=
  Trace (fun u a => some (Users.step u a)) (fun _ _ => True) .new acts u

def Waiter.seen (q : QueueState) (w : Waiter) : Impl.Waiter :=
  match w.state, w.waker with
  | .start, _ => .start w.wakeAlls
  | .waiting, .empty => if q.state = .waiting then .waiting else .woken
  | .waiting, .waiting _ => if q.state = .waiting then .waiting else .woken
  | _, _ => .woken

/-- The queue as its users have it -/
def Sys.users (s : Sys) : Users where
  wakeAlls := s.state.wakeAlls
  waiters i := (s.waits i).map fun wait => wait.waiter.seen s.state
  created := s.created

/-- The runs of a queue that is not closed and only woken as a whole, with their actions -/
def WholeTrace (as : List Action) (s : Sys) : Prop :=
  Trace Sys.step (fun s a => (s.Ok a ∧ a ≠ .close) ∧ a ≠ .wake) (.new .empty) as s

def Holder.usersAct : Holder → Option Users.Act
  | .wakeAll _ => some .wakeAll
  | _ => none

/-- The action of its users that a step is, if it is one. A poll is one when it returns. -/
def Sys.usersAct (s : Sys) : Action → Option Users.Act
  | .wait => some .wait
  | .poll i _ => do
    let wait ← s.waits i
    if wait.waiter.state = .woken then some (.poll i) else none
  | .pollWait i => some (.poll i)
  | .drop i => some (.drop i)
  | .locked => s.holder.bind Holder.usersAct
  | _ => none

/-- What a run of the queue is to its users -/
def usersActs (as : List Action) : List Users.Act := labels Sys.step Sys.usersAct (.new .empty) as

/-! ## What is asked of a queue -/

/-- A `Wait` whose last poll was pending is in the list with the waker of that poll, or the waker has been called: it is
among those called by then, which are never taken from `woken`, and called as the thread unlocks that took it. -/
def Wait.Heard (s : Sys) (i : Nat) (wait : Wait) : Prop :=
  wait.polled = some .pending →
    i ∈ s.queue ∧ wait.waiter.waker = wait.waker.elim .empty .waiting ∨
    i ∉ s.queue ∧ (wait.waiter.waker = .one ∨ wait.waiter.waker = .all ∨ wait.waiter.waker = .closed) ∧
      ∀ waker ∈ wait.waker, waker ∈ s.woken

/-- Nothing is left that could wake a queue that is closed: no `wake` is at the lock, and no `Wait` that may be dropped
has a wakeup. -/
def Sys.Settled (s : Sys) : Prop :=
  s.waking = 0 ∧
    ∀ i, ∀ wait ∈ s.waits i, wait.waiter.state = .waiting → wait.waiter.waker = .one → wait.polling ≠ .idle

end Metor.Impl.WaitQueue
