import Mathlib.Logic.Function.Basic
import Metor.Lib.Run

/-!
# The polling reactor (`libs/stellarator/src/poll`)

Where there is no io_uring, an operation on a socket is tried whenever its task
is polled. Where it would block, the reactor sets the interest of the socket's
fd at the poller, and an event for that fd wakes all operations that the
reactor has ever seen on it. An event clears the interest of its fd, and a
socket that is closed has none. The program does not see that a socket is
closed; the number of its fd is free then for the next one.
-/

namespace Metor.Impl.Polling

/-- The directions of a `polling::Event`. -/
structure Interest where
  readable : Bool
  writable : Bool
  deriving DecidableEq, Repr

namespace Interest

def cleared : Interest := ⟨false, false⟩

/-- All of the other directions. -/
def Includes (i j : Interest) : Prop := (j.readable → i.readable) ∧ (j.writable → i.writable)

instance (i j : Interest) : Decidable (i.Includes j) := by
  unfold Includes
  infer_instance

end Interest

/-- `OpState`, with a waker known by the task it wakes. -/
inductive OpState
  | waiting (waker : Option Nat)
  | ready
  deriving DecidableEq, Repr

/-- The operations on sockets. -/
inductive OpCode
  | read | write | accept | connect | sendTo
  deriving DecidableEq, Repr

namespace OpCode

def event : OpCode → Interest
  | read => ⟨true, false⟩
  | write => ⟨false, true⟩
  | accept => ⟨true, false⟩
  | connect => ⟨false, true⟩
  | sendTo => ⟨false, true⟩

def initialState : OpCode → OpState
  | connect => .ready
  | _ => .waiting none

end OpCode

/-- `Completion`, with the fd of its socket; `pending` if its last poll was so, `alive` until it is ready or dropped. -/
structure Completion where
  id : Nat
  fd : Nat
  opCode : OpCode
  pending : Bool
  alive : Bool
  deriving DecidableEq, Repr

/-- The reactor, the interests that its poller has registered, the completions, the fds of the submissions that failed and
the tasks that were woken. -/
structure PollingReactor where
  poller : Nat → Option Interest
  states : Nat → Option OpState
  fds : Nat → Option (List Nat)
  events : List Nat
  completions : List Completion
  failed : List Nat
  woken : List Nat

namespace PollingReactor

def init : PollingReactor := ⟨fun _ => none, fun _ => none, fun _ => none, [], [], [], []⟩

/-- `Poller::modify` -/
def modify (r : PollingReactor) (fd : Nat) (event : Interest) : Option PollingReactor :=
  if (r.poller fd).isSome then some { r with poller := Function.update r.poller fd (some event) } else none

/-- `Poller::add` -/
def add (r : PollingReactor) (fd : Nat) (event : Interest) : Option PollingReactor :=
  if r.poller fd = none then some { r with poller := Function.update r.poller fd (some event) } else none

/-- The ids of an fd. -/
def setIds (r : PollingReactor) (fd : Nat) (ids : List Nat) : PollingReactor :=
  { r with fds := Function.update r.fds fd (some ids) }

/-- The slot of a key. -/
def setState (r : PollingReactor) (key : Nat) (state : Option OpState) : PollingReactor :=
  { r with states := Function.update r.states key state }

def fail (r : PollingReactor) (fd : Nat) : PollingReactor := { r with failed := r.failed ++ [fd] }

/-- `submit_op_reactor` -/
def submitOpReactor (r : PollingReactor) (fd : Nat) (opCode : OpCode) (id : Nat) : Option PollingReactor :=
  match r.fds fd with
  | some ids => (r.modify fd opCode.event).map fun r => r.setIds fd (ids ++ [id])
  | none => (r.add fd opCode.event).map fun r => r.setIds fd [id]

/-- `submit_op`, with the key that the slab inserts at; it keeps the slot where it fails. -/
def submitOp (r : PollingReactor) (key fd : Nat) (opCode : OpCode) : Option PollingReactor :=
  if r.states key = none then
    match (r.setState key (some opCode.initialState)).submitOpReactor fd opCode key with
    | some r => some { r with completions := r.completions ++ [⟨key, fd, opCode, false, true⟩] }
    | none => some ((r.setState key (some opCode.initialState)).fail fd)
  else none

/-- `poll_completion`, of a completion that is alive; `isReady` says whether the operation is ready. It panics where it finds
no state, or where the operation cannot be submitted again. -/
def pollCompletion (r : PollingReactor) (n waker : Nat) (isReady : Bool) : Option PollingReactor := do
  let c ← r.completions[n]?
  if c.alive then
    if r.states c.id = none then some (r.fail c.fd)
    else if isReady then
      some { r.setState c.id none with completions := r.completions.set n { c with alive := false } }
    else
      let r := { r.setState c.id (some (.waiting (some waker))) with
        completions := r.completions.set n { c with pending := true } }
      match r.submitOpReactor c.fd c.opCode c.id with
      | some r => some r
      | none => some (r.fail c.fd)
  else none

/-- A completion is dropped, of which the reactor learns nothing. -/
def dropCompletion (r : PollingReactor) (n : Nat) : Option PollingReactor := do
  let c ← r.completions[n]?
  if c.alive then some { r with completions := r.completions.set n { c with alive := false } } else none

/-- A socket is closed; a completion that is alive borrows its socket. -/
def close (r : PollingReactor) (fd : Nat) : Option PollingReactor :=
  if ∀ c ∈ r.completions, c.alive → c.fd ≠ fd then some { r with poller := Function.update r.poller fd none } else none

/-- `Poller::wait` adds the events of some fds with an interest, and clears that. -/
def wait (r : PollingReactor) (fds : List Nat) : Option PollingReactor :=
  if ∀ fd ∈ fds, ∃ i ∈ r.poller fd, i ≠ .cleared then
    some { r with
      poller := fun fd => if fd ∈ fds then some .cleared else r.poller fd
      events := r.events ++ fds }
  else none

/-- The waker that an id has is woken, and its state is ready. -/
def wakeId (r : PollingReactor) (id : Nat) : PollingReactor :=
  match r.states id with
  | none => r
  | some (.waiting (some waker)) => { r.setState id (some .ready) with woken := r.woken ++ [waker] }
  | some _ => r.setState id (some .ready)

/-- The loop of `process_io` with one event. -/
def processEvent (r : PollingReactor) (fd : Nat) : PollingReactor :=
  match r.fds fd with
  | none => r
  | some ids => ids.foldl wakeId r

/-- `process_io`, which waits for the events of `fds` if there are none. -/
def processIo (r : PollingReactor) (fds : List Nat) : Option PollingReactor :=
  (if r.events = [] then r.wait fds else some r).map fun r => { r.events.foldl processEvent r with events := [] }

end PollingReactor

inductive Act
  | submitOp (key fd : Nat) (opCode : OpCode)
  | pollCompletion (n waker : Nat) (isReady : Bool)
  | dropCompletion (n : Nat)
  | close (fd : Nat)
  | waitForIo (fds : List Nat)
  | processIo (fds : List Nat)
  deriving DecidableEq, Repr

/-- The reactor after an action, if it can be taken. -/
def step (r : PollingReactor) : Act → Option PollingReactor
  | .submitOp key fd opCode => r.submitOp key fd opCode
  | .pollCompletion n waker isReady => r.pollCompletion n waker isReady
  | .dropCompletion n => r.dropCompletion n
  | .close fd => r.close fd
  | .waitForIo fds => r.wait fds
  | .processIo fds => r.processIo fds

end Metor.Impl.Polling
