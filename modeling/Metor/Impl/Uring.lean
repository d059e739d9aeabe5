import Mathlib.Logic.Function.Basic
import Metor.Lib.Run

/-!
# The io_uring reactor (`libs/stellarator/src/uring/mod.rs`)

The reactor keeps the state of each operation in a slab and sends the key of
its slot as the `user_data` of its entry. What the kernel completes carries the
`user_data` back, and the slot of that key is what completes. The slot of an
operation whose future is dropped stays `Ignored` until it completes, and a
cancel is sent for it.

An entry also says what it was sent for, and a slot which operation it was
inserted for: the program knows neither. `process_io` takes the completions
that have come one after the other; each is a step of its own.
-/

namespace Metor.Impl.Uring

/-- What an entry of the submission queue is sent for. -/
inductive Origin
  | op (n : Nat) | cancel | timeout | nop
  deriving DecidableEq, Repr

/-- `squeue::Entry` -/
structure Entry where
  userData : Nat
  origin : Origin
  deriving DecidableEq, Repr

/-- `cqueue::Entry` -/
structure Cqe where
  entry : Entry
  result : Int
  deriving DecidableEq, Repr

/-- `OpState`, with a waker known by the task it wakes. -/
inductive OpState
  | waiting (waker : Option Nat)
  | completed (cqe : Cqe)
  | ignored
  deriving DecidableEq, Repr

/-- A slot of the slab. -/
structure Slot where
  op : Nat
  state : OpState
  deriving DecidableEq, Repr

/-- `Completion`; `op_code` is taken once. -/
structure Completion where
  id : Nat
  opCode : Bool
  dropped : Bool
  deriving DecidableEq, Repr

/-- What a completion is ready with. -/
inductive Output
  | output (cqe : Cqe)
  | completionStateMissing
  | polledIgnoredCompletion
  deriving DecidableEq, Repr

/-- `u64::MAX`, of the entries that no slot is for -/
def noUserData : Nat := 0xffffffffffffffff

/-- A slab has fewer slots than a `Vec` can have bytes. -/
def maxSlots : Nat := 0x8000000000000000

/-- The reactor, the entries that have not completed, and the completions by the number of their operation. -/
structure UringReactor where
  states : Nat → Option Slot
  inFlight : List Entry
  completions : List Completion
  outputs : List (Nat × Output)
  woken : List Nat

namespace UringReactor

def init : UringReactor := ⟨fun _ => none, [], [], [], []⟩

/-- An entry is pushed if the submission queue has room. -/
def push (r : UringReactor) (room : Bool) (entry : Entry) : UringReactor :=
  if room then { r with inFlight := r.inFlight ++ [entry] } else r

/-- The slot of a key. -/
def setState (r : UringReactor) (key : Nat) (slot : Option Slot) : UringReactor :=
  { r with states := Function.update r.states key slot }

/-- `submit_op`, with the key that `vacant_entry` returns. -/
def submitOp (r : UringReactor) (key : Nat) (room : Bool) : Option UringReactor :=
  if r.states key = none ∧ key < maxSlots then
    if room then
      some { (r.push true ⟨key, .op r.completions.length⟩).setState key (some ⟨r.completions.length, .waiting none⟩) with
        completions := r.completions ++ [⟨key, true, false⟩] }
    else some r
  else none

/-- The completion is ready: its `op_code` is taken. -/
def ready (r : UringReactor) (n : Nat) (c : Completion) (out : Output) : UringReactor :=
  { r with completions := r.completions.set n { c with opCode := false }, outputs := r.outputs ++ [(n, out)] }

/-- `poll_completion`, of a completion that is neither dropped nor ready. -/
def pollCompletion (r : UringReactor) (n waker : Nat) : Option UringReactor := do
  let c ← r.completions[n]?
  if c.opCode ∧ ¬ c.dropped then
    match r.states c.id with
    | none => some (r.ready n c .completionStateMissing)
    | some slot =>
      match slot.state with
      | .waiting _ => some (r.setState c.id (some { slot with state := .waiting (some waker) }))
      | .completed cqe => some ((r.setState c.id none).ready n c (.output cqe))
      | .ignored => some (r.ready n c .polledIgnoredCompletion)
  else none

/-- The entry of an `AsyncCancel`, which is built without `user_data`. -/
def asyncCancel : Entry := ⟨0, .cancel⟩

/-- `drop_completion`; `stable` says whether the buffer fits in the place that keeps it. -/
def dropCompletion (r : UringReactor) (n : Nat) (stable room : Bool) : Option UringReactor := do
  let c ← r.completions[n]?
  if c.dropped then none
  else
    let r := { r with completions := r.completions.set n { c with dropped := true } }
    match r.states c.id with
    | none => some r
    | some slot =>
      if c.opCode ∧ stable then
        match slot.state with
        | .waiting _ => some ((r.push room asyncCancel).setState c.id (some { slot with state := .ignored }))
        | _ => some (r.setState c.id (some { slot with state := .ignored }))
      else some r

/-- `wait_for_io` -/
def waitForIo (r : UringReactor) (timeout room : Bool) : UringReactor :=
  if timeout then r.push room ⟨noUserData, .timeout⟩ else r

/-- `ExternalWaker::wake` -/
def wake (r : UringReactor) (room : Bool) : UringReactor := r.push room ⟨noUserData, .nop⟩

/-- The loop of `process_io` with one completion. -/
def complete (r : UringReactor) (comp : Cqe) : UringReactor :=
  match r.states comp.entry.userData with
  | none => r
  | some slot =>
    match slot.state with
    | .ignored => r.setState comp.entry.userData none
    | .waiting (some waker) =>
      { r.setState comp.entry.userData (some { slot with state := .completed comp }) with woken := r.woken ++ [waker] }
    | _ => r.setState comp.entry.userData (some { slot with state := .completed comp })

/-- `process_io` gets to an entry that has completed. -/
def processIo (r : UringReactor) (entry : Entry) (result : Int) : Option UringReactor :=
  if entry ∈ r.inFlight then some ({ r with inFlight := r.inFlight.erase entry }.complete ⟨entry, result⟩) else none

end UringReactor

inductive Act
  | submitOp (key : Nat) (room : Bool)
  | pollCompletion (n waker : Nat)
  | dropCompletion (n : Nat) (stable room : Bool)
  | waitForIo (timeout room : Bool)
  | wake (room : Bool)
  | processIo (entry : Entry) (result : Int)
  deriving DecidableEq, Repr

/-- The reactor after an action, if it can be taken. -/
def step (r : UringReactor) : Act → Option UringReactor
  | .submitOp key room => r.submitOp key room
  | .pollCompletion n waker => r.pollCompletion n waker
  | .dropCompletion n stable room => r.dropCompletion n stable room
  | .waitForIo timeout room => some (r.waitForIo timeout room)
  | .wake room => some (r.wake room)
  | .processIo entry result => r.processIo entry result

end Metor.Impl.Uring
