import Mathlib.Logic.Function.Basic
import Metor.Impl.Uring

/-!
# The operations of the reactor (`libs/stellarator/src/uring/ops.rs`)

An entry points to pieces of memory of its op code (`sqe`). A completion owns
its op code until it is ready or dropped. What `into_buf` keeps of it is then
owned by the value in the slot of the operation, if it fits there.
-/

namespace Metor.Impl.Uring

/-- The pieces of memory of an op code: its buffer, and what it has boxed. -/
inductive Region
  | buf | path | sockAddr | timespec | msghdr | ioSlices
  deriving DecidableEq, Repr

/-- The op codes, those with a buffer of any type by the size of it. -/
inductive OpCode
  | nop
  | read (size : Nat)
  | write (size : Nat)
  | openAt
  | close
  | accept
  | connect
  | timeout
  | sendTo (size : Nat)
  deriving DecidableEq, Repr

/-- A value that `into_buf` returns. -/
structure Buf where
  size : Nat
  regions : List Region
  deriving DecidableEq, Repr

/-- The size of a `Box`. -/
def boxSize : Nat := 8

namespace OpCode

/-- What the entry of `sqe` points to; a `SendMsg` through its message header. -/
def sqe : OpCode → List Region
  | nop => []
  | read _ => [.buf]
  | write _ => [.buf]
  | openAt => [.path]
  | close => []
  | accept => [.sockAddr]
  | connect => [.sockAddr]
  | timeout => [.timespec]
  | sendTo _ => [.msghdr, .sockAddr, .ioSlices, .buf]

def intoBuf : OpCode → Buf
  | nop => ⟨0, []⟩
  | read size => ⟨size, [.buf]⟩
  | write size => ⟨size, [.buf]⟩
  | openAt => ⟨0, []⟩
  | close => ⟨0, []⟩
  | accept => ⟨boxSize, [.sockAddr]⟩
  | connect => ⟨boxSize, [.sockAddr]⟩
  | timeout => ⟨boxSize, [.timespec]⟩
  | sendTo size => ⟨size, [.buf]⟩

end OpCode

/-- The reactor with the op code of each operation, and what the value in each slot owns, by operation. -/
structure Memory where
  reactor : UringReactor
  opCodes : List OpCode
  values : Nat → List (Nat × Region)

namespace Memory

def init : Memory := ⟨.init, [], fun _ => []⟩

inductive Act
  | submitOp (key : Nat) (room : Bool) (opCode : OpCode)
  | pollCompletion (n waker : Nat)
  | dropCompletion (n : Nat) (room : Bool)
  | waitForIo (timeout room : Bool)
  | wake (room : Bool)
  | processIo (entry : Entry) (result : Int)
  deriving DecidableEq, Repr

/-- An action that moves no value into a slot. -/
def lift (m : Memory) (r : Option UringReactor) : Option Memory := r.map fun reactor => { m with reactor }

def submitOp (m : Memory) (key : Nat) (room : Bool) (opCode : OpCode) : Option Memory :=
  (m.reactor.submitOp key room).map fun reactor =>
    { m with reactor, opCodes := if room then m.opCodes ++ [opCode] else m.opCodes }

section
variable (capacity : Nat)

/-- `Value::new_stable` holds a value if it is not larger than the place for it. -/
def newStable (buf : Buf) : Bool := buf.size ≤ capacity

/-- `drop_completion`: what `into_buf` keeps goes to the slot of the operation. -/
def dropCompletion (m : Memory) (n : Nat) (room : Bool) : Option Memory := do
  let c ← m.reactor.completions[n]?
  let opCode ← m.opCodes[n]?
  let reactor ← m.reactor.dropCompletion n (newStable capacity opCode.intoBuf) room
  if (m.reactor.states c.id).isSome ∧ c.opCode ∧ newStable capacity opCode.intoBuf then
    some { m with reactor, values := Function.update m.values c.id (opCode.intoBuf.regions.map fun region => (n, region)) }
  else some { m with reactor }

/-- The reactor and its memory after an action, if it can be taken. -/
def step (m : Memory) : Act → Option Memory
  | .submitOp key room opCode => m.submitOp key room opCode
  | .pollCompletion n waker => m.lift (m.reactor.pollCompletion n waker)
  | .dropCompletion n room => m.dropCompletion capacity n room
  | .waitForIo timeout room => m.lift (some (m.reactor.waitForIo timeout room))
  | .wake room => m.lift (some (m.reactor.wake room))
  | .processIo entry result => m.lift (m.reactor.processIo entry result)

end

end Memory

end Metor.Impl.Uring
