import Mathlib.Logic.Relation
import Metor.Impl.CancelToken
import Metor.Impl.IoBuf
import Metor.Impl.Polling
import Metor.Impl.Uring
import Metor.Impl.UringOps

/-!
# Cancel tokens: what is expected

A token is cancelled when it or one above it was, for good, and no other is.
-/

namespace Metor.Impl.CancelToken

namespace Tokens

/-- There is a token to ask. -/
def Live (s : Tokens) (i : Nat) : Prop := 0 < (s.inners i).tokens

instance (s : Tokens) (i : Nat) : Decidable (s.Live i) := inferInstanceAs (Decidable (0 < (s.inners i).tokens))

/-- `i` is a child of `j`. -/
def ChildOf (s : Tokens) (j i : Nat) : Prop := (s.inners i).parent = some j

/-- `i` is `j` or a descendant of it. -/
def Descends (s : Tokens) (j i : Nat) : Prop := Relation.ReflTransGen s.ChildOf j i

/-- A token is cancelled if it or one above it was cancelled. -/
def Hierarchical (s : Tokens) : Prop := ∀ i, s.Live i → ∀ j ∈ s.cancels, s.Descends j i → s.isCancelled i

/-- All live tokens below the children of `j` are cancelled already. -/
def Reached (s : Tokens) (j : Nat) : Prop :=
  ∀ i, s.Live i → s.Descends j i → i ≠ j → ¬ s.ChildOf j i → s.isCancelled i

/-- The live children of `j` are cancelled themselves, where its last `Arc` is dropped. -/
def Outlived (s : Tokens) (j : Nat) : Prop :=
  (s.inners j).strong = 1 → ∀ i, s.Live i → s.ChildOf j i → (s.inners i).cancelled

end Tokens

/-- No descendant of what is cancelled is further below than a child, no child is made of a token that only its parent
makes cancelled, and none outlives a cancelled parent. -/
def Shallow (s : Tokens) : Act → Prop
  | .child j => s.isCancelled j → (s.inners j).cancelled
  | .cancel j => s.Reached j
  | .drop j => (s.inners j).cancelled → s.Outlived j
  | .guardDropped j => s.Reached j ∧ s.Outlived j
  | .endWait w => ∀ j ∈ w.parent, (s.inners j).cancelled → s.Outlived j
  | _ => True

/-- What is cancelled stays so in all that can follow. -/
def Permanent (ok : Tokens → Act → Prop) (s : Tokens) : Prop :=
  ∀ t, Lib.Run step ok s t → ∀ i, s.Live i → t.Live i → s.isCancelled i → t.isCancelled i

/-- Only descendants are cancelled with a token. -/
def Isolated (s : Tokens) : Prop :=
  ∀ j t, step s (.cancel j) = some t → ∀ i, ¬ s.Descends j i → t.isCancelled i = s.isCancelled i

/-- A call of `wait` of a cancelled token returns at once. -/
def WaitsReturn (s : Tokens) : Prop := ∀ i, s.Live i → s.isCancelled i → step s (.startWait i) = some s

end Metor.Impl.CancelToken

/-!
## The io_uring reactor: what a completion gets

A completion that is ready because its slot completed has the completion of its
own entry, and one that was not dropped always finds its slot.
-/

namespace Metor.Impl.Uring

namespace UringReactor

/-- No completion failed to find the state of its operation. -/
def Found (r : UringReactor) : Prop := ∀ o ∈ r.outputs, ∃ cqe, o.2 = .output cqe

/-- What a completion is ready with is the completion of its own entry. -/
def Own (r : UringReactor) : Prop := ∀ o ∈ r.outputs, ∀ cqe, o.2 = .output cqe → cqe.entry.origin = .op o.1

end UringReactor

/-- A cancel completes while slot 0, whose key its entry carries, is vacant, or is that of an operation that was dropped
and that has completed. -/
def CancelsMiss (r : UringReactor) : Act → Prop
  | .processIo entry _ => entry.origin = .cancel →
    ∀ slot ∈ r.states 0, slot.state = .ignored ∧ ∀ e ∈ r.inFlight, e.origin ≠ .op slot.op
  | _ => True

instance (r : UringReactor) (a : Act) : Decidable (CancelsMiss r a) := by
  unfold CancelsMiss
  cases a <;> infer_instance

end Metor.Impl.Uring

/-!
## The memory of the operations: what is expected

What the entry of an operation points to has an owner as long as the entry is
in flight, and no slot is left to an operation that is over.
-/

namespace Metor.Impl.Uring

namespace UringReactor

/-- The completion of an operation has its op code. -/
def Live (r : UringReactor) (n : Nat) : Prop := ∃ c, r.completions[n]? = some c ∧ c.opCode ∧ ¬ c.dropped

/-- The entry of an operation has not completed. -/
def InFlight (r : UringReactor) (n : Nat) : Prop := ∃ e ∈ r.inFlight, e.origin = .op n

end UringReactor

namespace Memory

/-- The completion owns the memory, or the value of a slot that is ignored. -/
def Owned (m : Memory) (n : Nat) (region : Region) : Prop :=
  m.reactor.Live n ∨ ∃ k slot, m.reactor.states k = some slot ∧ slot.state = .ignored ∧ (n, region) ∈ m.values k

/-- What the entries in flight point to has an owner. -/
def AllOwned (m : Memory) : Prop :=
  ∀ n, m.reactor.InFlight n → ∀ opCode ∈ m.opCodes[n]?, ∀ region ∈ opCode.sqe, m.Owned n region

/-- An operation that has completed and is dropped has no slot. -/
def Recycled (m : Memory) : Prop :=
  ∀ n c, m.reactor.completions[n]? = some c → c.dropped → ¬ m.reactor.InFlight n →
    ∀ k slot, m.reactor.states k = some slot → slot.op ≠ n

/-- An operation that is not ready is dropped before it has completed, and its value fits and keeps all that its entry
points to; a cancel meets no slot that is in use. -/
def Keeps (capacity : Nat) (m : Memory) : Act → Prop
  | .dropCompletion n _ => ∀ c ∈ m.reactor.completions[n]?, c.opCode →
    (∀ slot ∈ m.reactor.states c.id, ∀ cqe, slot.state ≠ .completed cqe) ∧
    ∀ opCode ∈ m.opCodes[n]?, newStable capacity opCode.intoBuf ∧ ∀ region ∈ opCode.sqe, region ∈ opCode.intoBuf.regions
  | .processIo entry result => CancelsMiss m.reactor (.processIo entry result)
  | _ => True

instance (state : OpState) : Decidable (∀ cqe, state ≠ .completed cqe) :=
  match state with
  | .waiting _ => isTrue (by simp)
  | .completed cqe => isFalse fun h => h cqe rfl
  | .ignored => isTrue (by simp)

instance (capacity : Nat) (m : Memory) (a : Act) : Decidable (m.Keeps capacity a) := by
  unfold Keeps
  cases a <;> infer_instance

end Memory

end Metor.Impl.Uring

/-!
## The polling reactor: what is expected

No submission fails, and when all tasks that were woken have been polled, each
operation that waits has its direction in the interest of its fd.
-/

namespace Metor.Impl.Polling

namespace PollingReactor

/-- The last poll of the completion was pending. -/
def Waits (r : PollingReactor) (c : Completion) : Prop := c ∈ r.completions ∧ c.alive ∧ c.pending

/-- The completion was woken since its last poll. -/
def Woken (r : PollingReactor) (c : Completion) : Prop := r.states c.id = some .ready

/-- The direction of the completion is in the interest of its fd. -/
def Armed (r : PollingReactor) (c : Completion) : Prop := ∃ i ∈ r.poller c.fd, i.Includes c.opCode.event

/-- The events are processed, and the tasks that were woken have been polled. -/
def Polled (r : PollingReactor) : Prop := r.events = [] ∧ ∀ c, r.Waits c → ¬ r.Woken c

/-- Nothing has failed, and what waits can be woken. -/
structure Wakeable (r : PollingReactor) : Prop where
  submitted : r.failed = []
  armed : r.Polled → ∀ c, r.Waits c → r.Armed c

/-- What waits on the fd, and has not been woken, waits for a direction of the event. -/
def Agrees (r : PollingReactor) (fd : Nat) (event : Interest) : Prop :=
  ∀ c ∈ r.completions, c.alive → c.pending → c.fd = fd → r.states c.id ≠ some .ready → event.Includes c.opCode.event

end PollingReactor

/-- The interest of an fd is only set to what agrees with all that waits on it, and no fd is used again that was closed. -/
def Alone (r : PollingReactor) : Act → Prop
  | .submitOp _ fd opCode => ((r.fds fd).isSome → (r.poller fd).isSome) ∧ r.Agrees fd opCode.event
  | .pollCompletion n _ isReady => isReady = false → ∀ c ∈ r.completions[n]?, r.Agrees c.fd c.opCode.event
  | _ => True

instance (r : PollingReactor) (fd : Nat) (event : Interest) : Decidable (r.Agrees fd event) :=
  inferInstanceAs (Decidable (∀ c ∈ r.completions, _))

instance (r : PollingReactor) : (a : Act) → Decidable (Alone r a)
  | .submitOp _ _ _ => inferInstanceAs (Decidable (_ ∧ _))
  | .pollCompletion n _ isReady =>
    @instDecidableForall _ _ (inferInstanceAs (Decidable (isReady = false)))
      (inferInstanceAs (Decidable (∀ c ∈ r.completions[n]?, r.Agrees c.fd c.opCode.event)))
  | .dropCompletion _ | .close _ | .waitForIo _ | .processIo _ => isTrue trivial

end Metor.Impl.Polling

/-!
## What a slice of a buffer should be

`Act.target` is the buffer whose bytes a call asks for, and `Act.asked` the
range of it, computed without a bound on the numbers. A call is `Right` when an
in-bounds request is granted with exactly those bytes, and any other refused.
-/

namespace Metor.Impl.IoBuf

open Metor.Lib

/-- Every slice in it is within the initialised bytes of what it slices. -/
def Buf.Valid : Buf → Prop
  | vec _ _ => True
  | slice inner range => inner.Valid ∧ range.start ≤ range.stop ∧ range.stop ≤ inner.initLen

/-- The first byte of a range that starts here. -/
def RangeBound.first : RangeBound → Nat
  | included n => n.toNat
  | excluded n => n.toNat + 1
  | unbounded => 0

/-- The first byte after a range of a buffer of this length that ends here. -/
def RangeBound.last (len : Nat) : RangeBound → Nat
  | included n => n.toNat + 1
  | excluded n => n.toNat
  | unbounded => len

/-- The buffer that the range of a call is of: its own, or, where a slice is moved, the inner one. -/
def Act.target : Act → Buf → Buf
  | trySetRange _ _, .slice inner _ | setRange _ _, .slice inner _ | reset, .slice inner _ => inner
  | _, buf => buf

/-- The range asked for, of a target of this length. -/
def Act.asked (len : Nat) : Act → Range
  | trySlice start stop | trySubSlice start stop => ⟨start.first, stop.last len⟩
  | trySetRange start stop | setRange start stop => ⟨start.toNat, stop.toNat⟩
  | reset => ⟨0, len⟩

/-- A request within `len` bytes. -/
def Range.Within (r : Range) (len : Nat) : Prop := r.start ≤ r.stop ∧ r.stop ≤ len

instance (r : Range) (len : Nat) : Decidable (r.Within len) := inferInstanceAs (Decidable (_ ∧ _))

/-- `set_range` refuses by panicking, the others by their result. -/
def Act.Refused (buf : Buf) : Act → Reply → Prop
  | setRange _ _, r => r = .panicked .rangeOutOfBounds
  | _, r => ∃ left, r = .refused left ∧ ∀ b ∈ left, b = buf

/-- The reply to a call on `buf` is the right one. -/
def Right (buf : Buf) (a : Act) (r : Reply) : Prop :=
  let target := a.target buf
  let range := a.asked target.initLen
  if range.Within target.initLen then
    ∃ b, r = .granted b ∧ b.Valid ∧ b.deref = target.deref.map (slice · range.start range.stop)
  else a.Refused buf r

/-- The condition for the reply to be right: a request that is granted, or one that the tests of the
call refuse. -/
def Meets : Buf → Act → Prop
  | buf, .trySlice start stop =>
    start.first < 2 ^ 64 ∧ (start.first > buf.initLen ∨ Range.Within ⟨start.first, stop.last buf.initLen⟩ buf.initLen)
  | .slice inner range, .trySubSlice start stop =>
    Range.Within ⟨start.first, stop.last range.len⟩ range.len ∨
      start.first < 2 ^ 64 ∧ (start.first > range.stop ∨
        stop.last range.len < 2 ^ 64 ∧ (stop.last range.len > range.stop ∨ start.first + range.start > inner.initLen))
  | .slice inner _, .trySetRange start stop | .slice inner _, .setRange start stop =>
    (start.toNat ≤ inner.initLen ∨ stop.toNat ≤ inner.initLen) ∧ ¬ Range.Within ⟨start.toNat, stop.toNat⟩ inner.initLen
  | .slice _ _, .reset => True
  | .vec _ _, _ => True

end Metor.Impl.IoBuf
