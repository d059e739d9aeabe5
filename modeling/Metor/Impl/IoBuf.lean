import Mathlib.Algebra.GroupWithZero.Nat
import Metor.Lib.Slice

/-!
# Slices of buffers (`libs/stellarator/buf/src/lib.rs`)

A `Buf` is a buffer that owns its bytes (a `Vec`, a static slice or array) or a
`Slice` of another one, so any nesting of slices is a `Buf`. Lengths and ranges
are numbers, the bounds a caller gives are `usize`s. An addition that overflows
is a panic.
-/

namespace Metor.Impl.IoBuf

open Metor.Lib

inductive Panic
  /-- Of an addition. -/
  | overflow
  | outOfRange
  | rangeOutOfBounds
  deriving DecidableEq, Repr

/-- `ops::Bound` -/
inductive RangeBound
  | included (n : UInt64)
  | excluded (n : UInt64)
  | unbounded
  deriving DecidableEq, Repr

/-- `begin` -/
def RangeBound.start : RangeBound → Except Panic Nat
  | included n => .ok n.toNat
  | excluded n => if n.toNat + 1 < 2 ^ 64 then .ok (n.toNat + 1) else .error .overflow
  | unbounded => .ok 0

/-- `end`, of a buffer of this length. -/
def RangeBound.stop (initLen : Nat) : RangeBound → Except Panic Nat
  | included n => if n.toNat + 1 < 2 ^ 64 then .ok (n.toNat + 1) else .error .outOfRange
  | excluded n => .ok n.toNat
  | unbounded => .ok initLen

structure Range where
  start : Nat
  stop : Nat
  deriving DecidableEq, Repr

/-- `len`, which is 0 for a reversed range. -/
def Range.len (r : Range) : Nat := r.stop - r.start

inductive Buf
  /-- No allocation is longer than `isize::MAX`. -/
  | vec (bytes : Bytes) (length_lt : bytes.length < 2 ^ 63)
  | slice (inner : Buf) (range : Range)
  deriving DecidableEq, Repr

namespace Buf

/-- `init_len` -/
def initLen : Buf → Nat
  | vec bytes _ => bytes.length
  | slice _ range => range.len

/-- `deref`, unless it panics. -/
def deref : Buf → Option Bytes
  | vec bytes _ => some bytes
  | slice inner range =>
    inner.deref.bind fun bytes =>
      if range.start ≤ range.stop ∧ range.stop ≤ bytes.length then some (Lib.slice bytes range.start range.stop) else none

/-- `try_slice` -/
def trySlice (self : Buf) (start stop : RangeBound) : Except Panic (Option Buf) := do
  let start ← start.start
  if start > self.initLen then pure none
  else
    let stop ← stop.stop self.initLen
    if ¬ (stop ≤ self.initLen ∨ start ≤ self.initLen) then pure none
    else pure (some (slice self ⟨start, stop⟩))

end Buf

/-! ## `Slice<T>`, of the buffer `inner` -/

/-- `usize::checked_add` -/
def checkedAdd (a b : Nat) : Option UInt64 := if a + b < 2 ^ 64 then some (UInt64.ofNat (a + b)) else none

namespace Slice

/-- `reset` -/
def reset (inner : Buf) : Range := ⟨0, inner.initLen⟩

/-- `try_set_range` -/
def trySetRange (inner : Buf) (self : Range) (start stop : UInt64) : Bool × Range :=
  if start.toNat ≤ inner.initLen ∨ stop.toNat ≤ inner.initLen then (false, self)
  else (true, ⟨start.toNat, stop.toNat⟩)

/-- `set_range` -/
def setRange (inner : Buf) (self : Range) (start stop : UInt64) : Except Panic Range :=
  match trySetRange inner self start stop with
  | (true, range) => .ok range
  | (false, _) => .error .rangeOutOfBounds

/-- `try_sub_slice` -/
def trySubSlice (inner : Buf) (self : Range) (start stop : RangeBound) : Except Panic (Option Buf) := do
  let start ← start.start
  if start > self.stop then pure none
  else
    let stop ← stop.stop self.len
    if stop > self.stop then pure none
    else
      match checkedAdd start self.start, checkedAdd stop self.start with
      | some start, some stop => inner.trySlice (.included start) (.excluded stop)
      | _, _ => pure none

end Slice

/-! ## Calls -/

/-- A call on a buffer. -/
inductive Act
  | trySlice (start stop : RangeBound)
  | trySubSlice (start stop : RangeBound)
  | trySetRange (start stop : UInt64)
  | setRange (start stop : UInt64)
  | reset
  deriving DecidableEq, Repr

/-- What a call comes to. -/
inductive Reply
  | granted (buf : Buf)
  /-- `None` or `false`. The calls that take `self` leave no buffer. -/
  | refused (left : Option Buf)
  | panicked (reason : Panic)
  deriving DecidableEq, Repr

/-- The reply of a call that takes `self`. -/
def Reply.of : Except Panic (Option Buf) → Reply
  | .ok (some buf) => granted buf
  | .ok none => refused none
  | .error reason => panicked reason

/-- The call and its reply; only a slice has all of the calls. -/
def call : Buf → Act → Option Reply
  | buf, .trySlice start stop => some (.of (buf.trySlice start stop))
  | .slice inner range, .trySubSlice start stop => some (.of (Slice.trySubSlice inner range start stop))
  | .slice inner range, .trySetRange start stop =>
    match Slice.trySetRange inner range start stop with
    | (true, range) => some (.granted (.slice inner range))
    | (false, range) => some (.refused (some (.slice inner range)))
  | .slice inner range, .setRange start stop =>
    match Slice.setRange inner range start stop with
    | .ok range => some (.granted (.slice inner range))
    | .error reason => some (.panicked reason)
  | .slice inner _, .reset => some (.granted (.slice inner (Slice.reset inner)))
  | .vec _ _, _ => none

/-- The buffer to go on with: the new slice, or the buffer before the call (or its clone). -/
def step (buf : Buf) (a : Act) : Option Buf :=
  (call buf a).map fun
    | .granted buf => buf
    | .refused left => left.getD buf
    | .panicked _ => buf

end Metor.Impl.IoBuf
