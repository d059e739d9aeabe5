import Metor.Lib.LittleEndian

/-!
# Length-delimited reading (`libs/stellarator/src/io.rs`, `libs/stellarator/buf`)

A buffer is the list of its initialised bytes. An `AsyncRead` is the bytes
that its peer sends and `offer`, which says how many of them each read finds:
any way of splitting a stream into reads that are not empty is some `offer`.
An error ends the connection, so the reader is not followed beyond one.
-/

namespace Metor.Impl.Io

open Metor.Lib

inductive Error
  | eof
  | bufferOverflow
  | integerOverflow
  /-- `unwrap` of `None` -/
  | panic
  deriving DecidableEq, Repr

/-! ## `IoBuf` -/

/-- `range` is `start..stop`. -/
structure Slice where
  inner : Bytes
  start : Nat
  stop : Nat
  deriving DecidableEq, Repr

/-- `total_len`, of a `Slice` -/
def Slice.totalLen (s : Slice) : Nat := s.stop - s.start

/-- `deref` -/
def Slice.deref (s : Slice) : Option Bytes :=
  if s.start ≤ s.stop ∧ s.stop ≤ s.inner.length then some (slice s.inner s.start s.stop) else none

/-- `try_slice(start..stop)`, and `try_slice(start..)` for `none`. -/
def trySlice (buf : Bytes) (start : Nat) (stop : Option Nat) : Option Slice :=
  if start > buf.length then none
  else
    let stop := stop.getD buf.length
    if ¬ (stop ≤ buf.length ∨ start ≤ buf.length) then none else some ⟨buf, start, stop⟩

/-! ## `AsyncRead` -/

/-- The bytes still to be read, how many of them each read finds (one more than `offer` says), and
the number of reads made. -/
structure Transport where
  unread : Bytes
  offer : Nat → Nat
  reads : Nat

/-- `read` -/
def Transport.read (t : Transport) (buf : Slice) : Nat × Slice × Transport :=
  let n := min (t.offer t.reads + 1) (min buf.totalLen t.unread.length)
  (n, { buf with inner := overwrite buf.inner buf.start (t.unread.take n) },
    { t with unread := t.unread.drop n, reads := t.reads + 1 })

/-! ## `LengthDelReader` -/

/-- The types that `Length` is implemented for. -/
inductive Length
  | u32 | u64
  deriving DecidableEq, Repr

/-- `SIZE`, which is also `size_of` of the type. -/
def Length.size : Length → Nat
  | u32 => 4
  | u64 => 8

/-- The deque is the list of its bytes. -/
structure LengthDelReader where
  reader : Transport
  scratch : Bytes

namespace LengthDelReader

def new (reader : Transport) : LengthDelReader := ⟨reader, []⟩

/-- `read` -/
def read (r : LengthDelReader) (buf : Slice) : Nat × Slice × LengthDelReader :=
  if r.scratch ≠ [] then
    let takeLen := min r.scratch.length buf.totalLen
    (takeLen, { buf with inner := overwrite buf.inner buf.start (r.scratch.take takeLen) },
      { r with scratch := r.scratch.drop takeLen })
  else
    let (n, buf, reader) := r.reader.read buf
    (n, buf, { r with reader := reader })

/-- The two loops of `recv_growable`: `while total_read < target`. Every round reads something, so
`target - total_read` rounds are enough. -/
def readUntil (overflow : Error) (target : Nat) :
    (rounds totalRead : Nat) → Bytes → LengthDelReader → Except Error (Nat × Bytes × LengthDelReader)
  | 0, totalRead, buf, r => .ok (totalRead, buf, r)
  | rounds + 1, totalRead, buf, r =>
    if totalRead < target then
      match trySlice buf totalRead none with
      | none => .error overflow
      | some slice =>
        let (len, slice, r) := r.read slice
        if len = 0 then .error .eof
        else readUntil overflow target rounds (totalRead + len) slice.inner r
    else .ok (totalRead, buf, r)

/-- `recv_growable`, with `GrowableBuf::grow`. What was read beyond the frame goes to the back of
`scratch`. -/
def recvGrowable (L : Length) (grow : Bytes → Nat → Bytes) (r : LengthDelReader) (buf : Bytes) :
    Except Error (Slice × LengthDelReader) := do
  let (totalRead, buf, r) ← readUntil .panic L.size L.size 0 buf r
  let len := leNat (buf.take L.size)
  let requiredLen ← if len + L.size < 2 ^ 64 then .ok (len + L.size) else .error .integerOverflow
  let buf := grow buf requiredLen
  let (totalRead, buf, r) ← readUntil .bufferOverflow requiredLen (requiredLen - totalRead) totalRead buf r
  let extraRead := totalRead - requiredLen
  let r := if extraRead > 0 then { r with scratch := r.scratch ++ slice buf requiredLen totalRead } else r
  match trySlice buf L.size (some requiredLen) with
  | none => .error .bufferOverflow
  | some slice => .ok (slice, r)

/-- `grow` of a `GrowableBufWrapper` -/
def wrapperGrow (buf : Bytes) (_newLen : Nat) : Bytes := buf

/-- `recv` -/
def recv (L : Length) (r : LengthDelReader) (buf : Bytes) : Except Error (Slice × LengthDelReader) :=
  recvGrowable L wrapperGrow r buf

end LengthDelReader

end Metor.Impl.Io
