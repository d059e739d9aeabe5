import Metor.Impl.Proto
import Metor.Impl.TimeSeries

/-!
# Components: pushing and persisting samples (`Component` in `libs/db/src/lib.rs`)

`Component::push_buf` compares the timestamp with `last_timestamp`, writes a
record (the timestamp and the value) through a grant of the WAL, and then
raises `last_timestamp`; any number of connections do so at once. `persist`
reads what was committed and appends it to the time series. The WAL is a
queue of the grants committed and not yet read.
-/

namespace Metor.Impl

open Metor.Lib Metor.Impl.Proto

structure ComponentSchema where
  primType : PrimType
  dim : List Nat
  deriving DecidableEq, Repr

/-- `size`: a product of `usize`, which wraps. -/
def ComponentSchema.size (s : ComponentSchema) : Nat := s.dim.prod * s.primType.size % 2 ^ 64

/-- `size` is `schema.size()`. -/
structure Component where
  size : Nat
  lastTimestamp : Int
  timeSeries : TimeSeries
  deriving DecidableEq, Repr

/-- `Component::create` -/
def Component.create (size : Nat) : Component := ⟨size, i64Min, []⟩

/-- The bytes of a grant in `push_buf`. -/
def record (timestamp : Int) (value : Bytes) : Bytes := i64Bytes timestamp ++ value

/-- The loop `'parse` of `persist`, over the bytes of one read; a failed push is logged and passed over. -/
def parseLoop (size : Nat) (buf : Bytes) (list : TimeSeries) : TimeSeries :=
  let msgSize := size + 8
  if msgSize ≤ buf.length then
    let msg := buf.take msgSize
    parseLoop size (buf.drop msgSize) (list.pushBuf (i64OfBytes (msg.take 8)) (msg.drop 8)).2
  else list
termination_by buf.length
decreasing_by simp only [List.length_drop]; omega

/-- The connections that push to one component. -/
structure Pushers where
  component : Component
  wal : List Bytes
  /-- Past the comparison with `last_timestamp`. -/
  checked : List (Int × Bytes)
  /-- The holder of the write lock, its grant filled. -/
  granted : Option (Int × Bytes)
  /-- Committed, with `last_timestamp` still to raise. -/
  committed : List Int
  deriving DecidableEq, Repr

inductive PushAct
  | check (timestamp : Int) (value : Bytes)
  | grant (i : Nat)
  /-- `try_grant` fails: the sample is dropped. -/
  | skip (i : Nat)
  | commit
  | updateMax (i : Nat)
  /-- `persist` is handed the next `n` commits. -/
  | persist (n : Nat)
  deriving DecidableEq, Repr

def Pushers.new (size : Nat) : Pushers := ⟨.create size, [], [], none, []⟩

/-- A value is as long as the component's schema says: `insert_vtable` checks the schema of every
field whose values are pushed. -/
def pushStep (s : Pushers) : PushAct → Option Pushers
  | .check timestamp value =>
    if IsI64 timestamp ∧ value.length = s.component.size then
      if timestamp < s.component.lastTimestamp then some s
      else some { s with checked := s.checked ++ [(timestamp, value)] }
    else none
  | .grant i =>
    if s.granted = none then
      s.checked[i]?.map fun p => { s with checked := s.checked.eraseIdx i, granted := some p }
    else none
  | .skip i =>
    if s.granted = none then s.checked[i]?.map fun _ => { s with checked := s.checked.eraseIdx i } else none
  | .commit => s.granted.map fun (timestamp, value) =>
    { s with
      wal := s.wal ++ [record timestamp value]
      granted := none
      committed := s.committed ++ [timestamp] }
  | .updateMax i => s.committed[i]?.map fun timestamp =>
    { s with
      component.lastTimestamp := max s.component.lastTimestamp timestamp
      committed := s.committed.eraseIdx i }
  | .persist n =>
    if n ≤ s.wal.length then
      some { s with
        wal := s.wal.drop n
        component.timeSeries := parseLoop s.component.size (s.wal.take n).flatten s.component.timeSeries }
    else none

end Metor.Impl
