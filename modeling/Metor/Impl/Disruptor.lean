import Metor.Lib.Slice

/-!
# The write-ahead ring buffer (`libs/db/src/disruptor.rs`)

The positions of a `Disruptor` and the functions that compute them, as the
code does: `canWrite`, the two halves of `try_grant` (the load of `committed`
and what is done under the write lock), the commit in `Drop for WriteGrant`,
and the poll shared by `Reader::next` and `Reader::try_next`. Positions are
natural numbers: a buffer is at most `isize::MAX` bytes, so no sum of a
position and a length wraps.

`State` adds what the functions act on: the ring, the readers with the read
grant each holds, and the write grant that is out. The fields `log`, `birth`
and `handed` only record what happened: the writes committed so far, how many
there were when a reader was created, and the bytes a reader was given.
-/

namespace Metor.Impl.Disruptor

open Metor.Lib (Bytes slice overwrite)

/-- `Range<usize>`. -/
structure Range where
  start : Nat
  stop : Nat
  deriving DecidableEq, Repr

/-- The two indices of `WriteHead`; its `write_lock` is the `lock` of the system that uses it. -/
structure WriteHead where
  committed : Nat
  highWaterMark : Nat
  deriving DecidableEq, Repr

inductive DisruptorError
  | wouldBlock
  | insufficientCapacity
  deriving DecidableEq, Repr

/-- `can_write`: no reader's cursor stands in the way of `len` bytes at
`write`, nor of `len` bytes at the start when they do not fit before `max`. -/
def canWrite (readers : List Nat) (len write max : Nat) : Bool :=
  let bufferFull := readers.any fun cursor =>
    let read := cursor % max
    if write < read ∧ write + len ≥ read then true
    else write + len > max ∧ len ≥ read
  !bufferFull

/-- The load at the top of `try_grant`, made before the lock is taken. -/
def loadWrite (head : WriteHead) (max : Nat) : Nat := head.committed % max

/-- The part of `try_grant` under the write lock, from the loaded position `write`. -/
def reserve (head : WriteHead) (readers : List Nat) (max write len : Nat) :
    Except DisruptorError (WriteHead × Range) :=
  if len > max then .error .insufficientCapacity
  else if !canWrite readers len write max then .error .wouldBlock
  else if write + len > max then
    .ok ({ head with highWaterMark := 0 }, ⟨0, 0 + len⟩)
  else if write + len > head.highWaterMark then
    .ok ({ head with highWaterMark := write + len }, ⟨write, write + len⟩)
  else .ok (head, ⟨write, write + len⟩)

/-- `Disruptor::try_grant`, when nothing runs between its load and its lock. -/
def tryGrant (head : WriteHead) (readers : List Nat) (max len : Nat) :
    Except DisruptorError (WriteHead × Range) :=
  reserve head readers max (loadWrite head max) len

/-- `Drop for WriteGrant`: the commit of a granted range. -/
def commit (head : WriteHead) (max : Nat) (range : Range) : WriteHead :=
  let highWaterMark :=
    if range.stop < head.committed ∧ range.stop ≠ max then head.committed
    else if range.stop > head.highWaterMark then max
    else head.highWaterMark
  { committed := range.stop, highWaterMark := highWaterMark }

/-- The closure of `Reader::next` and the body of `Reader::try_next`: the
reader's new cursor and the range it is handed, if any. `none` is the
subtraction overflowing. -/
def tryNext (head : WriteHead) (cursor : Nat) : Option (Nat × Option Range) :=
  let write := head.committed
  let read := if cursor = head.highWaterMark ∧ write < cursor then 0 else cursor
  let stop := if write < read then head.highWaterMark else write
  if stop < read then none
  else
    let len := stop - read
    some (read, if len > 0 then some ⟨read, read + len⟩ else none)

/-! ## The system: one ring, its readers and its write grant -/

/-- A committed write: where it was granted and the bytes it held when it was dropped. -/
structure Write where
  range : Range
  bytes : Bytes
  deriving DecidableEq, Repr

/-- A `Reader`: the cursor of its node, and the `ReadGrant` it holds. -/
structure Reader where
  cursor : Nat
  grant : Option Range
  birth : Nat
  handed : Bytes
  deriving DecidableEq, Repr

structure State where
  ringbuf : Bytes
  head : WriteHead
  readers : List Reader
  grant : Option Range
  log : List Write
  deriving DecidableEq, Repr

namespace State

def cursors (s : State) : List Nat := s.readers.map (·.cursor)

/-- `ringbuf.len()` -/
def cap (s : State) : Nat := s.ringbuf.length

end State

/-- `Disruptor::new` -/
def new (capacity : Nat) : State :=
  { ringbuf := List.replicate capacity 0, head := ⟨0, 0⟩, readers := [], grant := none, log := [] }

/-- What the writer and the readers of one `Disruptor` do; readers are named
by their place in the list of readers. -/
inductive Act
  | grant (len : Nat)
  | fill (offset : Nat) (bytes : Bytes)
  | commit
  | reader
  | tryNext (i : Nat)
  | release (i : Nat)
  | dropReader (i : Nat)
  deriving DecidableEq, Repr

/-- `try_grant`, the load and the locked part together: a refused grant changes nothing. -/
def grantStep (s : State) (len : Nat) : State :=
  match tryGrant s.head s.cursors s.cap len with
  | .error _ => s
  | .ok (head, range) => { s with head := head, grant := some range }

/-- A write through `DerefMut for WriteGrant`, anywhere in the granted range. -/
def fillStep (s : State) (range : Range) (offset : Nat) (bytes : Bytes) : Option State :=
  if offset + bytes.length ≤ range.stop - range.start then
    some { s with ringbuf := overwrite s.ringbuf (range.start + offset) bytes }
  else none

/-- The commit of the write grant; the log records the bytes it leaves in the ring. -/
def commitStep (s : State) (range : Range) : State :=
  { s with
    head := commit s.head s.cap range
    grant := none
    log := s.log ++ [⟨range, slice s.ringbuf range.start range.stop⟩] }

/-- `Disruptor::reader`: the new node is pushed at the front. -/
def readerStep (s : State) : State :=
  { s with readers := ⟨s.head.committed, none, s.log.length, []⟩ :: s.readers }

/-- One poll of a reader that holds no grant. -/
def Reader.poll (s : State) (r : Reader) : Option Reader :=
  (tryNext s.head r.cursor).map fun (cursor, range) =>
    { r with
      cursor := cursor
      grant := range
      handed := r.handed ++ range.elim [] fun g => slice s.ringbuf g.start g.stop }

/-- `Drop for ReadGrant` -/
def Reader.release (r : Reader) (g : Range) : Reader := { r with cursor := g.stop, grant := none }

/-- The borrows of the source: a writer holds at most one grant, and a reader
is polled, or dropped, only while it holds no grant. -/
def step (s : State) : Act → Option State
  | .grant len => if s.grant = none ∧ 0 < len then some (grantStep s len) else none
  | .fill offset bytes => s.grant.bind fun g => fillStep s g offset bytes
  | .commit => s.grant.map fun g => commitStep s g
  | .reader => some (readerStep s)
  | .tryNext i => do
    let r ← s.readers[i]?
    guard (r.grant = none)
    let r' ← r.poll s
    return { s with readers := s.readers.set i r' }
  | .release i => do
    let r ← s.readers[i]?
    let g ← r.grant
    return { s with readers := s.readers.set i (r.release g) }
  | .dropReader i => do
    let r ← s.readers[i]?
    guard (r.grant = none)
    return { s with readers := s.readers.eraseIdx i }

/-! ## Several writers on one ring

`try_grant` loads `committed` before it takes `write_lock`. A write is the
steps load, lock, reserve, fill, commit, unlock; those from the lock on are
made by one writer at a time, and any number of writers may have loaded and be
waiting. `Drop for WriteGrant` commits, and the guard it holds unlocks after it.
-/

/-- How far the holder of `write_lock` is: it is about to check and reserve, from the
position it loaded, or holds the grant, or has committed it. -/
inductive Phase
  | locked (write len : Nat)
  | granted
  | committed
  deriving DecidableEq, Repr

structure Writers where
  ring : State
  /-- The writers waiting for the lock: the position each has loaded, and its length. -/
  loads : List (Nat × Nat)
  lock : Option Phase
  deriving DecidableEq, Repr

inductive WAct
  | load (len : Nat)
  | lock (i : Nat)
  | reserve
  | fill (offset : Nat) (bytes : Bytes)
  | commit
  | unlock
  | read (a : Act)
  deriving DecidableEq, Repr

/-- The steps of `Act` that a reader takes. -/
def Act.byReader : Act → Bool
  | .reader | .tryNext _ | .release _ | .dropReader _ => true
  | _ => false

/-- The ring with no reader and no write, and no writer at work. -/
def Writers.new (capacity : Nat) : Writers := ⟨Disruptor.new capacity, [], none⟩

/-- `reserve` under the lock: an error returns from `try_grant`, which drops the guard. -/
def reserveStep (s : Writers) (write len : Nat) : Writers :=
  match reserve s.ring.head s.ring.cursors s.ring.cap write len with
  | .error _ => { s with lock := none }
  | .ok (head, range) =>
    { s with ring := { s.ring with head := head, grant := some range }, lock := some .granted }

def wstep (s : Writers) : WAct → Option Writers
  | .load len =>
    if 0 < len then some { s with loads := s.loads ++ [(loadWrite s.ring.head s.ring.cap, len)] } else none
  | .lock i =>
    if s.lock = none then
      s.loads[i]?.map fun (write, len) =>
        { s with loads := s.loads.eraseIdx i, lock := some (.locked write len) }
    else none
  | .reserve =>
    match s.lock with
    | some (.locked write len) => some (reserveStep s write len)
    | _ => none
  | .fill offset bytes =>
    if s.lock = some .granted then (step s.ring (.fill offset bytes)).map fun ring => { s with ring := ring }
    else none
  | .commit =>
    if s.lock = some .granted then
      (step s.ring .commit).map fun ring => { s with ring := ring, lock := some .committed }
    else none
  | .unlock => if s.lock = some .committed then some { s with lock := none } else none
  | .read a => if a.byReader then (step s.ring a).map fun ring => { s with ring := ring } else none

/-! ## A WAL

The writers of a WAL push records, a timestamp each and what is recorded for
it. A task persists them: the first reader of the ring is its own, and stays
the last of the list.
-/

abbrev Record := Int × Bytes

structure Wal where
  writers : Writers
  /-- The records of the writers that wait for the lock. -/
  waiting : List Record
  /-- The record of the writer that holds it. -/
  writing : Option Record
  deriving DecidableEq, Repr

inductive WalAct
  | load (r : Record)
  | lock (i : Nat)
  | reserve
  /-- The record is copied into the grant, and the grant is dropped. -/
  | commit
  | unlock
  /-- A step of another reader. -/
  | read (a : Act)
  deriving DecidableEq, Repr

/-- The record that a writer comes with. -/
def WalAct.loaded : WalAct → Option Record
  | .load r => some r
  | _ => none

/-- A step that leaves the readers from the `n`th on as they are. -/
def Act.before (n : Nat) : Act → Bool
  | .reader => true
  | .tryNext i | .release i | .dropReader i => i < n
  | .grant _ | .fill _ _ | .commit => false

namespace Wal

/-- The ring, and the task's reader. -/
def new (capacity : Nat) : Wal := ⟨⟨readerStep (Disruptor.new capacity), [], none⟩, [], none⟩

def ring (w : Wal) : State := w.writers.ring

/-- The place of the task's reader. -/
def persister (w : Wal) : Nat := w.ring.readers.length - 1

/-- A record is written as `encode` says. -/
def step (encode : Record → Bytes) (w : Wal) : WalAct → Option Wal
  | .load r =>
    -- the position is taken modulo the length of the ring
    if 0 < w.ring.cap then
      (wstep w.writers (.load (encode r).length)).map fun writers =>
        { w with writers := writers, waiting := w.waiting ++ [r] }
    else none
  | .lock i => do
    let r ← w.waiting[i]?
    let writers ← wstep w.writers (.lock i)
    return ⟨writers, w.waiting.eraseIdx i, some r⟩
  | .reserve => (wstep w.writers .reserve).map fun writers =>
    { w with writers := writers, writing := if writers.lock = none then none else w.writing }
  | .commit => do
    let r ← w.writing
    let writers ← wstep w.writers (.fill 0 (encode r))
    let writers ← wstep writers .commit
    return { w with writers := writers }
  | .unlock => (wstep w.writers .unlock).map fun writers => { w with writers := writers, writing := none }
  | .read a =>
    if a.before w.persister then (wstep w.writers (.read a)).map fun writers => { w with writers := writers }
    else none

/-- The record that a step commits. -/
def committed (w : Wal) : WalAct → Option Record
  | .commit => w.writing
  | _ => none

/-- The task polls its reader. -/
def next (w : Wal) : Option Wal :=
  (wstep w.writers (.read (.tryNext w.persister))).map fun writers => { w with writers := writers }

/-- The bytes that the task's reader holds. -/
def held (w : Wal) : Option Bytes := do
  let r ← w.ring.readers[w.persister]?
  let g ← r.grant
  return slice w.ring.ringbuf g.start g.stop

/-- The task drops its grant. -/
def release (w : Wal) : Option Wal :=
  (wstep w.writers (.read (.release w.persister))).map fun writers => { w with writers := writers }

end Wal

end Metor.Impl.Disruptor
