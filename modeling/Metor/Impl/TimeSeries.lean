import Mathlib.Algebra.GroupWithZero.Nat
import Metor.Impl.Storage

/-!
# Time series (`libs/db/src/time_series_2.rs`)

A series is a stack of nodes, newest first; a node has an index log of
timestamps and a data log of element bytes. A node's files lie in a directory
under the series' own, named by the timestamp the node was created for
(`path`), and are the node's contents: what `TimeSeries::open` finds there is
what was written through the maps.

Functions that may panic return an `Option`, `none` being the panic.
-/

namespace Metor.Impl

open Metor.Lib (Bytes slice)

/-- The index of the greatest element that is at most `x`, or 0: the loop of `[T]::binary_search_by`,
which halves `size` until one element is left. `fuel` bounds the rounds. -/
def searchLoop (xs : List Int) (x : Int) : (fuel base size : Nat) → Nat
  | 0, base, _ => base
  | fuel + 1, base, size =>
    if size > 1 then
      let half := size / 2
      let mid := base + half
      searchLoop xs x fuel (if xs.getD mid 0 > x then base else mid) (size - half)
    else base

/-- `[T]::binary_search` of the standard library of the repository's toolchain (1.85). -/
def binarySearch (xs : List Int) (x : Int) : Except Nat Nat :=
  if xs.length = 0 then .error 0
  else
    let base := searchLoop xs x xs.length 0 xs.length
    let e := xs.getD base 0
    if e = x then .ok base else .error (base + if e < x then 1 else 0)

structure TimeSeriesNode where
  /-- The name of the node's directory. -/
  path : String
  index : AppendLog Int Int
  data : AppendLog Nat UInt8
  deriving DecidableEq, Repr

namespace TimeSeriesNode

/-- `NODE_SIZE` -/
def nodeSize : Nat := 1024 * 1024 * 32

/-- `TimeSeriesNode::create` in a directory where no node has this name. -/
def new (path : String) (startTimestamp : Int) (elementSize : Nat) : TimeSeriesNode :=
  ⟨path, .withSize nodeSize startTimestamp, .withSize nodeSize elementSize⟩

def timestamps (node : TimeSeriesNode) : List Int := node.index.data

def elementSize (node : TimeSeriesNode) : Nat := node.data.extra

end TimeSeriesNode

/-- The stack of a `TimeSeries`, newest node first. -/
abbrev TimeSeries := List TimeSeriesNode

structure TimestampRef where
  node : AtomicNode TimeSeriesNode
  timestamp : Int
  index : Nat
  deriving DecidableEq, Repr

/-- `range` is `start..=stop`. -/
structure TimeSeriesNodeSlice where
  node : AtomicNode TimeSeriesNode
  start : Nat
  stop : Nat
  deriving DecidableEq, Repr

namespace TimeSeriesNodeSlice

/-- `&timestamps[start..=end]`, the end clipped to the last timestamp. -/
def timestamps (s : TimeSeriesNodeSlice) : Option (List Int) :=
  let ts := s.node.value.timestamps
  let stop := if s.stop ≥ ts.length then ts.length - 1 else s.stop
  if s.start ≤ stop + 1 ∧ stop + 1 ≤ ts.length then some (slice ts s.start (stop + 1)) else none

/-- `&data[start..end]`, both ends clipped to the data. -/
def data (s : TimeSeriesNodeSlice) : Option Bytes :=
  let elementSize := s.node.value.elementSize
  let data := s.node.value.data.data
  let start := min (s.start * elementSize) data.length
  let stop := min ((s.stop + 1) * elementSize) data.length
  if start ≤ stop then some (slice data start stop) else none

end TimeSeriesNodeSlice

structure TimeSeriesSlice where
  start : TimestampRef
  stop : TimestampRef
  deriving DecidableEq, Repr

namespace TimeSeriesSlice

/-- `as_iter`: the nodes from the start's node on, which are the older ones. -/
def asIter (s : TimeSeriesSlice) : List TimeSeriesNodeSlice :=
  (atomicStackIter s.start.node.chain).map fun node =>
    { node := node
      start := if node.ptrEq s.start.node then s.start.index else 0
      stop := if node.ptrEq s.stop.node then s.stop.index else node.value.timestamps.length - 1 }

/-- `len` -/
def len (s : TimeSeriesSlice) : Option Nat :=
  (s.asIter.mapM TimeSeriesNodeSlice.timestamps).map fun tss => (tss.map List.length).sum

end TimeSeriesSlice

/-- `TimestampRef::data` -/
def TimestampRef.data (r : TimestampRef) : Option Bytes :=
  let elementSize := r.node.value.elementSize
  let data := r.node.value.data.data
  if (r.index + 1) * elementSize ≤ data.length then
    some (slice data (r.index * elementSize) ((r.index + 1) * elementSize))
  else none

namespace TimeSeries

/-- `open`, for a directory listed as `entries`: each node is pushed in turn. -/
def «open» (entries : List TimeSeriesNode) : TimeSeries :=
  entries.foldl (fun list node => node :: list) []

/-- `start_timestamp` -/
def startTimestamp (list : TimeSeries) : Option Int :=
  (list.filterMap fun node => node.timestamps.head?).min?

/-- The loop of `binary_search_nearest`, from `prev_node` on. -/
def searchNodes (timestamp : Int) (inclusive : Bool) : Option TimestampRef → TimeSeries → Option TimestampRef
  | prevNode, [] => prevNode
  | prevNode, value :: prev =>
    let node : AtomicNode TimeSeriesNode := ⟨value, prev⟩
    let timestamps := value.timestamps
    match timestamps.head?, timestamps.getLast? with
    | some start, some stop =>
      if timestamp > stop then
        match prevNode with
        | some p =>
          if (p.timestamp - timestamp).natAbs < (start - timestamp).natAbs then prevNode
          else some ⟨node, start, timestamps.length - inclusive.toNat⟩
        | none => some ⟨node, start, timestamps.length - inclusive.toNat⟩
      else if timestamp < start then
        searchNodes timestamp inclusive (some ⟨node, stop, 0⟩) prev
      else
        let index := match binarySearch timestamps timestamp with
          | .ok i => i
          | .error i => i - inclusive.toNat
        -- `timestamp ≤ stop`, so the index is in bounds.
        some ⟨node, timestamps.getD index stop, index⟩
    | _, _ => none

/-- `binary_search_nearest` -/
def binarySearchNearest (list : TimeSeries) (timestamp : Int) (inclusive : Bool) : Option TimestampRef :=
  searchNodes timestamp inclusive none list

/-- `get_range` -/
def getRange (list : TimeSeries) (start stop : Int) : Option TimeSeriesSlice := do
  let start ← list.binarySearchNearest start false
  let stop ← list.binarySearchNearest stop true
  return { start := start, stop := stop }

/-- `latest` -/
def latest (list : TimeSeries) : Option TimestampRef :=
  match list with
  | [] => none
  | value :: prev =>
    value.timestamps.getLast?.map fun t => ⟨⟨value, prev⟩, t, value.timestamps.length - 1⟩

/-- `is_empty` -/
def isEmpty (list : TimeSeries) : Bool := list.head?.isNone

/-! ## `TimerSeriesWriter` -/

/-- `try_push_buf`: the data is written before the index, and stays when the index is full. -/
def tryPushBuf (list : TimeSeries) (timestamp : Int) (buf : Bytes) : Except Error Bool × TimeSeries :=
  match list with
  | [] => (.ok false, [])
  | head :: prev =>
    match head.data.write 1 buf with
    | .error .mapOverflow => (.ok false, head :: prev)
    | .error e => (.error e, head :: prev)
    | .ok data =>
      let head := { head with data := data }
      match head.index.write 8 [timestamp] with
      | .error e => (.error e, head :: prev)
      | .ok index => (.ok true, { head with index := index } :: prev)

/-- `TimeSeriesNode::create` under the directory of the series. -/
def createNode (list : TimeSeries) (path : String) (startTimestamp : Int) (elementSize : Nat) :
    Except Error TimeSeriesNode :=
  if path ∈ list.map (·.path) then .error .alreadyExists
  else .ok (.new path startTimestamp elementSize)

/-- The rounds left to `push_buf`: after one new node it has no fresh directory to create. -/
def pushRounds (list : TimeSeries) (timestamp : Int) : Nat :=
  if toString timestamp ∈ list.map (·.path) then 0 else 1

/-- `push_buf`: try, add a node, and try again. -/
def pushBuf (list : TimeSeries) (timestamp : Int) (buf : Bytes) : Except Error Unit × TimeSeries :=
  match tryPushBuf list timestamp buf with
  | (.error e, list) => (.error e, list)
  | (.ok true, list) => (.ok (), list)
  | (.ok false, _) =>
    match _h : createNode list (toString timestamp) timestamp buf.length with
    | .error e => (.error e, list)
    | .ok node => pushBuf (node :: list) timestamp buf
termination_by pushRounds list timestamp
decreasing_by
  simp only [createNode] at _h
  split at _h
  · cases _h
  next hn =>
    cases _h
    rw [pushRounds, pushRounds, if_neg hn, if_pos (by rw [List.map_cons]; exact List.mem_cons_self)]
    exact Nat.zero_lt_one

end TimeSeries

end Metor.Impl
