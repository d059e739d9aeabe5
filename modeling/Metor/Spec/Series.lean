import Metor.Impl.MsgLog
import Metor.Impl.TimeSeries

/-!
# What a time series holds

A series stands for its samples: timestamps, each with the bytes of its
element. `Valid` is what the searches over a series rely on: nodes that are
not empty and hold one element for each timestamp, and timestamps that do not
decrease, within a node and from each node to the newer ones.
-/

namespace Metor.Impl

open Metor.Lib (Bytes slice)

/-- The first `n` elements of `elementSize` bytes of a data log. -/
def elements (elementSize n : Nat) (data : Bytes) : List Bytes :=
  (List.range n).map fun i => slice data (i * elementSize) ((i + 1) * elementSize)

/-- The timestamps, each with its element. -/
def samplesOf (elementSize : Nat) (timestamps : List Int) (data : Bytes) : List (Int × Bytes) :=
  timestamps.zip (elements elementSize timestamps.length data)

namespace TimeSeriesNode

def samples (n : TimeSeriesNode) : List (Int × Bytes) := samplesOf n.elementSize n.timestamps n.data.data

/-- The first timestamp of a node that is not empty. -/
def first (n : TimeSeriesNode) : Int := n.timestamps.headD 0

/-- The last timestamp of a node that is not empty. -/
def last (n : TimeSeriesNode) : Int := n.timestamps.getLastD 0

structure Valid (n : TimeSeriesNode) : Prop where
  ne_nil : n.timestamps ≠ []
  data : n.data.data.length = n.timestamps.length * n.elementSize
  sorted : n.timestamps.Pairwise (· ≤ ·)

end TimeSeriesNode

/-- What a slice of a node yields: its timestamps, each with its element of its data. `none` is a
panic, or data that is not one element for each timestamp. -/
def TimeSeriesNodeSlice.samples (s : TimeSeriesNodeSlice) : Option (List (Int × Bytes)) := do
  let timestamps ← s.timestamps
  let data ← s.data
  if data.length = timestamps.length * s.node.value.elementSize then
    return samplesOf s.node.value.elementSize timestamps data
  else none

namespace TimeSeries

/-- The samples of all nodes, node by node from the newest on. -/
def samples (list : TimeSeries) : List (Int × Bytes) := list.flatMap TimeSeriesNode.samples

structure Valid (list : TimeSeries) : Prop where
  node : ∀ n ∈ list, n.Valid
  across : list.Pairwise fun new old => ∀ x ∈ old.timestamps, ∀ y ∈ new.timestamps, x ≤ y

end TimeSeries

end Metor.Impl

/-!
## The sample nearest to a time: what it should be

The last sample up to the time, or the first of all when every sample is after
it. Series and message logs are searched alike, so the stack and what is read
of its nodes are parameters here.
-/

namespace Metor.Impl

open Metor.Lib

section
variable {α : Type}

/-- `index` of the node is the sample with this timestamp, and the one nearest to `t`. -/
def IsNearest (timestamps : α → List Int) (stack : List α) (t : Int) (node : AtomicNode α) (timestamp : Int)
    (index : Nat) : Prop :=
  ∃ newer, stack = newer ++ node.chain ∧ (timestamps node.value)[index]? = some timestamp ∧
    ((timestamp ≤ t ∧ (∀ x ∈ (timestamps node.value).drop (index + 1), t < x) ∧ ∀ n ∈ newer, ∀ x ∈ timestamps n, t < x) ∨
      (index = 0 ∧ node.prev = [] ∧ ∀ n ∈ stack, ∀ x ∈ timestamps n, t < x))

/-- Of the nodes, the newest that starts at or before `t` spans it, or has a single time and is no
farther from `t` than the end of the node after it. If they all start after `t`, the oldest has a
single time. -/
def Consistent (first last : α → Int) (stack : List α) (t : Int) : Prop :=
  match stack.dropWhile fun n => decide (t < first n) with
  | k :: _ => t ≤ last k ∨ (first k = last k ∧
      ∀ p ∈ (stack.takeWhile fun n => decide (t < first n)).getLast?, (first k - t).natAbs ≤ (last p - t).natAbs)
  | [] => ∀ k ∈ stack.getLast?, first k = last k

end

/-- `binary_search_nearest` finds the nearest sample, with its own timestamp and value. -/
def TimeSeries.NearestCorrect (list : TimeSeries) (t : Int) : Prop :=
  match list.binarySearchNearest t true with
  | none => list.samples = []
  | some r => IsNearest TimeSeriesNode.timestamps list t r.node r.timestamp r.index ∧
      ∃ value, r.node.value.samples[r.index]? = some (r.timestamp, value) ∧ r.data = some value

namespace Msg

/-- The first timestamp of a node that is not empty. -/
def MsgLogNode.first (n : MsgLogNode) : Int := n.timestamps.headD 0

/-- The last timestamp of a node that is not empty. -/
def MsgLogNode.last (n : MsgLogNode) : Int := n.timestamps.getLastD 0

structure MsgLogNode.Valid (n : MsgLogNode) : Prop where
  ne_nil : n.timestamps ≠ []
  sorted : n.timestamps.Pairwise (· ≤ ·)
  stored : ∀ i < n.timestamps.length, (n.bufs.getMsg i).isSome

/-- A message log of the shape of a valid series. -/
structure MsgLog.Valid (list : MsgLog) : Prop where
  node : ∀ n ∈ list, n.Valid
  across : list.Pairwise fun new old => ∀ x ∈ old.timestamps, ∀ y ∈ new.timestamps, x ≤ y

/-- `get_nearest` finds the nearest message, with its own timestamp. -/
def MsgLog.NearestCorrect (list : MsgLog) (t : Int) : Prop :=
  match list.getNearest t with
  | none => ∀ n ∈ list, n.timestamps = []
  | some r => IsNearest MsgLogNode.timestamps list t r.node r.timestamp r.index ∧
      ∃ msg, r.node.value.bufs.getMsg r.index = some msg ∧ r.data = some msg

end Msg

end Metor.Impl
