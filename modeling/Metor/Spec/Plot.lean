import Metor.Impl.PlotHistory
import Metor.Lib.Run

/-!
# Plotted lines: what is expected

Shards belong to one chunk, and to the chunks cloned from it, or are free.
Indices are those of visible samples, and what is on screen is kept. A
download ends after some pages, and then each line shows the samples of the
range at least as often as they are stored.
-/

namespace Metor.Impl.Plot

open Metor.Lib

/-! ## Runs -/

/-- What is done to the tree of a line. -/
inductive Act
  | insert (timestamps : List Int) (values : List F32)
  | updateLast (timestamp : Int) (value : F32)
  | queueLoadRange (start stop : Int)
  | garbageCollect (start stop : Int)

def step (t : LineTree) : Act → Option LineTree
  | .insert timestamps values => (t.fromIter timestamps values).bind fun s => s.1.insert s.2
  | .updateLast timestamp value => t.updateLast timestamp value
  | .queueLoadRange start stop => t.queueLoadRange start stop
  | .garbageCollect start stop => t.garbageCollect start stop

/-- The trees that there can be. -/
def Reachable (t : LineTree) : Prop := Run step (fun _ _ => True) .default t

/-- The two buffers of a chunk -/
inductive Which
  | timestampsFloat
  | data
  deriving DecidableEq, Repr

def Arcs.buffer (b : Arcs) : Which → SharedBuffer
  | .timestampsFloat => b.timestampsFloat
  | .data => b.data

namespace LineTree

def alloc (t : LineTree) : Which → Option BufferShardAlloc
  | .timestampsFloat => t.timestampBufferShardAlloc
  | .data => t.dataBufferShardAlloc

/-- What is in the buffer of an entry. -/
def buffer (t : LineTree) (which : Which) (e : Interval × Chunk) : Option SharedBuffer :=
  t.arcs[e.2.arcs]?.map (·.buffer which)

/-- The shard of an entry. -/
def shard (t : LineTree) (which : Which) (e : Interval × Chunk) : Option BufferShard :=
  (t.buffer which e).bind (·.gpu)

/-! ## Shards -/

/-- Shard number `i` -/
def shardAt (i : Nat) : BufferShard := ⟨i * (4 * chunkLen), (i + 1) * (4 * chunkLen)⟩

/-- Different buffers hold different parts. -/
def Unshared (t : LineTree) : Prop :=
  ∀ which, ∀ e ∈ t.tree, ∀ e' ∈ t.tree, e.2.arcs ≠ e'.2.arcs → ∀ s ∈ t.shard which e, ∀ s' ∈ t.shard which e',
    s.stop ≤ s'.start ∨ s'.stop ≤ s.start

/-- The shard of the NaN is neither free nor held. -/
def NanKept (t : LineTree) : Prop :=
  ∀ which, ∀ alloc ∈ t.alloc which, 0 ∉ alloc.freeMap ∧ ∀ e ∈ t.tree, t.shard which e ≠ some (shardAt 0)

/-- Each other shard is free or held. -/
def Accounted (t : LineTree) : Prop :=
  ∀ which, ∀ alloc ∈ t.alloc which, ∀ i, 1 ≤ i → i ≤ chunkCount →
    i ∈ alloc.freeMap ∨ ∃ e ∈ t.tree, t.shard which e = some (shardAt i)

/-- The interval of an entry lies in another one. -/
def Covered (range : Interval) (e : Interval × Chunk) : Prop := range.start ≤ e.1.start ∧ e.1.stop ≤ range.stop

/-- No entry of the list that has a shard is the last one of its chunk that is left by an insert of a chunk. -/
def Spares (t : LineTree) (tree : List (Interval × Chunk)) (range : Interval) (arcs : Nat) : Prop :=
  ∀ e ∈ tree, Covered range e → (∃ which, (t.shard which e).isSome) →
    e.2.arcs = arcs ∨ ∃ e' ∈ tree, ¬ Covered range e' ∧ e'.2.arcs = e.2.arcs

/-! ## Garbage -/

/-- An entry that meets what is before or after a range, and has no end in it. -/
def Collected (start stop : Int) (e : Interval × Chunk) : Prop :=
  (e.1.overlaps ⟨i64Min + 1, start - 2⟩ ∨ e.1.overlaps ⟨stop + 2, i64Max - 1⟩) ∧
    ¬ contains start stop e.1.start ∧ ¬ contains start stop e.1.stop

/-- An entry whose chunk has an entry that is collected, this one or another. -/
def Shares (t : LineTree) (start stop : Int) (e : Interval × Chunk) : Prop :=
  ∃ e' ∈ t.tree, Collected start stop e' ∧ e'.2.arcs = e.2.arcs

/-- An entry that is in view. -/
def InView (start stop : Int) (e : Interval × Chunk) : Prop := e.1.start ≤ stop ∧ start ≤ e.1.stop

/-- An entry that is away from what is in view. -/
def Away (start stop : Int) (e : Interval × Chunk) : Prop := e.1.stop < start - 1 ∨ stop + 1 < e.1.start

/-- What is in view is as it was. -/
def KeepsInView (t t' : LineTree) (start stop : Int) : Prop :=
  ∀ e ∈ t.tree, InView start stop e → ∀ which, t'.buffer which e = t.buffer which e

/-- What is away has given its shards back, and is dirty. -/
def FreesAway (t t' : LineTree) (start stop : Int) : Prop :=
  ∀ e ∈ t.tree, Away start stop e → ∀ which, t'.buffer which e = some ⟨none, true⟩ ∧
    ∀ s ∈ t.shard which e, ∃ alloc ∈ t'.alloc which, ∃ i, s = shardAt i ∧ i ∈ alloc.freeMap

/-- A collection that keeps what is in view and frees what is away. -/
def CollectsGarbage (t : LineTree) (start stop : Int) : Prop :=
  ∃ t', t.garbageCollect start stop = some t' ∧ KeepsInView t t' start stop ∧ FreesAway t t' start stop

/-- The range is away from both ends of time, and of the entries with a shard,
no chunk of one that is in view is collected, and that of each that is away is. -/
def Separated (t : LineTree) (start stop : Int) : Prop :=
  i64Min + 3 ≤ start ∧ stop ≤ i64Max - 3 ∧ ∀ e ∈ t.tree, (∃ which, (t.shard which e).isSome) →
    (InView start stop e → ¬ Shares t start stop e) ∧ (Away start stop e → Shares t start stop e)

/-! ## Indices -/

/-- An index of a sample of an entry that is in view and has a shard -/
def IsVisibleIndex (t : LineTree) (start stop : Int) (index : Nat) : Prop :=
  ∃ e ∈ t.overlapping ⟨start, stop⟩, ∃ shard ∈ t.shard .data e, ∃ i, i < e.2.summary.len ∧ i < chunkLen ∧
    index = shard.start / 4 + i

/-- Indices are written, as many as are counted and no more than there is room for. -/
def WritesIndices (t : LineTree) (start stop : Int) (pixelWidth : Nat) : Prop :=
  ∃ written, t.writeToIndexBuffer start stop pixelWidth = some (written, written.length) ∧
    written.length ≤ indexBufferLen ∧ ∀ index ∈ written, index = 0 ∨ t.IsVisibleIndex start stop index

/-- How many entries in view have a shard. -/
def loadedCount (t : LineTree) (start stop : Int) : Nat :=
  ((t.overlapping ⟨start, stop⟩).filter fun e => (t.shard .data e).isSome).length

/-- There is room for what each chunk in view needs besides its samples. -/
def HasRoom (t : LineTree) (start stop : Int) (pixelWidth : Nat) : Prop :=
  start ≤ stop ∧ 6 * t.loadedCount start stop < min indexBufferLen (pixelWidth * 4 % 2 ^ 64)

end LineTree

/-- No shard is dropped with the last entry of its chunk. -/
def Spared (t : LineTree) : Act → Prop
  | .insert timestamps _ => ∀ first ∈ timestamps.head?, ∀ last ∈ timestamps.getLast?,
      t.Spares t.tree ⟨first, last⟩ t.arcs.length
  | .updateLast timestamp _ => ∀ e ∈ t.tree.getLast?,
      t.Spares t.tree.dropLast ⟨min e.2.summary.startTimestamp timestamp, max e.2.summary.endTimestamp timestamp⟩ e.2.arcs
  | _ => True

/-! ## The history of a plot -/

variable {T : Type} {len : Nat}

/-- The samples of a range, both ends included -/
def inRange (samples : List (Int × Vector T len)) (start stop : Int) : List (Int × Vector T len) :=
  samples.filter fun s => start ≤ s.1 && s.1 ≤ stop

/-- The page that a server answers with: the first samples of the range -/
def respond (samples : List (Int × Vector T len)) (start stop : Int) (limit : Nat) : TimeSeries T :=
  let page := (inRange samples start stop).take limit
  ⟨page.map (·.1), page.flatMap (·.2.toList)⟩

/-- The requests, each with its answer, from that of a range to the last one -/
inductive Downloads (asF32 : T → F32) (samples : List (Int × Vector T len)) :
    Int → Int → PlotDataComponent → PlotDataComponent → Prop
  | done {start stop : Int} {plot plot' : PlotDataComponent} :
      handleTimeSeries asF32 len (respond samples start stop chunkLen) start stop plot = some (plot', none) →
      Downloads asF32 samples start stop plot plot'
  | more {start stop start' stop' : Int} {plot plot₁ plot' : PlotDataComponent} :
      handleTimeSeries asF32 len (respond samples start stop chunkLen) start stop plot = some (plot₁, some (start', stop')) →
      Downloads asF32 samples start' stop' plot₁ plot' → Downloads asF32 samples start stop plot plot'

/-- The samples that an entry shows: those of its chunk in its interval -/
def shownBy (e : Interval × Chunk) : List (Int × F32) :=
  (e.2.timestamps.zip e.2.data).filter fun x => e.1.start ≤ x.1 && x.1 ≤ e.1.stop

/-- The samples that a line shows -/
def shown (tree : List (Interval × Chunk)) : List (Int × F32) := tree.flatMap shownBy

/-- The line of an element -/
def PlotDataComponent.tree (plot : PlotDataComponent) (i : Nat) : List (Interval × Chunk) := (plot.lines.getD i .default).tree

/-- An element of samples -/
def column (asF32 : T → F32) (i : Fin len) (samples : List (Int × Vector T len)) : List (Int × F32) :=
  samples.map fun s => (s.1, asF32 (s.2.get i))

/-- Each line shows the samples of the range. -/
def Complete (asF32 : T → F32) (samples : List (Int × Vector T len)) (start stop : Int) (plot : PlotDataComponent) : Prop :=
  ∀ (i : Fin len) (x : Int × F32), (column asF32 i (inRange samples start stop)).count x ≤ (shown (plot.tree i)).count x

/-- The download of a range ends, and is complete. -/
def DownloadsAll (asF32 : T → F32) (samples : List (Int × Vector T len)) (start stop : Int) (plot : PlotDataComponent) : Prop :=
  ∃ plot', Downloads asF32 samples start stop plot plot' ∧ Complete asF32 samples start stop plot'

/-! ## The condition -/

/-- No time of the range before its end has a page of samples or more. -/
def NoneFull (timestamps : List Int) (start stop : Int) : Prop :=
  ∀ t, start ≤ t → t < stop → timestamps.count t < chunkLen

/-- What the last page has of a sorted list of timestamps, of which each page
begins with all samples of the last time of the page before. -/
def lastPage (timestamps : List Int) : List Int :=
  match timestamps[chunkLen - 1]? with
  | none => timestamps
  | some t =>
    if (timestamps.dropWhile (· < t)).length < timestamps.length then lastPage (timestamps.dropWhile (· < t)) else timestamps
termination_by timestamps.length

/-- The samples of the end of the range fit on the page that the first of them is on. -/
def EndFits (timestamps : List Int) (start stop : Int) : Prop :=
  start ≤ stop → (lastPage (timestamps.filter fun t => start ≤ t && t < stop)).length + timestamps.count stop ≤ chunkLen

end Metor.Impl.Plot
