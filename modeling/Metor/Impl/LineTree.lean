import Mathlib.Data.Finset.Max
import Mathlib.Data.Finset.Range
import Metor.Lib.LittleEndian

/-!
# The chunks of a plotted line (`libs/metor-ui/src/ui/plot/data.rs`)

A `LineTree` maps intervals of time to chunks of samples. Each of the two
buffers of a chunk has an `Arc` for its shard and one for its dirty flag, which
clones of the chunk share: `arcs` holds what is in them, and a chunk says which
ones are its own. A `NoditMap` is the list of its entries in order, and an
interval that would be empty panics. What panics, overflows, subtracts below
zero or divides by zero has no result.
-/

namespace Metor.Impl.Plot

open Metor.Lib

/-- `i64::MAX` -/
def i64Max : Int := -i64Min - 1

/-- `CHUNK_COUNT` -/
def chunkCount : Nat := 0x4000

/-- `CHUNK_LEN` -/
def chunkLen : Nat := 0xC00

/-- `INDEX_BUFFER_LEN` -/
def indexBufferLen : Nat := 1024 * 4

/-! ## Shards -/

/-- `BufferShard`: a range of bytes of the buffer -/
structure BufferShard where
  start : Nat
  stop : Nat
  deriving DecidableEq, Repr

/-- `BufferShardAlloc` -/
structure BufferShardAlloc where
  chunkSize : Nat
  freeMap : Finset Nat
  deriving DecidableEq

/-- `BufferShardAlloc::new`, for `f32` -/
def BufferShardAlloc.new (chunks chunkLen : Nat) : BufferShardAlloc := ⟨4 * chunkLen, Finset.range chunks⟩

/-- `BufferShardAlloc::alloc`: the first shard that is free -/
def BufferShardAlloc.alloc (this : BufferShardAlloc) : Option (BufferShard × BufferShardAlloc) :=
  if h : this.freeMap.Nonempty then
    let i := this.freeMap.min' h
    some (⟨i * this.chunkSize, (i + 1) * this.chunkSize⟩, { this with freeMap := this.freeMap.erase i })
  else none

/-- `BufferShardAlloc::dealloc` -/
def BufferShardAlloc.dealloc (this : BufferShardAlloc) (shard : BufferShard) : BufferShardAlloc :=
  { this with freeMap := insert (shard.start / this.chunkSize % 2 ^ 32) this.freeMap }

/-- `BufferShardAlloc::with_nan_chunk` -/
def BufferShardAlloc.withNanChunk (chunks chunkLen : Nat) : Option BufferShardAlloc :=
  (BufferShardAlloc.new (chunks + 1) chunkLen).alloc.map (·.2)

/-- `SharedBuffer`: what is in its `Arc`s -/
structure SharedBuffer where
  gpu : Option BufferShard
  gpuDirty : Bool
  deriving DecidableEq, Repr

/-- `SharedBuffer::default` -/
def SharedBuffer.default : SharedBuffer := ⟨none, true⟩

/-- `SharedBuffer::queue_load` -/
def SharedBuffer.queueLoad (b : SharedBuffer) (alloc : BufferShardAlloc) : SharedBuffer × BufferShardAlloc :=
  if !b.gpuDirty then (b, alloc)
  else
    match b.gpu with
    | some _ => ({ b with gpuDirty := false }, alloc)
    | none =>
      match alloc.alloc with
      | none => (b, alloc)
      | some (shard, alloc) => (⟨some shard, false⟩, alloc)

/-- A buffer in `garbage_collect` -/
def SharedBuffer.release (b : SharedBuffer) (alloc : Option BufferShardAlloc) : SharedBuffer × Option BufferShardAlloc :=
  match alloc, b.gpu with
  | some alloc, some gpu => (⟨none, true⟩, some (alloc.dealloc gpu))
  | alloc, _ => (b, alloc)

/-! ## Chunks -/

/-- `nodit::Interval`, with both ends -/
structure Interval where
  start : Int
  stop : Int
  deriving DecidableEq, Repr

/-- `nodit::interval::ii` -/
def Interval.ii (start stop : Int) : Option Interval := if start ≤ stop then some ⟨start, stop⟩ else none

/-- `nodit::interval::ee` -/
def Interval.ee (start stop : Int) : Option Interval := Interval.ii (start + 1) (stop - 1)

def Interval.overlaps (i j : Interval) : Bool := i.start ≤ j.stop && j.start ≤ i.stop

/-- `ChunkSummary` -/
structure ChunkSummary where
  len : Nat
  startTimestamp : Int
  endTimestamp : Int
  deriving DecidableEq, Repr

/-- An `f32`, by its bits -/
abbrev F32 := BitVec 32

/-- `Chunk`; `data` is what is in the buffer of that name, and `arcs` says which arcs are its own. -/
structure Chunk where
  timestamps : List Int
  data : List F32
  summary : ChunkSummary
  arcs : Nat
  deriving DecidableEq, Repr

/-- The buffers `timestamps_float` and `data` of a chunk -/
structure Arcs where
  timestampsFloat : SharedBuffer
  data : SharedBuffer
  deriving DecidableEq, Repr

/-- `LineTree` -/
structure LineTree where
  tree : List (Interval × Chunk)
  arcs : List Arcs
  dataBufferShardAlloc : Option BufferShardAlloc
  timestampBufferShardAlloc : Option BufferShardAlloc
  deriving DecidableEq

namespace LineTree

/-- `LineTree::default` -/
def default : LineTree := ⟨[], [], none, none⟩

/-- `NoditMap::overlapping` -/
def overlapping (t : LineTree) (range : Interval) : List (Interval × Chunk) := t.tree.filter fun e => e.1.overlaps range

/-- What is left of an entry before an interval. -/
def before (range : Interval) (e : Interval × Chunk) : List (Interval × Chunk) :=
  if e.1.start < range.start then [(⟨e.1.start, min e.1.stop (range.start - 1)⟩, e.2)] else []

/-- What is left of an entry after an interval. -/
def after (range : Interval) (e : Interval × Chunk) : List (Interval × Chunk) :=
  if range.stop < e.1.stop then [(⟨max e.1.start (range.stop + 1), e.1.stop⟩, e.2)] else []

/-- `NoditMap::insert_overwrite` -/
def insertOverwrite (tree : List (Interval × Chunk)) (range : Interval) (chunk : Chunk) : List (Interval × Chunk) :=
  tree.flatMap (before range) ++ (range, chunk) :: tree.flatMap (after range)

/-- `LineTree::insert` -/
def insert (t : LineTree) (chunk : Chunk) : Option LineTree := do
  let range ← Interval.ii chunk.summary.startTimestamp chunk.summary.endTimestamp
  return { t with tree := insertOverwrite t.tree range chunk }

/-- `Chunk::from_iter`: a chunk with new buffers; `from_initial_value` is that of one timestamp. -/
def fromIter (t : LineTree) (timestamps : List Int) (values : List F32) : Option (LineTree × Chunk) := do
  let first ← timestamps.head?
  let last ← timestamps.getLast?
  return ({ t with arcs := t.arcs ++ [⟨.default, .default⟩] },
    ⟨timestamps, values, ⟨timestamps.length, first, last⟩, t.arcs.length⟩)

/-- `Chunk::push`: the chunk, and its buffers -/
def push (timestamp : Int) (value : F32) (c : Chunk) (b : Arcs) : Chunk × Arcs :=
  ({ c with
      timestamps := c.timestamps ++ [timestamp]
      data := c.data ++ [value]
      summary := ⟨c.summary.len + 1, min c.summary.startTimestamp timestamp, max c.summary.endTimestamp timestamp⟩ },
    ⟨{ b.timestampsFloat with gpuDirty := true }, { b.data with gpuDirty := true }⟩)

/-- `LineTree::update_last`, with a `push` -/
def updateLast (t : LineTree) (timestamp : Int) (value : F32) : Option LineTree :=
  match t.tree.getLast? with
  | none => some t
  | some (_, last) => do
    let b ← t.arcs[last.arcs]?
    let (last, b) := push timestamp value last b
    ({ t with tree := t.tree.dropLast, arcs := t.arcs.set last.arcs b }).insert last

/-- `Chunk::queue_load` of an entry -/
def queueLoad (s : List Arcs × BufferShardAlloc × BufferShardAlloc) (e : Interval × Chunk) :
    List Arcs × BufferShardAlloc × BufferShardAlloc :=
  match s.1[e.2.arcs]? with
  | none => s
  | some b =>
    let (timestampsFloat, timestampAlloc) := b.timestampsFloat.queueLoad s.2.2
    let (data, dataAlloc) := b.data.queueLoad s.2.1
    (s.1.set e.2.arcs ⟨timestampsFloat, data⟩, dataAlloc, timestampAlloc)

/-- `LineTree::queue_load_range` -/
def queueLoadRange (t : LineTree) (start stop : Int) : Option LineTree := do
  let dataAlloc ← t.dataBufferShardAlloc <|> BufferShardAlloc.withNanChunk chunkCount chunkLen
  let timestampAlloc ← t.timestampBufferShardAlloc <|> BufferShardAlloc.withNanChunk chunkCount chunkLen
  let range ← Interval.ii start stop
  let (arcs, dataAlloc, timestampAlloc) := (t.overlapping range).foldl queueLoad (t.arcs, dataAlloc, timestampAlloc)
  return { t with
    arcs := arcs, dataBufferShardAlloc := some dataAlloc, timestampBufferShardAlloc := some timestampAlloc }

/-- `Range::contains` -/
def contains (start stop t : Int) : Bool := start ≤ t && t < stop

/-- An entry in `garbage_collect` -/
def collect (start stop : Int) (t : LineTree) (e : Interval × Chunk) : LineTree :=
  if contains start stop e.1.start || contains start stop e.1.stop then t
  else
    match t.arcs[e.2.arcs]? with
    | none => t
    | some b =>
      let (data, dataAlloc) := b.data.release t.dataBufferShardAlloc
      let (timestampsFloat, timestampAlloc) := b.timestampsFloat.release t.timestampBufferShardAlloc
      { t with
        arcs := t.arcs.set e.2.arcs ⟨timestampsFloat, data⟩
        dataBufferShardAlloc := dataAlloc
        timestampBufferShardAlloc := timestampAlloc }

/-- `LineTree::garbage_collect` -/
def garbageCollect (t : LineTree) (start stop : Int) : Option LineTree := do
  if start - 1 < i64Min ∨ i64Max < stop + 1 then none
  else
    let firstHalf ← Interval.ee i64Min (start - 1)
    let secondHalf ← Interval.ee (stop + 1) i64Max
    return (t.overlapping firstHalf ++ t.overlapping secondHalf).foldl (collect start stop) t

end LineTree

/-! ## Indices -/

/-- `IndexChunk` -/
structure IndexChunk where
  start : Nat
  stop : Nat
  len : Nat
  deriving DecidableEq, Repr

/-- `BufferShard::as_index_chunk`, for `f32` -/
def BufferShard.asIndexChunk (shard : BufferShard) (len : Nat) : IndexChunk :=
  ⟨shard.start / 4 % 2 ^ 32, shard.stop / 4 % 2 ^ 32, len⟩

/-- `IndexChunk::into_index_iter` -/
def IndexChunk.intoIndexIter (c : IndexChunk) : List Nat := (List.range' c.start (c.stop - c.start)).take c.len

/-- `Iterator::step_by` -/
def stepBy {α : Type} (step : Nat) (l : List α) : List α :=
  (List.range ((l.length + step - 1) / step)).filterMap fun i => l[i * step]?

/-- `append_u32`, onto what is written already -/
def appendU32 (view : List Nat) (val : Nat) : List Nat := if view.length < indexBufferLen then view ++ [val] else view

namespace LineTree

/-- `LineTree::draw_index_chunk_iter` -/
def drawIndexChunkIter (t : LineTree) (start stop : Int) : Option (List IndexChunk) := do
  let range ← Interval.ii start stop
  return (t.overlapping range).filterMap fun e => do
    let b ← t.arcs[e.2.arcs]?
    let gpu ← b.data.gpu
    return gpu.asIndexChunk e.2.summary.len

/-- `LineTree::draw_index_count` -/
def drawIndexCount (chunks : List IndexChunk) : Nat × Nat :=
  (chunks.length, (chunks.map fun c => c.intoIndexIter.length + 6).sum)

/-- A chunk in `write_to_index_buffer`: what is written, and `count` -/
def writeChunk (step : Nat) (s : List Nat × Nat) (chunk : IndexChunk) : List Nat × Nat :=
  let indices := chunk.intoIndexIter
  let view := appendU32 s.1 0
  let written := indices.head?.toList ++ stepBy step indices.tail ++ indices.getLast?.toList
  (appendU32 (written.foldl appendU32 view) 0, s.2 + written.length + 2)

/-- `LineTree::write_to_index_buffer`: what is written, and the count -/
def writeToIndexBuffer (t : LineTree) (start stop : Int) (pixelWidth : Nat) : Option (List Nat × Nat) := do
  let chunks ← t.drawIndexChunkIter start stop
  let (chunkCount, indexCount) := drawIndexCount chunks
  let desiredIndexLen := min indexBufferLen (pixelWidth * 4 % 2 ^ 64)
  if desiredIndexLen ≤ 6 * chunkCount ∨ desiredIndexLen = 0 then none
  else
    let step := max ((indexCount + (desiredIndexLen - 6 * chunkCount) - 1) / (desiredIndexLen - 6 * chunkCount)) 1
    let chunkStep := max ((chunkCount * 6 + desiredIndexLen - 1) / desiredIndexLen) 1
    return (stepBy chunkStep chunks).foldl (writeChunk step) ([], 0)

end LineTree

end Metor.Impl.Plot
