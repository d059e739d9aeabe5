import Metor.Impl.Visitor

/-!
# `GetTimeSeries` (`handle_packet` in `libs/db/src/lib.rs`)

The reply is a packet whose body is the number of samples, their timestamps
and their values. The handler is given the slices of a range newest first, so
it fills the two lists from their ends. A failed `expect` and an index out of
bounds are `none`; the buffer of a packet lies at a multiple of 8.
-/

namespace Metor.Impl

open Metor.Lib Metor.Impl.Proto

namespace Proto.LenPacket

/-- `as_mut_packet().header = header` -/
def setHeader (p : LenPacket) (ty : PacketTy) (id : UInt8 × UInt8) (reqId : UInt8) : LenPacket :=
  ⟨p.inner.take 4 ++ [ty.toUInt8, id.1, id.2, reqId] ++ p.inner.drop 8, by
    have := p.le_length
    simp only [packetHeaderLen] at this ⊢
    simp only [List.length_append, List.length_take, List.length_drop, List.length_cons, List.length_nil]
    omega⟩

/-- Bytes written over those of the body from `offset` on. -/
def writeBody (p : LenPacket) (offset : Nat) (bytes : Bytes) : LenPacket :=
  ⟨overwrite p.inner (8 + offset) bytes, p.le_length.trans (le_length_overwrite p.inner (8 + offset) bytes)⟩

end Proto.LenPacket

namespace GetTimeSeries

/-- What the handler answers instead of a reply. -/
inductive Error
  | componentNotFound (componentId : Nat)
  | timeRangeOutOfBounds
  deriving DecidableEq, Repr

/-- `usize::MAX` -/
def usizeMax : Nat := 2 ^ 64 - 1

/-- The samples to send. `timestamps_dest` is the first `left` of the timestamps, and `data_dest`
the first `left` values. -/
structure Dest where
  timestamps : List Int
  data : Bytes
  left : Nat
  toSkip : Nat
  deriving DecidableEq, Repr

/-- The body of the loop over the slices, for the timestamps and data of one. -/
def copySlice (size : Nat) (dest : Dest) (slice : List Int × Bytes) : Option Dest :=
  let (timestamps, data) := slice
  let timestampsLen := timestamps.length - dest.toSkip
  if data.length < timestampsLen * size then none
  else
    let timestamps := timestamps.take timestampsLen
    let data := data.take (timestampsLen * size)
    let dest := { dest with toSkip := dest.toSkip - timestampsLen }
    if timestamps.isEmpty then some dest
    else if dest.left < timestampsLen then none
    else
      let start := dest.left - timestampsLen
      some { dest with
        timestamps := overwrite dest.timestamps start timestamps
        data := overwrite dest.data (start * size) data
        left := start }

/-- `range.len()` -/
def rangeLen (slices : List (List Int × Bytes)) : Nat := (slices.map fun s => s.1.length).sum

/-- The number of samples to send. -/
def replyLen (slices : List (List Int × Bytes)) (limit : Option Nat) : Nat :=
  min (rangeLen slices) (limit.getD usizeMax)

/-- The loop over the slices. -/
def copySlices (size : Nat) (slices : List (List Int × Bytes)) (limit : Option Nat) : Option Dest :=
  let len := replyLen slices limit
  slices.foldlM (copySlice size) ⟨.replicate len 0, .replicate (len * size) 0, len, rangeLen slices - len⟩

/-- What the builder makes of a packet. -/
def reply (size : Nat) (slices : List (List Int × Bytes)) (limit : Option Nat) (id : UInt8 × UInt8) (reqId : UInt8)
    (pkt : LenPacket) : Option LenPacket := do
  let len := replyLen slices limit
  let timestampBufLen := len * 8
  let dataBufLen := len * size
  let pkt := (pkt.setHeader .timeSeries id reqId).clear
  let pkt := pkt.extendFromSlice (leBytes 8 len)
  let pktLen := asU32 (8 + timestampBufLen + dataBufLen + packetHeaderLen)
  let pkt := pkt.append (.replicate (timestampBufLen + dataBufLen) 0) pktLen
  let _ ← pkt.body
  let dest ← copySlices size slices limit
  return pkt.writeBody 8 (dest.timestamps.flatMap i64Bytes ++ dest.data)

/-- The handler, for a request and a packet to answer with. -/
def handle (components : Nat → Option Visitor.Component) (componentId : Nat) (start stop : Int) (limit : Option Nat)
    (id : UInt8 × UInt8) (reqId : UInt8) (pkt : LenPacket) : Option (Except Error LenPacket) :=
  match components componentId with
  | none => some (.error (.componentNotFound componentId))
  | some component =>
    match component.timeSeries.getRange start stop with
    | none => some (.error .timeRangeOutOfBounds)
    | some range => do
      let slices ← range.asIter.mapM fun slice => do return (← slice.timestamps, ← slice.data)
      let pkt ← reply component.schema.size slices limit id reqId pkt
      return .ok pkt

end GetTimeSeries

end Metor.Impl
