import Metor.Impl.Io
import Metor.Impl.Packet

/-!
# Packets read back (`OwnedPacket` in `libs/metor-proto/src/types.rs`, `libs/metor-proto/bbq`)

`parse_with_offset` reads a packet from a buffer. A queue of packets hands out
grants of its ring: a packet is written at the first address of its grant that
is a multiple of 8, and what comes before it is zero. The consumer gets the
bytes that were committed, at the address they were committed at.
-/

namespace Metor.Impl.Proto

open Metor.Lib

/-- What parsing a packet can fail with. -/
inductive ParseError
  | invalidPacket
  | bufferUnderflow
  | invalidComponentData
  /-- The offset is beyond the buffer. -/
  | panic
  deriving DecidableEq, Repr

/-- A slice of the buffer is the bytes it has. -/
inductive OwnedPacket
  | msg (id : UInt8 × UInt8) (reqId : UInt8) (timestamp : Option Int) (buf : Bytes)
  | table (id : UInt8 × UInt8) (reqId : UInt8) (buf : Bytes)
  | timeSeries (id : UInt8 × UInt8) (reqId : UInt8) (len : Nat) (buf : Bytes)
  deriving DecidableEq, Repr

/-- The valid bytes of a `PacketTy`. -/
def PacketTy.ofUInt8? (b : UInt8) : Option PacketTy :=
  if b = 0 then some msg
  else if b = 1 then some table
  else if b = 2 then some timeSeries
  else if b = 3 then some msgWithTimestamp
  else none

/-- The bytes of `try_slice(start..)`. -/
def sliceFrom (buf : Bytes) (start : Nat) : Option Bytes := (Io.trySlice buf start none).bind Io.Slice.deref

namespace OwnedPacket

/-- `parse_with_offset` -/
def parseWithOffset (packetBuf : Bytes) (offset : Nat) : Except ParseError OwnedPacket :=
  if packetBuf.length < offset then .error .panic
  else
    match packetBuf.drop offset with
    | ty :: id₁ :: id₂ :: reqId :: _ =>
      match PacketTy.ofUInt8? ty with
      | none => .error .invalidComponentData
      | some packetTy =>
        match sliceFrom packetBuf (packetHeaderLen + offset) with
        | none => .error .invalidPacket
        | some buf =>
          match packetTy with
          | .msg => .ok (.msg (id₁, id₂) reqId none buf)
          | .msgWithTimestamp =>
            if buf.length < 8 then .error .invalidPacket
            else
              match sliceFrom packetBuf (packetHeaderLen + offset + 8) with
              | none => .error .invalidPacket
              | some rest => .ok (.msg (id₁, id₂) reqId (some (i64OfBytes (buf.take 8))) rest)
          | .table => .ok (.table (id₁, id₂) reqId buf)
          | .timeSeries =>
            if buf.length < 8 then .error .bufferUnderflow
            else .ok (.timeSeries (id₁, id₂) reqId (leNat (buf.take 8)) buf)
    | _ => .error .bufferUnderflow

/-- `parse` -/
def parse (packetBuf : Bytes) : Except ParseError OwnedPacket := parseWithOffset packetBuf 0

end OwnedPacket

/-! ## Time series -/

/-- The `len` and the `buf` of an `OwnedTimeSeries`. -/
structure OwnedTimeSeries where
  len : Nat
  buf : View
  deriving DecidableEq, Repr

/-- The timestamps of `&[Timestamp]`. -/
def stamps (bytes : Bytes) : List Int :=
  (List.range (bytes.length / 8)).map fun i => i64OfBytes (slice bytes (i * 8) ((i + 1) * 8))

/-- `<[Timestamp]>::ref_from_bytes` -/
def asTimestamps (v : View) : Except Error (List Int) :=
  if v.addr % 8 ≠ 0 then .error .alignment
  else if v.bytes.length % 8 ≠ 0 then .error .bufferUnderflow
  else .ok (stamps v.bytes)

namespace OwnedTimeSeries

/-- `start + self.len * size_of::<i64>()`, which must not overflow. -/
def stop (ts : OwnedTimeSeries) : Option Nat :=
  let start := 8
  if ts.len * 8 < 2 ^ 64 ∧ start + ts.len * 8 < 2 ^ 64 then some (start + ts.len * 8) else none

/-- `timestamps` -/
def timestamps (ts : OwnedTimeSeries) : Option (Except Error (List Int)) :=
  ts.stop.map fun stop =>
    match ts.buf.get 8 stop with
    | none => .error .bufferUnderflow
    | some timestamps => asTimestamps timestamps

/-- `data` -/
def data (ts : OwnedTimeSeries) : Option (Except Error Bytes) :=
  ts.stop.map fun stop =>
    if stop ≤ ts.buf.bytes.length then .ok (ts.buf.bytes.drop stop) else .error .bufferUnderflow

end OwnedTimeSeries

/-! ## The queue -/

/-- `PacketGrantW`: the bytes of a grant and their address. -/
structure PacketGrantW where
  addr : Nat
  buf : Bytes
  deriving DecidableEq, Repr

namespace PacketGrantW

/-- `padding` -/
def padding (g : PacketGrantW) : Nat := PrimType.padding .u64 g.addr

/-- `PacketGrantW::new`, which panics when the padding does not fit. -/
def new (addr : Nat) (inner : Bytes) : Option PacketGrantW :=
  let padding := PrimType.padding .u64 addr
  if padding ≤ inner.length then some ⟨addr, overwrite inner 0 (.replicate padding 0)⟩ else none

/-- The bytes that `commit` commits. -/
def commit (g : PacketGrantW) (used : Nat) : Bytes := g.buf.take (g.padding + used)

/-- `commit_len_pkt`, which panics when the packet does not fit. -/
def commitLenPkt (g : PacketGrantW) (lenPkt : LenPacket) : Option Bytes :=
  if lenPkt.inner.length ≤ g.buf.length - g.padding then
    some (commit { g with buf := overwrite g.buf g.padding lenPkt.inner } lenPkt.inner.length)
  else none

end PacketGrantW

/-- `try_recv_pkt`, where the queue has a frame at an address. -/
def tryRecvPkt (addr : Nat) (grant : Bytes) : Option OwnedPacket :=
  match OwnedPacket.parseWithOffset grant (4 + PrimType.padding .u64 addr) with
  | .ok pkt => some pkt
  | .error _ => none

end Metor.Impl.Proto
