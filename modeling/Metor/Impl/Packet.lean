import Metor.Impl.Proto

/-!
# Packets with their length (`LenPacket` in `libs/metor-proto/src/types.rs`)

The buffer of a `LenPacket` is the length of the packet, in four bytes, and
the packet: a header of four bytes and the body. Everything that appends to
the packet adds what it appended to the length, which is a `u32` and wraps.
-/

namespace Metor.Impl.Proto

open Metor.Lib

inductive PacketTy
  | msg | table | timeSeries | msgWithTimestamp
  deriving DecidableEq, Repr

/-- `as u8` -/
def PacketTy.toUInt8 : PacketTy → UInt8
  | msg => 0
  | table => 1
  | timeSeries => 2
  | msgWithTimestamp => 3

/-- `PACKET_HEADER_LEN` -/
def packetHeaderLen : Nat := 4

/-- `LenPacket`, which is never without its length and header. -/
structure LenPacket where
  inner : Bytes
  le_length : 4 + packetHeaderLen ≤ inner.length
  deriving DecidableEq

namespace LenPacket

/-- `LenPacket::new`, with the two bytes of the id. -/
def new (ty : PacketTy) (id : UInt8 × UInt8) : LenPacket :=
  ⟨leBytes 4 packetHeaderLen ++ [ty.toUInt8, id.1, id.2, 0], by simp [packetHeaderLen]⟩

/-- `LenPacket::table` -/
def table (id : UInt8 × UInt8) : LenPacket := new .table id

/-- `pkt_len` -/
def pktLen (p : LenPacket) : Nat := leNat (p.inner.take 4)

/-- The bytes appended, and the length written over the first four bytes. -/
def append (p : LenPacket) (bytes : Bytes) (len : Nat) : LenPacket :=
  ⟨overwrite (p.inner ++ bytes) 0 (leBytes 4 len), by
    have := p.le_length
    rw [length_overwrite (by rw [length_leBytes, List.length_append]; omega), List.length_append]; omega⟩

/-- `push` -/
def push (p : LenPacket) (elem : UInt8) : LenPacket := p.append [elem] (asU32 (p.pktLen + 1))

/-- `pad_for_type` -/
def padForType (p : LenPacket) (ty : PrimType) : LenPacket :=
  (List.range (ty.padding p.inner.length)).foldl (fun p _ => p.push 0) p

/-- `push_aligned` of a value with its alignment. -/
def pushAligned (p : LenPacket) (align : Nat) (val : Bytes) : LenPacket :=
  let padding := (align - p.inner.length % align) % align
  p.append (List.replicate padding 0 ++ val) (asU32 (p.pktLen + asU32 (padding + val.length)))

/-- `extend_from_slice` -/
def extendFromSlice (p : LenPacket) (buf : Bytes) : LenPacket := p.append buf (asU32 (p.pktLen + asU32 buf.length))

/-- The body of `as_packet`, which panics when the length is not that of the packet. -/
def body (p : LenPacket) : Option Bytes :=
  if p.inner.length - 4 = packetHeaderLen + (p.pktLen - packetHeaderLen) then some (p.inner.drop (4 + packetHeaderLen))
  else none

/-- `extend_aligned` of a slice of values with their alignment. -/
def extendAligned (p : LenPacket) (align : Nat) (vals : List Bytes) : LenPacket :=
  let padding := (align - p.inner.length % align) % align
  let bytes := .replicate padding 0 ++ vals.flatten
  p.append bytes (asU32 (p.pktLen + asU32 bytes.length))

/-- `LenPacket::msg` -/
def msg (id : UInt8 × UInt8) : LenPacket := new .msg id

/-- `LenPacket::msg_with_timestamp` -/
def msgWithTimestamp (id : UInt8 × UInt8) (timestamp : Int) : LenPacket :=
  (new .msgWithTimestamp id).extendFromSlice (i64Bytes timestamp)

/-- `LenPacket::time_series` -/
def timeSeries (id : UInt8 × UInt8) : LenPacket := new .timeSeries id

/-- `set_request_id`, at the offset of `header.req_id` and 4 -/
def setRequestId (p : LenPacket) (requestId : UInt8) : LenPacket :=
  ⟨p.inner.set 7 requestId, by rw [List.length_set]; exact p.le_length⟩

/-- `clear` -/
def clear (p : LenPacket) : LenPacket :=
  ⟨(overwrite p.inner 0 (leBytes 4 packetHeaderLen)).take (4 + packetHeaderLen), by
    have := p.le_length
    rw [List.length_take, length_overwrite (by rw [length_leBytes]; omega)]; omega⟩

end LenPacket

end Metor.Impl.Proto
