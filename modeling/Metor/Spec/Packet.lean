import Metor.Impl.OwnedPacket

/-!
# Packets: what is sent and what is received

What a packet is of, whatever was done to it: its type, its id, the last request
id and what was pushed since it was cleared last.
-/

namespace Metor.Impl.Proto

open Metor.Lib

/-- How a packet is made. -/
inductive NewPacket
  | new (ty : PacketTy) (id : UInt8 × UInt8)
  | msg (id : UInt8 × UInt8)
  | msgWithTimestamp (id : UInt8 × UInt8) (timestamp : Int)
  | table (id : UInt8 × UInt8)
  | timeSeries (id : UInt8 × UInt8)

/-- What can be done to a packet. A value comes with its alignment. -/
inductive PacketOp
  | push (elem : UInt8)
  | pushAligned (align : Nat) (val : Bytes)
  | extendAligned (align : Nat) (vals : List Bytes)
  | extendFromSlice (buf : Bytes)
  | padForType (ty : PrimType)
  | setRequestId (requestId : UInt8)
  | clear

def NewPacket.pkt : NewPacket → LenPacket
  | new ty id => .new ty id
  | msg id => .msg id
  | msgWithTimestamp id timestamp => .msgWithTimestamp id timestamp
  | table id => .table id
  | timeSeries id => .timeSeries id

def LenPacket.apply (p : LenPacket) : PacketOp → LenPacket
  | .push elem => p.push elem
  | .pushAligned align val => p.pushAligned align val
  | .extendAligned align vals => p.extendAligned align vals
  | .extendFromSlice buf => p.extendFromSlice buf
  | .padForType ty => p.padForType ty
  | .setRequestId requestId => p.setRequestId requestId
  | .clear => p.clear

/-- The packet after a sequence of operations. -/
def LenPacket.run (c : NewPacket) (ops : List PacketOp) : LenPacket := ops.foldl LenPacket.apply c.pkt

/-! ## What a packet is of -/

structure Contents where
  ty : PacketTy
  id : UInt8 × UInt8
  reqId : UInt8
  body : Bytes
  deriving DecidableEq, Repr

namespace Contents

def ofNew : NewPacket → Contents
  | .new ty id => ⟨ty, id, 0, []⟩
  | .msg id => ⟨.msg, id, 0, []⟩
  | .msgWithTimestamp id timestamp => ⟨.msgWithTimestamp, id, 0, i64Bytes timestamp⟩
  | .table id => ⟨.table, id, 0, []⟩
  | .timeSeries id => ⟨.timeSeries, id, 0, []⟩

/-- The body begins eight bytes after the start of the buffer. -/
def aligned (c : Contents) (align : Nat) : Bytes := .replicate ((align - (8 + c.body.length) % align) % align) 0

/-- The bytes that an operation pushes. -/
def pushed (c : Contents) : PacketOp → Bytes
  | .push elem => [elem]
  | .pushAligned align val => c.aligned align ++ val
  | .extendAligned align vals => c.aligned align ++ vals.flatten
  | .extendFromSlice buf => buf
  | .padForType ty => .replicate (ty.padding (8 + c.body.length)) 0
  | .setRequestId _ => []
  | .clear => []

def apply (c : Contents) : PacketOp → Contents
  | .setRequestId requestId => { c with reqId := requestId }
  | .clear => { c with body := [] }
  | op => { c with body := c.body ++ c.pushed op }

def run (c : NewPacket) (ops : List PacketOp) : Contents := ops.foldl apply (ofNew c)

/-- The packet, its header included, is shorter than `2 ^ 32`. -/
def Fits (c : Contents) : Prop := packetHeaderLen + c.body.length < 2 ^ 32

instance (c : Contents) : Decidable c.Fits := inferInstanceAs (Decidable (_ < _))

/-- What the contents are received as. The timestamp of a message, and the number of samples of a time series, are the
first eight bytes pushed. -/
def received (c : Contents) : Except ParseError OwnedPacket :=
  match c.ty with
  | .msg => .ok (.msg c.id c.reqId none c.body)
  | .table => .ok (.table c.id c.reqId c.body)
  | .msgWithTimestamp =>
    if c.body.length < 8 then .error .invalidPacket
    else .ok (.msg c.id c.reqId (some (i64OfBytes (c.body.take 8))) (c.body.drop 8))
  | .timeSeries =>
    if c.body.length < 8 then .error .bufferUnderflow
    else .ok (.timeSeries c.id c.reqId (leNat (c.body.take 8)) c.body)

end Contents

end Metor.Impl.Proto

/-!
## A time series that was received

`Splits` is what the two accessors of an `OwnedTimeSeries` promise together:
they return, and the timestamps and the data are the parts of one body.
-/

namespace Metor.Impl.Proto

open Metor.Lib

/-- Both accessors return, and if there are timestamps then as many as declared, followed by the data. -/
def OwnedTimeSeries.Splits (ts : OwnedTimeSeries) : Prop :=
  ∃ timestamps data, ts.timestamps = some timestamps ∧ ts.data = some data ∧
    ∀ l, timestamps = .ok l → l.length = ts.len ∧
      ∃ rest, data = .ok rest ∧ ts.buf.bytes = leBytes 8 ts.len ++ l.flatMap i64Bytes ++ rest

end Metor.Impl.Proto
