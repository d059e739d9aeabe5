import Metor.Impl.Editor

/-!
# The client and its server (`Client` in `libs/metor-proto/stellar/src/lib.rs`)

A client sends requests over one connection and reads the packets that come
back: `recv` passes over those with another request id than its own, and reads
the first that is left as the reply of its request. The server tags what it
sends with the id of the request it answers, in what order it likes; it answers
once, or goes on as a stream. `owner` counts the requests of the connection. It
is not on the wire, and tells which request a packet answers.
-/

namespace Metor.Impl

namespace Client

open Metor.Lib
open Metor.Impl.Proto (OwnedPacket)
open Metor.Impl.Editor (PacketId)

/-- The types that a packet is read as; a message type by its `ID`. -/
inductive Reply
  | msg (id : PacketId)
  | msgBuf
  | ownedTimeSeries
  | ownedTable
  | ownedPacket
  | streamReply
  deriving DecidableEq, Repr

/-- The ids that are hashes, and whether `postcard::from_bytes` reads a body at the type with an id. -/
structure Messages where
  msgId : String → PacketId
  parses : PacketId → Bytes → Bool

/-- The types that implement `Request`. -/
inductive Request
  | vtableStream
  | stream
  | getTimeSeries
  | getSchema
  | getComponentMetadata
  | dumpMetadata
  | subscribeLastUpdated
  | dumpSchema
  | sqlQuery
  | msgStream
  | fixedRateMsgStream
  | getMsgMetadata
  | getMsgs
  | saveArchive
  deriving DecidableEq, Repr

/-- What `recv` returns: what the packet is read as, or the error. -/
inductive RecvResult
  | ok (pkt : OwnedPacket)
  | response (buf : Bytes)
  | postcard
  | invalidPacket
  deriving DecidableEq, Repr

section
variable (msgs : Messages)

/-- `Request::Reply` -/
def Request.reply : Request → Reply
  | .vtableStream => .streamReply
  | .stream => .streamReply
  | .getTimeSeries => .ownedTimeSeries
  | .getSchema => .msg (224, 4)
  | .getComponentMetadata => .msg (msgs.msgId "ComponentMetadata")
  | .dumpMetadata => .msg (224, 15)
  | .subscribeLastUpdated => .msg (224, 18)
  | .dumpSchema => .msg (224, 25)
  | .sqlQuery => .msg (224, 28)
  | .msgStream => .msgBuf
  | .fixedRateMsgStream => .msgBuf
  | .getMsgMetadata => .msg (224, 30)
  | .getMsgs => .msg (224, 35)
  | .saveArchive => .msg (msgs.msgId "ArchiveSaved")

/-- A message that is parsed as the type with its id. -/
def parseAs (pkt : OwnedPacket) (id : PacketId) (buf : Bytes) : RecvResult :=
  if msgs.parses id buf then .ok pkt else .postcard

/-- `try_from_packet` -/
def Reply.tryFromPacket : Reply → OwnedPacket → RecvResult
  | .msg id, .msg id' reqId timestamp buf =>
    if id' = id then parseAs msgs (.msg id' reqId timestamp buf) id buf else .invalidPacket
  | .msgBuf, .msg id reqId timestamp buf => .ok (.msg id reqId timestamp buf)
  | .ownedTimeSeries, .timeSeries id reqId len buf => .ok (.timeSeries id reqId len buf)
  | .ownedTable, .table id reqId buf => .ok (.table id reqId buf)
  | .ownedPacket, pkt => .ok pkt
  | .streamReply, .msg id reqId timestamp buf =>
    let vtableMsg := msgs.msgId "VTableMsg"
    if id = vtableMsg then parseAs msgs (.msg id reqId timestamp buf) vtableMsg buf else .invalidPacket
  | .streamReply, .table id reqId buf => .ok (.table id reqId buf)
  | _, _ => .invalidPacket

/-- `ErrorResponse::ID` -/
def errorResponse : PacketId := (224, 29)

/-- The end of a round of the loop of `recv`, for a packet with its request's id. -/
def Reply.result (reply : Reply) : OwnedPacket → RecvResult
  | .msg id reqId timestamp buf =>
    if id = errorResponse then
      if msgs.parses errorResponse buf then .response buf else .postcard
    else reply.tryFromPacket msgs (.msg id reqId timestamp buf)
  | pkt => reply.tryFromPacket msgs pkt

end

/-- A request that was sent. -/
structure Sent where
  reqId : UInt8
  owner : Nat
  reply : Reply
  deriving DecidableEq, Repr

/-- A packet that answers a request. -/
structure Answer where
  owner : Nat
  pkt : OwnedPacket
  deriving DecidableEq, Repr

/-- A `recv` that has returned: the request it was called for, the one that the packet answers, and the result. -/
structure Returned where
  owner : Nat
  answers : Nat
  result : RecvResult
  deriving DecidableEq, Repr

end Client

open Client in
structure Client where
  nextReqId : UInt8
  /-- The number of requests sent so far. -/
  issued : Nat
  /-- The `SubStream`s that were not dropped. Each borrows the one after it, and only the first can be used. -/
  streams : List Sent
  /-- The `recv` under way, if there is one. -/
  receiving : Option Sent
  /-- The server's side: requests that it may still answer. -/
  unanswered : List Sent
  /-- The packets on their way to the client. -/
  wire : List Answer
  returned : List Returned
  deriving DecidableEq, Repr

namespace Client

open Metor.Impl.Proto (OwnedPacket)

inductive Act
  | request (req : Request)
  | stream (req : Request)
  /-- `SubStream::next` -/
  | next
  /-- A `SubStream` is dropped; the server is not told. -/
  | drop
  /-- One round of the loop of `recv`. -/
  | recv
  /-- The server sends a packet for a request, possibly the last. -/
  | reply (i : Nat) (pkt : OwnedPacket) (last : Bool)
  /-- The server ends a stream, or has nothing to answer. -/
  | finish (i : Nat)
  deriving DecidableEq, Repr

/-- `connect` -/
def connect : Client := ⟨0, 0, [], none, [], [], []⟩

/-- `next_req_id.wrapping_add(1)`; the field is not assigned to. -/
def reqId (s : Client) : UInt8 := s.nextReqId + 1

/-- The request that would be sent next. -/
def upcoming (s : Client) (reply : Reply) : Sent := ⟨s.reqId, s.issued, reply⟩

/-- `send` -/
def send (s : Client) (reply : Reply) : Client :=
  { s with issued := s.issued + 1, unanswered := s.unanswered ++ [s.upcoming reply] }

variable (msgs : Messages)

def step (s : Client) : Act → Option Client
  | .request req =>
    let reply := req.reply msgs
    if s.receiving = none then some { s.send reply with receiving := some (s.upcoming reply) } else none
  | .stream req =>
    let reply := req.reply msgs
    if s.receiving = none then some { s.send reply with streams := s.upcoming reply :: s.streams } else none
  | .next => if s.receiving = none then s.streams.head?.map fun r => { s with receiving := some r } else none
  | .drop => if s.receiving = none then some { s with streams := s.streams.tail } else none
  | .recv =>
    match s.receiving, s.wire with
    | some r, answer :: wire =>
      if Editor.reqId answer.pkt ≠ r.reqId then some { s with wire := wire }
      else some { s with
        wire := wire
        receiving := none
        returned := s.returned ++ [⟨r.owner, answer.owner, r.reply.result msgs answer.pkt⟩] }
    | _, _ => none
  | .reply i pkt last =>
    match s.unanswered[i]? with
    | none => none
    | some r =>
      if Editor.reqId pkt = r.reqId then some { s with
        wire := s.wire ++ [⟨r.owner, pkt⟩]
        unanswered := if last then s.unanswered.eraseIdx i else s.unanswered }
      else none
  | .finish i => some { s with unanswered := s.unanswered.eraseIdx i }

end Client

end Metor.Impl
