import Metor.Impl.Editor

/-!
# Packets and replies in the editor

`HandledAll`: what arrived is what was handled and what is still in the queue,
and each packet taken off the queue was passed to every handler registered and
had its built-in effect. `Session` is the life of the requests: a request is
sent, a packet comes in answer to one of them or unsolicited, and the handler
it finds runs and finishes. `OwnReplies` says that it finds the right one.
-/

namespace Metor.Spec.Editor

open Metor.Lib Metor.Impl.Editor
open Metor.Impl.Proto (OwnedPacket tryRecvPkt)

/-! ## Packets -/

section
variable {E : Type} (codec : Codec E)

/-- What a packet does to the world apart from its handlers. A message that cannot be parsed does nothing. -/
def effect (w : World E) : OwnedPacket → World E
  | .msg id _ _ buf => ((parseMsg codec id buf).map (applyPayload codec w)).getD w
  | .table id _ buf => if id = currentPacketId w then (codec.sink id buf w).1 else w
  | .timeSeries .. => w

/-- The frame was a packet that every handler registered was given, and its effect came next. -/
def Handled (round : Round E) : Prop :=
  ∃ pkt before, tryRecvPkt round.frame.1 round.frame.2 = some pkt ∧ round.passed = round.registered ∧
    round.effect = some (before, effect codec before pkt)

/-- Every packet taken off the queue was handled, once and in the order of their arrival. -/
def HandledAll (s : State E) : Prop :=
  s.arrived = s.rounds.map (·.frame) ++ s.queue ∧ ∀ round ∈ s.rounds, Handled codec round

end

/-- Whatever the systems and the messages are, all of them are handled in every run. -/
def HandlesEvery : Prop :=
  ∀ (E : Type) (sys : Systems E) (codec : Codec E) (w : World E) (handlers : List SystemId) (s : State E),
    Run (step sys codec) (fun _ _ => True) (init w handlers) s → HandledAll codec s

/-- A frame that is taken off the queue can be read, and it is not more than the 2049th of its call. -/
def WithinBudget {E : Type} (s : State E) : Act E → Prop
  | .next => ∀ count frame queue, s.count = some count → s.queue = frame :: queue →
      (tryRecvPkt frame.1 frame.2).isSome ∧ count ≤ 2048
  | _ => True

/-! ## Replies -/

/-- A request: the system that waits for its replies, the id it got, and whether it was sent. -/
structure Request where
  system : SystemId
  reqId : UInt8
  sent : Bool
  deriving DecidableEq, Repr

/-- `invoked` has the handlers that ran with the request whose answer they were given, if it was one;
`replaced` those that were in the map when another was put in their place. -/
structure Session where
  requests : Requests
  issued : List Request
  running : Option (UInt8 × SystemId)
  invoked : List (SystemId × Option Nat)
  replaced : List SystemId

inductive SessionAct
  | request (system : SystemId) (sent : Bool)
  /-- A packet that answers the request of this number, or has the request id 0. -/
  | packet (origin : Option Nat)
  /-- The handler that is running has run. -/
  | finish (result : Option Bool)
  deriving DecidableEq, Repr

namespace Session

def init : Session := ⟨.init, [], none, [], []⟩

/-- The request id of a packet. -/
def originId (s : Session) : Option Nat → Option UInt8
  | none => some 0
  | some n => (s.issued[n]?.filter (·.sent)).map (·.reqId)

def request (s : Session) (system : SystemId) (sent : Bool) : Session :=
  { s with
    requests := s.requests.reply system sent
    issued := s.issued ++ [⟨system, s.requests.allocNextId, sent⟩]
    replaced := s.replaced ++ (s.requests.handlers s.requests.allocNextId).toList }

def packet (s : Session) (origin : Option Nat) (reqId : UInt8) : Session :=
  match s.requests.handlers reqId with
  | none => s
  | some handler => { s with
      requests := s.requests.remove reqId
      running := some (reqId, handler)
      invoked := s.invoked ++ [(handler, origin)] }

def finish (s : Session) (reqId : UInt8) (handler : SystemId) (result : Option Bool) : Session :=
  { s with
    requests := s.requests.finish reqId handler result
    running := none
    replaced := s.replaced ++ if result = some false then (s.requests.handlers reqId).toList else [] }

/-- The system of a new request is a new one. -/
def step (s : Session) : SessionAct → Option Session
  | .request system sent => if system ∈ s.issued.map (·.system) then none else some (s.request system sent)
  | .packet origin => if s.running = none then (s.originId origin).map (s.packet origin) else none
  | .finish result => s.running.map fun running => s.finish running.1 running.2 result

/-- How many handlers are registered. -/
def registered (s : Session) : Nat :=
  ((List.range 256).filter fun n => (s.requests.handlers (UInt8.ofNat n)).isSome).length

/-- No request got the id 0, no handler was replaced, and each ran with answers to its own request. -/
def OwnReplies (s : Session) : Prop :=
  (∀ r ∈ s.issued, r.reqId ≠ 0) ∧ s.replaced = [] ∧
    ∀ i ∈ s.invoked, ∃ n r, i.2 = some n ∧ s.issued[n]? = some r ∧ r.system = i.1

/-- So it is as long as fewer than 255 handlers are registered. -/
def RepliesOwned : Prop :=
  ∀ s, Run step (fun s _ => s.registered < 255) init s → s.OwnReplies

end Session

end Metor.Spec.Editor
