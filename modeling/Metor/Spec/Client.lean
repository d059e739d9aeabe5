import Metor.Impl.Client

/-!
# Whose answers a client reads
-/

namespace Metor.Impl.Client

/-- What was in the packet is given out: as the reply, or as the error that the server sent. -/
def RecvResult.isPacket : RecvResult → Bool
  | .ok _ | .response _ => true
  | .postcard | .invalidPacket => false

/-- No `recv` returned a packet that answers another request than its own. -/
def OwnAnswers (s : Client) : Prop := ∀ r ∈ s.returned, r.result.isPacket → r.answers = r.owner

/-- No `recv` returned for a packet that answers another request, with an error or without. -/
def OwnResults (s : Client) : Prop := ∀ r ∈ s.returned, r.answers = r.owner

/-- The owners of the requests that the server may still answer, or has answered with packets still to come. -/
def pending (s : Client) : List Nat := s.unanswered.map Sent.owner ++ s.wire.map Answer.owner

/-- The number of requests that are outstanding. -/
def outstanding (s : Client) : Nat := s.pending.dedup.length

/-- A request is sent while fewer than 256 are outstanding. -/
def Few (s : Client) : Act → Prop
  | .request _ | .stream _ => s.outstanding + 1 < 256
  | .next | .drop | .recv | .reply _ _ _ | .finish _ => True

/-- A `recv` is begun only while no other request is outstanding. -/
def Alone (s : Client) : Act → Prop
  | .request _ => s.outstanding = 0
  | .next => ∀ r ∈ s.streams.head?, ∀ owner ∈ s.pending, owner = r.owner
  | .stream _ | .drop | .recv | .reply _ _ _ | .finish _ => True

instance (s : Client) : (a : Act) → Decidable (s.Few a)
  | .request _ | .stream _ => inferInstanceAs (Decidable (_ < _))
  | .next | .drop | .recv | .reply _ _ _ | .finish _ => isTrue trivial

instance (s : Client) : (a : Act) → Decidable (s.Alone a)
  | .request _ => inferInstanceAs (Decidable (_ = _))
  | .next => inferInstanceAs (Decidable (∀ r ∈ s.streams.head?, ∀ owner ∈ s.pending, owner = r.owner))
  | .stream _ | .drop | .recv | .reply _ _ _ | .finish _ => isTrue trivial

end Metor.Impl.Client
