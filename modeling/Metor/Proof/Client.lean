import Metor.Lib.Run
import Metor.Spec.Client

/-!
# Answers and requests

All requests of a client carry the id 1 (`ClientInv`), so a `recv` returns for
the first packet to come, whichever request it answers. That is its own answer
if no other request is outstanding (`run_own_answers`); the packets of a stream
that was dropped are taken for those of the next one (`stale_answer_not_own`).
-/

namespace Metor.Proof.Client

open Metor.Lib Metor.Impl Metor.Impl.Client
open Metor.Impl.Proto (OwnedPacket)

variable {msgs : Messages}

theorem forall_mem_concat {α : Type} {P : α → Prop} {xs : List α} {x : α} (h : ∀ y ∈ xs, P y) (hx : P x) :
    ∀ y ∈ xs ++ [x], P y := by
  intro y hy
  rcases List.mem_append.mp hy with hy | hy
  · exact h y hy
  · rw [List.mem_singleton.mp hy]
    exact hx

/-! ## What a step does -/

theorem request_eq {s t : Client} {req : Request} (h : s.step msgs (.request req) = some t) :
    s.receiving = none ∧ t = { s.send (req.reply msgs) with receiving := some (s.upcoming (req.reply msgs)) } := by
  simp only [step, Option.ite_none_right_eq_some, Option.some.injEq] at h
  exact ⟨h.1, h.2.symm⟩

theorem stream_eq {s t : Client} {req : Request} (h : s.step msgs (.stream req) = some t) :
    s.receiving = none ∧
      t = { s.send (req.reply msgs) with streams := s.upcoming (req.reply msgs) :: s.streams } := by
  simp only [step, Option.ite_none_right_eq_some, Option.some.injEq] at h
  exact ⟨h.1, h.2.symm⟩

theorem next_eq {s t : Client} (h : s.step msgs .next = some t) :
    ∃ r, s.streams.head? = some r ∧ t = { s with receiving := some r } := by
  simp only [step, Option.ite_none_right_eq_some, Option.map_eq_some_iff] at h
  obtain ⟨-, r, hr, rfl⟩ := h
  exact ⟨r, hr, rfl⟩

theorem drop_eq {s t : Client} (h : s.step msgs .drop = some t) :
    s.receiving = none ∧ t = { s with streams := s.streams.tail } := by
  simp only [step, Option.ite_none_right_eq_some, Option.some.injEq] at h
  exact ⟨h.1, h.2.symm⟩

/-- A packet is passed over or returned for. -/
theorem recv_eq {s t : Client} (h : s.step msgs .recv = some t) :
    ∃ r answer wire, s.receiving = some r ∧ s.wire = answer :: wire ∧
      (Editor.reqId answer.pkt ≠ r.reqId ∧ t = { s with wire := wire } ∨
        Editor.reqId answer.pkt = r.reqId ∧ t = { s with
          wire := wire
          receiving := none
          returned := s.returned ++ [⟨r.owner, answer.owner, r.reply.result msgs answer.pkt⟩] }) := by
  simp only [step] at h
  split at h
  · next r answer wire hr hw =>
    refine ⟨r, answer, wire, hr, hw, ?_⟩
    split at h
    · next hid =>
      cases h
      exact .inl ⟨hid, rfl⟩
    · next hid =>
      cases h
      exact .inr ⟨not_not.mp hid, rfl⟩
  · cases h

theorem reply_eq {s t : Client} {i : Nat} {pkt : OwnedPacket} {last : Bool}
    (h : s.step msgs (.reply i pkt last) = some t) :
    ∃ r, s.unanswered[i]? = some r ∧ Editor.reqId pkt = r.reqId ∧ t = { s with
      wire := s.wire ++ [⟨r.owner, pkt⟩]
      unanswered := if last then s.unanswered.eraseIdx i else s.unanswered } := by
  simp only [step] at h
  split at h
  · cases h
  · next r hr =>
    simp only [Option.ite_none_right_eq_some, Option.some.injEq] at h
    exact ⟨r, hr, h.1, h.2.symm⟩

/-! ## Calls that are alone -/

/-- While a `recv` is under way, no other request than its own is outstanding. -/
structure AloneInv (s : Client) : Prop where
  alone : ∀ r ∈ s.receiving, ∀ owner ∈ s.pending, owner = r.owner
  own : s.OwnResults

theorem connect_aloneInv : AloneInv connect := ⟨nofun, nofun⟩

theorem pending_eq_nil {s : Client} (h : s.outstanding = 0) : s.pending = [] := by
  rw [outstanding, List.length_eq_zero_iff, List.dedup_eq_nil] at h
  exact h

/-- After it is sent, a request is the only one that is outstanding if there was none before. -/
theorem pending_send {s : Client} (h : s.outstanding = 0) (reply : Reply) : (s.send reply).pending = [s.issued] := by
  obtain ⟨hun, hw⟩ := List.append_eq_nil_iff.mp (pending_eq_nil h)
  simp only [pending, send, List.map_append, hun, hw]
  rfl

/-- A packet that is read is no longer outstanding. -/
theorem mem_pending_cons {s : Client} {answer : Answer} {wire : List Answer} (hw : s.wire = answer :: wire)
    {owner : Nat} : owner ∈ s.pending ↔ owner ∈ s.unanswered.map Sent.owner ++ wire.map Answer.owner ∨
      owner = answer.owner := by
  simp only [pending, hw, List.map_cons, List.mem_append, List.mem_cons]
  tauto

theorem mem_eraseIdx_map {sent : List Sent} {i owner : Nat} (h : owner ∈ (sent.eraseIdx i).map Sent.owner) :
    owner ∈ sent.map Sent.owner := by
  obtain ⟨r, hr, rfl⟩ := List.mem_map.mp h
  exact List.mem_map_of_mem (List.mem_of_mem_eraseIdx hr)

/-- What the server sends is for a request that was outstanding. -/
theorem reply_pending {s t : Client} {i : Nat} {pkt : OwnedPacket} {last : Bool}
    (h : s.step msgs (.reply i pkt last) = some t) : ∀ owner ∈ t.pending, owner ∈ s.pending := by
  obtain ⟨r, hr, -, rfl⟩ := reply_eq h
  intro owner howner
  simp only [pending, List.map_append, List.map_cons, List.map_nil, List.mem_append, List.mem_singleton] at howner ⊢
  rcases howner with hun | hw | hr'
  · left
    split at hun
    · exact mem_eraseIdx_map hun
    · exact hun
  · exact .inr hw
  · exact .inl (hr' ▸ List.mem_map_of_mem (List.mem_of_getElem? hr))

theorem step_aloneInv {s t : Client} {a : Act} (hs : AloneInv s) (hok : s.Alone a) (h : s.step msgs a = some t) :
    AloneInv t := by
  cases a with
  | request req =>
    obtain ⟨-, rfl⟩ := request_eq h
    refine ⟨fun r hr owner howner => ?_, hs.own⟩
    cases hr
    change owner ∈ (s.send (req.reply msgs)).pending at howner
    rw [pending_send hok] at howner
    exact List.mem_singleton.mp howner
  | stream req =>
    obtain ⟨hr, rfl⟩ := stream_eq h
    refine ⟨fun r hr' => ?_, hs.own⟩
    exact absurd (hr.symm.trans hr') (by simp)
  | next =>
    obtain ⟨r, hr, rfl⟩ := next_eq h
    refine ⟨fun q hq => ?_, hs.own⟩
    cases hq
    exact hok r hr
  | drop =>
    obtain ⟨-, rfl⟩ := drop_eq h
    exact ⟨hs.alone, hs.own⟩
  | recv =>
    obtain ⟨r, answer, wire, hr, hw, hrest⟩ := recv_eq h
    have halone := hs.alone r hr
    rcases hrest with ⟨-, rfl⟩ | ⟨-, rfl⟩
    · refine ⟨fun q hq owner howner => ?_, hs.own⟩
      cases hr.symm.trans hq
      exact halone owner ((mem_pending_cons hw).mpr (.inl howner))
    · exact ⟨fun q hq => (by cases hq),
        forall_mem_concat hs.own (halone _ ((mem_pending_cons hw).mpr (.inr rfl)))⟩
  | reply i pkt last =>
    have hpending := reply_pending h
    obtain ⟨r, -, -, rfl⟩ := reply_eq h
    exact ⟨fun q hq owner howner => hs.alone q hq owner (hpending owner howner), hs.own⟩
  | finish i =>
    cases h
    refine ⟨fun q hq owner howner => hs.alone q hq owner ?_, hs.own⟩
    exact (List.mem_append.mp howner).elim (fun h => List.mem_append_left _ (mem_eraseIdx_map h))
      (List.mem_append_right _)

/-- In every run whose calls are made while no other request is outstanding, each `recv` returns an answer to its own
request. -/
theorem run_own_answers {s : Client} (h : Run (step msgs) Alone connect s) : s.OwnAnswers :=
  fun r hr _ => (h.invariant step_aloneInv connect_aloneInv).own r hr

/-- A stream is read once and ends, and then a request is answered. -/
def aloneActs : List Act :=
  [.stream .msgStream, .reply 0 (.msg (5, 9) 1 none [7]) true, .next, .recv, .drop,
    .request .getTimeSeries, .reply 0 (.timeSeries (0, 1) 1 0 (.replicate 8 0)) true, .recv]

theorem run_own_answers_two : ∃ s, Run (step ⟨fun _ => (0, 0), fun _ _ => false⟩) Alone connect s ∧
    s.returned = [⟨0, 0, .ok (.msg (5, 9) 1 none [7])⟩, ⟨1, 1, .ok (.timeSeries (0, 1) 1 0 (.replicate 8 0))⟩] ∧
    s.OwnAnswers := by
  have h : Run (step ⟨fun _ => (0, 0), fun _ _ => false⟩) Alone connect
      ⟨0, 2, [], none, [], [],
        [⟨0, 0, .ok (.msg (5, 9) 1 none [7])⟩, ⟨1, 1, .ok (.timeSeries (0, 1) 1 0 (.replicate 8 0))⟩]⟩ :=
    Run.of_exec aloneActs .refl rfl
  exact ⟨_, h, rfl, run_own_answers h⟩

/-! ## Calls that are not -/

/-- Every request has the same id. -/
structure ClientInv (s : Client) : Prop where
  nextReqId : s.nextReqId = 0
  streams : ∀ r ∈ s.streams, r.reqId = 1
  receiving : ∀ r ∈ s.receiving, r.reqId = 1
  unanswered : ∀ r ∈ s.unanswered, r.reqId = 1

theorem connect_inv : ClientInv connect := ⟨rfl, nofun, nofun, nofun⟩

theorem upcoming_reqId {s : Client} (h : ClientInv s) (reply : Reply) : (s.upcoming reply).reqId = 1 := by
  show s.nextReqId + 1 = 1
  rw [h.nextReqId]
  rfl

theorem step_clientInv {s t : Client} {a : Act} (hs : ClientInv s) (h : s.step msgs a = some t) : ClientInv t := by
  cases a with
  | request req =>
    obtain ⟨-, rfl⟩ := request_eq h
    have hup := upcoming_reqId hs (req.reply msgs)
    exact ⟨hs.nextReqId, hs.streams, fun r hr => Option.some.inj hr ▸ hup, forall_mem_concat hs.unanswered hup⟩
  | stream req =>
    obtain ⟨-, rfl⟩ := stream_eq h
    have hup := upcoming_reqId hs (req.reply msgs)
    exact ⟨hs.nextReqId, List.forall_mem_cons.mpr ⟨hup, hs.streams⟩, hs.receiving, forall_mem_concat hs.unanswered hup⟩
  | next =>
    obtain ⟨r, hr, rfl⟩ := next_eq h
    refine ⟨hs.nextReqId, hs.streams, fun q hq => ?_, hs.unanswered⟩
    exact Option.some.inj hq ▸ hs.streams r (List.mem_of_head? hr)
  | drop =>
    obtain ⟨-, rfl⟩ := drop_eq h
    exact ⟨hs.nextReqId, fun r hr => hs.streams r (List.mem_of_mem_tail hr), hs.receiving, hs.unanswered⟩
  | recv =>
    obtain ⟨r, answer, wire, -, -, ⟨-, rfl⟩ | ⟨-, rfl⟩⟩ := recv_eq h
    · exact ⟨hs.nextReqId, hs.streams, hs.receiving, hs.unanswered⟩
    · exact ⟨hs.nextReqId, hs.streams, fun q hq => (by cases hq), hs.unanswered⟩
  | reply i pkt last =>
    obtain ⟨r, -, -, rfl⟩ := reply_eq h
    refine ⟨hs.nextReqId, hs.streams, hs.receiving, fun q hq => ?_⟩
    dsimp only at hq
    split at hq
    · exact hs.unanswered q (List.mem_of_mem_eraseIdx hq)
    · exact hs.unanswered q hq
  | finish i =>
    cases h
    exact ⟨hs.nextReqId, hs.streams, hs.receiving, fun q hq => hs.unanswered q (List.mem_of_mem_eraseIdx hq)⟩

/-- While a `recv` waits and another request is unanswered, any packet that the server sends for that one is returned,
if it can be read as the reply. -/
theorem exists_not_own {s : Client} {r p : Sent} {pkt : OwnedPacket}
    (h : Run (step msgs) (fun _ _ => True) connect s) (hr : s.receiving = some r) (hw : s.wire = [])
    (hp : p ∈ s.unanswered) (hne : p.owner ≠ r.owner) (hid : Editor.reqId pkt = p.reqId)
    (hpkt : (r.reply.result msgs pkt).isPacket) :
    ∃ t, Run (step msgs) (fun _ _ => True) connect t ∧ ¬t.OwnAnswers := by
  have hs : ClientInv s := h.invariant (fun hs _ => step_clientInv hs) connect_inv
  obtain ⟨i, hi, rfl⟩ := List.mem_iff_getElem.mp hp
  have hreply : s.step msgs (.reply i pkt false) = some { s with wire := [⟨s.unanswered[i].owner, pkt⟩] } := by
    simp [step, List.getElem?_eq_getElem hi, hid, hw]
  have hrecv : ({ s with wire := [⟨s.unanswered[i].owner, pkt⟩] } : Client).step msgs .recv = some { s with
      wire := []
      receiving := none
      returned := s.returned ++ [⟨r.owner, s.unanswered[i].owner, r.reply.result msgs pkt⟩] } := by
    have hsame : Editor.reqId pkt = r.reqId :=
      hid.trans ((hs.unanswered _ hp).trans (hs.receiving r hr).symm)
    simp [step, hr, hsame]
  refine ⟨_, (h.snoc trivial hreply).snoc trivial hrecv, fun hown => hne ?_⟩
  exact hown ⟨r.owner, s.unanswered[i].owner, _⟩ (List.mem_append_right _ (List.mem_singleton_self _)) hpkt

/-- A stream of messages is dropped, the server goes on with it, and another one reads its message. -/
def staleActs : List Act :=
  [.stream .msgStream, .drop, .stream .msgStream, .next, .reply 0 (.msg (5, 9) 1 none [7]) false, .recv]

theorem stale_answer_not_own : ¬∃ msgs, ∀ s : Client, Run (step msgs) Few connect s → s.OwnAnswers := by
  rintro ⟨msgs, h⟩
  have hrun : Run (step msgs) Few connect
      ⟨0, 2, [⟨1, 1, .msgBuf⟩], none, [⟨1, 0, .msgBuf⟩, ⟨1, 1, .msgBuf⟩], [],
        [⟨1, 0, .ok (.msg (5, 9) 1 none [7])⟩]⟩ :=
    Run.of_exec staleActs .refl rfl
  have hown := h _ hrun ⟨1, 0, .ok (.msg (5, 9) 1 none [7])⟩ List.mem_cons_self rfl
  exact absurd hown (by decide)

end Metor.Proof.Client
