import Metor.Spec.Editor

/-!
# The editor's handlers see their own replies

The id of a request is its number, in a byte (`Numbered`). So while there are at
most 255 of them, a handler is under the id of its own request (`Inv`), which
each step keeps (`inv_request`, `inv_packet`, `inv_finish`); the 256th gets the
id 0. What the handlers of a packet do with the requests is such a session
(`follows_handlers`).
-/

namespace Metor.Proof.Editor

open Metor.Lib Metor.Impl.Editor Metor.Spec.Editor
open Metor.Impl.Proto (OwnedPacket)

section
variable {s t : Session}

/-- The system sent a request that got this id. -/
def Asked (s : Session) (system : SystemId) (id : UInt8) : Prop :=
  ∃ (n : Nat) (r : Request), s.issued[n]? = some r ∧ r.system = system ∧ r.reqId = id

/-- The id of a request is its number, counted from 1, in a byte. -/
structure Numbered (s : Session) : Prop where
  alloc : s.requests.alloc.toNat = s.issued.length % 256
  ids : ∀ (n : Nat) (r : Request), s.issued[n]? = some r → r.reqId.toNat = (n + 1) % 256

/-- Handlers are under the id of their request, and see the answers to it. -/
structure Inv (s : Session) : Prop where
  registered : ∀ id h, s.requests.handlers id = some h → Asked s h id
  running : ∀ id h, s.running = some (id, h) → s.requests.handlers id = none ∧ Asked s h id
  own : s.OwnReplies

theorem numbered_init : Numbered Session.init where
  alloc := rfl
  ids n r h := absurd h (by simp [Session.init])

theorem inv_init : Inv Session.init where
  registered id h hr := absurd hr (by simp [Session.init, Requests.init])
  running id h hr := absurd hr (by simp [Session.init])
  own := ⟨fun r hr => absurd hr List.not_mem_nil, rfl, fun i hi => absurd hi List.not_mem_nil⟩

/-- Where the requests issued before are found afterwards. -/
theorem issued_request (s : Session) (system : SystemId) (sent : Bool) {n : Nat} {r : Request} :
    (s.request system sent).issued[n]? = some r ↔
      s.issued[n]? = some r ∨ n = s.issued.length ∧ r = ⟨system, s.requests.allocNextId, sent⟩ := by
  show (s.issued ++ [_])[n]? = some r ↔ _
  rw [List.getElem?_append]
  split_ifs with hn
  · exact ⟨.inl, fun h => h.elim id fun h => absurd h.1 (by omega)⟩
  · rw [List.getElem?_eq_none (Nat.le_of_not_lt hn), List.getElem?_singleton]
    constructor
    · intro h
      split_ifs at h with h0
      exact .inr ⟨by omega, (Option.some.inj h).symm⟩
    · rintro (h | ⟨rfl, rfl⟩)
      · exact absurd h (by simp)
      · rw [if_pos (Nat.sub_self _)]

/-- A request changes the handler of the id it allocates only. -/
theorem handlers_reply (r : Requests) (system : SystemId) (sent : Bool) (id : UInt8) :
    (r.reply system sent).handlers id =
      if id = r.allocNextId then (if sent then some system else none) else r.handlers id := by
  cases sent with
  | true => exact Function.update_apply ..
  | false =>
    show Function.update (Function.update r.handlers r.allocNextId (some system)) r.allocNextId none id = _
    rw [Function.update_idem, Function.update_apply]
    rfl

theorem alloc_reply (r : Requests) (system : SystemId) (sent : Bool) :
    (r.reply system sent).alloc = r.allocNextId := by
  cases sent <;> rfl

theorem Asked.request {h : SystemId} {id : UInt8} (ha : Asked s h id) (system : SystemId) (sent : Bool) :
    Asked (s.request system sent) h id := by
  obtain ⟨n, r, hr, hs, hid⟩ := ha
  exact ⟨n, r, (issued_request s system sent).mpr (.inl hr), hs, hid⟩

theorem allocNextId_toNat (h : Numbered s) : s.requests.allocNextId.toNat = (s.issued.length + 1) % 256 := by
  show (s.requests.alloc + 1).toNat = _
  rw [UInt8.toNat_add, h.alloc]
  show (s.issued.length % 256 + 1) % 256 = _
  omega

theorem numbered_request (h : Numbered s) (system : SystemId) (sent : Bool) :
    Numbered (s.request system sent) where
  alloc := by
    show (s.requests.reply system sent).alloc.toNat = (s.issued ++ [_]).length % 256
    rw [alloc_reply, allocNextId_toNat h, List.length_append, List.length_singleton]
  ids n r hr := by
    rcases (issued_request s system sent).mp hr with hr | ⟨rfl, rfl⟩
    · exact h.ids n r hr
    · exact allocNextId_toNat h

/-- While there are at most 255 requests, the next one has an id that nobody asked with. -/
theorem not_asked_allocNextId (h : Numbered s) (hfew : s.issued.length < 255) (x : SystemId) :
    ¬ Asked s x s.requests.allocNextId := by
  rintro ⟨n, r, hr, rfl, hid⟩
  have hn := (List.getElem?_eq_some_iff.mp hr).1
  have heq := (h.ids n r hr).symm.trans ((congrArg UInt8.toNat hid).trans (allocNextId_toNat h))
  omega

theorem handlers_allocNextId (h : Inv s) (hnum : Numbered s) (hfew : s.issued.length < 255) :
    s.requests.handlers s.requests.allocNextId = none := by
  cases hx : s.requests.handlers s.requests.allocNextId with
  | none => rfl
  | some x => exact absurd (h.registered _ _ hx) (not_asked_allocNextId hnum hfew x)

theorem inv_request (h : Inv s) (hnum : Numbered s) (hfew : s.issued.length < 255) (system : SystemId) (sent : Bool) :
    Inv (s.request system sent) := by
  refine ⟨fun id x hx => ?_, fun id x hx => ?_, fun r hr => ?_, ?_, fun i hi => ?_⟩
  · have hx : (s.requests.reply system sent).handlers id = some x := hx
    rw [handlers_reply] at hx
    split_ifs at hx with he hsent
    · exact ⟨_, _, (issued_request s system sent).mpr (.inr ⟨rfl, rfl⟩), Option.some.inj hx, he.symm⟩
    · exact (h.registered id x hx).request system sent
  · obtain ⟨hnone, ha⟩ := h.running id x hx
    refine ⟨?_, ha.request system sent⟩
    show (s.requests.reply system sent).handlers id = none
    rw [handlers_reply, if_neg ?_, hnone]
    intro e
    exact not_asked_allocNextId hnum hfew x (e ▸ ha)
  · rcases List.mem_append.mp hr with hr | hr
    · exact h.own.1 r hr
    · obtain rfl := List.mem_singleton.mp hr
      intro e
      have heq := (congrArg UInt8.toNat e).symm.trans (allocNextId_toNat hnum)
      rw [Nat.mod_eq_of_lt (by omega)] at heq
      exact Nat.succ_ne_zero _ heq.symm
  · show s.replaced ++ (s.requests.handlers s.requests.allocNextId).toList = []
    rw [h.own.2.1, handlers_allocNextId h hnum hfew]
    rfl
  · obtain ⟨n, r, ho, hr, hs⟩ := h.own.2.2 i hi
    exact ⟨n, r, ho, (issued_request s system sent).mpr (.inl hr), hs⟩

theorem originId_eq {origin : Option Nat} {reqId : UInt8} (h : s.originId origin = some reqId) :
    origin = none ∧ reqId = 0 ∨ ∃ n r, origin = some n ∧ s.issued[n]? = some r ∧ r.reqId = reqId := by
  cases origin with
  | none => exact .inl ⟨rfl, (Option.some.inj h).symm⟩
  | some n =>
    obtain ⟨r, hr, hid⟩ := Option.map_eq_some_iff.mp h
    exact .inr ⟨n, r, rfl, (Option.filter_eq_some_iff.mp hr).1, hid⟩

/-- The handler a packet finds is that of the request it answers. -/
theorem asked_origin {origin : Option Nat} {reqId : UInt8} {x : SystemId} (h : Inv s) (hnum : Numbered s)
    (hfew : s.issued.length ≤ 255) (ho : s.originId origin = some reqId) (hx : s.requests.handlers reqId = some x) :
    ∃ n r, origin = some n ∧ s.issued[n]? = some r ∧ r.system = x := by
  obtain ⟨k, r, hr, rfl, hid⟩ := h.registered reqId x hx
  rcases originId_eq ho with ⟨-, hzero⟩ | ⟨n, r', rfl, hr', hid'⟩
  · exact absurd (hid.trans hzero) (h.own.1 r (List.mem_of_getElem? hr))
  · have hk := (List.getElem?_eq_some_iff.mp hr).1
    have hn := (List.getElem?_eq_some_iff.mp hr').1
    have heq : (k + 1) % 256 = (n + 1) % 256 := by
      rw [← hnum.ids k r hr, ← hnum.ids n r' hr', hid, hid']
    obtain rfl : k = n := by omega
    exact ⟨k, r, rfl, hr, rfl⟩

theorem packet_some {reqId : UInt8} {x : SystemId} (origin : Option Nat) (hx : s.requests.handlers reqId = some x) :
    s.packet origin reqId = { s with
      requests := s.requests.remove reqId, running := some (reqId, x), invoked := s.invoked ++ [(x, origin)] } := by
  simp only [Session.packet, hx]

theorem inv_packet {origin : Option Nat} {reqId : UInt8} (h : Inv s) (hnum : Numbered s)
    (hfew : s.issued.length ≤ 255) (ho : s.originId origin = some reqId) : Inv (s.packet origin reqId) := by
  cases hx : s.requests.handlers reqId with
  | none =>
    have e : s.packet origin reqId = s := by simp only [Session.packet, hx]
    rw [e]
    exact h
  | some x =>
    rw [packet_some origin hx]
    have hremove (id : UInt8) : (s.requests.remove reqId).handlers id =
        if id = reqId then none else s.requests.handlers id := Function.update_apply ..
    refine ⟨fun id y hy => ?_, fun id y hy => ?_, h.own.1, h.own.2.1, fun i hi => ?_⟩
    · rw [hremove] at hy
      split_ifs at hy
      exact h.registered id y hy
    · obtain ⟨rfl, rfl⟩ := Prod.mk.inj (Option.some.inj hy)
      exact ⟨(hremove _).trans (if_pos rfl), h.registered _ _ hx⟩
    · rcases List.mem_append.mp hi with hi | hi
      · exact h.own.2.2 i hi
      · obtain rfl := List.mem_singleton.mp hi
        exact @asked_origin s origin reqId x h hnum hfew ho hx

theorem numbered_packet (h : Numbered s) (origin : Option Nat) (reqId : UInt8) : Numbered (s.packet origin reqId) := by
  rw [Session.packet]
  split
  · exact h
  · exact ⟨h.alloc, h.ids⟩

theorem issued_packet (s : Session) (origin : Option Nat) (reqId : UInt8) : (s.packet origin reqId).issued = s.issued := by
  rw [Session.packet]
  split
  · rfl
  · rfl

theorem inv_finish {reqId : UInt8} {x : SystemId} (h : Inv s) (hx : s.running = some (reqId, x))
    (result : Option Bool) : Inv (s.finish reqId x result) := by
  obtain ⟨hnone, ha⟩ := h.running reqId x hx
  have hfinish {id : UInt8} {y : SystemId} (hy : (s.requests.finish reqId x result).handlers id = some y) :
      s.requests.handlers id = some y ∨ id = reqId ∧ y = x := by
    unfold Requests.finish at hy
    split_ifs at hy
    · rw [show (s.requests.insert reqId x).handlers id = if id = reqId then some x else s.requests.handlers id
        from Function.update_apply ..] at hy
      split_ifs at hy with he
      · exact .inr ⟨he, (Option.some.inj hy).symm⟩
      · exact .inl hy
    · exact .inl hy
  refine ⟨fun id y hy => ?_, fun id y hy => ?_, h.own.1, ?_, h.own.2.2⟩
  · rcases hfinish hy with hy | ⟨rfl, rfl⟩
    · exact h.registered id y hy
    · exact ha
  · exact absurd hy (by simp [Session.finish])
  · show s.replaced ++ (if result = some false then (s.requests.handlers reqId).toList else []) = []
    rw [hnone, h.own.2.1]
    split_ifs <;> rfl

theorem numbered_finish (h : Numbered s) (reqId : UInt8) (x : SystemId) (result : Option Bool) :
    Numbered (s.finish reqId x result) := by
  refine ⟨?_, h.ids⟩
  show (s.requests.finish reqId x result).alloc.toNat = _
  unfold Requests.finish
  split_ifs <;> exact h.alloc

theorem inv_step {a : SessionAct} (hnum : Numbered s) (h : s.issued.length ≤ 255 → Inv s) (ht : s.step a = some t) :
    Numbered t ∧ (t.issued.length ≤ 255 → Inv t) := by
  cases a with
  | request system sent =>
    obtain ⟨-, ht⟩ := Option.ite_none_left_eq_some.mp ht
    obtain rfl := Option.some.inj ht
    refine ⟨numbered_request hnum system sent, fun hfew => ?_⟩
    have hfew : (s.issued ++ [_]).length ≤ 255 := hfew
    rw [List.length_append, List.length_singleton] at hfew
    exact inv_request (h (by omega)) hnum (by omega) system sent
  | packet origin =>
    obtain ⟨-, ht⟩ := Option.ite_none_right_eq_some.mp ht
    obtain ⟨reqId, ho, rfl⟩ := Option.map_eq_some_iff.mp ht
    refine ⟨numbered_packet hnum origin reqId, fun hfew => ?_⟩
    rw [issued_packet] at hfew
    exact inv_packet (h hfew) hnum hfew ho
  | finish result =>
    obtain ⟨⟨reqId, x⟩, hx, rfl⟩ := Option.map_eq_some_iff.mp ht
    exact ⟨numbered_finish hnum reqId x result, fun hfew => inv_finish (h hfew) hx result⟩

/-- The 256th request has the id 0. -/
theorem length_le_of_own (h : Numbered s) (hown : s.OwnReplies) : s.issued.length ≤ 255 := by
  by_contra hmany
  have hlt : 255 < s.issued.length := by omega
  have hid := h.ids 255 s.issued[255] (List.getElem?_eq_getElem hlt)
  exact hown.1 _ (List.getElem_mem hlt) (UInt8.toNat_inj.mp hid)

/-- Replies go to the handler of their request, however many are registered, exactly while there are at most 255
requests. -/
theorem own_replies_iff (h : Run Session.step (fun _ _ => True) .init s) : s.OwnReplies ↔ s.issued.length ≤ 255 := by
  have hinv : Numbered s ∧ (s.issued.length ≤ 255 → Inv s) :=
    @Run.invariant _ _ _ _ _ _ (fun s => Numbered s ∧ (s.issued.length ≤ 255 → Inv s))
      (fun h _ ht => inv_step h.1 h.2 ht) h ⟨numbered_init, fun _ => inv_init⟩
  exact ⟨length_le_of_own hinv.1, fun hfew => (hinv.2 hfew).own⟩

/-- Two requests, of which the second is answered first -/
def reversed : List SessionAct :=
  [.request 0 true, .request 1 true, .packet (some 1), .finish (some true), .packet (some 0)]

/-- The session after them -/
def reversedSession : Session := (exec Session.step (fun _ _ => True) .init reversed).getD .init

theorem own_replies_reversed : reversedSession.invoked = [(1, some 1), (0, some 0)] ∧ reversedSession.OwnReplies := by
  have hrun : Run Session.step (fun _ _ => True) .init reversedSession := .of_exec reversed .refl rfl
  exact ⟨rfl, (own_replies_iff hrun).mpr (by decide)⟩

/-! ## The handlers of the editor are a session -/

section
variable {E : Type} {sys : Systems E} {w : World E}

/-- The session has the requests of the world, and the world's next system is a new one. -/
structure Tracks (w : World E) (s : Session) : Prop where
  requests : s.requests = w.requests
  fresh : ∀ r ∈ s.issued, r.system < w.next

/-- The session goes on by some steps and has the requests of the world then, with the same handler out. -/
def Follows (s : Session) (w : World E) : Prop :=
  ∃ t, Run Session.step (fun _ _ => True) s t ∧ Tracks w t ∧ t.running = s.running ∧ s.issued <+: t.issued

theorem Follows.refl (h : Tracks w s) : Follows s w := ⟨s, .refl, h, rfl, List.prefix_refl _⟩

theorem Follows.then {w' : World E} (h : Follows s w)
    (hnext : ∀ t, Tracks w t → t.running = s.running → s.issued <+: t.issued → Follows t w') : Follows s w' := by
  obtain ⟨t, hrun, ht, hrunning, hissued⟩ := h
  obtain ⟨u, hrun', hu, hrunning', hissued'⟩ := hnext t ht hrunning hissued
  exact ⟨u, hrun.trans hrun', hu, hrunning'.trans hrunning, hissued.trans hissued'⟩

theorem follows_command (h : Tracks w s) (c : Command) : Follows s (w.applyCommand c) := by
  cases c with
  | reqHandler packetId sent =>
    exact .refl ⟨h.requests, fun r hr => Nat.lt_succ_of_lt (h.fresh r hr)⟩
  | replyHandler sent =>
    have hnew : w.next ∉ s.issued.map (·.system) := fun hm => by
      obtain ⟨r, hr, e⟩ := List.mem_map.mp hm
      exact absurd (h.fresh r hr) (Nat.not_lt.mpr (Nat.le_of_eq e.symm))
    have hstep : s.step (.request w.next sent) = some (s.request w.next sent) := if_neg hnew
    refine ⟨s.request w.next sent, Run.refl.snoc trivial hstep, ⟨?_, fun r hr => ?_⟩, rfl,
      List.prefix_append ..⟩
    · exact congrArg (Requests.reply · w.next sent) h.requests
    · rcases List.mem_append.mp hr with hr | hr
      · exact Nat.lt_succ_of_lt (h.fresh r hr)
      · obtain rfl := List.mem_singleton.mp hr
        exact Nat.lt_succ_self w.next

theorem follows_commands (cs : List Command) (h : Tracks w s) : Follows s (cs.foldl World.applyCommand w) := by
  induction cs generalizing w s with
  | nil => exact .refl h
  | cons c cs ih => exact (follows_command h c).then fun _ ht _ _ => ih ht

theorem follows_ran (outcome : Outcome E) (h : Tracks w s) : Follows s (w.ran outcome) :=
  follows_commands (w := { w with res := outcome.res }) outcome.commands ⟨h.requests, h.fresh⟩

theorem follows_packetIdHandler (pkt : OwnedPacket) (h : Tracks w s) : Follows s (runPacketIdHandler sys w pkt) := by
  unfold runPacketIdHandler
  cases w.packetIdHandlers (packetId pkt) with
  | none => exact .refl h
  | some handler => exact follows_ran _ ⟨h.requests, h.fresh⟩

/-- The handler that a packet answers is out while it runs, and its requests are sent then. -/
theorem follows_requestIdHandler {origin : Option Nat} (pkt : OwnedPacket) (h : Tracks w s)
    (hidle : s.running = none) (ho : s.originId origin = some (reqId pkt)) :
    Follows s (runRequestIdHandler sys w pkt) := by
  unfold runRequestIdHandler
  cases hx : w.requests.handlers (reqId pkt) with
  | none => exact .refl h
  | some handler =>
    have hstep : s.step (.packet origin) = some { s with
        requests := s.requests.remove (reqId pkt)
        running := some (reqId pkt, handler)
        invoked := s.invoked ++ [(handler, origin)] } := by
      show (if s.running = none then (s.originId origin).map (s.packet origin) else none) = _
      rw [if_pos hidle, ho, Option.map_some, packet_some origin (h.requests ▸ hx)]
    let removed : World E := { w with requests := w.requests.remove (reqId pkt) }
    obtain ⟨t, hrun, ht, hout, hissued⟩ := follows_ran (w := removed) (sys.run handler pkt w.res)
      (s := { s with
        requests := s.requests.remove (reqId pkt)
        running := some (reqId pkt, handler)
        invoked := s.invoked ++ [(handler, origin)] })
      ⟨congrArg (Requests.remove · (reqId pkt)) h.requests, h.fresh⟩
    have hrun := (Run.refl.snoc trivial hstep).trans hrun
    refine ⟨t.finish (reqId pkt) handler (sys.run handler pkt w.res).result, ?_, ⟨?_, ht.fresh⟩, hidle.symm, hissued⟩
    · refine @Run.snoc _ _ _ _ _ _ _ (.finish (sys.run handler pkt w.res).result) hrun trivial ?_
      show t.running.map _ = _
      rw [hout]
      rfl
    · exact congrArg (Requests.finish · (reqId pkt) handler _) ht.requests

theorem follows_packetHandlers (pkt : OwnedPacket) (handlers : List SystemId) (h : Tracks w s) :
    Follows s (runPacketHandlers sys pkt handlers w).1 := by
  induction handlers generalizing w s with
  | nil => exact .refl h
  | cons handler handlers ih => exact (follows_ran _ h).then fun _ ht _ _ => ih ht

theorem originId_later {origin : Option Nat} {id : UInt8} (h : s.issued <+: t.issued)
    (ho : s.originId origin = some id) : t.originId origin = some id := by
  cases origin with
  | none => exact ho
  | some n =>
    obtain ⟨r, hr, hid⟩ := Option.map_eq_some_iff.mp ho
    obtain ⟨hr, hsent⟩ := Option.filter_eq_some_iff.mp hr
    have hr' : t.issued[n]? = some r := by
      obtain ⟨more, e⟩ := h
      rw [← e, List.getElem?_append_left (List.getElem?_eq_some_iff.mp hr).1]
      exact hr
    exact Option.map_eq_some_iff.mpr ⟨r, Option.filter_eq_some_iff.mpr ⟨hr', hsent⟩, hid⟩

/-- What the handlers of a packet do with the requests of the world is what a session can do, when the packet
answers one of them or none. -/
theorem follows_handlers {origin : Option Nat} (pkt : OwnedPacket) (handlers : List SystemId) (h : Tracks w s)
    (hidle : s.running = none) (ho : s.originId origin = some (reqId pkt)) :
    Follows s (runPacketHandlers sys pkt handlers (runRequestIdHandler sys (runPacketIdHandler sys w pkt) pkt)).1 :=
  ((follows_packetIdHandler pkt h).then fun _ ht hrunning hissued =>
      follows_requestIdHandler pkt ht (hrunning.trans hidle) (originId_later hissued ho)).then
    fun _ ht _ _ => follows_packetHandlers pkt handlers ht

end

/-! ## The 256th request -/

/-- The ids after `n` requests. -/
def issuedIds (n : Nat) : List Request := (List.range n).map fun k => ⟨k, UInt8.ofNat (k + 1), true⟩

/-- `n` requests, each of them answered and its handler done. -/
def answered (n : Nat) : Session :=
  ⟨⟨UInt8.ofNat n, fun _ => none⟩, issuedIds n, none, (List.range n).map fun k => (k, some k), []⟩

/-- One more request, which is not answered. -/
def asking (n : Nat) : Session :=
  { answered n with
    requests := ⟨UInt8.ofNat (n + 1), Function.update (fun _ => none) (UInt8.ofNat (n + 1)) (some n)⟩
    issued := issuedIds (n + 1) }

/-- Its handler is running. -/
def answering (n : Nat) : Session := { answered (n + 1) with running := some (UInt8.ofNat (n + 1), n) }

theorem registered_le (id : UInt8) (h : ∀ id', id' ≠ id → s.requests.handlers id' = none) : s.registered ≤ 1 := by
  have hsub : (List.range 256).filter (fun n => (s.requests.handlers (UInt8.ofNat n)).isSome) ⊆ [id.toNat] := by
    intro n hn
    obtain ⟨hlt, hsome⟩ := List.mem_filter.mp hn
    by_cases he : UInt8.ofNat n = id
    · rw [← he, UInt8.toNat_ofNat_of_lt' (List.mem_range.mp hlt)]
      exact List.mem_singleton_self n
    · rw [h _ he] at hsome
      exact absurd hsome (by decide)
  exact (List.subperm_of_subset (List.nodup_range.filter _) hsub).length_le

theorem handlers_asking (n : Nat) (id : UInt8) :
    (asking n).requests.handlers id = if id = UInt8.ofNat (n + 1) then some n else none :=
  Function.update_apply (fun _ => none) ..

theorem request_answered (n : Nat) : (answered n).step (.request n true) = some (asking n) := by
  have hid : (answered n).requests.allocNextId = UInt8.ofNat (n + 1) := (UInt8.ofNat_add n 1).symm
  have hnew : n ∉ (answered n).issued.map (·.system) := by simp [answered, issuedIds]
  refine (if_neg hnew).trans (congrArg some ?_)
  unfold Session.request Requests.reply
  rw [hid]
  show (⟨_, issuedIds n ++ _, _, _, _⟩ : Session) = ⟨_, issuedIds (n + 1), _, _, _⟩
  rw [issuedIds, issuedIds, List.range_succ, List.map_append]
  rfl

theorem packet_asking (n : Nat) : (asking n).step (.packet (some n)) = some (answering n) := by
  have hn : (issuedIds (n + 1))[n]? = some ⟨n, UInt8.ofNat (n + 1), true⟩ := by simp [issuedIds]
  have ho : (asking n).originId (some n) = some (UInt8.ofNat (n + 1)) := by
    show ((issuedIds (n + 1))[n]?.filter (·.sent)).map (·.reqId) = _
    rw [hn]
    rfl
  have hx : (asking n).requests.handlers (UInt8.ofNat (n + 1)) = some n := (handlers_asking ..).trans (if_pos rfl)
  show (if (asking n).running = none then ((asking n).originId (some n)).map ((asking n).packet (some n)) else none) = _
  rw [if_pos (show (asking n).running = none from rfl), ho, Option.map_some, Session.packet, hx]
  refine congrArg some ?_
  show (⟨⟨_, Function.update (Function.update (fun _ => none) (UInt8.ofNat (n + 1)) (some n)) _ none⟩, _, _,
    (List.range n).map (fun k => (k, some k)) ++ [(n, some n)], _⟩ : Session) = _
  rw [Function.update_idem, Function.update_eq_self_iff.mpr rfl, answering, answered, List.range_succ,
    List.map_append]
  rfl

theorem run_answered (n : Nat) : Run Session.step (fun s _ => s.registered < 255) .init (answered n) := by
  induction n with
  | zero => exact .refl
  | succ n ih =>
    have hfree : (answered n).registered ≤ 1 := registered_le 0 fun _ _ => rfl
    have hone : (asking n).registered ≤ 1 :=
      registered_le (UInt8.ofNat (n + 1)) fun id he => (handlers_asking n id).trans (if_neg he)
    have hrun : (answering n).registered ≤ 1 := registered_le 0 fun _ _ => rfl
    have ih := ih.snoc (show (answered n).registered < 255 by omega) (request_answered n)
    have ih := ih.snoc (show (asking n).registered < 255 by omega) (packet_asking n)
    exact @Run.snoc _ _ _ _ _ _ _ (.finish (some true)) ih (show (answering n).registered < 255 by omega) rfl

/-- The 256th request gets the id 0, also if none of those before it is still waited for. -/
theorem id_zero : ¬ Session.RepliesOwned := by
  intro h
  have hfree : (answered 255).registered ≤ 1 := registered_le 0 fun _ _ => rfl
  have hrun := (run_answered 255).snoc (show (answered 255).registered < 255 by omega) (request_answered 255)
  refine (h _ hrun).1 ⟨255, 0, true⟩ ?_ rfl
  exact List.mem_map.mpr ⟨255, List.self_mem_range_succ, rfl⟩

end

end Metor.Proof.Editor
