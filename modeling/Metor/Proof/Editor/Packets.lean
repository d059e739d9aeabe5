import Metor.Spec.Editor

/-!
# The editor handles its packets

A round of the loop (`next_cases`) takes nothing, loses a frame, or handles a
packet (`handle_round`); within the budget it does not lose one, so what is
handled stays all that was taken (`handled_within_budget`).
-/

namespace Metor.Proof.Editor

open Metor.Lib Metor.Impl.Editor Metor.Spec.Editor
open Metor.Impl.Proto (OwnedPacket tryRecvPkt)

section
variable {E : Type} {sys : Systems E} {codec : Codec E} {s t : State E}

theorem runPacketHandlers_passed (pkt : OwnedPacket) (handlers : List SystemId) (w : World E) :
    (runPacketHandlers sys pkt handlers w).2 = handlers := by
  induction handlers generalizing w with
  | nil => rfl
  | cons handler handlers ih =>
    show handler :: (runPacketHandlers sys pkt handlers _).2 = handler :: handlers
    rw [ih]

theorem builtin_effect (w : World E) (pkt : OwnedPacket) : (builtin codec w pkt).1 = effect codec w pkt := by
  cases pkt with
  | msg id reqId timestamp buf =>
    cases hp : parseMsg codec id buf with
    | none => simp only [builtin, effect, hp, Option.map_none, Option.getD_none]
    | some payload => simp only [builtin, effect, hp, Option.map_some, Option.getD_some]
  | table id reqId buf =>
    show (if id = currentPacketId w then codec.sink id buf w else (w, true)).1 =
      if id = currentPacketId w then (codec.sink id buf w).1 else w
    split_ifs <;> rfl
  | timeSeries => rfl

/-- A packet that is handled: the round of it, and what else changes. -/
theorem handle_round (count : Nat) (frame : Nat × Bytes) (queue : List (Nat × Bytes)) {pkt : OwnedPacket}
    (hpkt : tryRecvPkt frame.1 frame.2 = some pkt) :
    ∃ round, round.frame = frame ∧ Handled codec round ∧
      (s.handle sys codec count frame queue pkt).rounds = s.rounds ++ [round] := by
  let handled := runPacketHandlers sys pkt s.packetHandlers
    (runRequestIdHandler sys (runPacketIdHandler sys s.world pkt) pkt)
  refine ⟨⟨frame, s.packetHandlers, handled.2, some (handled.1, (builtin codec handled.1 pkt).1)⟩, rfl, ?_, rfl⟩
  refine ⟨pkt, handled.1, hpkt, runPacketHandlers_passed .., ?_⟩
  show some (handled.1, (builtin codec handled.1 pkt).1) = some (handled.1, effect codec handled.1 pkt)
  rw [builtin_effect]

/-- What a round of the loop can do. -/
theorem next_cases (sys : Systems E) (codec : Codec E) (s : State E) (count : Nat) :
    (s.queue = [] ∧ s.next sys codec count = { s with count := none }) ∨
    (∃ frame queue, s.queue = frame :: queue ∧ s.next sys codec count = s.lose frame queue ∧
      (tryRecvPkt frame.1 frame.2 = none ∨ 2048 < count)) ∨
    ∃ frame queue pkt, s.queue = frame :: queue ∧ tryRecvPkt frame.1 frame.2 = some pkt ∧ count ≤ 2048 ∧
      s.next sys codec count = s.handle sys codec count frame queue pkt := by
  cases hq : s.queue with
  | nil => exact .inl ⟨rfl, by simp only [State.next, hq]⟩
  | cons frame queue =>
    right
    cases hpkt : tryRecvPkt frame.1 frame.2 with
    | none => exact .inl ⟨frame, queue, rfl, by simp only [State.next, hq, hpkt], .inl hpkt⟩
    | some pkt =>
      rcases Nat.lt_or_ge 2048 count with hc | hc
      · exact .inl ⟨frame, queue, rfl, by simp only [State.next, hq, hpkt, if_pos hc], .inr hc⟩
      · exact .inr ⟨frame, queue, pkt, rfl, hpkt, hc, by
          simp only [State.next, hq, hpkt, if_neg (Nat.not_lt.mpr hc)]⟩

theorem handledAll_next {count : Nat} (h : HandledAll codec s) (hc : s.count = some count)
    (hok : WithinBudget s .next) : HandledAll codec (s.next sys codec count) := by
  rcases next_cases sys codec s count with ⟨-, e⟩ | ⟨frame, queue, hq, -, hlost⟩ | ⟨frame, queue, pkt, hq, hpkt, -, e⟩
  · rw [e]
    exact h
  · obtain ⟨hsome, hle⟩ := hok count frame queue hc hq
    rcases hlost with hnone | hlt
    · rw [hnone] at hsome
      exact absurd hsome (by decide)
    · omega
  · obtain ⟨round, hframe, hround, hrounds⟩ := @handle_round E sys codec s count frame queue pkt hpkt
    rw [e]
    refine ⟨?_, fun r hr => ?_⟩
    · show s.arrived = (s.handle sys codec count frame queue pkt).rounds.map (·.frame) ++ queue
      rw [hrounds, List.map_append, h.1, hq]
      simp [hframe]
    · rw [hrounds] at hr
      rcases List.mem_append.mp hr with hr | hr
      · exact h.2 r hr
      · rw [List.mem_singleton.mp hr]
        exact hround

theorem handledAll_step {a : Act E} (h : HandledAll codec s) (hok : WithinBudget s a)
    (ht : step sys codec s a = some t) : HandledAll codec t := by
  cases a with
  | arrive frame =>
    obtain rfl := Option.some.inj ht
    refine ⟨?_, h.2⟩
    show s.arrived ++ [frame] = s.rounds.map (·.frame) ++ (s.queue ++ [frame])
    rw [h.1, List.append_assoc]
  | sink =>
    obtain ⟨-, ht⟩ := Option.ite_none_right_eq_some.mp ht
    obtain rfl := Option.some.inj ht
    exact h
  | next =>
    obtain ⟨count, hc, rfl⟩ := Option.map_eq_some_iff.mp ht
    exact handledAll_next h hc hok
  | other world handlers =>
    obtain ⟨-, ht⟩ := Option.ite_none_right_eq_some.mp ht
    obtain rfl := Option.some.inj ht
    exact h

/-- Every packet is handled, as long as each frame can be read and no call takes more than 2049 of them. -/
theorem handled_within_budget (sys : Systems E) (codec : Codec E) (w : World E) (handlers : List SystemId)
    (s : State E) (h : Run (step sys codec) WithinBudget (init w handlers) s) : HandledAll codec s :=
  h.invariant (fun h hok ht => handledAll_step h hok ht) ⟨rfl, fun _ hr => absurd hr List.not_mem_nil⟩

end

/-! ## A burst -/

section
variable (n : Nat)

/-- A message without a built-in effect. -/
def frame : Nat × Bytes := (0, [0, 0, 0, 0, 0, 1, 1, 0])

def idleSystems : Systems Unit := ⟨fun _ _ res => ⟨res, [], none⟩, fun _ _ _ res => ⟨res, [], none⟩⟩

def emptyWorld : World Unit :=
  ⟨⟨(), fun _ => none, fun _ => none, fun _ => none, fun _ => none, 0, true, 0, 0, 0, .default, false⟩, 0,
    fun _ => none, .init, fun _ => none⟩

/-- No payload can be parsed. -/
def noCodec : Codec Unit :=
  ⟨fun _ => (0, 0), fun _ => none, fun _ => none, fun _ => none, fun _ => none, fun _ => none, fun _ => none,
    fun _ => none, fun _ => 0, fun _ _ w => (w, false)⟩

/-- The state after `n` packets of `m` were handled in one call. -/
def burst (m : Nat) (count : Option Nat) : State Unit :=
  ⟨.replicate (m - n) frame, emptyWorld, [], count, .replicate m frame,
    .replicate n ⟨frame, [], [], some (emptyWorld, emptyWorld)⟩⟩

theorem run_arrive : Run (step idleSystems noCodec) WithinBudget (init emptyWorld []) (burst 0 n none) := by
  induction n with
  | zero => exact .refl
  | succ n ih =>
    refine @Run.snoc _ _ _ _ _ _ _ (.arrive frame) ih trivial (congrArg some ?_)
    simp [burst, List.replicate_succ']

theorem next_burst {m : Nat} (hn : n < m) (hc : n ≤ 2048) :
    (burst n m (some n)).next idleSystems noCodec n = burst (n + 1) m (some (n + 1)) := by
  obtain ⟨k, hk⟩ : ∃ k, m - n = k + 1 := ⟨m - n - 1, by omega⟩
  have hpkt : tryRecvPkt frame.1 frame.2 = some (.msg (1, 1) 0 none []) := by decide
  have hk' : m - (n + 1) = k := by omega
  simp only [State.next, burst, hk, hk', List.replicate_succ (n := k), hpkt, if_neg (Nat.not_lt.mpr hc)]
  rw [List.replicate_succ']
  rfl

theorem run_burst {m : Nat} (hm : n ≤ m) (hn : n ≤ 2049) :
    Run (step idleSystems noCodec) WithinBudget (init emptyWorld []) (burst n m (some n)) := by
  induction n with
  | zero => exact @Run.snoc _ _ _ _ _ _ _ .sink (run_arrive m) trivial rfl
  | succ n ih =>
    refine @Run.snoc _ _ _ _ _ _ _ .next (ih (by omega) (by omega)) (fun count frame' queue hc hq => ?_)
      (congrArg some (next_burst n (by omega) (by omega)))
    obtain rfl : n = count := Option.some.inj hc
    obtain rfl : frame' = frame := List.eq_of_mem_replicate (n := m - n) (by
      show frame' ∈ (burst n m (some n)).queue
      rw [hq]
      exact List.mem_cons_self)
    exact ⟨by decide, by omega⟩

end

theorem burst_handled : HandledAll noCodec (burst 2049 2049 (some 2049)) :=
  handled_within_budget idleSystems noCodec emptyWorld [] _ (run_burst 2049 (by omega) (by omega))

/-- Of 2050 packets that are there in one frame, the last is lost. -/
theorem burst_lost : ¬ HandlesEvery := by
  intro h
  have hfull := (run_burst 2049 (m := 2050) (by omega) (by omega)).mono fun _ _ _ => trivial
  have hrun := @Run.snoc _ _ _ _ _ _ _ .next hfull trivial rfl
  obtain ⟨pkt, before, -, -, heffect⟩ :=
    (h _ _ _ _ _ _ hrun).2 ⟨frame, [], [], none⟩ (List.mem_append_right _ (List.mem_singleton_self _))
  exact absurd heffect (by simp)

end Metor.Proof.Editor
