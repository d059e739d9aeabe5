import Metor.Lib.Run
import Metor.Proof.MsgLog.Persist
import Metor.Spec.Streams

/-!
# Messages and their subscribers

A push wakes the subscribers when its record is in the WAL, and they read the
log. If the record is in the log by then, a subscriber that waited for it sends
it before it waits again (`Following`, `run_upToDate`). If not, nothing wakes
it once it is (`woken_before_persist_left_behind`).
-/

namespace Metor.Proof.MsgStream

open Metor.Lib Metor.Impl Metor.Impl.Msg Metor.Impl.MsgStream Metor.Proof.MsgLog

/-! ## The invariant -/

/-- How far a subscriber is on its way to the last message. -/
inductive Following (log : Msg.State) (waking : Nat) (sub : Subscriber) : Prop
  /-- The push has still to wake it. -/
  | behind (pc : sub.pc = .wait .waiting) (pos : 0 < waking)
  | woken (pc : sub.pc = .wait .woken)
  | sending (wal : log.wal = []) (msgRef : MsgRef) (pc : sub.pc = .sending msgRef) (data : msgRef.data = latestMsg log)
  /-- It has sent the message and waits again, or is about to. -/
  | sent (wal : log.wal = []) (pc : sub.pc = .top ∨ (∃ n, sub.pc = .wait (.start n)) ∨ sub.pc = .wait .waiting)
    (last : ∀ m ∈ latestMsg log, sub.sent.getLast? = some m)

structure Inv (s : MsgStream.State) : Prop where
  following : ∀ sub ∈ s.subscribers, sub.waited → Following s.log s.waking sub
  /-- Only a push is waited for. -/
  pushed : ∀ sub ∈ s.subscribers, sub.waited → s.pushed ≠ []

theorem new_inv : Inv MsgStream.new := ⟨nofun, nofun⟩

/-- It sends the message it read, which is the last. -/
theorem send_following {s : MsgStream.State} {sub sub' : Subscriber} (h : Following s.log s.waking sub)
    (hstep : sub.step s .send = some sub') : Following s.log s.waking sub' := by
  simp only [Subscriber.step] at hstep
  split at hstep
  · next r hpc =>
    cases h with
    | behind pc | woken pc => exact absurd (hpc.symm.trans pc) (by simp)
    | sent wal pc last =>
      rcases pc with pc | ⟨n, pc⟩ | pc
      all_goals exact absurd (hpc.symm.trans pc) (by simp)
    | sending wal msgRef pc data =>
      have hr : r = msgRef := Pc.sending.inj (hpc.symm.trans pc)
      rw [← hr] at data
      split at hstep
      · next hnone =>
        cases hstep
        refine .sent wal (.inl rfl) fun m hm => ?_
        rw [← data, hnone] at hm
        cases hm
      · next msg hsome =>
        cases hstep
        refine .sent wal (.inl rfl) fun m hm => ?_
        rw [← data, hsome] at hm
        cases hm
        exact List.getLast?_concat
  · cases hstep

/-- A step of one subscriber. -/
theorem subscriber_following {s : MsgStream.State} {sub sub' : Subscriber} {a : SubscriberAct}
    (h : Following s.log s.waking sub) (hread : a = .read → s.log.wal = []) (hstep : sub.step s a = some sub') :
    Following s.log s.waking sub' := by
  cases a with
  | wait =>
    simp only [Subscriber.step, Option.ite_none_right_eq_some, Option.some.injEq] at hstep
    obtain ⟨hpc, rfl⟩ := hstep
    cases h with
    | behind pc | woken pc => exact absurd (hpc.symm.trans pc) (by simp)
    | sending wal msgRef pc => exact absurd (hpc.symm.trans pc) (by simp)
    | sent wal pc last => exact .sent wal (.inr (.inl ⟨s.wakeAlls, rfl⟩)) last
  | poll =>
    simp only [Subscriber.step] at hstep
    split at hstep
    · next n hpc =>
      cases hstep
      cases h with
      | behind pc | woken pc => exact absurd (hpc.symm.trans pc) (by simp)
      | sending wal msgRef pc => exact absurd (hpc.symm.trans pc) (by simp)
      | sent wal pc last =>
        by_cases hn : n = s.wakeAlls
        · exact .sent wal (.inr (.inr (congrArg Pc.wait (if_pos hn)))) last
        · exact .woken (congrArg Pc.wait (if_neg hn))
    · cases hstep
  | read =>
    simp only [Subscriber.step, Option.ite_none_right_eq_some] at hstep
    obtain ⟨hpc, hstep⟩ := hstep
    split at hstep
    · next hnone =>
      cases hstep
      refine .sent (hread rfl) (.inl rfl) fun m hm => ?_
      rw [latestMsg, hnone] at hm
      cases hm
    · next msgRef hsome =>
      cases hstep
      refine .sending (hread rfl) msgRef rfl ?_
      rw [latestMsg, hsome]
      rfl
  | send => exact send_following h hstep

/-- Only a push sets `waited`. -/
theorem step_waited {s : MsgStream.State} {sub sub' : Subscriber} {a : SubscriberAct}
    (h : sub.step s a = some sub') : sub'.waited = sub.waited := by
  cases a with
  | wait =>
    simp only [Subscriber.step, Option.ite_none_right_eq_some, Option.some.injEq] at h
    obtain ⟨-, rfl⟩ := h
    rfl
  | poll =>
    simp only [Subscriber.step] at h
    split at h <;> cases h
    rfl
  | read =>
    simp only [Subscriber.step, Option.ite_none_right_eq_some] at h
    obtain ⟨-, h⟩ := h
    split at h <;> cases h
    all_goals rfl
  | send =>
    simp only [Subscriber.step] at h
    split at h
    · split at h <;> cases h
      all_goals rfl
    · cases h

/-- `wake_all` wakes whoever waits. -/
theorem wakeAll_following {log : Msg.State} {waking waking' : Nat} {sub : Subscriber} (h : Following log waking sub) :
    Following log waking' sub.wakeAll := by
  cases h with
  | behind pc | woken pc =>
    refine .woken ?_
    rw [Subscriber.wakeAll, pc]
    rfl
  | sending wal msgRef pc data =>
    have e : sub.wakeAll = sub := by rw [Subscriber.wakeAll, pc]
    exact .sending wal msgRef (e.symm ▸ pc) data
  | sent wal pc last =>
    have hsent : sub.wakeAll.sent = sub.sent := by
      unfold Subscriber.wakeAll
      split <;> rfl
    rcases pc with pc | ⟨n, pc⟩ | pc
    · have e : sub.wakeAll.pc = .top := by rw [Subscriber.wakeAll, pc, pc]
      exact .sent wal (.inl e) (hsent ▸ last)
    · have e : sub.wakeAll.pc = .wait (.start n) := by
        rw [Subscriber.wakeAll, pc]
        rfl
      exact .sent wal (.inr (.inl ⟨n, e⟩)) (hsent ▸ last)
    · refine .woken ?_
      rw [Subscriber.wakeAll, pc]
      rfl

/-- Nothing is left to persist, or only the log changes. -/
theorem persist_following {log log' : Msg.State} {waking : Nat} {sub : Subscriber} {n : Nat}
    (h : Following log waking sub) (hstep : Msg.step log (.persist n) = some log') : Following log' waking sub := by
  have hnil (wal : log.wal = []) : log' = log := by
    simp only [Msg.step, Option.ite_none_right_eq_some, Option.some.injEq] at hstep
    obtain ⟨hn, rfl⟩ := hstep
    rw [wal, List.take_nil, List.drop_nil, List.flatMap_nil, persistLoop_nil, ← wal]
  cases h with
  | behind pc waking => exact .behind pc waking
  | woken pc => exact .woken pc
  | sending wal msgRef pc data =>
    rw [hnil wal]
    exact .sending wal msgRef pc data
  | sent wal pc last =>
    rw [hnil wal]
    exact .sent wal pc last

theorem step_inv {s s' : MsgStream.State} {a : MsgStream.Act} (hs : Inv s) (hok : PersistedFirst s a)
    (h : MsgStream.step s a = some s') : Inv s' := by
  cases a with
  | push timestamp msg =>
    simp only [MsgStream.step, Option.map_eq_some_iff] at h
    obtain ⟨log, -, rfl⟩ := h
    refine ⟨fun sub hsub hwaited => ?_, fun _ _ _ => List.concat_ne_nil _ _⟩
    obtain ⟨old, -, rfl⟩ := List.mem_map.mp hsub
    exact .behind (of_decide_eq_true hwaited) (Nat.succ_pos _)
  | wake =>
    simp only [MsgStream.step, Option.ite_none_right_eq_some, Option.some.injEq] at h
    obtain ⟨-, rfl⟩ := h
    have hsame (sub : Subscriber) : sub.wakeAll.waited = sub.waited := by
      unfold Subscriber.wakeAll
      split <;> rfl
    constructor
    all_goals
      intro sub hsub hwaited
      obtain ⟨old, hold, rfl⟩ := List.mem_map.mp hsub
      rw [hsame] at hwaited
    · exact wakeAll_following (hs.following old hold hwaited)
    · exact hs.pushed old hold hwaited
  | persist n =>
    simp only [MsgStream.step, Option.map_eq_some_iff] at h
    obtain ⟨log, hlog, rfl⟩ := h
    exact ⟨fun sub hsub hwaited => persist_following (hs.following sub hsub hwaited) hlog, hs.pushed⟩
  | subscribe =>
    cases h
    constructor
    all_goals
      intro sub hsub hwaited
      rcases List.mem_append.mp hsub with hsub | hsub
    · exact hs.following sub hsub hwaited
    · rw [List.mem_singleton.mp hsub] at hwaited
      cases hwaited
    · exact hs.pushed sub hsub hwaited
    · rw [List.mem_singleton.mp hsub] at hwaited
      cases hwaited
  | subscriber i a =>
    simp only [MsgStream.step, Option.bind_eq_some_iff, Option.map_eq_some_iff] at h
    obtain ⟨sub, hsub, sub', hstep, rfl⟩ := h
    have hmem := List.mem_of_getElem? hsub
    constructor
    all_goals
      intro x hx hwaited
      rcases List.mem_or_eq_of_mem_set hx with hx | rfl
    · exact hs.following x hx hwaited
    · rw [step_waited hstep] at hwaited
      refine subscriber_following (hs.following sub hmem hwaited) (fun e => ?_) hstep
      subst e
      exact hok sub hsub hwaited
    · exact hs.pushed x hx hwaited
    · rw [step_waited hstep] at hwaited
      exact hs.pushed sub hmem hwaited
  | hangUp i =>
    simp only [MsgStream.step, Option.bind_eq_some_iff] at h
    obtain ⟨sub, -, h⟩ := h
    split at h
    · cases h
      exact ⟨fun x hx => hs.following x (List.mem_of_mem_eraseIdx hx), fun x hx => hs.pushed x (List.mem_of_mem_eraseIdx hx)⟩
    · cases h

/-- In every run that persists first, no subscriber is left behind. -/
theorem run_upToDate {s : MsgStream.State} (h : Run MsgStream.step PersistedFirst MsgStream.new s) : UpToDate s := by
  have hinv : Inv s := h.invariant step_inv new_inv
  intro hs sub hsub hwaited
  have hpc := hs.waiting sub hsub
  cases hinv.following sub hsub hwaited with
  | behind pc pos =>
    rw [hs.waking] at pos
    exact absurd pos (Nat.lt_irrefl 0)
  | woken pc => exact absurd (hpc.symm.trans pc) (by simp)
  | sending wal msgRef pc data => exact absurd (hpc.symm.trans pc) (by simp)
  | sent wal pc last =>
    have hlast := List.getLast?_eq_some_getLast (hinv.pushed sub hsub hwaited)
    rw [hlast]
    exact last _ (hs.latest.trans hlast)

/-! ## One message -/

/-- A subscriber goes to wait. -/
def waits : List MsgStream.Act := [.subscriber 0 .wait, .subscriber 0 .poll]

/-- One subscriber waits while the byte 7 is pushed. -/
def pushSeven : List MsgStream.Act := .subscribe :: waits ++ [.push 1 [7], .wake]

/-- The log with the byte 7. -/
def sevenLog : MsgLog := (MsgLog.persistMsg [] 1 [7]).2

theorem persist_seven : persistLoop ([((1 : Int), [(7 : UInt8)])].flatMap fun r => Msg.record r.1 r.2) [] = sevenLog := by
  have h : Recorded (1, [7]) := ⟨by decide, show 8 + 4 + 1 ≤ walSize by decide⟩
  rw [persistLoop_records _ (List.forall_mem_singleton.mpr h)]
  rfl

/-- The message is persisted while the subscriber is at `sub`. -/
theorem step_persist_seven (wakeAlls : Nat) (sub : Subscriber) :
    MsgStream.step ⟨⟨[], [(1, [7])]⟩, wakeAlls, 0, [sub], [[7]]⟩ (.persist 1) =
      some ⟨⟨sevenLog, []⟩, wakeAlls, 0, [sub], [[7]]⟩ := by
  rw [← persist_seven]
  rfl

/-- The last state of both runs, but for what was sent. -/
def lastState (sent : List Bytes) : MsgStream.State :=
  ⟨⟨sevenLog, []⟩, 1, 0, [⟨.wait .waiting, sent, true⟩], [[7]]⟩

theorem settled_lastState (sent : List Bytes) : Settled (lastState sent) :=
  ⟨rfl, rfl, rfl, List.forall_mem_singleton.mpr rfl⟩

/-- The message is persisted before the subscriber reads. -/
theorem run_upToDate_seven : Run MsgStream.step PersistedFirst MsgStream.new (lastState [[7]]) ∧
    UpToDate (lastState [[7]]) := by
  have h₁ : Run MsgStream.step PersistedFirst MsgStream.new
      ⟨⟨[], [(1, [7])]⟩, 1, 0, [⟨.wait .woken, [], true⟩], [[7]]⟩ := Run.of_exec pushSeven .refl rfl
  have h₂ := h₁.snoc (show PersistedFirst _ (.persist 1) from trivial) (step_persist_seven _ _)
  have h₃ : Run MsgStream.step PersistedFirst MsgStream.new (lastState [[7]]) :=
    Run.of_exec ([.subscriber 0 .read, .subscriber 0 .send] ++ waits) h₂ rfl
  exact ⟨h₃, run_upToDate h₃⟩

/-- The subscriber reads first: nothing wakes it when the message is there. -/
theorem woken_before_persist_left_behind :
    ¬∀ s : MsgStream.State, Run MsgStream.step (fun _ _ => True) MsgStream.new s → UpToDate s := by
  intro h
  have h₁ : Run MsgStream.step (fun _ _ => True) MsgStream.new
      ⟨⟨[], [(1, [7])]⟩, 1, 0, [⟨.wait .waiting, [], true⟩], [[7]]⟩ :=
    Run.of_exec (pushSeven ++ [.subscriber 0 .read] ++ waits) .refl rfl
  have h₂ : Run MsgStream.step (fun _ _ => True) MsgStream.new (lastState []) :=
    h₁.snoc (a := .persist 1) trivial (step_persist_seven _ _)
  have hbad := h _ h₂ (settled_lastState []) _ List.mem_cons_self rfl
  exact absurd hbad (by simp [lastState])

end Metor.Proof.MsgStream
