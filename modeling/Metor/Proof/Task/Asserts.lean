import Metor.Proof.Task.Runs

/-!
# What is asserted of a task

The `debug_assert`s of `task/state.rs`, `task.rs` and `join_handle.rs`, and what
the code relies on where it has none, hold in every run but in two cases
(`asserts_iff`).
-/

namespace Metor.Proof.Task

open Metor.Lib Metor.Impl.Task

variable {s t : Sys} {a : Action}

/-! ## The join waker -/

theorem joinWakerAsserts_iff (h : Inv s) (hnot : ¬ Claimed s) :
    s.JoinWakerAsserts ↔ ¬ (s.state.joinWaker = .waiting ∧ s.state.hasJoinHandle = false) := by
  have hhandle : s.state.hasJoinHandle = true ↔ s.join ≠ .leaving ∧ s.join ≠ .gone := h.joining.handle
  have hregistering : s.state.joinWaker = .registering → s.state.hasJoinHandle = true := by
    intro hj
    obtain ⟨first, hjoin⟩ | hjoin := h.joining.registering.mp hj
    · refine hhandle.mpr ⟨?_, ?_⟩ <;> rw [show s.join = _ from hjoin] <;> exact fun h => (by cases h)
    · refine hhandle.mpr ⟨?_, ?_⟩ <;> rw [show s.join = _ from hjoin] <;> exact fun h => (by cases h)
  constructor
  · rintro ⟨-, hasserts⟩ ⟨hj, hno⟩
    exact absurd ((hasserts (.inr hj)).symm.trans hno) (by decide)
  · intro hno
    refine ⟨fun hj => hnot (.inr hj), fun hwaker => ?_⟩
    obtain hj | hj := hwaker
    · exact hregistering hj
    · by_contra hne
      exact hno ⟨hj, Bool.eq_false_iff.mpr hne⟩

theorem asserts_startPoll (h : Inv s) (hd : 0 < s.dequeued) :
    s.Asserts .startPoll ↔ ¬ s.WakesDropped .startPoll := by
  have hpos : 0 < s.sched.scheduled + s.sched.polls := by
    show 0 < s.entering + s.waking + s.queued + s.dequeued + s.polling
    omega
  have hpolls : s.polling = 0 := by
    have hone : s.entering + s.waking + s.queued + s.dequeued + s.polling ≤ 1 := h.sched.one
    omega
  have hp : s.state.polling = false := Bool.eq_false_iff.mpr fun hp => absurd (h.sched.polling.mp hp) (by
    show ¬ 0 < s.polling
    omega)
  have hc : s.state.completed = false := Bool.eq_false_iff.mpr fun hc => absurd (h.sched.completed hc)
    (Nat.ne_of_gt hpos)
  have hjoin := joinWakerAsserts_iff h (not_claimed h.awaited hpos)
  constructor
  · rintro hasserts ⟨hj, hno, ⟨-, hn⟩ | heq⟩
    · exact hjoin.mp (hasserts hp hc hn) ⟨hj, hno⟩
    · cases heq
  · intro hno _ _ hn
    exact hjoin.mpr fun hw => hno ⟨hw.1, hw.2, .inl ⟨rfl, hn⟩⟩

theorem asserts_endPoll (h : Inv s) (hp : 0 < s.polling) (completed : Bool) :
    s.Asserts (.endPoll completed) ↔ ¬ s.WakesDropped (.endPoll completed) := by
  have hpos : 0 < s.sched.scheduled + s.sched.polls := Nat.lt_of_lt_of_le hp (Nat.le_add_left _ _)
  have hflag : s.state.polling = true := h.sched.polling.mpr hp
  have hc : s.state.completed = false := Bool.eq_false_iff.mpr fun hc => absurd (h.sched.completed hc)
    (Nat.ne_of_gt hpos)
  have hreferences : 0 < s.references := by
    simp only [Sys.references]
    omega
  have hrefs : 0 < s.state.refs := by
    rw [h.counted.refs (h.counted.live hreferences).2]
    exact hreferences
  have hjoin := joinWakerAsserts_iff h (not_claimed h.awaited hpos)
  constructor
  · rintro ⟨-, -, -, hasserts⟩ ⟨hj, hno, ⟨hne, -⟩ | heq⟩
    · cases hne
    · exact hjoin.mp (hasserts (Action.endPoll.inj heq)) ⟨hj, hno⟩
  · intro hno
    refine ⟨hflag, hc, hrefs, fun heq => hjoin.mpr fun hw => hno ⟨hw.1, hw.2, .inr ?_⟩⟩
    rw [heq]

/-- The first reference that is registered finds an empty slot, and another one the slot of the one before. -/
theorem asserts_tryJoin (h : Inv s) (hidle : s.join = .idle) : s.JoinAsserts s.state.tryJoin.1 := by
  have hj := h.joining
  have hlive := h.counted.live (references_pos (.inr (.inr hidle)))
  have hready : s.state.hasOutput = true → s.output = .ready := ready_of_hasOutput hj hidle
  rw [State.tryJoin]
  split
  · exact hready
  rename_i hn
  have hregister : s.state.completed = false → s.JoinAsserts s.state.shouldRegister.1 := by
    intro hc
    have hnot : ¬ Claimed s := fun hclaimed => (h.awaited hclaimed).2.elim
      (fun hc' => absurd (hc.symm.trans hc') (by decide)) (fun hn' => hn hn'.1)
    have hslot : s.slot = true ↔ s.state.joinWaker = .waiting := by
      refine (hj.slot hlive.2).trans ⟨fun hor => ?_, .inl⟩
      obtain hw | hjoin | hjoin | hr := hor
      · exact hw
      · exact absurd (hidle.symm.trans hjoin) (fun h => (by cases h))
      · exact absurd (hidle.symm.trans hjoin) (fun h => (by cases h))
      · exact absurd (.inl (Nat.lt_of_lt_of_le hr (Nat.le_add_left _ _))) hnot
    by_cases hempty : s.state.joinWaker = .empty
    · rw [State.shouldRegister, if_pos hempty]
      exact Bool.eq_false_iff.mpr fun hs => absurd (hempty.symm.trans (hslot.mp hs)) (by decide)
    · rw [State.shouldRegister, if_neg hempty]
      have hwaiting : s.state.joinWaker = .waiting := by
        cases hjw : s.state.joinWaker with
        | empty => exact absurd hjw hempty
        | waiting => rfl
        | woken => exact absurd (.inr hjw) hnot
        | registering =>
          obtain ⟨first, hjoin⟩ | hjoin := hj.registering.mp hjw
          · exact absurd (hidle.symm.trans hjoin) (fun h => (by cases h))
          · exact absurd (hidle.symm.trans hjoin) (fun h => (by cases h))
      exact ⟨hwaiting, hslot.mpr hwaiting⟩
  split
  · rename_i hc
    exact hregister (by simpa using hc)
  rename_i hc
  have hc : s.state.completed = true := by simpa using hc
  have ho := (hj.ready hc (joins_of_idle hidle)).1
  split
  · rename_i hno
    exact absurd (show s.state.hasOutput = true from ho) (by simpa using hno)
  · exact hready ho

theorem freeAsserts_dropRef (h : Counted s) (s' : Sys) (hpos : 0 < s.references) (hrefs : s'.state.refs = s.state.refs)
    (hfreed : s'.freed = s.freed) (hstep : s.step a = some s'.dropRef) : s.FreeAsserts a := by
  intro t ht hlt
  obtain rfl := Option.some.inj (hstep.symm.trans ht)
  have hcount := h.refs (h.live hpos).2
  obtain ⟨hlast, heq⟩ | ⟨-, heq⟩ := dropRef_cases s'
  · rw [heq]
    show (if s'.state.refs = 0 then refsBound - 1 else s'.state.refs - 1) = 0
    rw [if_neg (by omega)]
    omega
  · rw [heq] at hlt
    replace hlt : s.freed < s'.freed := hlt
    omega

/-- The count is less than zero when the task is deallocated. -/
theorem not_freeAsserts_dropLast (h : Counted s) (hpos : 0 < s.dropping) : ¬ s.FreeAsserts .dropLast := by
  intro hasserts
  have honce := h.once
  have hnone : s.references = 0 := h.last.mpr (by omega)
  have hzero : s.state.refs = 0 := (h.refs (by omega)).trans hnone
  obtain ⟨-, heq⟩ | ⟨hmore, -⟩ := dropRef_cases { s with dropping := s.dropping - 1 }
  · have hrefs := hasserts _ (if_pos hpos) (by
      rw [heq]
      exact Nat.lt_succ_self _)
    rw [heq] at hrefs
    replace hrefs : (if s.state.refs = 0 then refsBound - 1 else s.state.refs - 1) = 0 := hrefs
    rw [if_pos hzero] at hrefs
    exact absurd hrefs (by decide)
  · replace hmore : 1 < s.state.refs := hmore
    omega

theorem not_wakesDropped (ha : a ≠ .startPoll) (ha' : a ≠ .endPoll true) : ¬ s.WakesDropped a :=
  fun h => h.2.2.elim (fun h => ha h.1) ha'

/-- What is asserted holds in every run, but where a task is done with after its `JoinHandle` is dropped with its waker
registered, and where the last reference is a waker that wakes by value. -/
theorem asserts_iff (h : Reached s) (hstep : s.step a = some t) : s.Asserts a ↔ ¬ s.WakesDropped a ∧ a ≠ .dropLast := by
  have hi := inv_reached h
  have htrue : ∀ {a : Action}, a ≠ .startPoll → a ≠ .endPoll true → a ≠ .dropLast → s.Asserts a →
      (s.Asserts a ↔ ¬ s.WakesDropped a ∧ a ≠ .dropLast) :=
    fun ha ha' ha'' hasserts => iff_of_true hasserts ⟨not_wakesDropped ha ha', ha''⟩
  cases step_does hstep with
  | startPoll hpos => rw [asserts_startPoll hi hpos, and_iff_left (by decide)]
  | endPoll hpos => rw [asserts_endPoll hi hpos, and_iff_left (fun h => (by cases h))]
  | dropLast hpos => exact iff_of_false (not_freeAsserts_dropLast hi.counted hpos) fun h => h.2 rfl
  | tryJoin hidle => exact htrue (by decide) (by decide) (by decide) (asserts_tryJoin hi hidle)
  | wakeByVal hpos =>
    refine htrue (by decide) (by decide) (by decide) fun hp => ?_
    have hpolls : 0 < s.polling := hi.sched.polling.mp hp
    have htwo : 2 ≤ s.references := by
      simp only [Sys.references]
      omega
    rw [hi.counted.refs (hi.counted.live (by omega)).2]
    omega
  | wakeJoinWaker hpos =>
    have hlive := hi.counted.live (show 0 < s.references by simp only [Sys.references]; omega)
    exact htrue (by decide) (by decide) (by decide) ((hi.joining.slot hlive.2).mpr (.inr (.inr (.inr hpos))))
  | setJoinWakerRegistered hjoin =>
    exact htrue (by decide) (by decide) (by decide) (hi.joining.registering.mpr (.inr hjoin))
  | dropJoinHandle hjoin =>
    refine htrue (by decide) (by decide) (by decide) (hi.joining.handle.mpr ⟨?_, ?_⟩)
    all_goals
      rw [show s.joining.join = _ from hjoin]
      decide
  | drop hpos =>
    exact htrue (by decide) (by decide) (by decide)
      (freeAsserts_dropRef hi.counted { s with handles := s.handles - 1 } (by simp only [Sys.references]; omega) rfl rfl
      (if_pos hpos))
  | leave hpos =>
    exact htrue (by decide) (by decide) (by decide)
      (freeAsserts_dropRef hi.counted { s with leaving := s.leaving - 1 } (by simp only [Sys.references]; omega) rfl rfl
      (if_pos hpos))
  | finish hpos =>
    exact htrue (by decide) (by decide) (by decide)
      (freeAsserts_dropRef hi.counted { s with finishing := s.finishing - 1 } (by simp only [Sys.references]; omega) rfl
      rfl (if_pos hpos))
  | leaveJoin hjoin =>
    exact htrue (by decide) (by decide) (by decide)
      (freeAsserts_dropRef hi.counted { s with join := .gone } (by simp [Sys.references, hjoin]) rfl rfl
      (if_pos hjoin))
  | _ => exact htrue (by decide) (by decide) (by decide) trivial

/-- Its `JoinHandle` is dropped after it has registered, and it is woken and polled once more. -/
def unjoinedActions : List Action :=
  idleActions ++ [.tryJoin, .writeJoinWaker, .setJoinWakerRegistered, .dropJoin, .dropJoinHandle, .leaveJoin,
  .wakeByRef, .schedule, .dequeue, .startPoll]

def unjoinedTask : Sys := (exec Sys.step Sys.Fits .spawned unjoinedActions).getD .spawned

theorem reached_unjoinedTask : Reached unjoinedTask := .of_exec unjoinedActions .refl (by decide +kernel)

theorem not_asserts_unjoinedTask : ¬ unjoinedTask.Asserts (.endPoll true) := by
  have hstep : unjoinedTask.step (.endPoll true) = some ({ unjoinedTask with polling := 0 }.endPoll true) := by
    decide +kernel
  refine mt (asserts_iff reached_unjoinedTask hstep).mp fun h => h.1 ⟨?_, ?_, .inr rfl⟩
  · decide +kernel
  · decide +kernel

end Metor.Proof.Task
