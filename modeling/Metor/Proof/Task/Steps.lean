import Mathlib.Tactic.Common
import Metor.Spec.Task

/-!
# Steps of a task

What each function of a task does, by cases of its flags. Then what each step
can do (`Does`), and that it moves the task in the scheduler (`sched_step`),
where it is in one place only (`sched_move`).
-/

namespace Metor.Proof.Task

open Metor.Lib Metor.Impl.Task

variable {s t : Sys} {a : Action}

/-! ## The functions -/

theorem wakeByRef_cases (s : Sys) :
    ((s.state.completed = true ∨ s.state.woken = true) ∧ s.wakeByRef = s) ∨
    (s.state.polling = true ∧ s.wakeByRef = { s with state := { s.state with woken := true } }) ∨
    (s.state.completed = false ∧ s.state.woken = false ∧ s.state.polling = false ∧
      s.wakeByRef = { s with state := { s.state with woken := true }.cloneRef, entering := s.entering + 1 }) := by
  by_cases hdone : s.state.completed || s.state.woken
  · have hstate : s.state.wakeByRef = (.none, s.state) := if_pos hdone
    exact .inl ⟨Bool.or_eq_true_iff.mp hdone, by simp only [Sys.wakeByRef, hstate]⟩
  · obtain ⟨hc, hw⟩ := Bool.or_eq_false_iff.mp (Bool.eq_false_iff.mpr hdone)
    cases hp : s.state.polling with
    | true =>
      have hstate : s.state.wakeByRef = (.none, { s.state with woken := true }) := (if_neg hdone).trans (if_pos hp)
      exact .inr (.inl ⟨rfl, by simp only [Sys.wakeByRef, hstate]⟩)
    | false =>
      have hstate : s.state.wakeByRef = (.enqueue, { s.state with woken := true }.cloneRef) :=
        (if_neg hdone).trans (if_neg (by simp [hp]))
      exact .inr (.inr ⟨hc, hw, rfl, by simp only [Sys.wakeByRef, hstate]⟩)

theorem wakeByVal_cases (s : Sys) :
    (s.state.polling = true ∧
      s.wakeByVal = { s with state := { s.state with woken := true }.decRefs, handles := s.handles - 1 }) ∨
    (s.state.polling = false ∧ (s.state.completed = true ∨ s.state.woken = true) ∧ s.state.decRefs.refs = 0 ∧
      s.wakeByVal = { s with state := s.state.decRefs, handles := s.handles - 1, dropping := s.dropping + 1 }) ∨
    (s.state.polling = false ∧ (s.state.completed = true ∨ s.state.woken = true) ∧ s.state.decRefs.refs ≠ 0 ∧
      s.wakeByVal = { s with state := s.state.decRefs, handles := s.handles - 1 }) ∨
    (s.state.completed = false ∧ s.state.woken = false ∧ s.state.polling = false ∧
      s.wakeByVal = { s with
        state := { s.state with woken := true }.cloneRef, handles := s.handles - 1, waking := s.waking + 1 }) := by
  cases hp : s.state.polling with
  | true =>
    have hstate : s.state.wakeByVal = (.action .none, { s.state with woken := true }.decRefs) := if_pos hp
    exact .inl ⟨rfl, by simp only [Sys.wakeByVal, hstate]⟩
  | false =>
    have hnot : ¬ s.state.polling = true := by simp [hp]
    by_cases hdone : s.state.completed || s.state.woken
    · have hstate : s.state.wakeByVal = (if s.state.decRefs.refs = 0 then .drop else .action .none, s.state.decRefs) :=
        (if_neg hnot).trans (if_pos hdone)
      by_cases hrefs : s.state.decRefs.refs = 0
      · exact .inr (.inl ⟨rfl, Bool.or_eq_true_iff.mp hdone, hrefs, by simp only [Sys.wakeByVal, hstate, if_pos hrefs]⟩)
      · exact .inr (.inr (.inl ⟨rfl, Bool.or_eq_true_iff.mp hdone, hrefs, by simp only [Sys.wakeByVal, hstate,
          if_neg hrefs]⟩))
    · obtain ⟨hc, hw⟩ := Bool.or_eq_false_iff.mp (Bool.eq_false_iff.mpr hdone)
      have hstate : s.state.wakeByVal = (.action .enqueue, { s.state with woken := true }.cloneRef) :=
        (if_neg hnot).trans (if_neg hdone)
      exact .inr (.inr (.inr ⟨hc, hw, rfl, by simp only [Sys.wakeByVal, hstate]⟩))

theorem cancel_cases (s : Sys) :
    (s.state.canceled = true ∧ s.cancel = s) ∨
    (s.state.canceled = false ∧
      s.cancel =
        { s with state := { s.state with canceled := true, woken := true }, canceling := s.canceling + 1 }) := by
  cases hc : s.state.canceled with
  | true =>
    have hstate : s.state.cancel = (false, s.state) := if_pos hc
    exact .inl ⟨rfl, by simp [Sys.cancel, hstate]⟩
  | false =>
    have hstate : s.state.cancel = (true, { s.state with canceled := true, woken := true }) := if_neg (by simp [hc])
    exact .inr ⟨rfl, by simp [Sys.cancel, hstate]⟩

/-- The poller, after the join waker is looked for -/
def takesWaker (s : Sys) : Sys :=
  match s.state.joinWaker with
  | .registering => { s with waiting := s.waiting + 1 }
  | .waiting => { s with state := { s.state with joinWaker := .empty }, reading := s.reading + 1 }
  | _ => { s with finishing := s.finishing + 1 }

theorem startPoll_cases (s : Sys) :
    ((s.state.polling = true ∨ s.state.completed = true) ∧ s.startPoll = { s with finishing := s.finishing + 1 }) ∨
    (s.state.polling = false ∧ s.state.completed = false ∧ s.state.canceled = true ∧ s.startPoll = takesWaker s) ∨
    (s.state.polling = false ∧ s.state.completed = false ∧ s.state.canceled = false ∧
      s.startPoll =
        { s with state := { s.state with polling := true, woken := false }, polling := s.polling + 1 }) := by
  by_cases hcant : s.state.polling || s.state.completed
  · have hstate : s.state.startPoll = (.cantPoll, false, s.state) := if_pos hcant
    exact .inl ⟨Bool.or_eq_true_iff.mp hcant, by simp only [Sys.startPoll, hstate]⟩
  · obtain ⟨hp, hc⟩ := Bool.or_eq_false_iff.mp (Bool.eq_false_iff.mpr hcant)
    cases hn : s.state.canceled with
    | true =>
      have hstate : s.state.startPoll =
          (.canceled s.state.takeJoinWaker.1, s.state.takeJoinWaker.2.1, s.state.takeJoinWaker.2.2) :=
        (if_neg hcant).trans (if_pos hn)
      refine .inr (.inl ⟨hp, hc, rfl, ?_⟩)
      simp only [Sys.startPoll, hstate, takesWaker]
      cases hj : s.state.joinWaker <;> simp [State.takeJoinWaker, hj, Sys.wakesJoin]
    | false =>
      have hstate : s.state.startPoll = (.poll, false, { s.state with polling := true, woken := false }) :=
        (if_neg hcant).trans (if_neg (by simp [hn]))
      exact .inr (.inr ⟨hp, hc, rfl, by simp only [Sys.startPoll, hstate]⟩)

theorem endPoll_true (s : Sys) : s.endPoll true = takesWaker { s with
    state := { s.state with polling := false, completed := true, hasOutput := true }, output := .ready } := by
  cases hj : s.state.joinWaker <;>
    simp [Sys.endPoll, State.endPoll, State.takeJoinWaker, takesWaker, hj, Sys.wakesJoin]

theorem endPoll_false (s : Sys) :
    (s.state.woken = true ∧
      s.endPoll false =
        { s with state := { s.state with polling := false, completed := false }, entering := s.entering + 1 }) ∨
    (s.state.woken = false ∧
      s.endPoll false =
        { s with state := { s.state with polling := false, completed := false }, finishing := s.finishing + 1 }) := by
  cases hw : s.state.woken with
  | true => exact .inl ⟨rfl, by simp [Sys.endPoll, State.endPoll, hw]⟩
  | false => exact .inr ⟨rfl, by simp [Sys.endPoll, State.endPoll, hw]⟩

theorem tryJoin_cases (s : Sys) :
    (s.state.canceled = true ∧ s.state.hasOutput = false ∧ s.tryJoin = { s with join := .done }) ∨
    (s.state.canceled = true ∧ s.state.hasOutput = true ∧ s.tryJoin = s.takeOutput) ∨
    (s.state.canceled = false ∧ (s.state.completed = false ∨ s.state.hasOutput = false) ∧ s.tryJoin = { s with
      state := { s.state with joinWaker := .registering }, join := .registering (s.state.joinWaker = .empty) }) ∨
    (s.state.canceled = false ∧ s.state.completed = true ∧ s.state.hasOutput = true ∧
      s.tryJoin = { s with state := { s.state with hasOutput := false } }.takeOutput) := by
  cases hn : s.state.canceled with
  | true =>
    have hstate : s.state.tryJoin = (.canceled s.state.hasOutput, s.state) := if_pos hn
    cases ho : s.state.hasOutput with
    | false => exact .inl ⟨rfl, rfl, by simp [Sys.tryJoin, hstate, ho]⟩
    | true => exact .inr (.inl ⟨rfl, rfl, by simp [Sys.tryJoin, hstate, ho]⟩)
  | false =>
    have hnot : ¬ s.state.canceled = true := by simp [hn]
    have hregister : s.state.tryJoin = s.state.shouldRegister → s.tryJoin = { s with
        state := { s.state with joinWaker := .registering }, join := .registering (s.state.joinWaker = .empty) } := by
      intro hstate
      by_cases hj : s.state.joinWaker = .empty
      · simp [Sys.tryJoin, hstate, State.shouldRegister, hj]
      · simp [Sys.tryJoin, hstate, State.shouldRegister, hj]
    cases hc : s.state.completed with
    | false =>
      have hstate : s.state.tryJoin = s.state.shouldRegister := (if_neg hnot).trans (if_pos (by simp [hc]))
      exact .inr (.inr (.inl ⟨rfl, .inl rfl, hregister hstate⟩))
    | true =>
      have hnot' : ¬ (!s.state.completed) = true := by simp [hc]
      cases ho : s.state.hasOutput with
      | false =>
        have hstate : s.state.tryJoin = s.state.shouldRegister :=
          (if_neg hnot).trans ((if_neg hnot').trans (if_pos (by simp [ho])))
        exact .inr (.inr (.inl ⟨rfl, .inr rfl, hregister hstate⟩))
      | true =>
        have hstate : s.state.tryJoin = (.takeOutput, { s.state with hasOutput := false }) :=
          (if_neg hnot).trans ((if_neg hnot').trans (if_neg (by simp [ho])))
        exact .inr (.inr (.inr ⟨rfl, rfl, rfl, by simp only [Sys.tryJoin, hstate]⟩))

theorem dropRef_cases (s : Sys) :
    (s.state.refs ≤ 1 ∧ s.dropRef = { s with state := s.state.decRefs }.deallocate) ∨
    (1 < s.state.refs ∧ s.dropRef = { s with state := s.state.decRefs }) := by
  by_cases hlast : s.state.refs > 1
  · exact .inr ⟨hlast, by simp [Sys.dropRef, State.dropRef, hlast]⟩
  · exact .inl ⟨Nat.not_lt.mp hlast, by simp [Sys.dropRef, State.dropRef, hlast]⟩

/-! ## The scheduler -/

/-- What a move of the task in the scheduler keeps -/
theorem sched_move {v w : Sched} (h : v.Ok) (hm : Sched.Move v w) : w.Ok := by
  obtain ⟨hone, hpolling, hwoken, hcompleted, hkept⟩ := h
  cases hm with
  | keep => exact ⟨hone, hpolling, hwoken, hcompleted, hkept⟩
  | enqueue hp hw hc =>
    have hnone : v.scheduled = 0 := by
      by_contra hne
      exact absurd (hwoken (Nat.pos_of_ne_zero hne)) (by simp [hw])
    have hpolls : v.polls = 0 := by
      by_contra hne
      exact absurd (hpolling.mpr (Nat.pos_of_ne_zero hne)) (by simp [hp])
    refine ⟨?_, hpolling, fun _ => rfl, fun h => absurd h (by simp [hc]), fun _ _ _ _ => ?_⟩
    · show v.scheduled + 1 + v.polls ≤ 1
      omega
    · show 0 < v.scheduled + 1 + v.polls
      omega
  | wake hp =>
    refine ⟨hone, hpolling, fun _ => rfl, hcompleted, fun _ _ _ _ => ?_⟩
    exact Nat.lt_of_lt_of_le (hpolling.mp hp) (Nat.le_add_left _ _)
  | cancel => exact ⟨hone, hpolling, fun _ => rfl, hcompleted, fun _ _ h => (by cases h)⟩
  | start hs hp hc hn =>
    refine ⟨?_, ⟨fun _ => Nat.succ_pos _, fun _ => rfl⟩, fun h => ?_, fun h => absurd h (by simp [hc]),
      fun h => (by cases h)⟩
    · show v.scheduled - 1 + (v.polls + 1) ≤ 1
      omega
    · replace h : 0 < v.scheduled - 1 := h
      omega
  | refuse hs hwhy =>
    have hpolls : v.polls = 0 := by omega
    refine ⟨?_, hpolling, fun _ => hwoken hs, fun h => ?_, fun hw hc hn hcl => ?_⟩
    · show v.scheduled - 1 + v.polls ≤ 1
      omega
    · have hnone := hcompleted h
      show v.scheduled - 1 + v.polls = 0
      omega
    · obtain hp | hc' | hn' | hcl' := hwhy
      · exact absurd (hpolling.mp hp) (by omega)
      · exact absurd (hc'.symm.trans hc) (by decide)
      · exact absurd (hn'.symm.trans hn) (by decide)
      · exact absurd (hcl'.symm.trans hcl) (by decide)
  | complete hp =>
    refine ⟨?_, ⟨fun h => (by cases h), fun h => ?_⟩, fun h => ?_, fun _ => ?_, fun _ h => (by cases h)⟩
    · show v.scheduled + (v.polls - 1) ≤ 1
      omega
    · replace h : 0 < v.polls - 1 := h
      omega
    · replace h : 0 < v.scheduled := h
      omega
    · show v.scheduled + (v.polls - 1) = 0
      omega
  | pause hp hw =>
    refine ⟨?_, ⟨fun h => (by cases h), fun h => ?_⟩, fun h => ?_, fun h => (by cases h), fun h => absurd h
      (by simp [hw])⟩
    · show v.scheduled + (v.polls - 1) ≤ 1
      omega
    · replace h : 0 < v.polls - 1 := h
      omega
    · replace h : 0 < v.scheduled := h
      omega
  | again hp hw =>
    refine ⟨?_, ⟨fun h => (by cases h), fun h => ?_⟩, fun _ => hw, fun h => (by cases h), fun _ _ _ _ => ?_⟩
    · show v.scheduled + 1 + (v.polls - 1) ≤ 1
      omega
    · replace h : 0 < v.polls - 1 := h
      omega
    · show 0 < v.scheduled + 1 + (v.polls - 1)
      omega
  | close => exact ⟨hone, hpolling, hwoken, hcompleted, fun _ _ _ h => (by cases h)⟩

theorem move_of_eq {v w : Sched} (h : w = v) : Sched.Move v w := h ▸ .keep

theorem sched_dropRef (s : Sys) : s.dropRef.sched = s.sched := by
  obtain ⟨-, heq⟩ | ⟨-, heq⟩ := dropRef_cases s
  · rw [heq]
    rfl
  · rw [heq]
    rfl

theorem sched_takesWaker (s : Sys) : (takesWaker s).sched = s.sched := by
  rw [takesWaker]
  cases s.state.joinWaker <;> rfl

/-- A task is enqueued -/
theorem move_enqueue {v : Sched} {n : Nat} (hp : v.polling = false) (hw : v.woken = false) (hc : v.completed = false)
    (hn : n = v.scheduled + 1) : Sched.Move v { v with woken := true, scheduled := n } := hn ▸ .enqueue hp hw hc

theorem sched_wakeByRef (s : Sys) : Sched.Move s.sched s.wakeByRef.sched := by
  obtain ⟨-, heq⟩ | ⟨hp, heq⟩ | ⟨hc, hw, hp, heq⟩ := wakeByRef_cases s
  · rw [heq]
    exact .keep
  · rw [heq]
    exact .wake hp
  · rw [heq]
    refine move_enqueue (v := s.sched) hp hw hc ?_
    show s.entering + 1 + s.waking + s.queued + s.dequeued = s.entering + s.waking + s.queued + s.dequeued + 1
    omega

theorem sched_wakeByVal (s : Sys) : Sched.Move s.sched s.wakeByVal.sched := by
  obtain ⟨hp, heq⟩ | ⟨-, -, -, heq⟩ | ⟨-, -, -, heq⟩ | ⟨hc, hw, hp, heq⟩ := wakeByVal_cases s
  · rw [heq]
    exact .wake hp
  · rw [heq]
    exact .keep
  · rw [heq]
    exact .keep
  · rw [heq]
    refine move_enqueue (v := s.sched) hp hw hc ?_
    show s.entering + (s.waking + 1) + s.queued + s.dequeued = s.entering + s.waking + s.queued + s.dequeued + 1
    omega

theorem sched_cancel (s : Sys) : Sched.Move s.sched s.cancel.sched := by
  obtain ⟨-, heq⟩ | ⟨-, heq⟩ := cancel_cases s
  · rw [heq]
    exact .keep
  · rw [heq]
    exact .cancel

/-- A dequeued task is polled, or its reference is dropped. -/
theorem sched_startPoll (hd : 0 < s.dequeued) :
    Sched.Move s.sched ({ s with dequeued := s.dequeued - 1 } : Sys).startPoll.sched := by
  have hpos : 0 < s.sched.scheduled := by
    show 0 < s.entering + s.waking + s.queued + s.dequeued
    omega
  have hsum : s.entering + s.waking + s.queued + (s.dequeued - 1) = s.sched.scheduled - 1 := by
    show _ = s.entering + s.waking + s.queued + s.dequeued - 1
    omega
  have hsched : ({ s with dequeued := s.dequeued - 1 } : Sys).sched =
      { s.sched with scheduled := s.sched.scheduled - 1 } := by
    rw [← hsum]
    rfl
  obtain ⟨hwhy, heq⟩ | ⟨-, -, hn, heq⟩ | ⟨hp, hc, hn, heq⟩ := startPoll_cases { s with dequeued := s.dequeued - 1 }
  · rw [heq]
    show Sched.Move s.sched ({ s with dequeued := s.dequeued - 1 } : Sys).sched
    rw [hsched]
    exact .refuse hpos (hwhy.imp_right .inl)
  · rw [heq, sched_takesWaker, hsched]
    exact .refuse hpos (.inr (.inr (.inl hn)))
  · rw [heq]
    have hmove := Sched.Move.start hpos hp hc hn
    rw [← hsum] at hmove
    exact hmove

theorem sched_endPoll (hp : 0 < s.polling) (completed : Bool) :
    Sched.Move s.sched (({ s with polling := s.polling - 1 } : Sys).endPoll completed).sched := by
  cases completed with
  | true =>
    rw [endPoll_true, sched_takesWaker]
    exact .complete hp
  | false =>
    obtain ⟨hw, heq⟩ | ⟨hw, heq⟩ := endPoll_false { s with polling := s.polling - 1 }
    · have hsum : s.entering + 1 + s.waking + s.queued + s.dequeued = s.sched.scheduled + 1 := by
        show _ = s.entering + s.waking + s.queued + s.dequeued + 1
        omega
      have hmove := Sched.Move.again (v := s.sched) hp hw
      rw [← hsum] at hmove
      rw [heq]
      exact hmove
    · rw [heq]
      exact .pause hp hw

theorem sched_tryJoin (s : Sys) : s.tryJoin.sched = s.sched := by
  obtain ⟨-, -, heq⟩ | ⟨-, -, heq⟩ | ⟨-, -, heq⟩ | ⟨-, -, -, heq⟩ := tryJoin_cases s
  all_goals
    rw [heq]
    rfl

/-- A thread moves between two places where the scheduler has the task. -/
theorem move_scheduled {v : Sched} {n : Nat} (hn : n = v.scheduled) :
    Sched.Move v { v with scheduled := n } := hn ▸ .keep

/-- A task that is scheduled where nobody polls it any more is dropped. -/
theorem move_closed {v : Sched} {n : Nat} (hpos : 0 < v.scheduled) (hclosed : v.closed = true)
    (hn : n = v.scheduled - 1) :
    Sched.Move v { v with scheduled := n } := hn ▸ .refuse hpos (.inr (.inr (.inr hclosed)))

/-! ## The steps -/

/-- What each step can do, and where it can be taken -/
inductive Does (s : Sys) : Action → Sys → Prop
  | clone (hlends : s.Lends) : Does s .clone { s with state := s.state.cloneRef, handles := s.handles + 1 }
  | drop (hpos : 0 < s.handles) : Does s .drop { s with handles := s.handles - 1 }.dropRef
  | wakeByRef (hlends : s.Lends) : Does s .wakeByRef s.wakeByRef
  | wakeByVal (hpos : 0 < s.handles) : Does s .wakeByVal s.wakeByVal
  | cancel (hlends : s.Lends) : Does s .cancel s.cancel
  | wakeCanceled (hpos : 0 < s.canceling) (hlends : s.Lends) :
      Does s .wakeCanceled { s with canceling := s.canceling - 1 }.wakeByRef
  | schedule (hpos : 0 < s.entering) :
      Does s .schedule { s with entering := s.entering - 1, queued := s.queued + 1 }
  | scheduleVal (hpos : 0 < s.waking) :
      Does s .scheduleVal { s with waking := s.waking - 1, queued := s.queued + 1, leaving := s.leaving + 1 }
  | leave (hpos : 0 < s.leaving) : Does s .leave { s with leaving := s.leaving - 1 }.dropRef
  | dropLast (hpos : 0 < s.dropping) : Does s .dropLast { s with dropping := s.dropping - 1 }.dropRef
  | dequeue (hpos : 0 < s.queued) (hclosed : s.closed = false) :
      Does s .dequeue { s with queued := s.queued - 1, dequeued := s.dequeued + 1 }
  | startPoll (hpos : 0 < s.dequeued) : Does s .startPoll { s with dequeued := s.dequeued - 1 }.startPoll
  | endPoll {completed : Bool} (hpos : 0 < s.polling) :
      Does s (.endPoll completed) ({ s with polling := s.polling - 1 }.endPoll completed)
  | waitForJoinWaker (hpos : 0 < s.waiting) (hstate : s.state.joinWaker = .waiting) :
      Does s .waitForJoinWaker { s with
        state := { s.state with joinWaker := .woken }, waiting := s.waiting - 1, reading := s.reading + 1 }
  | wakeJoinWaker (hpos : 0 < s.reading) :
      Does s .wakeJoinWaker { s with
        reading := s.reading - 1, finishing := s.finishing + 1, slot := false, wakes := s.wakes + 1 }
  | finish (hpos : 0 < s.finishing) : Does s .finish { s with finishing := s.finishing - 1 }.dropRef
  | tryJoin (hidle : s.join = .idle) : Does s .tryJoin s.tryJoin
  | writeJoinWaker {first : Bool} (hjoin : s.join = .registering first) :
      Does s .writeJoinWaker { s with join := .registered, slot := true }
  | setJoinWakerRegistered (hjoin : s.join = .registered) :
      Does s .setJoinWakerRegistered { s with join := .idle, state := s.state.setJoinWakerRegistered }
  | dropJoin (hidle : s.join = .idle) : Does s .dropJoin { s with join := .done }
  | dropJoinHandle (hjoin : s.join = .done) :
      Does s .dropJoinHandle { s with join := .leaving, state := s.state.dropJoinHandle }
  | leaveJoin (hjoin : s.join = .leaving) : Does s .leaveJoin { s with join := .gone }.dropRef
  | close : Does s .close { s with closed := true }
  | consume (hpos : 0 < s.queued) (hclosed : s.closed = true) :
      Does s .consume { s with queued := s.queued - 1, finishing := s.finishing + 1 }
  | scheduleClosed (hpos : 0 < s.entering) (hclosed : s.closed = true) :
      Does s .scheduleClosed { s with entering := s.entering - 1, finishing := s.finishing + 1 }
  | scheduleValClosed (hpos : 0 < s.waking) (hclosed : s.closed = true) :
      Does s .scheduleValClosed { s with
        waking := s.waking - 1, finishing := s.finishing + 1, leaving := s.leaving + 1 }

/-- A step is one of those listed. -/
theorem step_does (hstep : s.step a = some t) : Does s a t := by
  cases a with
  | wakeCanceled =>
    obtain ⟨⟨hpos, hlends⟩, hstep⟩ := Option.ite_none_right_eq_some.mp hstep
    exact Option.some.inj hstep ▸ .wakeCanceled hpos hlends
  | dequeue =>
    obtain ⟨⟨hpos, hclosed⟩, hstep⟩ := Option.ite_none_right_eq_some.mp hstep
    exact Option.some.inj hstep ▸ .dequeue hpos hclosed
  | waitForJoinWaker =>
    obtain ⟨hpos, hstep⟩ := Option.ite_none_right_eq_some.mp hstep
    obtain ⟨state, hstate, rfl⟩ := Option.map_eq_some_iff.mp hstep
    obtain ⟨hjoin, hstate⟩ := Option.ite_none_right_eq_some.mp hstate
    exact Option.some.inj hstate ▸ .waitForJoinWaker hpos hjoin
  | writeJoinWaker =>
    obtain ⟨hjoin | hjoin, hstep⟩ := Option.ite_none_right_eq_some.mp hstep
    · exact Option.some.inj hstep ▸ .writeJoinWaker hjoin
    · exact Option.some.inj hstep ▸ .writeJoinWaker hjoin
  | close => exact Option.some.inj hstep ▸ .close
  | consume =>
    obtain ⟨⟨hpos, hclosed⟩, hstep⟩ := Option.ite_none_right_eq_some.mp hstep
    exact Option.some.inj hstep ▸ .consume hpos hclosed
  | scheduleClosed =>
    obtain ⟨⟨hpos, hclosed⟩, hstep⟩ := Option.ite_none_right_eq_some.mp hstep
    exact Option.some.inj hstep ▸ .scheduleClosed hpos hclosed
  | scheduleValClosed =>
    obtain ⟨⟨hpos, hclosed⟩, hstep⟩ := Option.ite_none_right_eq_some.mp hstep
    exact Option.some.inj hstep ▸ .scheduleValClosed hpos hclosed
  | _ =>
    -- the other steps are guarded by one condition
    obtain ⟨hguard, hstep⟩ := Option.ite_none_right_eq_some.mp hstep
    obtain rfl := Option.some.inj hstep
    constructor
    exact hguard

/-- Every step is a move of the task in the scheduler. -/
theorem sched_step (hstep : s.step a = some t) : Sched.Move s.sched t.sched := by
  have hsum : s.sched.scheduled = s.entering + s.waking + s.queued + s.dequeued := rfl
  cases step_does hstep with
  | drop => exact move_of_eq (sched_dropRef _)
  | wakeByRef => exact sched_wakeByRef s
  | wakeByVal => exact sched_wakeByVal s
  | cancel => exact sched_cancel s
  | wakeCanceled => exact sched_wakeByRef { s with canceling := s.canceling - 1 }
  | schedule hpos => exact @move_scheduled s.sched _ (by simp only [hsum]; omega)
  | scheduleVal hpos => exact @move_scheduled s.sched _ (by simp only [hsum]; omega)
  | leave => exact move_of_eq (sched_dropRef _)
  | dropLast => exact move_of_eq (sched_dropRef _)
  | dequeue hpos => exact @move_scheduled s.sched _ (by simp only [hsum]; omega)
  | startPoll hpos => exact sched_startPoll hpos
  | endPoll hpos => exact sched_endPoll hpos _
  | finish => exact move_of_eq (sched_dropRef _)
  | tryJoin => exact move_of_eq (sched_tryJoin s)
  | leaveJoin => exact move_of_eq (sched_dropRef _)
  | close => exact .close
  | consume hpos hclosed =>
    exact @move_closed s.sched _ (by simp only [hsum]; omega) hclosed (by simp only [hsum]; omega)
  | scheduleClosed hpos hclosed =>
    exact @move_closed s.sched _ (by simp only [hsum]; omega) hclosed (by simp only [hsum]; omega)
  | scheduleValClosed hpos hclosed =>
    exact @move_closed s.sched _ (by simp only [hsum]; omega) hclosed (by simp only [hsum]; omega)
  | _ => exact .keep

end Metor.Proof.Task
