import Metor.Proof.Task.Joined

/-!
# Runs of a task

In every run the references are counted and the task is deallocated once, when
there are none (`references_counted`), the scheduler has the task in one place
and forgets no wakeup (`scheduled_once`), and the output is taken once
(`joined_once`). A task that is canceled where the scheduler does not have it
is never polled again, and nobody wakes its `JoinHandle`
(`canceled_idle_forgotten`).
-/

namespace Metor.Proof.Task

open Metor.Lib Metor.Impl.Task

variable {s t u : Sys} {a : Action}

structure Inv (s : Sys) : Prop where
  counted : Counted s
  sched : s.sched.Ok
  joining : s.joining.Ok
  awaited : Awaited s

theorem inv_spawned : Inv .spawned where
  counted := ⟨fun _ => rfl, by decide, by decide, by decide⟩
  sched := ⟨by decide, by decide, by decide, by decide, by decide⟩
  joining := by
    refine ⟨by decide, fun h => ?_, fun h => absurd h (by decide), fun h => absurd h (by decide), ?_, fun _ => ?_, by
      decide, fun h => (by cases h), by decide,
      fun h => (by cases h), fun _ => ⟨rfl, rfl⟩, rfl, fun h => (by cases h)⟩
    · exact absurd h (by decide)
    · exact ⟨fun h => (by cases h), fun h => h.elim (fun ⟨_, h⟩ => (by cases h)) (fun h => (by cases h))⟩
    · decide
  awaited := fun h => absurd h (by
    rw [Claimed]
    decide)

theorem joining_moves {v w : Joining} (h : v.Ok) (hm : Relation.ReflTransGen Joining.Move v w) : w.Ok := by
  induction hm with
  | refl => exact h
  | tail _ hm ih => exact joining_move ih hm

theorem inv_step (h : Inv s) (hfits : s.Fits a) (hstep : s.step a = some t) : Inv t where
  counted := counted_step h.counted h.sched hfits hstep
  sched := sched_move h.sched (sched_step hstep)
  joining := joining_moves h.joining (joining_step h.counted h.sched h.awaited hstep)
  awaited := awaited_step h.sched h.awaited hstep

theorem inv_reached (h : Reached s) : Inv s :=
  Run.invariant (fun h hfits hstep => inv_step h hfits hstep) h inv_spawned

theorem not_lends (h : s.references = 0) : ¬ s.Lends := fun hlends => absurd (references_pos hlends) (by omega)

/-- Without references, a task is only dropped. -/
theorem step_of_references (h : s.references = 0) (ha : a ≠ .close) (ha' : a ≠ .dropLast) : s.step a = none := by
  have hlends := not_lends h
  have hgone : s.join = .gone := by
    by_contra hne
    simp only [Sys.references, if_neg hne] at h
    omega
  simp only [Sys.references, if_pos hgone] at h
  cases a with
  | close => exact absurd rfl ha
  | dropLast => exact absurd rfl ha'
  | wakeCanceled => exact if_neg fun hguard : 0 < s.canceling ∧ s.Lends => hlends hguard.2
  | _ =>
    first
    | exact if_neg hlends
    | exact if_neg (by omega)
    | exact if_neg (by simp [hgone])

/-- The count of references is that of those that somebody has; the task is deallocated once, when there are none, with
no join waker left, and then nobody does anything with it. -/
theorem references_counted (h : Reached s) :
    (s.freed = 0 → s.state.refs = s.references) ∧ s.dropping + s.freed ≤ 1 ∧
    (s.references = 0 ↔ s.dropping + s.freed = 1) ∧
      (0 < s.freed → s.slot = false ∧ ∀ a, a ≠ .close → s.step a = none) := by
  have hi := inv_reached h
  refine ⟨hi.counted.refs, hi.counted.once, hi.counted.last, fun hf => ⟨(hi.joining.freed hf).1, fun a ha => ?_⟩⟩
  have honce := hi.counted.once
  by_cases ha' : a = .dropLast
  · subst ha'
    exact if_neg (by omega)
  · exact step_of_references (hi.counted.last.mpr (by omega)) ha ha'

theorem woken_wakeByRef (s : Sys) : s.wakeByRef.state.woken = true ∨ s.wakeByRef.state.completed = true := by
  obtain ⟨hdone, heq⟩ | ⟨-, heq⟩ | ⟨-, -, -, heq⟩ := wakeByRef_cases s
  · rw [heq]
    exact hdone.symm
  · rw [heq]
    exact .inl rfl
  · rw [heq]
    exact .inl rfl

theorem woken_wakeByVal (s : Sys) : s.wakeByVal.state.woken = true ∨ s.wakeByVal.state.completed = true := by
  obtain ⟨-, heq⟩ | ⟨-, hdone, -, heq⟩ | ⟨-, hdone, -, heq⟩ | ⟨-, -, -, heq⟩ := wakeByVal_cases s
  · rw [heq]
    exact .inl rfl
  · rw [heq]
    exact hdone.symm
  · rw [heq]
    exact hdone.symm
  · rw [heq]
    exact .inl rfl

theorem woken_step (ha : a = .wakeByRef ∨ a = .wakeByVal ∨ a = .wakeCanceled) (hstep : s.step a = some t) :
    t.state.woken = true ∨ t.state.completed = true := by
  obtain rfl | rfl | rfl := ha
  · cases step_does hstep
    exact woken_wakeByRef s
  · cases step_does hstep
    exact woken_wakeByVal s
  · cases step_does hstep
    exact woken_wakeByRef { s with canceling := s.canceling - 1 }

/-- The task is in the queue once, or polled by one thread. Waking it sets its flag or finds it completed, and a task
with that flag is in the queue, or will be, until it is completed or canceled. -/
theorem scheduled_once (h : Reached s) :
    s.entering + s.waking + s.queued + s.dequeued + s.polling ≤ 1 ∧ (s.state.polling = true ↔ s.polling = 1) ∧
      (∀ a, a = .wakeByRef ∨ a = .wakeByVal ∨ a = .wakeCanceled → ∀ t, s.step a = some t → t.state.woken = true ∨
      t.state.completed = true) ∧
      (s.state.woken = true → s.state.completed = false → s.state.canceled = false → s.closed = false →
        s.entering + s.waking + s.queued + s.dequeued + s.polling = 1) := by
  have hok := (inv_reached h).sched
  have hone : s.entering + s.waking + s.queued + s.dequeued + s.polling ≤ 1 := hok.one
  have hpolling : s.state.polling = true ↔ 0 < s.polling := hok.polling
  refine ⟨hone, hpolling.trans ⟨fun hp => by omega, fun hp => by omega⟩, fun a ha t hstep => woken_step ha hstep,
    fun hw hc hn hcl => ?_⟩
  have hpos : 0 < s.entering + s.waking + s.queued + s.dequeued + s.polling := hok.kept hw hc hn hcl
  omega

theorem taken_dropRef (s : Sys) : s.dropRef.taken = s.taken := by
  obtain ⟨-, heq⟩ | ⟨-, heq⟩ := dropRef_cases s
  · rw [heq]
    rfl
  · rw [heq]

theorem taken_takesWaker (s : Sys) : (takesWaker s).taken = s.taken := by
  cases hj : s.state.joinWaker <;> simp only [takesWaker, hj]

theorem taken_startPoll (s : Sys) : s.startPoll.taken = s.taken := by
  obtain ⟨-, heq⟩ | ⟨-, -, -, heq⟩ | ⟨-, -, -, heq⟩ := startPoll_cases s
  · rw [heq]
  · rw [heq, taken_takesWaker]
  · rw [heq]

theorem taken_endPoll (s : Sys) (completed : Bool) : (s.endPoll completed).taken = s.taken := by
  cases completed with
  | true => rw [endPoll_true, taken_takesWaker]
  | false =>
    obtain ⟨-, heq⟩ | ⟨-, heq⟩ := endPoll_false s
    all_goals rw [heq]

theorem taken_cancel (s : Sys) : s.cancel.taken = s.taken := by
  obtain ⟨-, heq⟩ | ⟨-, heq⟩ := cancel_cases s
  all_goals rw [heq]

/-- Nothing but `try_join` takes the output. -/
theorem taken_step (ha : a ≠ .tryJoin) (hstep : s.step a = some t) : t.taken = s.taken := by
  cases step_does hstep with
  | drop => exact taken_dropRef _
  | wakeByRef => exact congrArg Joining.taken (joining_wakeByRef s)
  | wakeByVal => exact congrArg Joining.taken (joining_wakeByVal s)
  | cancel => exact taken_cancel s
  | wakeCanceled => exact congrArg Joining.taken (joining_wakeByRef { s with canceling := s.canceling - 1 })
  | leave => exact taken_dropRef _
  | dropLast => exact taken_dropRef _
  | startPoll => exact taken_startPoll _
  | endPoll => exact taken_endPoll _ _
  | finish => exact taken_dropRef _
  | tryJoin => exact absurd rfl ha
  | leaveJoin => exact taken_dropRef _
  | _ => rfl

/-- `try_join` takes an output that is there. -/
theorem tryJoin_takes (h : s.joining.Ok) (hidle : s.join = .idle) :
    (s.tryJoin.taken = s.taken ∧ s.state.completed = false ∨ s.tryJoin.taken = s.taken ∧ s.state.hasOutput = false) ∨
      s.output = .ready ∧ s.tryJoin.output = .joined ∧ s.tryJoin.taken = s.taken + 1 := by
  obtain ⟨-, ho, heq⟩ | ⟨-, ho, heq⟩ | ⟨-, hnot, heq⟩ | ⟨-, -, ho, heq⟩ := tryJoin_cases s
  · rw [heq]
    exact .inl (.inr ⟨rfl, ho⟩)
  · rw [heq]
    exact .inr ⟨ready_of_hasOutput h hidle ho, rfl, rfl⟩
  · rw [heq]
    exact .inl (hnot.imp (fun hc => ⟨rfl, hc⟩) fun ho => ⟨rfl, ho⟩)
  · rw [heq]
    exact .inr ⟨ready_of_hasOutput h hidle ho, rfl, rfl⟩

/-- The output is taken once, where it is ready, and by a `JoinHandle` that is polled after the task has completed. A
waker that is registered by then is woken, or waited for, and its slot is written before it is read. -/
theorem joined_once (h : Reached s) :
    s.taken ≤ 1 ∧ (∀ a t, s.step a = some t → s.taken < t.taken → s.output = .ready) ∧
      (0 < s.reading → s.slot = true) ∧ (s.state.completed = true → s.joining.HasWaker → 0 < s.waiting) ∧
      (s.state.completed = true → ∀ t, s.step .tryJoin = some t → s.output = .ready ∧ t.output = .joined ∧
      t.taken = 1) := by
  have hi := inv_reached h
  have hj := hi.joining
  have htaken : s.taken = if s.output = .joined then 1 else 0 := hj.taken
  refine ⟨?_, fun a t hstep hlt => ?_, fun hr => ?_, hj.kept, fun hc t hstep => ?_⟩
  · rw [htaken]
    split
    · exact Nat.le_refl 1
    · exact Nat.zero_le 1
  · by_cases ha : a = .tryJoin
    · subst ha
      cases step_does hstep with
      | tryJoin hidle =>
        obtain (⟨heq, -⟩ | ⟨heq, -⟩) | ⟨hready, -⟩ := tryJoin_takes hj hidle
        · exact absurd heq (Nat.ne_of_gt hlt)
        · exact absurd heq (Nat.ne_of_gt hlt)
        · exact hready
    · exact absurd (taken_step ha hstep) (Nat.ne_of_gt hlt)
  · have hlive := hi.counted.live (show 0 < s.references by simp only [Sys.references]; omega)
    exact (hj.slot hlive.2).mpr (.inr (.inr (.inr hr)))
  · cases step_does hstep with
    | tryJoin hidle =>
      obtain ⟨ho, hready⟩ := hj.ready hc (joins_of_idle hidle)
      have hnone : s.taken = 0 := by rw [htaken, if_neg (by simp [show s.output = .ready from hready])]
      obtain (⟨-, hc'⟩ | ⟨-, ho'⟩) | ⟨hready, ho', heq⟩ := tryJoin_takes hj hidle
      · exact absurd (hc.symm.trans hc') (by decide)
      · exact absurd (ho.symm.trans ho') (by decide)
      · exact ⟨hready, ho', by rw [heq, hnone]⟩

/-! ## Canceled tasks -/

/-- Nobody polls the task any more, or wakes its `JoinHandle`. -/
structure Forgotten (s : Sys) (wakes : Nat) : Prop where
  finished : s.sched.Over
  completed : s.state.completed = false
  claims : s.waiting + s.reading = 0
  wakes : s.wakes = wakes

/-- What a step leaves as it is that neither polls the task nor wakes its `JoinHandle` -/
def Same (s t : Sys) : Prop :=
  t.state.completed = s.state.completed ∧ t.waiting = s.waiting ∧ t.reading = s.reading ∧ t.wakes = s.wakes

theorem same_dropRef (s : Sys) : Same s s.dropRef := by
  obtain ⟨-, heq⟩ | ⟨-, heq⟩ := dropRef_cases s
  all_goals
    rw [heq]
    exact ⟨rfl, rfl, rfl, rfl⟩

theorem same_wakeByRef (s : Sys) : Same s s.wakeByRef := by
  obtain ⟨-, heq⟩ | ⟨-, heq⟩ | ⟨-, -, -, heq⟩ := wakeByRef_cases s
  all_goals
    rw [heq]
    exact ⟨rfl, rfl, rfl, rfl⟩

theorem same_wakeByVal (s : Sys) : Same s s.wakeByVal := by
  obtain ⟨-, heq⟩ | ⟨-, -, -, heq⟩ | ⟨-, -, -, heq⟩ | ⟨-, -, -, heq⟩ := wakeByVal_cases s
  all_goals
    rw [heq]
    exact ⟨rfl, rfl, rfl, rfl⟩

theorem same_cancel (s : Sys) : Same s s.cancel := by
  obtain ⟨-, heq⟩ | ⟨-, heq⟩ := cancel_cases s
  all_goals
    rw [heq]
    exact ⟨rfl, rfl, rfl, rfl⟩

theorem same_tryJoin (s : Sys) : Same s s.tryJoin := by
  obtain ⟨-, -, heq⟩ | ⟨-, -, heq⟩ | ⟨-, -, heq⟩ | ⟨-, -, -, heq⟩ := tryJoin_cases s
  all_goals
    rw [heq]
    exact ⟨rfl, rfl, rfl, rfl⟩

theorem same_step (hover : s.sched.Over) (hclaims : s.waiting + s.reading = 0) (hstep : s.step a = some t) :
    Same s t := by
  have hnone : s.entering + s.waking + s.queued + s.dequeued + s.polling = 0 := hover.1
  cases step_does hstep with
  | drop => exact same_dropRef _
  | wakeByRef => exact same_wakeByRef s
  | wakeByVal => exact same_wakeByVal s
  | cancel => exact same_cancel s
  | wakeCanceled => exact same_wakeByRef { s with canceling := s.canceling - 1 }
  | leave => exact same_dropRef _
  | dropLast => exact same_dropRef _
  | startPoll hpos => omega
  | endPoll hpos => omega
  | waitForJoinWaker hpos => omega
  | wakeJoinWaker hpos => omega
  | finish => exact same_dropRef _
  | tryJoin => exact same_tryJoin s
  | leaveJoin => exact same_dropRef _
  | _ => exact ⟨rfl, rfl, rfl, rfl⟩

theorem forgotten_step {n : Nat} (h : Forgotten s n) (hstep : s.step a = some t) : Forgotten t n := by
  obtain ⟨hcompleted, hwaiting, hreading, hwakes⟩ := same_step h.finished h.claims hstep
  refine ⟨over_move h.finished (sched_step hstep), hcompleted.trans h.completed, ?_, hwakes.trans h.wakes⟩
  rw [hwaiting, hreading]
  exact h.claims

/-- A task that is canceled where the scheduler does not have it is not polled again, and its `JoinHandle` is not
woken. -/
theorem canceled_idle_forgotten (h : Reached s) (hidle : s.entering + s.waking + s.queued + s.dequeued + s.polling = 0)
    (hc : s.state.completed = false) (hn : s.state.canceled = false) (hstep : s.step .cancel = some t)
    (hrun : Continues t u) :
    u.entering + u.waking + u.queued + u.dequeued + u.polling = 0 ∧ u.state.completed = false ∧ u.wakes = s.wakes := by
  have hforgotten : Forgotten t s.wakes := by
    cases step_does hstep
    have hclaims : s.waiting + s.reading = 0 := by
      by_contra hne
      obtain ⟨-, hc' | ⟨hn', -⟩⟩ := (inv_reached h).awaited (.inl (Nat.pos_of_ne_zero hne))
      · exact absurd (hc.symm.trans hc') (by decide)
      · exact absurd (hn.symm.trans hn') (by decide)
    obtain ⟨hn', -⟩ | ⟨-, heq⟩ := cancel_cases s
    · exact absurd (hn.symm.trans hn') (by decide)
    · rw [heq]
      exact ⟨⟨hidle, .inr ⟨rfl, rfl⟩⟩, hc, hclaims, rfl⟩
  have hrest := Run.invariant (I := fun s' => Forgotten s' s.wakes) (fun h _ hstep => forgotten_step h hstep)
    hrun hforgotten
  exact ⟨hrest.finished.1, hrest.completed, hrest.wakes⟩

/-! ## Runs -/

instance (s : Sys) (a : Action) : Decidable (s.Fits a) := inferInstanceAs (Decidable (_ < _))

/-- A task that a waker waits for, and where it is woken by it -/
def idleActions : List Action := [.schedule, .dequeue, .startPoll, .clone, .endPoll false, .finish]

def idleTask : Sys := (exec Sys.step Sys.Fits .spawned idleActions).getD .spawned

theorem reached_idleTask : Reached idleTask := .of_exec idleActions .refl (by decide +kernel)

/-- The waker wakes it. -/
def queuedActions : List Action := idleActions ++ [.wakeByRef, .schedule]

def queuedTask : Sys := (exec Sys.step Sys.Fits .spawned queuedActions).getD .spawned

theorem reached_queuedTask : Reached queuedTask := .of_exec queuedActions .refl (by decide +kernel)

/-- It is woken after its `JoinHandle` has registered, and completes. -/
def readyActions : List Action :=
  idleActions ++ [.tryJoin, .writeJoinWaker, .setJoinWakerRegistered, .wakeByVal, .scheduleVal, .leave,
  .dequeue, .startPoll,
    .endPoll true, .wakeJoinWaker, .finish]

def readyTask : Sys := (exec Sys.step Sys.Fits .spawned readyActions).getD .spawned

theorem reached_readyTask : Reached readyTask := .of_exec readyActions .refl (by decide +kernel)

/-- It is joined and deallocated. -/
def joinedActions : List Action := readyActions ++ [.tryJoin, .dropJoinHandle, .leaveJoin]

def joinedTask : Sys := (exec Sys.step Sys.Fits .spawned joinedActions).getD .spawned

theorem reached_joinedTask : Reached joinedTask := .of_exec joinedActions .refl (by decide +kernel)

theorem references_counted_joinedTask : joinedTask.freed = 1 ∧ joinedTask.slot = false ∧
    joinedTask.step .wakeByRef = none :=
  have h := (references_counted reached_joinedTask).2.2.2 (by decide +kernel)
  ⟨by decide +kernel, h.1, h.2 .wakeByRef (by decide)⟩

theorem scheduled_once_queuedTask :
    queuedTask.entering + queuedTask.waking + queuedTask.queued + queuedTask.dequeued + queuedTask.polling = 1 ∧
      (queuedTask.wakeByRef.state.woken = true ∨ queuedTask.wakeByRef.state.completed = true) :=
  have h := scheduled_once reached_queuedTask
  ⟨h.2.2.2 (by decide +kernel) (by decide +kernel) (by decide +kernel) (by decide +kernel),
    h.2.2.1 .wakeByRef (.inl rfl) queuedTask.wakeByRef (by decide +kernel)⟩

theorem joined_once_readyTask : readyTask.taken < readyTask.tryJoin.taken ∧ readyTask.output = .ready ∧
    readyTask.tryJoin.taken = 1 := by
  have htaken : readyTask.taken < readyTask.tryJoin.taken := by decide +kernel
  have hstep : readyTask.step .tryJoin = some readyTask.tryJoin := by decide +kernel
  obtain ⟨-, hready, -, -, hjoined⟩ := joined_once reached_readyTask
  exact ⟨htaken, hready _ _ hstep htaken, (hjoined (by decide +kernel) _ hstep).2.2⟩

/-- It is not scheduled when it is canceled, nor by its waker later. -/
def forgottenTask : Sys := (exec Sys.step Sys.Fits idleTask.cancel [.wakeCanceled, .wakeByRef]).getD .spawned

theorem canceled_idleTask_forgotten : idleTask.step .cancel = some idleTask.cancel ∧
    forgottenTask.entering + forgottenTask.waking + forgottenTask.queued + forgottenTask.dequeued +
      forgottenTask.polling = 0 ∧ forgottenTask.state.completed = false ∧ forgottenTask.wakes = idleTask.wakes := by
  have hstep : idleTask.step .cancel = some idleTask.cancel := by decide +kernel
  have hrun : Continues idleTask.cancel forgottenTask := .of_exec [.wakeCanceled, .wakeByRef] .refl (by decide +kernel)
  exact ⟨hstep, canceled_idle_forgotten reached_idleTask (by decide +kernel) (by decide +kernel) (by decide +kernel)
    hstep hrun⟩

end Metor.Proof.Task
