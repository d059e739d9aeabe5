import Metor.Proof.WaitQueue.Steps

/-!
# What a wait queue keeps

`Held`: a list that has nodes is that of a queue which is `Waiting` or is being
drained, and who holds the lock knows the state as far as others cannot change
it. From it, which steps panic (`panics_iff`) and that no `Wait` is left without
its waker (`heard_reached`). Then when a queue that is closed stays so
(`stays_closed_iff`), and what is kept if nothing is enqueued while a queue is
being drained: it is `Waiting` only if its list has nodes (`Kept`).
-/

namespace Metor.Proof.WaitQueue

open Metor.Impl.WaitQueue Metor.Lib

variable {s t : Sys} {a : Action} {i : Nat} {wait : Wait} {q q' curr : QueueState} {queue : List Nat}

/-- What a thread that holds the lock has loaded: since then others may only have stored a wakeup, taken it, or closed
the queue. -/
structure Snapshot (q curr : QueueState) : Prop where
  wakeAlls : curr.wakeAlls = q.wakeAlls
  waiting : curr.state = .waiting → q.state = .waiting ∨ q.state = .closed
  loaded : q.state = .waiting → curr.state = .waiting

def Saw (q : QueueState) : Holder → Prop
  | .wakeLocked _ curr => q.state = .waiting → curr.state = .waiting
  | .store _ _ => q.state ≠ .waiting
  | .release _ _ curr => q.state = .waiting → curr.state = .waiting
  | .wakeAll curr => Snapshot q curr

structure Held (s : Sys) : Prop where
  queued : s.queue ≠ [] → s.state.state = .waiting ∨ 0 < s.draining + s.closing
  saw : ∀ holder, s.holder = some holder → Saw s.state holder

theorem snapshot_self : Snapshot q q := ⟨rfl, .inl, fun h => h⟩

/-- A wakeup is stored or taken. -/
theorem Snapshot.free (h : Snapshot q curr) (hq : q.state = .empty ∨ q.state = .woken)
    (hq' : q'.state = .empty ∨ q'.state = .woken) (hwakeAlls : q'.wakeAlls = q.wakeAlls) : Snapshot q' curr := by
  refine ⟨h.wakeAlls.trans hwakeAlls.symm, fun hcurr => ?_, fun hwaiting => ?_⟩
  · obtain hstate | hstate := h.waiting hcurr <;> obtain hq | hq := hq <;> cases hstate.symm.trans hq
  · obtain hq' | hq' := hq' <;> cases hwaiting.symm.trans hq'

theorem Snapshot.close (h : Snapshot q curr) : Snapshot (q.withState .closed) curr :=
  ⟨h.wakeAlls, fun _ => .inr rfl, fun hwaiting => (by cases hwaiting)⟩

theorem not_waiting (h : q.state = .empty ∨ q.state = .woken) : q.state ≠ .waiting := fun hwaiting => by
  obtain h | h := h <;> cases hwaiting.symm.trans h

theorem Saw.free {holder : Holder} (h : Saw q holder) (hq : q.state = .empty ∨ q.state = .woken)
    (hq' : q'.state = .empty ∨ q'.state = .woken) (hwakeAlls : q'.wakeAlls = q.wakeAlls) : Saw q' holder := by
  cases holder with
  | wakeLocked => exact fun hwaiting => absurd hwaiting (not_waiting hq')
  | store => exact not_waiting hq'
  | release => exact fun hwaiting => absurd hwaiting (not_waiting hq')
  | wakeAll => exact Snapshot.free h hq hq' hwakeAlls

theorem Saw.close {holder : Holder} (h : Saw q holder) : Saw (q.withState .closed) holder := by
  cases holder with
  | wakeLocked => exact fun hwaiting => (by cases hwaiting)
  | store => exact fun hwaiting => (by cases hwaiting)
  | release => exact fun hwaiting => (by cases hwaiting)
  | wakeAll => exact Snapshot.close h

theorem Held.free (h : Held s) (hstate : s.state.state = .empty ∨ s.state.state = .woken)
    (hq : q.state = .empty ∨ q.state = .woken) (hwakeAlls : q.wakeAlls = s.state.wakeAlls) :
    Held { s with state := q } := by
  refine ⟨fun hqueue => .inr ?_, fun holder hholder => (h.saw holder hholder).free hstate hq hwakeAlls⟩
  exact (h.queued hqueue).resolve_left (not_waiting hstate)

/-- The lock is taken or passed on. -/
theorem Held.lock (h : Held s) (holder : Holder) (hsaw : Saw s.state holder) {waking : Nat} :
    Held { s with waking := waking, holder := some holder } :=
  ⟨h.queued, fun _ heq => Option.some.inj heq ▸ hsaw⟩

/-- The lock is released. -/
theorem Held.unlock (h : Held s) : Held { s with holder := none } := ⟨h.queued, fun _ heq => (by cases heq)⟩

theorem held_release (h : Held s) {dropped : Nat} {waker : Wakeup}
    (hholder : s.holder = some (.release dropped waker curr)) : Held (s.released dropped waker curr) := by
  have hsaw : s.state.state = .waiting → curr.state = .waiting := h.saw _ hholder
  rw [Sys.released]
  refine ⟨fun hqueue => ?_, fun holder heq => ?_⟩
  · rw [if_neg fun hlast => hqueue hlast.1]
    exact h.queued hqueue
  · replace heq : (if waker = .one then some (Holder.wakeLocked (some dropped) curr) else none) = some holder := heq
    split at heq
    · obtain rfl := Option.some.inj heq
      intro hwaiting
      replace hwaiting : (if s.queue = [] ∧ curr.state = .waiting then curr.withState .empty else s.state).state =
        .waiting := hwaiting
      split at hwaiting
      · cases hwaiting
      · exact hsaw hwaiting
    · cases heq

/-- What each step keeps -/
theorem held_does (h : Held s) (hdoes : Does s a t) : Held t := by
  cases hdoes with
  | consume hwait hpolling hstate =>
    have hwoken : s.state.state = .woken := congrArg QueueState.state hstate
    have hfree := @Held.free s (QueueState.withState _ .empty) h (.inr hwoken) (.inl rfl)
      (congrArg QueueState.wakeAlls hstate).symm
    exact ⟨hfree.queued, hfree.saw⟩
  | enqueue hwait hpolling hfree =>
    exact ⟨fun _ => .inl rfl, fun holder hholder => (by cases hfree.symm.trans hholder)⟩
  | take hwait hpolling hlock hstart hsame hstate =>
    have hfree := @Held.free s (s.state.withState .empty) h (.inr hstate) (.inl rfl) rfl
    exact ⟨hfree.queued, hfree.saw⟩
  | @remove i wait hwait hidle hstate hfree =>
    refine ⟨fun hqueue => h.queued fun hnil => ?_, fun holder heq => ?_⟩
    · exact hqueue (by rw [hnil]; rfl)
    · obtain rfl := Option.some.inj heq
      exact fun hwaiting => hwaiting
  | wakeStored hstate => exact h.free hstate (.inr rfl) rfl
  | lockWake => exact h.lock (.wakeLocked none s.state) fun hwaiting => hwaiting
  | lockWakeAll => exact h.lock (.wakeAll s.state) snapshot_self
  | exchange hholder hstate =>
    exact ⟨fun hqueue => .inr ((h.queued hqueue).resolve_left hstate), fun _ heq => (by cases heq)⟩
  | @fail dropped curr hholder hcurr hstate => exact h.lock (.store dropped s.state) hstate
  | @pop dropped curr i queue wait hholder hcurr hqueue hwait =>
    refine ⟨fun hne => ?_, fun _ heq => (by cases heq)⟩
    show (if queue = [] then curr.withState .empty else s.state).state = .waiting ∨ 0 < s.draining + s.closing
    rw [if_neg hne]
    exact h.queued (by rw [hqueue]; exact List.cons_ne_nil _ _)
  | store hholder =>
    exact ⟨fun hqueue => .inr ((h.queued hqueue).resolve_left (h.saw _ hholder)), fun _ heq => (by cases heq)⟩
  | release hholder => exact held_release h hholder
  | wakeAllClosed => exact h.unlock
  | wakeAllNone => exact ⟨h.queued, fun _ heq => (by cases heq)⟩
  | @wakeAll popped queue woken waits hholder hstate hqueue hsound hwaits =>
    refine ⟨fun hne => .inr ?_, fun _ heq => (by cases heq)⟩
    show 0 < (if queue = [] then s.draining else s.draining + 1) + s.closing
    rw [if_neg hne]
    omega
  | @drainAll popped queue woken waits hdraining hfree hqueue hsound hwaits =>
    refine ⟨fun hne => .inr ?_, fun holder hholder => (by cases hfree.symm.trans hholder)⟩
    show 0 < (if queue = [] then s.draining - 1 else s.draining) + s.closing
    rw [if_neg hne]
    omega
  | @drainClosed popped queue woken waits hclosing hfree hqueue hsound hwaits =>
    refine ⟨fun hne => .inr ?_, fun holder hholder => (by cases hfree.symm.trans hholder)⟩
    show 0 < s.draining + (if queue = [] then s.closing - 1 else s.closing)
    rw [if_neg hne]
    omega
  | close =>
    refine ⟨fun hne => .inr ?_, fun holder hholder => (h.saw holder hholder).close⟩
    show 0 < s.draining + (if s.state.state = .waiting then s.closing + 1 else s.closing)
    by_cases hstate : s.state.state = .waiting
    · rw [if_pos hstate]
      omega
    · rw [if_neg hstate]
      exact (h.queued hne).resolve_left hstate
  | tryWait hstate => exact h.free (.inr hstate) (.inl rfl) rfl
  | _ => exact ⟨h.queued, h.saw⟩

theorem held_new {state : State} : Held (.new state) :=
  ⟨fun hqueue => absurd rfl hqueue, fun _ heq => (by cases heq)⟩

theorem reached_held (h : Reached s) : Intact s ∧ Held s := by
  obtain ⟨state, -, hrun⟩ := h
  refine Run.invariant (I := fun s => Intact s ∧ Held s) (fun h _ hstep => ?_) hrun ⟨intact_new, held_new⟩
  exact ⟨intact_step h.1 hstep, held_does h.2 (step_does h.1 hstep)⟩

/-! ## Panics -/

theorem not_panicked (hstep : s.step a = some t) : ¬ s.panicked = true := by
  rw [Sys.step.eq_def, Option.ite_none_left_eq_some] at hstep
  exact hstep.1

/-- What is not expected of `wake_locked` and of `wake_all` -/
theorem unexpected_wakeLocked {dropped : Option Nat} (hholder : s.holder = some (.wakeLocked dropped curr)) :
    s.Unexpected ↔ curr.state = .waiting ∧ s.queue = [] := by
  refine ⟨?_, fun h => .inr ⟨dropped, curr, hholder, h⟩⟩
  rintro (⟨curr', heq, -⟩ | ⟨dropped', curr', heq, h⟩)
  · cases hholder.symm.trans heq
  · cases hholder.symm.trans heq
    exact h

theorem unexpected_wakeAll (hholder : s.holder = some (.wakeAll curr)) :
    s.Unexpected ↔ curr.state = .waiting ∧ s.state.state = .closed := by
  refine ⟨?_, fun h => .inl ⟨curr, hholder, h⟩⟩
  rintro (⟨curr', heq, h⟩ | ⟨dropped', curr', heq, -⟩)
  · cases hholder.symm.trans heq
    exact h
  · cases hholder.symm.trans heq

theorem panics_does (hh : Held s) (hnot : ¬ s.panicked = true) (hdoes : Does s a t) :
    t.panicked = true ↔ a = .locked ∧ s.Unexpected := by
  have hother : ∀ {holder : Holder}, s.holder = some holder → (∀ dropped curr, holder ≠ .wakeLocked dropped curr) →
      (∀ curr, holder ≠ .wakeAll curr) → ¬ (Action.locked = .locked ∧ s.Unexpected) := by
    rintro holder hholder hwakeLocked hwakeAll ⟨-, ⟨curr, heq, -⟩ | ⟨dropped, curr, heq, -⟩⟩
    · exact hwakeAll curr (Option.some.inj (hholder.symm.trans heq))
    · exact hwakeLocked dropped curr (Option.some.inj (hholder.symm.trans heq))
  cases hdoes with
  | exchange hholder hstate =>
    exact iff_of_false hnot fun h => hstate ((unexpected_wakeLocked hholder).mp h.2).1
  | fail hholder hcurr => exact iff_of_false hnot fun h => hcurr ((unexpected_wakeLocked hholder).mp h.2).1
  | pop hholder hcurr hqueue =>
    refine iff_of_false hnot fun h => ?_
    cases hqueue.symm.trans ((unexpected_wakeLocked hholder).mp h.2).2
  | store hholder =>
    exact iff_of_false hnot (hother hholder (fun _ _ heq => (by cases heq)) fun _ heq => (by cases heq))
  | release hholder =>
    exact iff_of_false hnot (hother hholder (fun _ _ heq => (by cases heq)) fun _ heq => (by cases heq))
  | wakeAllClosed hholder hcurr =>
    refine iff_of_false hnot fun h => ?_
    cases hcurr.symm.trans ((unexpected_wakeAll hholder).mp h.2).1
  | wakeAllNone hholder hcurr =>
    exact iff_of_false hnot fun h => not_waiting hcurr ((unexpected_wakeAll hholder).mp h.2).1
  | wakeAll hholder hstate =>
    refine iff_of_false hnot fun h => ?_
    cases hstate.symm.trans ((unexpected_wakeAll hholder).mp h.2).2
  | panicAssert hholder hcurr hstate => exact absurd (hh.saw _ hholder hstate) hcurr
  | panicPop hholder hcurr hqueue =>
    exact iff_of_true rfl ⟨rfl, (unexpected_wakeLocked hholder).mpr ⟨hcurr, hqueue⟩⟩
  | @panicWakeAll curr hholder hcurr hne =>
    have hsnapshot : Snapshot s.state curr := hh.saw _ hholder
    refine iff_of_true rfl ⟨rfl, (unexpected_wakeAll hholder).mpr ⟨hcurr, (hsnapshot.waiting hcurr).resolve_left ?_⟩⟩
    intro hstate
    obtain ⟨state, wakeAlls⟩ := curr
    exact hne (congrArg₂ QueueState.mk (hstate.trans hcurr.symm) hsnapshot.wakeAlls.symm)
  | _ => exact iff_of_false hnot fun hlocked => (by cases hlocked.1)

/-- A step panics exactly where a thread that holds the lock has loaded `Waiting`, and `wake_all` finds the queue closed
since then, or `wake_locked` finds that a batch has taken all that was in the list. -/
theorem panics_iff (h : Reached s) (hstep : s.step a = some t) :
    t.panicked = true ↔ a = .locked ∧ s.Unexpected :=
  panics_does (reached_held h).2 (not_panicked hstep) (step_does (reached_held h).1 hstep)

/-- What a new queue comes to by some steps -/
def queueAfter (as : List Action) : Sys := (exec Sys.step (fun _ _ => True) (.new .empty) as).getD (.new .empty)

theorem reached_queueAfter (as : List Action) : Reached (queueAfter as) := by
  refine ⟨.empty, .inl rfl, ?_⟩
  rw [queueAfter]
  cases h : exec Sys.step (fun _ _ => True) (.new .empty) as with
  | none => exact .refl
  | some t => exact .of_exec as .refl h

/-- A `Wait` is polled until it is in the list. -/
def enqueueActions (i : Nat) : List Action := [.wait, .poll i (some 7), .tryConsume i, .pollWait i]

/-- `wake_all` takes 16 of 17 nodes in its first batch, and in the next one also a node that was enqueued in between: a
`wake` finds the queue `Waiting` with nothing in its list. -/
def overtakenQueue : Sys :=
  queueAfter ((List.range 17).flatMap enqueueActions ++ [.lockWakeAll, .locked] ++ enqueueActions 17 ++
    [.drainAll, .wake, .lockWake])

theorem step_overtakenQueue : overtakenQueue.step .locked = some overtakenQueue.panic := by
  have hp : overtakenQueue.panicked = false := by decide +kernel
  have hholder : overtakenQueue.holder = some (.wakeLocked none ⟨.waiting, 1⟩) := by decide +kernel
  have hqueue : overtakenQueue.queue = [] := by decide +kernel
  simp only [Sys.step, hp, Bool.false_eq_true, if_false, hholder, Option.map_some, Sys.locked, Sys.wakeLocked, ne_eq,
    not_true, hqueue]

theorem panics_overtakenQueue :
    overtakenQueue.panic.panicked = true ↔ Action.locked = .locked ∧ overtakenQueue.Unexpected :=
  panics_iff (reached_queueAfter _) step_overtakenQueue

/-- No `Wait` that is pending is forgotten: it is in the list of a queue that is `Waiting` or is being drained, with its
last waker, or it has been woken. -/
theorem heard_reached (h : Reached s) (hwait : s.waits i = some wait) :
    wait.Heard s i ∧ (i ∈ s.queue → s.state.state = .waiting ∨ 0 < s.draining + s.closing) := by
  obtain ⟨hi, hh⟩ := reached_held h
  have hgood := hi.good i wait hwait
  refine ⟨fun hpending => ?_, fun hmem => hh.queued (List.ne_nil_of_mem hmem)⟩
  have hstate := hgood.pending.mp hpending
  obtain hwaker | ⟨htold, hwoken⟩ := hgood.wakers hstate
  · exact .inl ⟨hgood.linked.mpr (linked_elim hstate hwaker), hwaker⟩
  · exact .inr ⟨mt hgood.linked.mp (not_linked_of_told htold), htold, hwoken⟩

/-- A queue whose only `Wait` has been woken -/
def wokenQueue : Sys := queueAfter (enqueueActions 0 ++ [.wake, .lockWake, .locked])

theorem heard_wokenQueue : Wait.Heard wokenQueue 0 ⟨⟨.waiting, 0, .one⟩, .idle, some .pending, some 7⟩ ∧
    (0 ∈ wokenQueue.queue → wokenQueue.state.state = .waiting ∨ 0 < wokenQueue.draining + wokenQueue.closing) :=
  heard_reached (reached_queueAfter _) rfl

/-! ## A closed queue -/

/-- A `Wait` that has a wakeup for itself is being polled. -/
def Claimed (wait : Wait) : Prop :=
  wait.waiter.state = .waiting → wait.waiter.waker = .one → wait.polling ≠ .idle

/-- A queue that is closed and stays so -/
structure Shut (s : Sys) : Prop where
  closed : s.state.state = .closed
  waking : s.waking = 0
  claimed : ∀ i wait, s.waits i = some wait → Claimed wait
  holder : ∀ holder, s.holder = some holder →
    (∃ i waker curr, holder = .release i waker curr ∧ waker ≠ .one ∧ curr.state = .closed) ∨
      ∃ curr, holder = .wakeAll curr ∧ curr.state = .closed

theorem claimed_of_state (h : wait.waiter.state ≠ .waiting) : Claimed wait := fun hstate => absurd hstate h

theorem claimed_of_waker (h : wait.waiter.waker ≠ .one) : Claimed wait := fun _ hone => absurd hone h

theorem Shut.set (h : Shut s) (hclaimed : Claimed wait) : Shut (s.set i (some wait)) := by
  refine ⟨h.closed, h.waking, fun j wait' hwait => ?_, h.holder⟩
  obtain ⟨-, rfl⟩ | ⟨-, hwait⟩ := set_some_cases hwait
  · exact hclaimed
  · exact h.claimed j wait' hwait

theorem claimed_told {popped : List Nat} {waits : Nat → Option Wait} {wakeup : Wakeup}
    (h : ∀ i wait, s.waits i = some wait → Claimed wait) (hne : wakeup ≠ .one)
    (hwaits : ∀ i, waits i = if i ∈ popped then (s.waits i).map (tell wakeup) else s.waits i) (j : Nat) (wait : Wait)
    (hwait : waits j = some wait) : Claimed wait := by
  rw [hwaits] at hwait
  split at hwait
  · obtain ⟨wait', -, rfl⟩ := Option.map_eq_some_iff.mp hwait
    exact claimed_of_waker hne
  · exact h j wait hwait

theorem Shut.no_pop (h : Shut s) {dropped : Option Nat} : s.holder ≠ some (.wakeLocked dropped curr) := by
  intro hholder
  obtain ⟨i, waker, curr', heq, -⟩ | ⟨curr', heq, -⟩ := h.holder _ hholder <;> cases heq

theorem shut_does (h : Shut s) (hdoes : Does s a t) : Shut t := by
  cases hdoes with
  | wait =>
    have hset := @Shut.set s s.created ⟨s.state.waiter, .idle, none, none⟩ h
      (claimed_of_state (show WaitState.start ≠ .waiting by decide))
    exact ⟨hset.closed, hset.waking, hset.claimed, hset.holder⟩
  | load hwait hidle hstate => exact h.set (claimed_of_state (by show _ ≠ _; rw [hstate]; decide))
  | lock hwait hidle hstate => exact h.set fun _ _ hpolling => (by cases hpolling)
  | again => exact h.set (claimed_of_state (show WaitState.woken ≠ .waiting by decide))
  | consume hwait hpolling hstate => cases h.closed.symm.trans (congrArg QueueState.state hstate)
  | miss hwait hpolling => exact h.set fun _ _ hpolling => (by cases hpolling)
  | late => exact h.set (claimed_of_state (show WaitState.woken ≠ .waiting by decide))
  | enqueue hwait hpolling hfree hstart hsame hstate =>
    obtain hstate | hstate := hstate <;> cases h.closed.symm.trans hstate
  | take hwait hpolling hfree hstart hsame hstate => cases h.closed.symm.trans hstate
  | refuse => exact h.set (claimed_of_state (show WaitState.start ≠ .waiting by decide))
  | @stay i waker wait =>
    refine h.set (claimed_of_waker (show (waker.or wait.waker).elim Wakeup.empty .waiting ≠ .one from ?_))
    cases waker.or wait.waker <;> exact fun heq => (by cases heq)
  | told => exact h.set (claimed_of_state (show WaitState.woken ≠ .waiting by decide))
  | drop =>
    refine ⟨h.closed, h.waking, fun j wait' hwait => ?_, h.holder⟩
    exact h.claimed j wait' (set_none_cases hwait).2
  | remove hwait hidle hstate hfree =>
    refine ⟨h.closed, h.waking, fun j wait' hwait => h.claimed j wait' (set_none_cases hwait).2,
      fun holder heq => .inl ?_⟩
    obtain rfl := Option.some.inj heq
    exact ⟨_, _, _, rfl, fun hone => h.claimed _ _ hwait hstate hone hidle, h.closed⟩
  | wakeClosed => exact h
  | wakeWaiting hstate => cases h.closed.symm.trans hstate
  | wakeStored hstate => obtain hstate | hstate := hstate <;> cases h.closed.symm.trans hstate
  | lockWake hwaking => exact absurd h.waking (Nat.ne_of_gt hwaking)
  | lockWakeAll =>
    refine ⟨h.closed, h.waking, h.claimed, fun holder heq => .inr ?_⟩
    obtain rfl := Option.some.inj heq
    exact ⟨_, rfl, h.closed⟩
  | exchange hholder => exact absurd hholder h.no_pop
  | fail hholder => exact absurd hholder h.no_pop
  | pop hholder => exact absurd hholder h.no_pop
  | store hholder => obtain ⟨_, _, _, heq, -⟩ | ⟨_, heq, -⟩ := h.holder _ hholder <;> cases heq
  | @release dropped waker curr hholder =>
    obtain ⟨_, _, _, heq, hone, hcurr⟩ | ⟨_, heq, -⟩ := h.holder _ hholder
    · obtain ⟨rfl, rfl, rfl⟩ := Holder.release.inj heq
      have hnot : ¬ (s.queue = [] ∧ curr.state = .waiting) := fun hlast => (by cases hcurr.symm.trans hlast.2)
      rw [Sys.released, if_neg hnot, if_neg hone]
      exact ⟨h.closed, h.waking, h.claimed, fun _ heq => (by cases heq)⟩
    · cases heq
  | wakeAllClosed => exact ⟨h.closed, h.waking, h.claimed, fun _ heq => (by cases heq)⟩
  | wakeAllNone => exact ⟨h.closed, h.waking, h.claimed, fun _ heq => (by cases heq)⟩
  | wakeAll hholder hstate => cases h.closed.symm.trans hstate
  | drainAll hdraining hfree hqueue hsound hwaits =>
    exact ⟨h.closed, h.waking, claimed_told h.claimed (by decide) hwaits, h.holder⟩
  | drainClosed hclosing hfree hqueue hsound hwaits =>
    exact ⟨h.closed, h.waking, claimed_told h.claimed (by decide) hwaits, h.holder⟩
  | close => exact ⟨rfl, h.waking, h.claimed, h.holder⟩
  | tryWait hstate => cases h.closed.symm.trans hstate
  | tryWaitNot => exact h
  | panicAssert => exact ⟨h.closed, h.waking, h.claimed, h.holder⟩
  | panicPop => exact ⟨h.closed, h.waking, h.claimed, h.holder⟩
  | panicWakeAll => exact ⟨h.closed, h.waking, h.claimed, h.holder⟩

/-- `wake_locked` opens a queue that it finds closed. -/
theorem opens_wakeLocked (hclosed : s.state.state = .closed) (hp : s.panicked = false) {dropped : Option Nat}
    (hholder : s.holder = some (.wakeLocked dropped s.state)) :
    s.step .locked = some { s with state := s.state.withState .woken, holder := none } := by
  have hne : s.state.state ≠ .waiting := by
    rw [hclosed]
    decide
  simp only [Sys.step, hp, Bool.false_eq_true, if_false, hholder, Option.map_some, Sys.locked, Sys.wakeLocked, hne,
    ne_eq, not_false_eq_true, if_true]

/-- A `Wait` that is dropped with a wakeup opens the queue. -/
theorem opens_drop (hclosed : s.state.state = .closed) (hfree : s.holder = none) (hp : s.panicked = false)
    (hwait : s.waits i = some wait) (hstate : wait.waiter.state = .waiting) (hone : wait.waiter.waker = .one)
    (hidle : wait.polling = .idle) : ∃ t, Run Sys.step (fun _ _ => True) s t ∧ t.state.state = .woken := by
  have hdrop : s.step (.drop i) = some { s.set i none with
      queue := s.queue.erase i, holder := some (.release i .one s.state) } := by
    simp only [Sys.step, hp, Bool.false_eq_true, if_false, hwait, Option.bind_eq_bind, Option.bind_some, hidle,
      if_true, Sys.release, hstate, ne_eq, not_true, hfree, hone]
  have hne : s.state.state ≠ .waiting := by
    rw [hclosed]
    decide
  have hrelease : Sys.step { s.set i none with
      queue := s.queue.erase i, holder := some (.release i .one s.state) } .locked =
      some { s.set i none with queue := s.queue.erase i, holder := some (.wakeLocked (some i) s.state) } := by
    simp only [Sys.step, Sys.set, hp, Bool.false_eq_true, if_false, Option.map_some, Sys.locked, Sys.released, hne,
      and_false, if_true]
  have hopen := @opens_wakeLocked
    { s.set i none with queue := s.queue.erase i, holder := some (.wakeLocked (some i) s.state) } hclosed hp _ rfl
  exact ⟨_, ((Run.refl.snoc trivial hdrop).snoc trivial hrelease).snoc trivial hopen, rfl⟩

/-- So does a `wake` that waits for the lock. -/
theorem opens_lockWake (hclosed : s.state.state = .closed) (hfree : s.holder = none) (hp : s.panicked = false)
    (hwaking : 0 < s.waking) : ∃ t, Run Sys.step (fun _ _ => True) s t ∧ t.state.state = .woken := by
  have hlock : s.step .lockWake =
      some { s with waking := s.waking - 1, holder := some (.wakeLocked none s.state) } := by
    simp only [Sys.step, hp, Bool.false_eq_true, if_false, hwaking, hfree, and_self, if_true]
  have hopen := @opens_wakeLocked
    { s with waking := s.waking - 1, holder := some (.wakeLocked none s.state) } hclosed hp _ rfl
  exact ⟨_, (Run.refl.snoc trivial hlock).snoc trivial hopen, rfl⟩

/-- A queue that is closed stays so in all runs exactly if no `wake` is at the lock and no `Wait` that may be dropped
has a wakeup; otherwise it is opened again. -/
theorem stays_closed_iff (h : Reached s) (hclosed : s.state.state = .closed) (hfree : s.holder = none)
    (hp : s.panicked = false) :
    (∀ t, Run Sys.step (fun _ _ => True) s t → t.state.state = .closed) ↔ s.Settled := by
  constructor
  · intro hrun
    have hnot : ¬ ∃ t, Run Sys.step (fun _ _ => True) s t ∧ t.state.state = .woken := by
      rintro ⟨t, ht, hwoken⟩
      cases (hrun t ht).symm.trans hwoken
    refine ⟨Nat.eq_zero_of_not_pos fun hwaking => ?_, fun i wait hwait hstate hone hidle => ?_⟩
    · exact hnot (opens_lockWake hclosed hfree hp hwaking)
    · exact hnot (opens_drop hclosed hfree hp hwait hstate hone hidle)
  · intro hsettled t hrun
    have hshut : Shut s := ⟨hclosed, hsettled.1, hsettled.2, fun holder hholder => (by cases hfree.symm.trans hholder)⟩
    have hrest := Run.invariant (I := fun s => Intact s ∧ Shut s)
      (fun h _ hstep => ⟨intact_step h.1 hstep, shut_does h.2 (step_does h.1 hstep)⟩) hrun ⟨(reached_held h).1, hshut⟩
    exact hrest.2.closed

/-- A queue that is closed while a `Wait` has not been polled since it was woken -/
def closedQueue : Sys := queueAfter (enqueueActions 0 ++ [.wake, .lockWake, .locked, .close])

theorem stays_closed_closedQueue :
    (∀ t, Run Sys.step (fun _ _ => True) closedQueue t → t.state.state = .closed) ↔ closedQueue.Settled :=
  stays_closed_iff (reached_queueAfter _) rfl rfl rfl

/-! ## Nothing is enqueued while a queue is being drained -/

def Holds (q : QueueState) (queue : List Nat) : Holder → Prop
  | .wakeLocked _ curr => Snapshot q curr ∧ (curr.state = .waiting → queue ≠ [])
  | .store _ actual => actual.wakeAlls = q.wakeAlls ∧ q.state ≠ .waiting
  | .release _ waker curr => Snapshot q curr ∧ (waker = .one → curr.state = .waiting → queue ≠ [])
  | .wakeAll curr => Snapshot q curr

structure Kept (s : Sys) : Prop extends Held s where
  waiting : s.state.state = .waiting → s.draining + s.closing = 0 ∧
    (s.queue = [] → ∃ i waker curr, s.holder = some (.release i waker curr))
  holder : ∀ holder, s.holder = some holder → Holds s.state s.queue holder

theorem Holds.free {holder : Holder} (h : Holds q queue holder) (hq : q.state = .empty ∨ q.state = .woken)
    (hq' : q'.state = .empty ∨ q'.state = .woken) (hwakeAlls : q'.wakeAlls = q.wakeAlls) : Holds q' queue holder := by
  cases holder with
  | wakeLocked => exact ⟨h.1.free hq hq' hwakeAlls, h.2⟩
  | store =>
    exact ⟨h.1.trans hwakeAlls.symm, not_waiting hq'⟩
  | release => exact ⟨h.1.free hq hq' hwakeAlls, h.2⟩
  | wakeAll => exact Snapshot.free h hq hq' hwakeAlls

theorem Holds.close {holder : Holder} (h : Holds q queue holder) : Holds (q.withState .closed) queue holder := by
  cases holder with
  | wakeLocked => exact ⟨h.1.close, h.2⟩
  | store => exact ⟨h.1, fun hwaiting => (by cases hwaiting)⟩
  | release => exact ⟨h.1.close, h.2⟩
  | wakeAll => exact Snapshot.close h

theorem Kept.free (h : Kept s) (hstate : s.state.state = .empty ∨ s.state.state = .woken)
    (hq : q.state = .empty ∨ q.state = .woken) (hwakeAlls : q.wakeAlls = s.state.wakeAlls) :
    Kept { s with state := q } := by
  refine ⟨h.toHeld.free hstate hq hwakeAlls, fun hwaiting => absurd hwaiting (not_waiting hq),
    fun holder hholder => (h.holder holder hholder).free hstate hq hwakeAlls⟩

theorem Kept.queue_ne (h : Kept s) (hfree : ∀ i waker curr, s.holder ≠ some (.release i waker curr))
    (hstate : s.state.state = .waiting) : s.queue ≠ [] := by
  intro hqueue
  obtain ⟨i, waker, curr, hholder⟩ := (h.waiting hstate).2 hqueue
  exact hfree i waker curr hholder

theorem not_release_of_free (hfree : s.holder = none) (i : Nat) (waker : Wakeup) (curr : QueueState) :
    s.holder ≠ some (.release i waker curr) := by
  rw [hfree]
  exact fun h => (by cases h)

/-- The lock is taken and the state is loaded. -/
theorem Kept.lock (h : Kept s) (hfree : s.holder = none) {waking : Nat} (holder : Holder)
    (hheld : Held { s with waking := waking, holder := some holder }) (hholds : Holds s.state s.queue holder) :
    Kept { s with waking := waking, holder := some holder } := by
  refine ⟨hheld, fun hstate => ⟨(h.waiting hstate).1, fun hqueue => ?_⟩, fun holder' heq => ?_⟩
  · exact absurd hqueue (h.queue_ne (not_release_of_free hfree) hstate)
  · obtain rfl := Option.some.inj heq
    exact hholds

/-- The lock is released. -/
theorem Kept.unlock (h : Kept s) (hne : s.state.state = .waiting → s.queue ≠ []) : Kept { s with holder := none } :=
  ⟨h.toHeld.unlock, fun hstate => ⟨(h.waiting hstate).1, fun hqueue => absurd hqueue (hne hstate)⟩,
    fun _ heq => (by cases heq)⟩

theorem kept_release (h : Kept s) {dropped : Nat} {waker : Wakeup}
    (hholder : s.holder = some (.release dropped waker curr)) : Kept (s.released dropped waker curr) := by
  obtain ⟨hsnapshot, hone⟩ := h.holder _ hholder
  have hheld := held_release h.toHeld hholder
  rw [Sys.released] at hheld ⊢
  by_cases hlast : s.queue = [] ∧ curr.state = .waiting
  · rw [if_pos hlast, if_neg fun hwaker => hone hwaker hlast.2 hlast.1] at hheld ⊢
    exact ⟨hheld, fun hstate => (by cases hstate), fun _ heq => (by cases heq)⟩
  · rw [if_neg hlast] at hheld ⊢
    have hne : s.state.state = .waiting → s.queue ≠ [] := fun hstate hqueue => hlast ⟨hqueue, hsnapshot.loaded hstate⟩
    by_cases hwaker : waker = .one
    · rw [if_pos hwaker] at hheld ⊢
      refine ⟨hheld, fun hstate => ⟨(h.waiting hstate).1, fun hqueue => absurd hqueue (hne hstate)⟩,
        fun holder heq => ?_⟩
      obtain rfl := Option.some.inj heq
      exact ⟨hsnapshot, hone hwaker⟩
    · rw [if_neg hwaker]
      exact h.unlock hne

/-- What each step keeps -/
theorem kept_does (h : Kept s) (hi : Intact s) (hok : s.queue.length < t.queue.length → s.draining + s.closing = 0)
    (hdoes : Does s a t) : Kept t := by
  have hheld := held_does h.toHeld hdoes
  cases hdoes with
  | consume hwait hpolling hstate =>
    have hwoken : s.state.state = .woken := congrArg QueueState.state hstate
    have hfree := @Kept.free s (QueueState.withState _ .empty) h (.inr hwoken) (.inl rfl)
      (congrArg QueueState.wakeAlls hstate).symm
    exact ⟨hheld, hfree.waiting, hfree.holder⟩
  | enqueue hwait hpolling hfree hstart hsame hstate =>
    have hzero := hok (by show s.queue.length < (s.queue ++ [_]).length; simp)
    refine ⟨hheld, fun _ => ⟨hzero, fun hqueue => absurd hqueue (by simp)⟩, fun holder hholder => ?_⟩
    exact absurd (hfree.symm.trans hholder) (fun heq => (by cases heq))
  | take hwait hpolling hlock hstart hsame hstate =>
    have hfree := @Kept.free s (s.state.withState .empty) h (.inr hstate) (.inl rfl) rfl
    exact ⟨hheld, hfree.waiting, hfree.holder⟩
  | @remove i wait hwait hidle hstate hfree =>
    refine ⟨hheld, fun hstate => ⟨(h.waiting hstate).1, fun _ => ⟨_, _, _, rfl⟩⟩, fun holder heq => ?_⟩
    obtain rfl := Option.some.inj heq
    refine ⟨snapshot_self, fun hone hwaiting => ?_⟩
    have hnot : i ∉ s.queue := mt (hi.good i wait hwait).linked.mp (not_linked_of_told (.inl hone))
    rw [List.erase_of_not_mem hnot]
    exact h.queue_ne (not_release_of_free hfree) hwaiting
  | wakeStored hstate => exact h.free hstate (.inr rfl) rfl
  | lockWake hwaking hfree =>
    exact h.lock hfree (.wakeLocked none s.state) hheld ⟨snapshot_self, h.queue_ne (not_release_of_free hfree)⟩
  | lockWakeAll hfree => exact h.lock hfree (.wakeAll s.state) hheld snapshot_self
  | exchange => exact ⟨hheld, fun hwaiting => (by cases hwaiting), fun _ heq => (by cases heq)⟩
  | fail hholder hcurr hstate =>
    refine ⟨hheld, fun hwaiting => absurd hwaiting hstate, fun holder heq => ?_⟩
    obtain rfl := Option.some.inj heq
    exact ⟨rfl, hstate⟩
  | @pop dropped curr i queue wait hholder hcurr hqueue hwait =>
    refine ⟨hheld, fun hwaiting => ?_, fun _ heq => (by cases heq)⟩
    replace hwaiting : (if queue = [] then curr.withState .empty else s.state).state = .waiting := hwaiting
    split at hwaiting
    · cases hwaiting
    · exact ⟨(h.waiting hwaiting).1, fun hnil => absurd hnil ‹_›⟩
  | store => exact ⟨hheld, fun hwaiting => (by cases hwaiting), fun _ heq => (by cases heq)⟩
  | release hholder => exact kept_release h hholder
  | wakeAllClosed hholder hcurr =>
    refine h.unlock fun hstate => ?_
    cases hcurr.symm.trans (Snapshot.loaded (h.holder _ hholder) hstate)
  | wakeAllNone hholder hcurr =>
    refine ⟨hheld, fun hstate => ?_, fun _ heq => (by cases heq)⟩
    have hwaiting := Snapshot.loaded (h.holder _ hholder) hstate
    obtain hcurr | hcurr := hcurr <;> cases hcurr.symm.trans hwaiting
  | wakeAll => exact ⟨hheld, fun hwaiting => (by cases hwaiting), fun _ heq => (by cases heq)⟩
  | drainAll hdraining hfree =>
    refine ⟨hheld, fun hwaiting => ?_, fun holder hholder => (by cases hfree.symm.trans hholder)⟩
    have hzero := (h.waiting hwaiting).1
    omega
  | drainClosed hclosing hfree =>
    refine ⟨hheld, fun hwaiting => ?_, fun holder hholder => (by cases hfree.symm.trans hholder)⟩
    have hzero := (h.waiting hwaiting).1
    omega
  | close =>
    exact ⟨hheld, fun hwaiting => (by cases hwaiting), fun holder hholder => (h.holder holder hholder).close⟩
  | tryWait hstate => exact h.free (.inr hstate) (.inl rfl) rfl
  | _ => exact ⟨hheld, h.waiting, h.holder⟩

theorem kept_new {state : State} (hstate : state = .empty ∨ state = .woken) : Kept (.new state) :=
  ⟨held_new, fun hwaiting => absurd hwaiting (@not_waiting ⟨state, 0⟩ hstate), fun _ heq => (by cases heq)⟩

end Metor.Proof.WaitQueue
