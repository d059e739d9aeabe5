import Metor.Proof.WaitQueue.Kept

/-!
# A wait queue stores and hands out wakeups

A queue that is not closed does what `Notify` does: each step of a thread is
the action that `Sys.act` says, or none (`notify_does`), so each run is the one
of notifications that its steps are (`reached_notify`). A call of `wake` or
`wake_all` is one action there, or yet to be (`wakes_does`, `wakesAll_does`),
which it can be by steps of its own (`wakes_on`). A wakeup is stored only where
nobody waits, which no run of notifications breaks (`permit_notify`).
-/

namespace Metor.Proof.WaitQueue

open Metor.Impl.WaitQueue Metor.Lib

variable {s t : Sys} {a : Action} {i j : Nat} {wait : Wait} {w : Waiter} {q q' curr : QueueState} {queue : List Nat}

/-! ## Notifications -/

/-- A wakeup is stored only where nobody waits. -/
theorem permit_notify {n : Notify} {permit : Bool} {bs : List Notify.Act} (h : NotifyTrace permit bs n) :
    n.permit = true → n.waiting = [] := by
  refine Run.invariant (I := fun n => n.permit = true → n.waiting = []) (fun {n m a} hn hallowed hstep => ?_) h.run
    (fun _ => rfl)
  obtain rfl := Option.some.inj hstep
  have hwake : ∀ {n : Notify}, (n.permit = true → n.waiting = []) → n.wake.permit = true → n.wake.waiting = [] := by
    intro n hn hpermit
    rw [Notify.wake] at hpermit ⊢
    cases hwaiting : n.waiting with
    | nil => rfl
    | cons i waiting =>
      simp only [hwaiting] at hpermit
      cases hwaiting.symm.trans (hn hpermit)
  cases a with
  | take => exact fun hpermit => (by cases hpermit)
  | enqueue => exact fun hpermit => absurd (hallowed.1.symm.trans hpermit) (by decide)
  | drop i =>
    have hrest : n.permit = true → n.waiting.erase i = [] := fun hpermit => by rw [hn hpermit]; rfl
    rw [Notify.step]
    dsimp only
    split
    · exact hwake hrest
    · exact hrest
  | wake => exact hwake hn
  | wakeAll => exact fun _ => rfl
  | tryWait => exact fun hpermit => (by cases hpermit)
  | _ => exact hn

/-! ## The action that a step is -/

/-- A step is the action that it is to the notifications, which is allowed, or leaves them as they are. -/
def Acts (s : Sys) (a : Action) (t : Sys) : Prop :=
  s.act a = none ∧ t.notify = s.notify ∨
    ∃ b, s.act a = some b ∧ s.notify.Allowed b ∧ t.notify = s.notify.step b

theorem act_tryConsume (hwait : s.waits i = some wait) {waker : Option Nat}
    (hpolling : wait.polling = .loaded waker q) :
    s.act (.tryConsume i) = if s.state = q.withState .woken then some (.take i) else none := by
  simp only [Sys.act, hwait, hpolling, Option.bind_eq_bind, Option.bind_some]

theorem act_pollWait (hwait : s.waits i = some wait) : s.act (.pollWait i) = wait.waiter.act s.state i := by
  simp only [Sys.act, hwait, Option.bind_eq_bind, Option.bind_some]

theorem act_drop (hwait : s.waits i = some wait) : s.act (.drop i) =
    if wait.waiter.state = .woken ∨ wait.waiter.state = .waiting ∧ wait.waiter.waker = .one then none
    else some (.drop i) := by
  simp only [Sys.act, hwait, Option.bind_eq_bind, Option.bind_some]

theorem act_locked {holder : Holder} (hholder : s.holder = some holder) : s.act .locked = holder.act s.state := by
  simp only [Sys.act, hholder, Option.bind_eq_bind, Option.bind_some]

theorem act_start (hstart : w.state = .start) : w.act q i =
    if q.wakeAlls ≠ w.wakeAlls then some (.ready i) else if q.state = .woken then some (.take i)
    else some (.enqueue i) := by
  simp only [Waiter.act, hstart]

theorem act_linked (h : w.Linked) : w.act q i = none := by
  obtain ⟨hstate, hwaker | ⟨waker, hwaker⟩⟩ := h
  · simp only [Waiter.act, hstate, hwaker]
  · simp only [Waiter.act, hstate, hwaker]

/-! ## The status of a waiter -/

theorem status_linked (h : w.Linked) : w.status q = some (if q.state = .waiting then .waiting else .all) := by
  obtain ⟨hstate, hwaker | ⟨waker, hwaker⟩⟩ := h
  · simp only [Waiter.status, hstate, hwaker]
  · simp only [Waiter.status, hstate, hwaker]

theorem status_start (h : w.state = .start) : w.status q = some (if w.wakeAlls = q.wakeAlls then .new else .all) := by
  simp only [Waiter.status, h]

theorem status_one (hstate : w.state = .waiting) (hwaker : w.waker = .one) : w.status q = some .one := by
  simp only [Waiter.status, hstate, hwaker]

theorem status_all (hstate : w.state = .waiting) (hwaker : w.waker = .all) : w.status q = some .all := by
  simp only [Waiter.status, hstate, hwaker]

theorem status_woken (h : w.state = .woken) : w.status q = none := by
  simp only [Waiter.status, h]

theorem waiter_cases (w : Waiter) (hclosed : w.waker ≠ .closed) :
    w.state = .start ∨ w.state = .woken ∨ w.Linked ∨ w.state = .waiting ∧ (w.waker = .one ∨ w.waker = .all) := by
  cases hstate : w.state with
  | start => exact .inl rfl
  | woken => exact .inr (.inl rfl)
  | waiting =>
    cases hwaker : w.waker with
    | empty => exact .inr (.inr (.inl ⟨hstate, .inl hwaker⟩))
    | waiting waker => exact .inr (.inr (.inl ⟨hstate, .inr ⟨waker, hwaker⟩⟩))
    | one => exact .inr (.inr (.inr ⟨rfl, .inl rfl⟩))
    | all => exact .inr (.inr (.inr ⟨rfl, .inr rfl⟩))
    | closed => exact absurd hwaker hclosed

theorem status_congr (hwakeAlls : q'.wakeAlls = q.wakeAlls)
    (hlinked : w.Linked → (q'.state = .waiting ↔ q.state = .waiting)) : w.status q' = w.status q := by
  by_cases h : w.Linked
  · rw [status_linked h, status_linked h]
    simp only [hlinked h]
  · have hnot := fun hwaker hstate => h ⟨hstate, hwaker⟩
    cases hstate : w.state with
    | start => rw [status_start hstate, status_start hstate, hwakeAlls]
    | woken => rw [status_woken hstate, status_woken hstate]
    | waiting =>
      cases hwaker : w.waker with
      | empty => exact absurd hstate (hnot (.inl hwaker))
      | waiting waker => exact absurd hstate (hnot (.inr ⟨waker, hwaker⟩))
      | _ => simp only [Waiter.status, hstate, hwaker]

theorem status_some (h : s.waits i = some wait) : s.notify.status i = wait.waiter.status s.state := by
  simp only [Sys.notify, h]

theorem status_none (h : s.waits i = none) :
    s.notify.status i = if s.holder.bind Holder.dropped = some i then some .one else none := by
  simp only [Sys.notify, h]

theorem notify_eq {n : Notify} (hpermit : decide (s.state.state = .woken) = n.permit)
    (hwaiting : (if s.state.state = .waiting then s.queue else []) = n.waiting)
    (hstatus : ∀ i, s.notify.status i = n.status i) (hcreated : s.created = n.created) : s.notify = n := by
  obtain ⟨permit, waiting, status, created⟩ := n
  exact congr (congr (congr (congrArg Notify.mk hpermit) hwaiting) (funext hstatus)) hcreated

/-! ## A queue that is not closed -/

/-- A `Wait` of a queue that is not closed, which was created before so many calls of `wake_all`, and was ready just if
it is done with -/
structure Fresh (wakeAlls : Nat) (wait : Wait) : Prop where
  told : wait.waiter.waker ≠ .closed
  wakeAlls : wait.waiter.wakeAlls ≤ wakeAlls
  ready : wait.polled = some .ready ↔ wait.waiter.state = .woken

structure Opened (s : Sys) : Prop where
  state : s.state.state ≠ .closed
  loaded : ∀ curr, s.holder = some (.wakeAll curr) → curr.state ≠ .closed
  closing : s.closing = 0
  fresh : ∀ i wait, s.waits i = some wait → Fresh s.state.wakeAlls wait
  dropped : ∀ i, s.holder.bind Holder.dropped = some i → s.waits i = none ∧ i < s.created

theorem Opened.told (ho : Opened s) (i : Nat) (wait : Wait) (hwait : s.waits i = some wait) :
    wait.waiter.waker ≠ .closed := (ho.fresh i wait hwait).told

/-- What `wake_all` has loaded as `Waiting` is so. -/
theorem Opened.saw_waiting (ho : Opened s) (hk : Kept s) (hholder : s.holder = some (.wakeAll curr))
    (hcurr : curr.state = .waiting) : s.state = curr := by
  have hsnapshot : Snapshot s.state curr := hk.holder _ hholder
  have hstate : s.state.state = .waiting := (hsnapshot.waiting hcurr).resolve_right ho.state
  obtain ⟨state, wakeAlls⟩ := curr
  exact congrArg₂ QueueState.mk (hstate.trans hcurr.symm) hsnapshot.wakeAlls.symm

variable (hi : Intact s) (hk : Kept s) (ho : Opened s)

include ho in
theorem Opened.status_ne (hwait : s.waits i = some wait) (hstate : wait.waiter.state ≠ .woken) :
    s.notify.status i ≠ none := by
  rw [status_some hwait]
  obtain hstart | hwoken | hlinked | ⟨hwaiting, hone | hall⟩ := waiter_cases wait.waiter (ho.told i wait hwait)
  · rw [status_start hstart]
    exact fun h => (by cases h)
  · exact absurd hwoken hstate
  · rw [status_linked hlinked]
    exact fun h => (by cases h)
  · rw [status_one hwaiting hone]
    exact fun h => (by cases h)
  · rw [status_all hwaiting hall]
    exact fun h => (by cases h)

/-- The other waits are as they were. -/
theorem status_keep (hwaits : t.waits j = s.waits j)
    (hdropped : s.waits j = none → t.holder.bind Holder.dropped = s.holder.bind Holder.dropped)
    (hstatus : ∀ wait, s.waits j = some wait → wait.waiter.status t.state = wait.waiter.status s.state) :
    t.notify.status j = s.notify.status j := by
  cases hwait : s.waits j with
  | none => rw [status_none (hwaits.trans hwait), status_none hwait, hdropped hwait]
  | some wait => rw [status_some (hwaits.trans hwait), status_some hwait, hstatus wait hwait]

/-- One `Wait` changes. -/
theorem status_set {wait' : Option Wait} {status : Option Status} (hwaits : t.waits = Function.update s.waits i wait')
    (hself : t.notify.status i = status)
    (hdropped : ∀ j, j ≠ i → s.waits j = none →
      (t.holder.bind Holder.dropped = some j ↔ s.holder.bind Holder.dropped = some j))
    (hstatus : ∀ j wait, j ≠ i → s.waits j = some wait → wait.waiter.status t.state = wait.waiter.status s.state)
    (j : Nat) :
    t.notify.status j = (s.notify.set i status).status j := by
  show _ = Function.update s.notify.status i status j
  by_cases hj : j = i
  · subst hj
    rw [Function.update_self]
    exact hself
  · have hother : t.waits j = s.waits j := by rw [hwaits, Function.update_of_ne hj]
    rw [Function.update_of_ne hj]
    cases hwait : s.waits j with
    | none =>
      rw [status_none (hother.trans hwait), status_none hwait]
      simp only [hdropped j hj hwait]
    | some wait => rw [status_some (hother.trans hwait), status_some hwait, hstatus j wait hj hwait]

theorem status_set_some {wait' : Wait} {t : Sys} (hwaits : t.waits = Function.update s.waits i (some wait')) :
    t.notify.status i = wait'.waiter.status t.state := status_some (by rw [hwaits, Function.update_self])

/-- A poll that changes nothing of the status of its `Wait` -/
theorem notify_poll (hwait : s.waits i = some wait) {wait' : Wait}
    (hstatus : wait'.waiter.status s.state = wait.waiter.status s.state) :
    (s.set i (some wait')).notify = s.notify := by
  refine notify_eq rfl rfl (fun j => ?_) rfl
  by_cases hj : j = i
  · subst hj
    rw [status_set_some rfl, status_some hwait]
    exact hstatus
  · exact status_keep (Function.update_of_ne hj _ _) (fun _ => rfl) fun _ _ => rfl

/-- A queue that stores a wakeup or nothing has nothing in its list but what is being drained. -/
theorem status_free (hstate : s.state.state = .empty ∨ s.state.state = .woken)
    (hq : q.state = .empty ∨ q.state = .woken) (hwakeAlls : q.wakeAlls = s.state.wakeAlls) (w : Waiter) :
    w.status q = w.status s.state := by
  refine status_congr hwakeAlls fun _ => iff_of_false (fun hwaiting => ?_) fun hwaiting => ?_
  · obtain hq | hq := hq <;> cases hwaiting.symm.trans hq
  · obtain hstate | hstate := hstate <;> cases hwaiting.symm.trans hstate

theorem waiting_free (hstate : q.state = .empty ∨ q.state = .woken) :
    (if q.state = .waiting then queue else []) = [] := by
  refine if_neg fun hwaiting => ?_
  obtain hstate | hstate := hstate <;> cases hwaiting.symm.trans hstate

/-- The stored wakeup is taken by a `Wait` in its first poll. -/
theorem take_notify (hwait : s.waits i = some wait) (hstart : wait.waiter.state = .start)
    (hstate : s.state.state = .woken) {wait' : Wait} (hwoken : wait'.waiter.state = .woken) {q : QueueState}
    (hq : q.state = .empty) (hwakeAlls : q.wakeAlls = s.state.wakeAlls) :
    s.notify.Allowed (.take i) ∧ Sys.notify { s.set i (some wait') with state := q } = s.notify.step (.take i) := by
  refine ⟨⟨decide_eq_true hstate, ?_⟩, notify_eq ?_ ?_ (status_set rfl ?_ (fun _ _ _ => Iff.rfl) ?_) rfl⟩
  · rw [status_some hwait, status_start hstart]
    split
    · exact .inl rfl
    · exact .inr rfl
  · show decide (q.state = .woken) = false
    rw [hq]
    rfl
  · exact (waiting_free (.inl hq)).trans (waiting_free (.inr hstate)).symm
  · exact (status_set_some rfl).trans (status_woken hwoken)
  · exact fun j wait' _ _ => status_free (.inr hstate) (.inl hq) hwakeAlls _

theorem ready_notify (hwait : s.waits i = some wait) {wait' : Wait} (hwoken : wait'.waiter.state = .woken)
    (hstatus : wait.waiter.status s.state = some .one ∨ wait.waiter.status s.state = some .all) :
    s.notify.Allowed (.ready i) ∧ (s.set i (some wait')).notify = s.notify.step (.ready i) := by
  refine ⟨?_, notify_eq rfl rfl (status_set rfl ?_ (fun _ _ _ => Iff.rfl) fun _ _ _ _ => rfl) rfl⟩
  · show s.notify.status i = some .one ∨ s.notify.status i = some .all
    rwa [status_some hwait]
  · exact (status_set_some rfl).trans (status_woken hwoken)

include hi hk in
theorem enqueue_notify (hwait : s.waits i = some wait) (hstart : wait.waiter.state = .start)
    (hsame : s.state.wakeAlls = wait.waiter.wakeAlls) (hstate : s.state.state = .empty ∨ s.state.state = .waiting)
    (hzero : s.draining + s.closing = 0) {wait' : Wait} (hlinked : wait'.waiter.Linked) :
    s.notify.Allowed (.enqueue i) ∧ Sys.notify { s.set i (some wait') with
      state := s.state.withState .waiting, queue := s.queue ++ [i] } = s.notify.step (.enqueue i) := by
  have hqueue : s.state.state = .empty → s.queue = [] := by
    intro hempty
    by_contra hne
    obtain hwaiting | hpos := hk.queued hne
    · cases hempty.symm.trans hwaiting
    · exact absurd hpos (by omega)
  have hnot : s.state.state ≠ .woken := fun hwoken => by
    obtain hstate | hstate := hstate <;> cases hwoken.symm.trans hstate
  refine ⟨⟨decide_eq_false hnot, ?_⟩, notify_eq ?_ ?_ (status_set rfl ?_ (fun _ _ _ => Iff.rfl) ?_) rfl⟩
  · rw [status_some hwait, status_start hstart, if_pos hsame.symm]
  · exact (decide_eq_false (show State.waiting ≠ .woken by decide)).trans (decide_eq_false hnot).symm
  · show s.queue ++ [i] = (if s.state.state = .waiting then s.queue else []) ++ [i]
    obtain hstate | hstate := hstate
    · rw [waiting_free (.inl hstate), hqueue hstate]
    · rw [if_pos hstate]
  · exact (status_set_some rfl).trans ((status_linked hlinked).trans (congrArg some (if_pos rfl)))
  · intro j wait'' _ hwait''
    refine status_congr rfl fun hlinked => iff_of_true rfl ?_
    obtain hstate | hstate := hstate
    · have hmem := (hi.good j wait'' hwait'').linked.mpr hlinked
      rw [hqueue hstate] at hmem
      exact absurd hmem List.not_mem_nil
    · exact hstate

include hi in
theorem erase_notify (hwait : s.waits i = some wait) (hnot : ¬ wait.waiter.Linked) :
    s.notify.waiting.erase i = s.notify.waiting := by
  show (if s.state.state = .waiting then s.queue else []).erase i = if s.state.state = .waiting then s.queue else []
  split
  · exact List.erase_of_not_mem (mt (hi.good i wait hwait).linked.mp hnot)
  · rfl

include hi ho in
theorem drop_notify (hwait : s.waits i = some wait) (hstate : wait.waiter.state ≠ .waiting) :
    Acts s (.drop i) (s.set i none) := by
  have hdropped : s.holder.bind Holder.dropped ≠ some i := by
    intro heq
    cases hwait.symm.trans (ho.dropped i heq).1
  have hself : (s.set i none).notify.status i = none := by
    rw [status_none (show Function.update s.waits i none i = none from Function.update_self _ _ _)]
    exact if_neg hdropped
  have hstatus := @status_set s (s.set i none) i none none rfl hself (fun _ _ _ => Iff.rfl) fun _ _ _ _ => rfl
  by_cases hwoken : wait.waiter.state = .woken
  · refine .inl ⟨(act_drop hwait).trans (if_pos (.inl hwoken)), notify_eq rfl rfl (fun j => (hstatus j).trans ?_) rfl⟩
    show Function.update s.notify.status i none j = s.notify.status j
    rw [Function.update_eq_self_iff.mpr]
    rw [status_some hwait, status_woken hwoken]
  · have hne : s.notify.status i ≠ some .one := by
      rw [status_some hwait]
      obtain hstart | hwoken' | hlinked | hwaiting := waiter_cases wait.waiter (ho.told i wait hwait)
      · rw [status_start hstart]
        split <;> exact fun h => (by cases h)
      · exact absurd hwoken' hwoken
      · exact absurd hlinked.1 hstate
      · exact absurd hwaiting.1 hstate
    refine .inr ⟨.drop i, (act_drop hwait).trans (if_neg ?_), ho.status_ne hwait hwoken, ?_⟩
    · exact fun hor => hor.elim hwoken fun hwaiting => hstate hwaiting.1
    rw [Notify.step]
    dsimp only
    rw [if_neg hne]
    exact notify_eq rfl (erase_notify hi hwait (not_linked_of_state hstate)).symm hstatus rfl

/-- A queue whose lock is taken to drop a `Wait` -/
def removed (s : Sys) (i : Nat) (wait : Wait) : Sys :=
  { s.set i none with queue := s.queue.erase i, holder := some (.release i wait.waiter.waker s.state) }

include hi ho in
theorem remove_notify (hwait : s.waits i = some wait) (hstate : wait.waiter.state = .waiting)
    (hfree : s.holder = none) :
    Acts s (.drop i) (removed s i wait) := by
  have hgone : Function.update s.waits i none i = none := Function.update_self _ _ _
  have hwaiting : (if s.state.state = .waiting then s.queue.erase i else []) = s.notify.waiting.erase i := by
    show _ = (if s.state.state = .waiting then s.queue else []).erase i
    split <;> rfl
  have hother : ∀ j, j ≠ i → s.waits j = none →
      ((if wait.waiter.waker = .one then some i else none) = some j ↔ s.holder.bind Holder.dropped = some j) := by
    intro j hj _
    rw [hfree]
    refine iff_of_false (fun heq => ?_) (fun heq => (by cases heq))
    split at heq
    · exact hj (Option.some.inj heq).symm
    · cases heq
  by_cases hone : wait.waiter.waker = .one
  · refine .inl ⟨(act_drop hwait).trans (if_pos (.inr ⟨hstate, hone⟩)), notify_eq rfl ?_ (fun j => ?_) rfl⟩
    · exact hwaiting.trans (erase_notify hi hwait (not_linked_of_told (.inl hone)))
    · refine (@status_set s (removed s i wait) i none (some .one) rfl ?_ hother (fun _ _ _ _ => rfl) j).trans ?_
      · rw [status_none hgone]
        exact if_pos (if_pos hone)
      · show Function.update s.notify.status i (some .one) j = s.notify.status j
        rw [Function.update_eq_self_iff.mpr]
        rw [status_some hwait, status_one hstate hone]
  · have hne : s.notify.status i ≠ some .one := by
      rw [status_some hwait]
      obtain hstart | hwoken | hlinked | ⟨-, hone' | hall⟩ := waiter_cases wait.waiter (ho.told i wait hwait)
      · cases hstate.symm.trans hstart
      · cases hstate.symm.trans hwoken
      · rw [status_linked hlinked]
        split <;> exact fun h => (by cases h)
      · exact absurd hone' hone
      · rw [status_all hstate hall]
        exact fun h => (by cases h)
    refine .inr ⟨.drop i, (act_drop hwait).trans (if_neg ?_), ho.status_ne hwait (by rw [hstate]; decide), ?_⟩
    · exact fun hor => hor.elim (fun hwoken => (by cases hstate.symm.trans hwoken)) fun hwaiting => hone hwaiting.2
    rw [Notify.step]
    dsimp only
    rw [if_neg hne]
    refine notify_eq rfl hwaiting (status_set rfl ?_ hother fun _ _ _ _ => rfl) rfl
    rw [status_none hgone]
    refine if_neg fun heq => ?_
    replace heq : (if wait.waiter.waker = .one then some i else none) = some i := heq
    rw [if_neg hone] at heq
    cases heq

include ho in
theorem handed_allowed {dropped : Option Nat} (hholder : s.holder.bind Holder.dropped = dropped) :
    s.notify.Allowed (handed dropped) := by
  cases dropped with
  | none => trivial
  | some i =>
    show s.notify.status i ≠ none
    rw [status_none (ho.dropped i hholder).1, if_pos hholder]
    exact fun h => (by cases h)

/-- What the notifications are when the wakeup of a `Wait` that is dropped is handed on -/
def handing (s : Sys) (dropped : Option Nat) : Notify :=
  match dropped with
  | none => s.notify
  | some i => s.notify.set i none

include hi ho in
theorem step_handed {dropped : Option Nat} (hholder : s.holder.bind Holder.dropped = dropped) :
    s.notify.step (handed dropped) = (handing s dropped).wake := by
  cases dropped with
  | none => rfl
  | some i =>
    have hgone := (ho.dropped i hholder).1
    have hone : s.notify.status i = some .one := by rw [status_none hgone, if_pos hholder]
    have hnot : i ∉ s.queue := fun hmem => by
      obtain ⟨wait, hwait⟩ := hi.alive i hmem
      cases hgone.symm.trans hwait
    have herase : s.notify.waiting.erase i = s.notify.waiting := by
      show (if s.state.state = .waiting then s.queue else []).erase i = if s.state.state = .waiting then s.queue else []
      split
      · exact List.erase_of_not_mem hnot
      · rfl
    show (if s.notify.status i = some .one then _ else _) = _
    rw [if_pos hone, herase]
    rfl

include ho in
theorem status_handing {dropped : Option Nat} (hholder : s.holder.bind Holder.dropped = dropped)
    (hwaits : t.waits = s.waits)
    (hfree : t.holder = none) (hstatus : ∀ j wait, s.waits j = some wait →
      wait.waiter.status t.state = wait.waiter.status s.state) (j : Nat) :
    t.notify.status j = (handing s dropped).status j := by
  cases hwait : s.waits j with
  | some wait =>
    rw [status_some ((congrFun hwaits j).trans hwait), hstatus j wait hwait, ← status_some hwait]
    cases dropped with
    | none => rfl
    | some i =>
      have hne : j ≠ i := fun heq => (by cases hwait.symm.trans (heq ▸ (ho.dropped i hholder).1))
      exact (Function.update_of_ne hne _ _).symm
  | none =>
    rw [status_none ((congrFun hwaits j).trans hwait), hfree]
    refine (if_neg (fun heq => (by cases heq))).trans ?_
    cases dropped with
    | none =>
      show _ = s.notify.status j
      rw [status_none hwait, hholder]
      exact (if_neg (fun heq => (by cases heq))).symm
    | some i =>
      show _ = Function.update s.notify.status i none j
      by_cases hj : j = i
      · rw [hj, Function.update_self]
      · rw [Function.update_of_ne hj, status_none hwait, hholder]
        exact (if_neg (fun heq => hj (Option.some.inj heq).symm)).symm

include hi ho in
/-- A wakeup is stored by the thread that holds the lock. -/
theorem stored_notify {dropped : Option Nat} (hholder : s.holder.bind Holder.dropped = dropped)
    (hstate : s.state.state ≠ .waiting) (hwakeAlls : q.wakeAlls = s.state.wakeAlls) (hq : q.state = .woken) :
    s.notify.Allowed (handed dropped) ∧
      Sys.notify { s with state := q, holder := none } = s.notify.step (handed dropped) := by
  have hfree : s.state.state = .empty ∨ s.state.state = .woken := by
    cases h : s.state.state with
    | empty => exact .inl rfl
    | woken => exact .inr rfl
    | waiting => exact absurd h hstate
    | closed => exact absurd h ho.state
  have hnone : (handing s dropped).waiting = [] := by
    cases dropped <;> exact waiting_free hfree
  refine ⟨handed_allowed ho hholder, ?_⟩
  rw [step_handed hi ho hholder, Notify.wake, hnone]
  refine notify_eq (decide_eq_true hq) (waiting_free (.inr hq)) ?_ (by cases dropped <;> rfl)
  exact status_handing ho hholder rfl rfl fun j wait _ => status_free hfree (.inr hq) hwakeAlls _

include hi hk ho in
/-- A wakeup is handed to the first node of the list. -/
theorem pop_notify {dropped : Option Nat} (hholder : s.holder = some (.wakeLocked dropped curr))
    (hcurr : curr.state = .waiting) (hqueue : s.queue = i :: queue) (hwait : s.waits i = some wait) {woken : List Nat} :
    s.notify.Allowed (handed dropped) ∧ Sys.notify { s.set i (some (tell .one wait)) with
      queue, woken
      state := if queue = [] then curr.withState .empty else s.state
      holder := none } = s.notify.step (handed dropped) := by
  have hsnapshot : Snapshot s.state curr := (hk.holder _ hholder).1
  have hstate : s.state.state = .waiting := (hsnapshot.waiting hcurr).resolve_right ho.state
  have hdropped : s.holder.bind Holder.dropped = dropped := by rw [hholder]; rfl
  have hi_mem : i ∈ s.queue := hqueue ▸ List.mem_cons_self
  have hwaiting : (handing s dropped).waiting = i :: queue := by
    have hqueue' : s.notify.waiting = i :: queue := (if_pos hstate).trans hqueue
    cases dropped <;> exact hqueue'
  have hstates : ∀ j wait, j ≠ i → s.waits j = some wait →
      wait.waiter.status (if queue = [] then curr.withState .empty else s.state) = wait.waiter.status s.state := by
    intro j wait' hj hwait'
    split
    · refine status_congr hsnapshot.wakeAlls fun hlinked => absurd ?_ hj
      have hmem := (hi.good j wait' hwait').linked.mpr hlinked
      rw [hqueue, ‹queue = []›] at hmem
      exact List.mem_singleton.mp hmem
    · rfl
  have hwaiter := (hi.good i wait hwait).linked.mp hi_mem
  have hold := @status_handing s { s with holder := none } ho dropped hdropped rfl rfl fun _ _ _ => rfl
  refine ⟨handed_allowed ho hdropped, ?_⟩
  rw [step_handed hi ho hdropped, Notify.wake, hwaiting]
  refine notify_eq ?_ ?_ (fun j => ?_) (by cases dropped <;> rfl)
  · refine Eq.trans (decide_eq_false ?_)
      ((decide_eq_false (show s.state.state ≠ .woken by rw [hstate]; decide)).symm.trans
      (by cases dropped <;> rfl))
    show (if queue = [] then curr.withState .empty else s.state).state ≠ .woken
    split
    · exact fun h => (by cases h)
    · rw [hstate]
      decide
  · show (if (if queue = [] then curr.withState .empty else s.state).state = .waiting then queue else []) = queue
    by_cases hnil : queue = []
    · rw [if_pos hnil, hnil]
      rfl
    · rw [if_neg hnil, if_pos hstate]
  · show _ = Function.update (handing s dropped).status i (some .one) j
    by_cases hj : j = i
    · subst hj
      rw [Function.update_self, status_set_some rfl]
      exact status_one hwaiter.1 rfl
    · rw [Function.update_of_ne hj, ← hold j]
      refine status_keep (Function.update_of_ne hj _ _) (fun _ => rfl) fun wait' hwait' => ?_
      exact hstates j wait' hj hwait'

theorem status_wakeAll (hclosed : w.waker ≠ .closed) (hle : w.wakeAlls ≤ q.wakeAlls)
    (hwakeAlls : q'.wakeAlls = q.wakeAlls + 1) (hq' : q'.state ≠ .waiting) :
    w.status q' = (w.status q).map Status.wakeAll := by
  obtain hstart | hwoken | hlinked | ⟨hwaiting, hone | hall⟩ := waiter_cases w hclosed
  · rw [status_start hstart, status_start hstart, if_neg (by omega)]
    split <;> rfl
  · rw [status_woken hwoken, status_woken hwoken]
    rfl
  · rw [status_linked hlinked, status_linked hlinked, if_neg hq']
    split <;> rfl
  · rw [status_one hwaiting hone, status_one hwaiting hone]
    rfl
  · rw [status_all hwaiting hall, status_all hwaiting hall]
    rfl

/-- A node of the list is told that all are woken. -/
theorem status_tell (hlinked : w.Linked) (hq : q.state ≠ .waiting) :
    Waiter.status q { w with waker := .all } = w.status q := by
  rw [status_linked hlinked, if_neg hq]
  exact status_all hlinked.1 rfl

include hi in
/-- What the statuses are when some nodes of the list are told that all are woken -/
theorem status_drained (t : Sys) (f : Option Status → Option Status) {popped : List Nat}
    (hqueue : s.queue = popped ++ queue)
    (hwaits : ∀ i, t.waits i = if i ∈ popped then (s.waits i).map (tell .all) else s.waits i)
    (hq : t.state.state ≠ .waiting)
    (hstatus : ∀ wait, s.waits j = some wait → wait.waiter.status t.state = f (wait.waiter.status s.state))
    (hnone : s.waits j = none → (if t.holder.bind Holder.dropped = some j then some Status.one else none) =
      f (if s.holder.bind Holder.dropped = some j then some .one else none)) :
    t.notify.status j = f (s.notify.status j) := by
  have hj := hwaits j
  cases hwait : s.waits j with
  | none =>
    rw [hwait] at hj
    rw [status_none (hj.trans (by split <;> rfl)), status_none hwait]
    exact hnone hwait
  | some wait =>
    rw [hwait] at hj
    rw [status_some hwait, ← hstatus wait hwait]
    by_cases hmem : j ∈ popped
    · rw [if_pos hmem] at hj
      rw [status_some hj]
      exact status_tell ((hi.good j wait hwait).linked.mp (hqueue ▸ List.mem_append_left _ hmem)) hq
    · rw [if_neg hmem] at hj
      exact status_some hj

/-- All are woken, though some of them are still in the list. -/
theorem wakeAll_notify (hpermit : decide (t.state.state = .woken) = decide (s.state.state = .woken))
    (hq : t.state.state ≠ .waiting)
    (hcreated : t.created = s.created) (hstatus : ∀ j, t.notify.status j = (s.notify.status j).map Status.wakeAll) :
    s.notify.Allowed .wakeAll ∧ t.notify = s.notify.step .wakeAll :=
  ⟨trivial, notify_eq hpermit (if_neg hq) hstatus hcreated⟩

include hi hk ho in
/-- Each step in a queue that is not closed is the action that it is to the notifications. -/
theorem notify_does (hok : s.queue.length < t.queue.length → s.draining + s.closing = 0) (hclose : a ≠ .close)
    (hdoes : Does s a t) : Acts s a t := by
  cases hdoes with
  | wait =>
    refine .inr ⟨.wait, rfl, trivial, notify_eq rfl rfl (status_set rfl ?_ (fun _ _ _ => Iff.rfl) fun _ _ _ _ => rfl)
      rfl⟩
    exact (status_set_some rfl).trans ((status_start rfl).trans (congrArg some (if_pos rfl)))
  | load hwait => exact .inl ⟨rfl, notify_poll hwait rfl⟩
  | lock hwait => exact .inl ⟨rfl, notify_poll hwait rfl⟩
  | again hwait hidle hstate =>
    exact .inl ⟨rfl, notify_poll hwait ((status_woken rfl).trans (status_woken hstate).symm)⟩
  | consume hwait hpolling hstate =>
    refine .inr ⟨.take _, (act_tryConsume hwait hpolling).trans (if_pos hstate), ?_⟩
    exact take_notify hwait ((hi.good _ _ hwait).loaded _ _ hpolling) (congrArg QueueState.state hstate) rfl rfl
      (congrArg QueueState.wakeAlls hstate).symm
  | miss hwait hpolling hstate =>
    exact .inl ⟨(act_tryConsume hwait hpolling).trans (if_neg hstate), notify_poll hwait rfl⟩
  | late hwait hpolling hfree hstart hlate =>
    refine .inr ⟨.ready _, ?_, ready_notify hwait rfl (.inr ?_)⟩
    · rw [act_pollWait hwait, act_start hstart, if_pos hlate]
    · rw [status_start hstart, if_neg (Ne.symm hlate)]
  | enqueue hwait hpolling hfree hstart hsame hstate =>
    refine .inr ⟨.enqueue _, ?_, enqueue_notify hi hk hwait hstart hsame hstate
      (hok (by show s.queue.length < (s.queue ++ [_]).length; simp)) (linked_elim rfl rfl)⟩
    have hnot : s.state.state ≠ .woken := by
      obtain hstate | hstate := hstate <;> rw [hstate] <;> decide
    rw [act_pollWait hwait, act_start hstart, if_neg (not_not_intro hsame), if_neg hnot]
  | take hwait hpolling hfree hstart hsame hstate =>
    refine .inr ⟨.take _, ?_, take_notify hwait hstart hstate rfl rfl rfl⟩
    rw [act_pollWait hwait, act_start hstart, if_neg (not_not_intro hsame), if_pos hstate]
  | refuse hwait hpolling hfree hstart hsame hstate => exact absurd hstate ho.state
  | stay hwait hpolling hfree hlinked =>
    exact .inl ⟨(act_pollWait hwait).trans (act_linked hlinked),
      notify_poll hwait ((status_linked (linked_elim rfl rfl)).trans (status_linked hlinked).symm)⟩
  | told hwait hpolling hfree hstate hpolled =>
    obtain ⟨hone | hall, -⟩ | ⟨hclosed, -⟩ := hpolled
    · refine .inr ⟨.ready _, ?_, ready_notify hwait rfl (.inl (status_one hstate hone))⟩
      simp only [act_pollWait hwait, Waiter.act, hstate, hone]
    · refine .inr ⟨.ready _, ?_, ready_notify hwait rfl (.inr (status_all hstate hall))⟩
      simp only [act_pollWait hwait, Waiter.act, hstate, hall]
    · exact absurd hclosed (ho.told _ _ hwait)
  | drop hwait hidle hstate => exact drop_notify hi ho hwait hstate
  | remove hwait hidle hstate hfree => exact remove_notify hi ho hwait hstate hfree
  | wakeClosed hstate => exact absurd hstate ho.state
  | wakeWaiting hstate => exact .inl ⟨if_pos hstate, rfl⟩
  | wakeStored hstate =>
    have hnone : s.notify.waiting = [] := waiting_free hstate
    refine .inr ⟨.wake, if_neg (not_waiting hstate), trivial, ?_⟩
    rw [Notify.step, Notify.wake, hnone]
    exact notify_eq rfl (waiting_free (.inr rfl))
      (fun j => status_keep rfl (fun _ => rfl) fun wait _ =>
        @status_free s (s.state.withState .woken) hstate (.inr rfl) rfl _) rfl
  | lockWake hwaking hfree =>
    exact .inl ⟨rfl, notify_eq rfl rfl (fun j => status_keep rfl (fun _ => by rw [hfree]; rfl) fun _ _ => rfl) rfl⟩
  | lockWakeAll hfree =>
    exact .inl ⟨rfl, notify_eq rfl rfl (fun j => status_keep rfl (fun _ => by rw [hfree]; rfl) fun _ _ => rfl) rfl⟩
  | exchange hholder hstate =>
    refine .inr ⟨handed _, ?_, stored_notify hi ho (by rw [hholder]) hstate rfl rfl⟩
    exact (act_locked hholder).trans (if_neg fun hboth => hboth.2 rfl)
  | fail hholder hcurr hstate hne =>
    refine .inl ⟨(act_locked hholder).trans (if_pos ⟨hcurr, hne⟩), ?_⟩
    exact notify_eq rfl rfl (fun j => status_keep rfl (fun _ => by rw [hholder]; rfl) fun _ _ => rfl) rfl
  | pop hholder hcurr hqueue hwait =>
    refine .inr ⟨handed _, ?_, pop_notify hi hk ho hholder hcurr hqueue hwait⟩
    exact (act_locked hholder).trans (if_neg fun hboth => hboth.1 hcurr)
  | store hholder =>
    obtain ⟨hwakeAlls, hstate⟩ := hk.holder _ hholder
    exact .inr ⟨handed _, act_locked hholder, stored_notify hi ho (by rw [hholder]; rfl) hstate hwakeAlls rfl⟩
  | @release dropped waker curr hholder =>
    have hsnapshot : Snapshot s.state curr := (hk.holder _ hholder).1
    have hkeep : (if waker = .one then some (Holder.wakeLocked (some dropped) curr) else none).bind Holder.dropped =
        s.holder.bind Holder.dropped := by
      rw [hholder]
      show _ = if waker = .one then some dropped else none
      split <;> rfl
    by_cases hlast : s.queue = [] ∧ curr.state = .waiting
    · have hstate : s.state.state = .waiting := (hsnapshot.waiting hlast.2).resolve_right ho.state
      rw [Sys.released, if_pos hlast]
      refine .inl ⟨act_locked hholder,
        notify_eq ?_ ?_ (fun j => status_keep rfl (fun _ => hkeep) fun wait hwait => ?_) rfl⟩
      · exact (decide_eq_false (show State.empty ≠ .woken by decide)).trans
          (decide_eq_false (show s.state.state ≠ .woken by rw [hstate]; decide)).symm
      · show [] = if s.state.state = .waiting then s.queue else []
        rw [if_pos hstate, hlast.1]
      · refine status_congr hsnapshot.wakeAlls fun hlinked => ?_
        have hmem := (hi.good j wait hwait).linked.mpr hlinked
        rw [hlast.1] at hmem
        exact absurd hmem List.not_mem_nil
    · rw [Sys.released, if_neg hlast]
      exact .inl ⟨act_locked hholder,
        notify_eq rfl rfl (fun j => status_keep rfl (fun _ => hkeep) fun _ _ => rfl) rfl⟩
  | wakeAllClosed hholder hcurr => exact absurd hcurr (ho.loaded _ hholder)
  | wakeAllNone hholder hcurr =>
    have hne : s.state.state ≠ .waiting := fun hstate => by
      have hwaiting := Snapshot.loaded (hk.holder _ hholder) hstate
      obtain hcurr | hcurr := hcurr <;> cases hcurr.symm.trans hwaiting
    refine .inr ⟨.wakeAll, act_locked hholder, wakeAll_notify rfl hne rfl fun j => ?_⟩
    cases hwait : s.waits j with
    | none =>
      rw [status_none hwait, hholder,
        status_none (show Sys.waits { s with state := _, holder := none } j = none from hwait)]
      rfl
    | some wait =>
      rw [status_some hwait,
        status_some (show Sys.waits { s with state := _, holder := none } j = some wait from hwait)]
      exact status_wakeAll (ho.told j wait hwait) (ho.fresh j wait hwait).wakeAlls rfl hne
  | @wakeAll popped queue woken waits hholder hstate hqueue hsound hwaits =>
    refine .inr ⟨.wakeAll, act_locked hholder,
      wakeAll_notify ?_ (show State.empty ≠ .waiting by decide) rfl fun j => ?_⟩
    · exact (decide_eq_false (show State.empty ≠ .woken by decide)).trans
        (decide_eq_false (show s.state.state ≠ .woken by rw [hstate]; decide)).symm
    · refine status_drained hi
        { s with queue, waits, woken, state := ⟨.empty, s.state.wakeAlls + 1⟩, holder := none }
        (Option.map Status.wakeAll)
        hqueue hwaits (show State.empty ≠ .waiting by decide) (fun wait hwait => ?_) fun _ => ?_
      · exact status_wakeAll (ho.told j wait hwait) (ho.fresh j wait hwait).wakeAlls rfl
          (show State.empty ≠ .waiting by decide)
      · rw [hholder]
        rfl
  | @drainAll popped queue woken waits hdraining hfree hqueue hsound hwaits =>
    have hne : s.state.state ≠ .waiting := fun hstate => by
      have hzero := (hk.waiting hstate).1
      omega
    refine .inl ⟨rfl, notify_eq rfl ((if_neg hne).trans (if_neg hne).symm) (fun j => ?_) rfl⟩
    exact status_drained hi
      { s with queue, waits, woken, draining := if queue = [] then s.draining - 1 else s.draining } id
      hqueue hwaits hne (fun _ _ => rfl) fun _ => rfl
  | drainClosed hclosing => exact absurd ho.closing (Nat.ne_of_gt hclosing)
  | close => exact absurd rfl hclose
  | tryWait hstate =>
    refine .inr ⟨.tryWait, if_pos hstate, decide_eq_true hstate, notify_eq rfl ?_ (fun j => ?_) rfl⟩
    · exact (waiting_free (.inl rfl)).trans (waiting_free (.inr hstate)).symm
    · exact status_keep rfl (fun _ => rfl) fun wait _ =>
        @status_free s (s.state.withState .empty) (.inr hstate) (.inl rfl) rfl _
  | tryWaitNot hstate => exact .inl ⟨if_neg hstate, rfl⟩
  | panicAssert hholder hcurr hstate =>
    exact absurd ((hk.holder _ hholder).1.loaded hstate) hcurr
  | panicPop hholder hcurr hqueue => exact absurd hqueue ((hk.holder _ hholder).2 hcurr)
  | panicWakeAll hholder hcurr hne => exact absurd (ho.saw_waiting hk hholder hcurr) hne

/-! ## Runs -/

theorem Fresh.mono {wakeAlls wakeAlls' : Nat} (h : Fresh wakeAlls wait) (hle : wakeAlls ≤ wakeAlls') :
    Fresh wakeAlls' wait :=
  ⟨h.told, Nat.le_trans h.wakeAlls hle, h.ready⟩

/-- A poll that does not return -/
theorem Fresh.polls {wakeAlls : Nat} (h : Fresh wakeAlls wait) (polling : Polling) :
    Fresh wakeAlls { wait with polling } := ⟨h.told, h.wakeAlls, h.ready⟩

theorem Fresh.moved {wakeAlls : Nat} (h : Fresh wakeAlls wait) (waker : Option Nat) :
    Fresh wakeAlls (moved wait waker .woken .ready) := ⟨h.told, h.wakeAlls, iff_of_true rfl rfl⟩

theorem Fresh.registered {wakeAlls : Nat} (h : Fresh wakeAlls wait) (waker : Option Nat) :
    Fresh wakeAlls (registered wait waker) := by
  refine ⟨fun heq => ?_, h.wakeAlls, iff_of_false (fun hpolled => (by cases hpolled)) fun hstate => (by cases hstate)⟩
  replace heq : (waker.or wait.waker).elim Wakeup.empty .waiting = .closed := heq
  cases hwaker : waker.or wait.waker <;> rw [hwaker] at heq <;> cases heq

theorem Fresh.tell {wakeAlls : Nat} (h : Fresh wakeAlls wait) {wakeup : Wakeup} (hwakeup : wakeup ≠ .closed) :
    Fresh wakeAlls (tell wakeup wait) := ⟨hwakeup, h.wakeAlls, h.ready⟩

theorem Opened.set (ho : Opened s) (hwait : s.waits i = some wait) {wait' : Wait}
    (hfresh : Fresh s.state.wakeAlls wait') (hq : q.state ≠ .closed) (hwakeAlls : q.wakeAlls = s.state.wakeAlls) :
    Opened { s.set i (some wait') with state := q } := by
  refine { ho with state := hq, fresh := fun j wait'' hwait'' => ?_, dropped := fun j hj => ?_ }
  · show Fresh q.wakeAlls wait''
    rw [hwakeAlls]
    obtain ⟨-, rfl⟩ | ⟨-, hwait''⟩ := set_some_cases hwait''
    · exact hfresh
    · exact ho.fresh j wait'' hwait''
  · obtain ⟨hnone, hlt⟩ := ho.dropped j hj
    have hne : j ≠ i := fun heq => (by cases hwait.symm.trans (heq ▸ hnone))
    exact ⟨(Function.update_of_ne hne _ _).trans hnone, hlt⟩

theorem Opened.poll (ho : Opened s) (hwait : s.waits i = some wait) {wait' : Wait}
    (hfresh : Fresh s.state.wakeAlls wait') : Opened (s.set i (some wait')) :=
  @Opened.set s i wait s.state ho hwait wait' hfresh ho.state rfl

/-- The lock is taken, passed on or released. -/
theorem Opened.pass (ho : Opened s) (q : QueueState) (holder : Option Holder) (hq : q.state ≠ .closed)
    (hwakeAlls : s.state.wakeAlls ≤ q.wakeAlls)
    (hloaded : ∀ curr, holder = some (.wakeAll curr) → curr.state ≠ .closed)
    (hdropped : holder.bind Holder.dropped = none ∨ holder.bind Holder.dropped = s.holder.bind Holder.dropped) :
    Opened { s with state := q, holder := holder } := by
  refine { ho with state := hq, loaded := hloaded, fresh := fun j wait hwait => ?_, dropped := fun j hj => ?_ }
  · exact (ho.fresh j wait hwait).mono hwakeAlls
  · obtain hnone | hsame := hdropped
    · cases hnone.symm.trans hj
    · exact ho.dropped j (hsame.symm.trans hj)

theorem Opened.drained (ho : Opened s) {popped : List Nat} {waits : Nat → Option Wait}
    (hwaits : ∀ i, waits i = if i ∈ popped then (s.waits i).map (tell .all) else s.waits i) (j : Nat) (wait : Wait)
    (hwait : waits j = some wait) : Fresh s.state.wakeAlls wait := by
  rw [hwaits] at hwait
  split at hwait
  · obtain ⟨wait', hwait', rfl⟩ := Option.map_eq_some_iff.mp hwait
    exact (ho.fresh j wait' hwait').tell fun h => (by cases h)
  · exact ho.fresh j wait hwait

theorem opened_does (hi : Intact s) (hk : Kept s) (ho : Opened s) (hclose : a ≠ .close) (hdoes : Does s a t) :
    Opened t := by
  cases hdoes with
  | wait =>
    refine { ho with fresh := fun j wait hwait => ?_, dropped := fun j hj => ?_ }
    · obtain ⟨-, rfl⟩ | ⟨-, hwait⟩ := set_some_cases hwait
      · exact ⟨fun h => (by cases h), Nat.le_refl _, iff_of_false (fun h => (by cases h)) fun h => (by cases h)⟩
      · exact ho.fresh j wait hwait
    · obtain ⟨hnone, hlt⟩ := ho.dropped j hj
      exact ⟨(Function.update_of_ne (Nat.ne_of_lt hlt) _ _).trans hnone, Nat.lt_succ_of_lt hlt⟩
  | load hwait => exact ho.poll hwait ((ho.fresh _ _ hwait).polls _)
  | lock hwait => exact ho.poll hwait ((ho.fresh _ _ hwait).polls _)
  | again hwait => exact ho.poll hwait ((ho.fresh _ _ hwait).moved _)
  | consume hwait hpolling hstate =>
    exact ho.set hwait ((ho.fresh _ _ hwait).moved _) (fun h => (by cases h))
      (congrArg QueueState.wakeAlls hstate).symm
  | miss hwait => exact ho.poll hwait ((ho.fresh _ _ hwait).polls _)
  | late hwait => exact ho.poll hwait ((ho.fresh _ _ hwait).moved _)
  | @enqueue i waker wait hwait =>
    have hset := @Opened.set s i wait (s.state.withState .waiting) ho hwait (registered wait waker)
      ((ho.fresh i wait hwait).registered waker) (fun h => (by cases h)) rfl
    exact ⟨hset.state, hset.loaded, hset.closing, hset.fresh, hset.dropped⟩
  | @take i waker wait hwait =>
    exact @Opened.set s i wait (s.state.withState .empty) ho hwait (moved wait waker .woken .ready)
      ((ho.fresh i wait hwait).moved waker) (fun h => (by cases h)) rfl
  | refuse hwait hpolling hfree hstart hsame hstate => exact absurd hstate ho.state
  | stay hwait => exact ho.poll hwait ((ho.fresh _ _ hwait).registered _)
  | told hwait hpolling hfree hstate hpolled =>
    obtain ⟨-, rfl⟩ | ⟨hclosed, -⟩ := hpolled
    · exact ho.poll hwait ((ho.fresh _ _ hwait).moved _)
    · exact absurd hclosed (ho.told _ _ hwait)
  | drop hwait =>
    refine { ho with fresh := fun j wait hwait => ho.fresh j wait (set_none_cases hwait).2, dropped := fun j hj => ?_ }
    obtain ⟨hnone, hlt⟩ := ho.dropped j hj
    have hne : j ≠ _ := fun heq => (by cases hwait.symm.trans (heq ▸ hnone))
    exact ⟨(Function.update_of_ne hne _ _).trans hnone, hlt⟩
  | @remove i wait hwait =>
    refine { ho with
      loaded := fun _ h => (by cases h)
      fresh := fun j wait hwait => ho.fresh j wait (set_none_cases hwait).2
      dropped := fun j hj => ?_ }
    replace hj : (if wait.waiter.waker = .one then some i else none) = some j := hj
    split at hj
    · obtain rfl := Option.some.inj hj
      exact ⟨Function.update_self _ _ _, (hi.good _ _ hwait).created⟩
    · cases hj
  | wakeStored =>
    exact ho.pass (s.state.withState .woken) s.holder (fun h => (by cases h)) (Nat.le_refl _) ho.loaded (.inr rfl)
  | lockWake hwaking hfree =>
    have hpass := ho.pass s.state (some (.wakeLocked none s.state)) ho.state (Nat.le_refl _) (fun _ h => (by cases h))
      (.inl rfl)
    exact ⟨hpass.state, hpass.loaded, hpass.closing, hpass.fresh, hpass.dropped⟩
  | lockWakeAll =>
    refine ho.pass s.state (some (.wakeAll s.state)) ho.state (Nat.le_refl _) (fun curr h => ?_) (.inl rfl)
    obtain rfl := Holder.wakeAll.inj (Option.some.inj h)
    exact ho.state
  | exchange =>
    exact ho.pass (s.state.withState .woken) none (fun h => (by cases h)) (Nat.le_refl _) (fun _ h => (by cases h))
      (.inl rfl)
  | @fail dropped curr hholder =>
    exact ho.pass s.state (some (.store dropped s.state)) ho.state (Nat.le_refl _) (fun _ h => (by cases h))
      (.inr (by rw [hholder]; rfl))
  | @pop dropped curr i queue wait hholder hcurr hqueue hwait =>
    have hsnapshot : Snapshot s.state curr := (hk.holder _ hholder).1
    have hset := @Opened.set s i wait (if queue = [] then curr.withState .empty else s.state) ho hwait (tell .one wait)
      ((ho.fresh i wait hwait).tell fun h => (by cases h))
      (by split; exacts [fun h => (by cases h), ho.state]) (by split; exacts [hsnapshot.wakeAlls, rfl])
    exact ⟨hset.state, fun _ h => (by cases h), hset.closing, hset.fresh, fun j hj => (by cases hj)⟩
  | @store dropped actual hholder =>
    exact ho.pass (actual.withState .woken) none (fun h => (by cases h)) (Nat.le_of_eq (hk.holder _ hholder).1.symm)
      (fun _ h => (by cases h)) (.inl rfl)
  | @release dropped waker curr hholder =>
    have hsnapshot : Snapshot s.state curr := (hk.holder _ hholder).1
    refine ho.pass (if s.queue = [] ∧ curr.state = .waiting then curr.withState .empty else s.state) _
      (by split; exacts [fun h => (by cases h), ho.state]) ?_ ?_ (.inr ?_)
    · split
      · exact Nat.le_of_eq hsnapshot.wakeAlls.symm
      · exact Nat.le_refl _
    · intro _ h
      split at h <;> cases h
    · rw [hholder]
      show _ = if waker = .one then some dropped else none
      split <;> rfl
  | wakeAllClosed =>
    exact ho.pass s.state none ho.state (Nat.le_refl _) (fun _ h => (by cases h)) (.inl rfl)
  | wakeAllNone =>
    exact ho.pass { s.state with wakeAlls := s.state.wakeAlls + 1 } none ho.state (Nat.le_succ _)
      (fun _ h => (by cases h)) (.inl rfl)
  | wakeAll hholder hstate hqueue hsound hwaits =>
    exact ⟨fun h => (by cases h), fun _ h => (by cases h), ho.closing,
      fun j wait hwait => (ho.drained hwaits j wait hwait).mono (Nat.le_succ _), fun j hj => (by cases hj)⟩
  | drainAll hdraining hfree hqueue hsound hwaits =>
    exact ⟨ho.state, ho.loaded, ho.closing, ho.drained hwaits, fun j hj => (by rw [hfree] at hj; cases hj)⟩
  | drainClosed hclosing => exact absurd ho.closing (Nat.ne_of_gt hclosing)
  | close => exact absurd rfl hclose
  | tryWait =>
    exact ho.pass (s.state.withState .empty) s.holder (fun h => (by cases h)) (Nat.le_refl _) ho.loaded (.inr rfl)
  | _ => exact ⟨ho.state, ho.loaded, ho.closing, ho.fresh, ho.dropped⟩

theorem opened_new {state : State} (hstate : state = .empty ∨ state = .woken) : Opened (.new state) := by
  refine ⟨fun h => ?_, fun _ h => (by cases h), rfl, fun _ _ hwait => (by cases hwait), fun _ hj => (by cases hj)⟩
  replace h : state = .closed := h
  obtain hstate | hstate := hstate <;> cases h.symm.trans hstate

theorem notify_new {state : State} (hstate : state = .empty ∨ state = .woken) :
    (Sys.new state).notify = .new (state = .woken) := by
  refine notify_eq rfl ?_ (fun _ => rfl) rfl
  exact if_neg (fun h => by
    replace h : state = .waiting := h
    obtain hstate | hstate := hstate <;> cases h.symm.trans hstate)

/-- What a `Wait` is to the notifications is done with just if its last poll was ready. -/
theorem Opened.ready_iff (ho : Opened s) (hwait : s.waits i = some wait) :
    wait.polled = some .ready ↔ s.notify.status i = none := by
  rw [(ho.fresh i wait hwait).ready]
  refine ⟨fun hwoken => ?_, fun hnone => ?_⟩
  · rw [status_some hwait, status_woken hwoken]
  · by_contra hstate
    exact ho.status_ne hwait hstate hnone

/-! ## What is owed -/

theorem act_wakes {b : Notify.Act} (hact : s.act a = some b) (hb : b = .wake ∨ b = .wakeAll) :
    a = .wake ∨ a = .locked := by
  cases a with
  | wake => exact .inl rfl
  | locked => exact .inr rfl
  | tryConsume i =>
    simp only [Sys.act, Option.bind_eq_bind, Option.bind_eq_some_iff] at hact
    obtain ⟨wait, -, hact⟩ := hact
    split at hact
    · split at hact <;> cases hact
      obtain hb | hb := hb <;> cases hb
    · cases hact
  | pollWait i =>
    simp only [Sys.act, Option.bind_eq_bind, Option.bind_eq_some_iff, Waiter.act] at hact
    obtain ⟨wait, -, hact⟩ := hact
    split at hact
    · split at hact
      · cases hact
        obtain hb | hb := hb <;> cases hb
      · split at hact <;> cases hact <;> obtain hb | hb := hb <;> cases hb
    all_goals cases hact
    all_goals obtain hb | hb := hb <;> cases hb
  | drop i =>
    simp only [Sys.act, Option.bind_eq_bind, Option.bind_eq_some_iff] at hact
    obtain ⟨wait, -, hact⟩ := hact
    split at hact <;> cases hact
    obtain hb | hb := hb <;> cases hb
  | wait => cases hact; obtain hb | hb := hb <;> cases hb
  | tryWait =>
    simp only [Sys.act] at hact
    split at hact <;> cases hact
    obtain hb | hb := hb <;> cases hb
  | _ => cases hact

/-- A step that is none of a `wake` or a `wake_all` -/
theorem count_other {b : Notify.Act} (hb : b = .wake ∨ b = .wakeAll) (hwake : a ≠ .wake) (hlocked : a ≠ .locked) :
    (s.act a).toList.count b = 0 := by
  refine List.count_eq_zero.mpr fun hmem => ?_
  obtain h | h := act_wakes (Option.mem_toList.mp hmem) hb
  · exact hwake h
  · exact hlocked h

theorem count_one (a : Action) (b : Action) : [a].count b = if a = b then 1 else 0 := by
  rw [List.count_singleton]
  simp only [beq_iff_eq]

theorem count_handed (dropped : Option Nat) (q : QueueState) :
    [handed dropped].count .wake = Holder.wakes (.wakeLocked dropped q) := by
  cases dropped <;> rfl

include hk ho in
/-- Each call of `wake` is a wakeup that is stored or given, or puts it off. -/
theorem wakes_does (hclose : a ≠ .close) (hdoes : Does s a t) :
    (s.act a).toList.count .wake + t.wakes = [a].count .wake + s.wakes := by
  have hlocked : ∀ {holder : Holder} {acts : Option Notify.Act}, s.holder = some holder → t.waking = s.waking →
      holder.act s.state = acts → acts.toList.count .wake + t.holder.elim 0 Holder.wakes = holder.wakes →
      (s.act .locked).toList.count .wake + t.wakes = [Action.locked].count .wake + s.wakes := by
    intro holder acts hholder hwaking hact heq
    rw [act_locked hholder, hact, count_one, if_neg (by decide), Sys.wakes, Sys.wakes, hholder, Option.elim_some,
      hwaking]
    omega
  have hother : a ≠ .wake → a ≠ .locked → t.wakes = s.wakes →
      (s.act a).toList.count .wake + t.wakes = [a].count .wake + s.wakes := by
    intro hwake hlocked heq
    rw [count_other (.inl rfl) hwake hlocked, heq, count_one, if_neg hwake]
  cases hdoes with
  | remove hwait hidle hstate hfree =>
    exact hother (fun h => (by cases h)) (fun h => (by cases h)) (by rw [Sys.wakes, Sys.wakes, hfree]; rfl)
  | wakeClosed hstate => exact absurd hstate ho.state
  | wakeWaiting hstate =>
    rw [show s.act .wake = none from if_pos hstate]
    show 0 + (s.waking + 1 + s.holder.elim 0 Holder.wakes) = 1 + (s.waking + s.holder.elim 0 Holder.wakes)
    omega
  | wakeStored hstate =>
    rw [show s.act .wake = some .wake from if_neg (not_waiting hstate)]
    rfl
  | lockWake hwaking hfree =>
    refine hother (fun h => (by cases h)) (fun h => (by cases h)) ?_
    rw [Sys.wakes, Sys.wakes, hfree]
    exact Nat.sub_add_cancel hwaking
  | lockWakeAll hfree =>
    exact hother (fun h => (by cases h)) (fun h => (by cases h)) (by rw [Sys.wakes, Sys.wakes, hfree]; rfl)
  | exchange hholder => exact hlocked hholder rfl (if_neg fun hboth => hboth.2 rfl) (count_handed _ _)
  | @fail dropped curr hholder hcurr hstate hne =>
    exact hlocked hholder rfl (if_pos ⟨hcurr, hne⟩) (by cases dropped <;> rfl)
  | pop hholder hcurr => exact hlocked hholder rfl (if_neg fun hboth => hboth.1 hcurr) (count_handed _ _)
  | @store dropped actual hholder => exact hlocked hholder rfl rfl (by cases dropped <;> rfl)
  | @release dropped waker curr hholder => exact hlocked hholder rfl rfl (by rw [Sys.released]; split <;> split <;> rfl)
  | wakeAllClosed hholder hcurr => exact absurd hcurr (ho.loaded _ hholder)
  | wakeAllNone hholder => exact hlocked hholder rfl rfl rfl
  | wakeAll hholder => exact hlocked hholder rfl rfl rfl
  | close => exact absurd rfl hclose
  | panicAssert hholder hcurr hstate => exact absurd ((hk.holder _ hholder).1.loaded hstate) hcurr
  | panicPop hholder hcurr hqueue => exact absurd hqueue ((hk.holder _ hholder).2 hcurr)
  | panicWakeAll hholder hcurr hne => exact absurd (ho.saw_waiting hk hholder hcurr) hne
  | _ => exact hother (fun h => (by cases h)) (fun h => (by cases h)) rfl

include hk ho in
/-- A call of `wake_all` takes the lock, and wakes all with it. -/
theorem wakesAll_does (hdoes : Does s a t) :
    (s.act a).toList.count .wakeAll + t.wakesAll = [a].count .lockWakeAll + s.wakesAll := by
  have hlocked : ∀ {holder : Holder} {acts : Option Notify.Act}, s.holder = some holder →
      holder.act s.state = acts → acts.toList.count .wakeAll + t.wakesAll = holder.wakesAll →
      (s.act .locked).toList.count .wakeAll + t.wakesAll = [Action.locked].count .lockWakeAll + s.wakesAll := by
    intro holder acts hholder hact heq
    rw [act_locked hholder, hact, heq, count_one, if_neg (by decide), Sys.wakesAll, hholder, Option.elim_some,
      Nat.zero_add]
  have hother : a ≠ .wake → a ≠ .locked → a ≠ .lockWakeAll → t.wakesAll = s.wakesAll →
      (s.act a).toList.count .wakeAll + t.wakesAll = [a].count .lockWakeAll + s.wakesAll := by
    intro hwake hlocked hlockWakeAll heq
    rw [count_other (.inr rfl) hwake hlocked, heq, count_one, if_neg hlockWakeAll]
  have hhanded : ∀ dropped : Option Nat, [handed dropped].count .wakeAll = 0 := by
    intro dropped
    cases dropped <;> rfl
  cases hdoes with
  | remove hwait hidle hstate hfree =>
    exact hother (fun h => (by cases h)) (fun h => (by cases h)) (fun h => (by cases h))
      (by rw [Sys.wakesAll, Sys.wakesAll, hfree]; rfl)
  | wakeClosed hstate => exact absurd hstate ho.state
  | wakeWaiting hstate =>
    rw [show s.act .wake = none from if_pos hstate]
    rfl
  | wakeStored hstate =>
    rw [show s.act .wake = some .wake from if_neg (not_waiting hstate)]
    rfl
  | lockWake hwaking hfree =>
    exact hother (fun h => (by cases h)) (fun h => (by cases h)) (fun h => (by cases h))
      (by rw [Sys.wakesAll, Sys.wakesAll, hfree]; rfl)
  | lockWakeAll hfree =>
    rw [count_other (.inr rfl) (show Action.lockWakeAll ≠ .wake by decide) (by decide), Sys.wakesAll, Sys.wakesAll,
      hfree]
    rfl
  | exchange hholder => exact hlocked hholder (if_neg fun hboth => hboth.2 rfl) (hhanded _)
  | fail hholder hcurr hstate hne => exact hlocked hholder (if_pos ⟨hcurr, hne⟩) rfl
  | pop hholder hcurr => exact hlocked hholder (if_neg fun hboth => hboth.1 hcurr) (hhanded _)
  | store hholder => exact hlocked hholder rfl (hhanded _)
  | release hholder => exact hlocked hholder rfl (by rw [Sys.released]; split <;> split <;> rfl)
  | wakeAllClosed hholder hcurr => exact absurd hcurr (ho.loaded _ hholder)
  | wakeAllNone hholder => exact hlocked hholder rfl rfl
  | wakeAll hholder => exact hlocked hholder rfl rfl
  | panicAssert hholder hcurr hstate => exact absurd ((hk.holder _ hholder).1.loaded hstate) hcurr
  | panicPop hholder hcurr hqueue => exact absurd hqueue ((hk.holder _ hholder).2 hcurr)
  | panicWakeAll hholder hcurr hne => exact absurd (ho.saw_waiting hk hholder hcurr) hne
  | _ => exact hother (fun h => (by cases h)) (fun h => (by cases h)) (fun h => (by cases h)) rfl

/-! ## Runs -/

/-- A `Wait` that has been created is gone when it has been dropped. -/
theorem gone_does (hi : Intact s) (hdoes : Does s a t) (i : Nat) :
    i < t.created ∧ t.waits i = none ↔ (i < s.created ∧ s.waits i = none) ∨ a = .drop i := by
  have hkeep : t.created = s.created → (t.waits i = none ↔ s.waits i = none) → a ≠ .drop i →
      (i < t.created ∧ t.waits i = none ↔ (i < s.created ∧ s.waits i = none) ∨ a = .drop i) := by
    intro hcreated hwaits ha
    rw [hcreated, hwaits, or_iff_left ha]
  have hset : ∀ {j : Nat} {wait wait' : Wait}, s.waits j = some wait →
      (Function.update s.waits j (some wait') i = none ↔ s.waits i = none) := by
    intro j wait wait' hwait
    by_cases hj : i = j
    · subst hj
      rw [Function.update_self, hwait]
      exact iff_of_false (Option.some_ne_none _) (Option.some_ne_none _)
    · rw [Function.update_of_ne hj]
  have hdrop : ∀ {j : Nat} {wait : Wait}, s.waits j = some wait → t.created = s.created →
      t.waits = Function.update s.waits j none →
      (i < t.created ∧ t.waits i = none ↔ (i < s.created ∧ s.waits i = none) ∨ Action.drop j = .drop i) := by
    intro j wait hwait hcreated hwaits
    rw [hcreated, hwaits]
    by_cases hj : i = j
    · subst hj
      rw [Function.update_self]
      exact iff_of_true ⟨(hi.good i wait hwait).created, rfl⟩ (.inr rfl)
    · rw [Function.update_of_ne hj, or_iff_left fun h => hj (Action.drop.inj h).symm]
  have hdrain : ∀ {popped : List Nat} {wakeup : Wakeup} {waits : Nat → Option Wait},
      (∀ i, waits i = if i ∈ popped then (s.waits i).map (tell wakeup) else s.waits i) →
      (waits i = none ↔ s.waits i = none) := by
    intro popped wakeup waits hwaits
    rw [hwaits]
    split
    · exact Option.map_eq_none_iff
    · exact Iff.rfl
  cases hdoes with
  | wait =>
    rw [or_iff_left (fun h => (by cases h))]
    show i < s.created + 1 ∧ Function.update s.waits s.created _ i = none ↔ _
    by_cases hj : i = s.created
    · rw [hj, Function.update_self]
      exact iff_of_false (fun h => Option.some_ne_none _ h.2) fun h => Nat.lt_irrefl _ h.1
    · rw [Function.update_of_ne hj]
      exact and_congr_left fun _ => ⟨fun h => by omega, Nat.lt_succ_of_lt⟩
  | drop hwait => exact hdrop hwait rfl rfl
  | remove hwait => exact hdrop hwait rfl rfl
  | load hwait | lock hwait | again hwait | consume hwait | miss hwait | late hwait | enqueue hwait | take hwait
  | refuse hwait | stay hwait | told hwait => exact hkeep rfl (hset hwait) (fun h => (by cases h))
  | pop hholder hcurr hqueue hwait => exact hkeep rfl (hset hwait) (fun h => (by cases h))
  | wakeAll hholder hstate hqueue hsound hwaits | drainAll hdraining hfree hqueue hsound hwaits
  | drainClosed hclosing hfree hqueue hsound hwaits => exact hkeep rfl (hdrain hwaits) (fun h => (by cases h))
  | _ => exact hkeep rfl Iff.rfl (fun h => (by cases h))

theorem gone_trace {ok : Sys → Action → Prop} {as : List Action} (h : Trace Sys.step ok s as t) (hi : Intact s)
    (i : Nat) :
    i < t.created ∧ t.waits i = none ↔ (i < s.created ∧ s.waits i = none) ∨ Action.drop i ∈ as := by
  induction h with
  | nil => rw [or_iff_left List.not_mem_nil]
  | cons _ hstep _ ih =>
    have hdoes := step_does hi hstep
    rw [ih (intact_does hi hdoes), gone_does hi hdoes, List.mem_cons, or_assoc, @eq_comm Action]

/-- What holds in a run of a queue that is not closed -/
structure Open (s : Sys) : Prop where
  intact : Intact s
  kept : Kept s
  opened : Opened s
  calm : s.panicked = false

theorem open_does (h : Open s) (hok : s.Ok a) (hclose : a ≠ .close) (hstep : s.step a = some t) : Open t := by
  have hdoes := step_does h.intact hstep
  refine ⟨intact_does h.intact hdoes, kept_does h.kept h.intact (hok t hstep) hdoes,
    opened_does h.intact h.kept h.opened hclose hdoes, Bool.eq_false_iff.mpr fun hpanics => ?_⟩
  obtain ⟨-, ⟨curr, -, -, hclosed⟩ | ⟨dropped, curr, hholder, hcurr, hqueue⟩⟩ :=
    (panics_does h.kept.toHeld (Bool.eq_false_iff.mp h.calm) hdoes).mp hpanics
  · exact h.opened.state hclosed
  · exact (h.kept.holder _ hholder).2 hcurr hqueue

theorem open_new {state : State} (hstate : state = .empty ∨ state = .woken) : Open (.new state) :=
  ⟨intact_new, kept_new hstate, opened_new hstate, rfl⟩

/-- How many more accesses the thread that holds the lock makes, at most -/
def accesses : Holder → Nat
  | .release .. => 3
  | .wakeLocked .. => 2
  | .store .. => 1
  | .wakeAll _ => 1

/-- The thread that holds the lock comes nearer to its release. -/
theorem accesses_does (h : Open s) (hdoes : Does s .locked t) :
    t.holder.elim 0 accesses < s.holder.elim 0 accesses ∧ t.waking = s.waking ∧ t.queue.length ≤ s.queue.length := by
  have hlt : ∀ {holder : Holder}, s.holder = some holder → t.holder.elim 0 accesses < accesses holder →
      t.holder.elim 0 accesses < s.holder.elim 0 accesses := by
    intro holder hholder hlt
    rw [hholder]
    exact hlt
  cases hdoes with
  | exchange hholder => exact ⟨hlt hholder Nat.zero_lt_two, rfl, Nat.le_refl _⟩
  | fail hholder => exact ⟨hlt hholder Nat.one_lt_two, rfl, Nat.le_refl _⟩
  | pop hholder hcurr hqueue => exact ⟨hlt hholder Nat.zero_lt_two, rfl, by rw [hqueue]; exact Nat.le_succ _⟩
  | store hholder => exact ⟨hlt hholder Nat.zero_lt_one, rfl, Nat.le_refl _⟩
  | release hholder =>
    refine ⟨hlt hholder ?_, rfl, Nat.le_refl _⟩
    rw [Sys.released]
    dsimp only
    split
    · exact Nat.lt_succ_self 2
    · exact Nat.zero_lt_succ 2
  | wakeAllClosed hholder => exact ⟨hlt hholder Nat.zero_lt_one, rfl, Nat.le_refl _⟩
  | wakeAllNone hholder => exact ⟨hlt hholder Nat.zero_lt_one, rfl, Nat.le_refl _⟩
  | wakeAll hholder hstate hqueue =>
    refine ⟨hlt hholder Nat.zero_lt_one, rfl, ?_⟩
    rw [hqueue, List.length_append]
    exact Nat.le_add_left _ _
  | panicAssert hholder hcurr hstate => exact absurd ((h.kept.holder _ hholder).1.loaded hstate) hcurr
  | panicPop hholder hcurr hqueue => exact absurd hqueue ((h.kept.holder _ hholder).2 hcurr)
  | panicWakeAll hholder hcurr hne => exact absurd (h.opened.saw_waiting h.kept hholder hcurr) hne

/-- The lock can be released. -/
theorem releases (h : Open s) : ∃ bs t, (∀ b ∈ bs, b = .locked) ∧
    Trace Sys.step (fun s a => (s.Ok a ∧ a ≠ .close) ∧ a ≠ .wake) s bs t ∧ Open t ∧ t.holder = none ∧
      t.waking = s.waking := by
  obtain ⟨n, hn⟩ : ∃ n, s.holder.elim 0 accesses = n := ⟨_, rfl⟩
  induction n using Nat.strongRecOn generalizing s with
  | ind n ih =>
    cases hholder : s.holder with
    | none => exact ⟨[], s, List.forall_mem_nil _, .nil, h, hholder, rfl⟩
    | some holder =>
      have hstep : s.step .locked = some (s.locked holder) := by
        rw [Sys.step.eq_def, h.calm, hholder]
        rfl
      obtain ⟨hlt, hwaking, hlength⟩ := accesses_does h (step_does h.intact hstep)
      have hok : s.Ok .locked := fun t ht hgrows => by
        obtain rfl := Option.some.inj (hstep.symm.trans ht)
        omega
      have hopen := open_does h hok (by decide) hstep
      obtain ⟨bs, t, hbs, htrace, ht, hfree, hsame⟩ := ih _ (hn ▸ hlt) hopen rfl
      exact ⟨.locked :: bs, t, List.forall_mem_cons.mpr ⟨rfl, hbs⟩,
        .cons ⟨⟨hok, by decide⟩, by decide⟩ hstep htrace, ht, hfree, hsame.trans hwaking⟩

/-- The calls of `wake` and `wake_all` that are yet to be can be done. -/
theorem wakes_on (h : Open s) : ∃ bs t, (∀ b ∈ bs, b = .lockWake ∨ b = .locked) ∧
    Trace Sys.step (fun s a => (s.Ok a ∧ a ≠ .close) ∧ a ≠ .wake) s bs t ∧ t.wakes = 0 ∧ t.wakesAll = 0 := by
  obtain ⟨n, hn⟩ : ∃ n, s.waking = n := ⟨_, rfl⟩
  induction n generalizing s with
  | zero =>
    obtain ⟨bs, t, hbs, htrace, -, hfree, hsame⟩ := releases h
    refine ⟨bs, t, fun b hb => .inr (hbs b hb), htrace, ?_, ?_⟩
    · rw [Sys.wakes, hsame, hn, hfree]
      rfl
    · rw [Sys.wakesAll, hfree]
      rfl
  | succ n ih =>
    obtain ⟨bs, t, hbs, htrace, ht, hfree, hsame⟩ := releases h
    have hwaking : 0 < t.waking := by omega
    have hstep : t.step .lockWake =
        some { t with waking := t.waking - 1, holder := some (.wakeLocked none t.state) } := by
      have hboth : 0 < t.waking ∧ t.holder = none := ⟨hwaking, hfree⟩
      simp only [Sys.step, ht.calm, Bool.false_eq_true, if_false, if_pos hboth]
    have hok : t.Ok .lockWake := fun u hu hgrows => by
      obtain rfl := Option.some.inj (hstep.symm.trans hu)
      exact absurd hgrows (Nat.lt_irrefl _)
    obtain ⟨bs', u, hbs', htrace', hwakes⟩ := ih (open_does ht hok (by decide) hstep)
      (show t.waking - 1 = n by omega)
    refine ⟨bs ++ .lockWake :: bs', u, fun b hb => ?_,
      htrace.trans (.cons ⟨⟨hok, by decide⟩, by decide⟩ hstep htrace'), hwakes⟩
    obtain hb | hb := List.mem_append.mp hb
    · exact .inr (hbs b hb)
    · obtain rfl | hb := List.mem_cons.mp hb
      · exact .inl rfl
      · exact hbs' b hb

/-- A run of a queue that is not closed does not panic and is the one of notifications that its steps are. Each call of
`wake` and `wake_all` is one there, or yet to be, which it can be by steps of its own; a `Wait` is done with when it is
ready, or dropped; and a wakeup is stored only where nobody waits. -/
theorem reached_notify {stored : State} {as : List Action} (hstored : stored = .empty ∨ stored = .woken)
    (h : OpenTrace stored as s) :
    s.panicked = false ∧
      NotifyTrace (stored = .woken) (acts stored as) s.notify ∧
      (acts stored as).count .wake + s.wakes = as.count .wake ∧
      (acts stored as).count .wakeAll + s.wakesAll = as.count .lockWakeAll ∧
      (∃ bs t, (∀ b ∈ bs, b = .lockWake ∨ b = .locked) ∧ OpenTrace stored (as ++ bs) t ∧ t.wakes = 0 ∧ t.wakesAll = 0) ∧
      (∀ i wait, s.waits i = some wait → (wait.polled = some .ready ↔ s.notify.status i = none)) ∧
      (∀ i, i < s.created ∧ s.waits i = none ↔ .drop i ∈ as) ∧
      (s.notify.permit = true → s.notify.waiting = []) := by
  have hstep : ∀ {s t : Sys} {a : Action}, Open s → s.Ok a ∧ a ≠ .close → s.step a = some t → Open t :=
    fun hs hok hstep => open_does hs hok.1 hok.2 hstep
  have hnew := open_new hstored
  have hsim : ∀ {s t : Sys} {a : Action}, Open s → s.Ok a ∧ a ≠ .close → s.step a = some t →
      s.act a = none ∧ t.notify = s.notify ∨
        ∃ b, s.act a = some b ∧ s.notify.Allowed b ∧ some (s.notify.step b) = some t.notify := by
    intro s t a hs hok ht
    obtain hkeep | ⟨b, hact, hallowed, heq⟩ :=
      notify_does hs.intact hs.kept hs.opened (hok.1 t ht) hok.2 (step_does hs.intact ht)
    · exact .inl hkeep
    · exact .inr ⟨b, hact, hallowed, congrArg some heq.symm⟩
  obtain ⟨hs, htrace⟩ := @Trace.simulate _ _ _ _ _ _ Sys.act _ _ _ (fun n b => some (Notify.step n b)) Notify.Allowed
    Open Sys.notify hstep hsim h hnew
  rw [notify_new hstored] at htrace
  refine ⟨hs.calm, htrace, ?_, ?_, ?_, fun i wait hwait => hs.opened.ready_iff hwait, fun i => ?_, permit_notify htrace⟩
  · exact h.count_labels Action.wake Notify.Act.wake Sys.wakes hstep
      (fun hs hok ht => wakes_does hs.kept hs.opened hok.2 (step_does hs.intact ht)) hnew
  · exact h.count_labels Action.lockWakeAll Notify.Act.wakeAll Sys.wakesAll hstep
      (fun hs hok ht => wakesAll_does hs.kept hs.opened (step_does hs.intact ht)) hnew
  · obtain ⟨bs, t, hbs, htrace', hwakes⟩ := wakes_on hs
    exact ⟨bs, t, hbs, Trace.trans h (htrace'.mono fun _ _ hok => hok.1), hwakes⟩
  · rw [gone_trace h hnew.intact, or_iff_right fun h => Nat.not_lt_zero _ h.1]

/-- Two `Wait`s are in the list; one call of `wake` wakes the first, which is dropped before it is polled, and so the
other is woken, and is ready. -/
def openActions : List Action :=
  enqueueActions 0 ++ enqueueActions 1 ++
    [.wake, .lockWake, .locked, .drop 0, .locked, .locked, .poll 1 none, .pollWait 1]

def openSteps : Option Sys :=
  exec Sys.step (fun s a => s.draining + s.closing = 0 ∧ a ≠ .close) (.new .empty) openActions

def openQueue : Sys := openSteps.getD (.new .empty)

theorem openTrace_openQueue : OpenTrace .empty openActions openQueue :=
  (Trace.of_exec openActions (show openSteps = some openQueue from rfl)).mono fun _ _ hok =>
    ⟨fun _ _ _ => hok.1, hok.2⟩

theorem acts_openActions : acts .empty openActions =
    [.wait, .enqueue 0, .wait, .enqueue 1, .wake, .drop 0, .ready 1] := by decide

theorem reached_notify_openQueue : openQueue.panicked = false ∧
    NotifyTrace false [.wait, .enqueue 0, .wait, .enqueue 1, .wake, .drop 0, .ready 1] openQueue.notify ∧
    openQueue.wakes = 0 := by
  obtain ⟨hcalm, htrace, hwakes, hrest⟩ := reached_notify (.inl rfl) openTrace_openQueue
  rw [acts_openActions] at htrace hwakes
  exact ⟨hcalm, htrace, Nat.add_left_cancel hwakes⟩

end Metor.Proof.WaitQueue
