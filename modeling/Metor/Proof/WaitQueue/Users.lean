import Metor.Proof.WaitQueue.Notify

/-!
# Those that only wake all

A queue that is only woken as a whole is, to its users, a count and waiters that
compare it with their own (`users_does`, `reached_users`).
-/

namespace Metor.Proof.WaitQueue

open Metor Metor.Impl.WaitQueue Metor.Lib

variable {s t : Sys} {a : Action} {i j : Nat} {wait : Wait} {w : Waiter} {q q' curr : QueueState} {queue : List Nat}

/-! ## What is seen of a waiter -/

theorem seen_linked (h : w.Linked) : w.seen q = if q.state = .waiting then .waiting else .woken := by
  obtain ⟨hstate, hwaker | ⟨waker, hwaker⟩⟩ := h
  · simp only [Waiter.seen, hstate, hwaker]
  · simp only [Waiter.seen, hstate, hwaker]

theorem seen_start (h : w.state = .start) : w.seen q = .start w.wakeAlls := by
  simp only [Waiter.seen, h]

theorem seen_woken (h : w.state = .woken) : w.seen q = .woken := by
  simp only [Waiter.seen, h]

theorem seen_told (hstate : w.state = .waiting) (htold : w.waker = .one ∨ w.waker = .all) : w.seen q = .woken := by
  obtain hwaker | hwaker := htold
  · simp only [Waiter.seen, hstate, hwaker]
  · simp only [Waiter.seen, hstate, hwaker]

theorem seen_congr (hclosed : w.waker ≠ .closed) (hlinked : w.Linked → (q'.state = .waiting ↔ q.state = .waiting)) :
    w.seen q' = w.seen q := by
  obtain hstart | hwoken | h | ⟨hwaiting, htold⟩ := waiter_cases w hclosed
  · rw [seen_start hstart, seen_start hstart]
  · rw [seen_woken hwoken, seen_woken hwoken]
  · rw [seen_linked h, seen_linked h]
    simp only [hlinked h]
  · rw [seen_told hwaiting htold, seen_told hwaiting htold]

/-- A waiter that is woken with all -/
theorem seen_wakeAll (hclosed : w.waker ≠ .closed) (hq' : q'.state ≠ .waiting) :
    w.seen q' = (w.seen q).wakeAll := by
  obtain hstart | hwoken | h | ⟨hwaiting, htold⟩ := waiter_cases w hclosed
  · rw [seen_start hstart, seen_start hstart]
    rfl
  · rw [seen_woken hwoken, seen_woken hwoken]
    rfl
  · rw [seen_linked h, seen_linked h, if_neg hq']
    split <;> rfl
  · rw [seen_told hwaiting htold, seen_told hwaiting htold]
    rfl

theorem seen_tell (hlinked : w.Linked) (hq : q.state ≠ .waiting) :
    Waiter.seen q { w with waker := .all } = w.seen q := by
  rw [seen_linked hlinked, if_neg hq]
  exact seen_told hlinked.1 (.inr rfl)

/-! ## What is seen of a queue -/

theorem users_some (h : s.waits i = some wait) : s.users.waiters i = some (wait.waiter.seen s.state) := by
  simp only [Sys.users, h, Option.map_some]

theorem users_none (h : s.waits i = none) : s.users.waiters i = none := by
  simp only [Sys.users, h, Option.map_none]

theorem users_eq {u : Users} (hwakeAlls : s.state.wakeAlls = u.wakeAlls)
    (hwaiters : ∀ i, s.users.waiters i = u.waiters i) (hcreated : s.created = u.created) : s.users = u := by
  obtain ⟨wakeAlls, waiters, created⟩ := u
  exact congr (congr (congrArg Users.mk hwakeAlls) (funext hwaiters)) hcreated

theorem users_keep (hwaits : t.waits j = s.waits j)
    (hseen : ∀ wait, s.waits j = some wait → wait.waiter.seen t.state = wait.waiter.seen s.state) :
    t.users.waiters j = s.users.waiters j := by
  cases hwait : s.waits j with
  | none => rw [users_none (hwaits.trans hwait), users_none hwait]
  | some wait => rw [users_some (hwaits.trans hwait), users_some hwait, hseen wait hwait]

/-- One `Wait` changes. -/
theorem users_set {wait' : Option Wait} {waiter : Option Impl.Waiter}
    (hwaits : t.waits = Function.update s.waits i wait')
    (hself : (wait'.map fun wait => wait.waiter.seen t.state) = waiter)
    (hseen : ∀ j wait, j ≠ i → s.waits j = some wait → wait.waiter.seen t.state = wait.waiter.seen s.state) (j : Nat) :
    t.users.waiters j = (s.users.set i waiter).waiters j := by
  show _ = Function.update s.users.waiters i waiter j
  by_cases hj : j = i
  · subst hj
    rw [Function.update_self, ← hself]
    simp only [Sys.users, hwaits, Function.update_self]
  · rw [Function.update_of_ne hj]
    exact users_keep (by rw [hwaits, Function.update_of_ne hj]) fun wait => hseen j wait hj

/-- A poll that changes nothing that is seen -/
theorem users_same (hwait : s.waits i = some wait) {wait' : Wait}
    (hseen : wait'.waiter.seen s.state = wait.waiter.seen s.state) : (s.set i (some wait')).users = s.users := by
  refine users_eq rfl (fun j => ?_) rfl
  by_cases hj : j = i
  · subst hj
    rw [users_some hwait, ← hseen]
    exact users_some (Function.update_self _ _ _)
  · exact users_keep (Function.update_of_ne hj _ _) fun _ _ => rfl

/-- A poll -/
theorem users_poll (hwait : s.waits i = some wait) {wait' : Wait}
    (hwaits : t.waits = Function.update s.waits i (some wait'))
    (hself : wait'.waiter.seen t.state = (wait.waiter.seen s.state).poll s.state.wakeAlls)
    (hseen : ∀ j wait, j ≠ i → s.waits j = some wait → wait.waiter.seen t.state = wait.waiter.seen s.state)
    (hwakeAlls : t.state.wakeAlls = s.state.wakeAlls) (hcreated : t.created = s.created) :
    t.users = s.users.step (.poll i) := by
  refine users_eq hwakeAlls (users_set hwaits ?_ hseen) hcreated
  rw [users_some hwait]
  exact congrArg some hself

theorem users_told {popped : List Nat} (hi : Intact s) (hqueue : s.queue = popped ++ queue)
    (hwaits : ∀ i, t.waits i = if i ∈ popped then (s.waits i).map (tell .all) else s.waits i)
    (hq : t.state.state ≠ .waiting) (f : Impl.Waiter → Impl.Waiter)
    (hseen : ∀ wait, s.waits j = some wait → wait.waiter.seen t.state = f (wait.waiter.seen s.state)) :
    t.users.waiters j = (s.users.waiters j).map f := by
  have hj := hwaits j
  cases hwait : s.waits j with
  | none =>
    rw [hwait] at hj
    rw [users_none (hj.trans (by split <;> rfl)), users_none hwait]
    rfl
  | some wait =>
    rw [hwait] at hj
    rw [users_some hwait, Option.map_some, ← hseen wait hwait]
    by_cases hmem : j ∈ popped
    · rw [if_pos hmem] at hj
      rw [users_some hj]
      have hlinked := (hi.good j wait hwait).linked.mp (hqueue ▸ List.mem_append_left _ hmem)
      exact congrArg some (seen_tell hlinked hq)
    · rw [if_neg hmem] at hj
      exact users_some hj

/-! ## A queue that is only woken as a whole -/

/-- A `Wait` that was not woken by itself -/
def Plain (wait : Wait) : Prop := wait.waiter.waker ≠ .one

def Quiet : Holder → Prop
  | .release _ waker _ => waker ≠ .one
  | .wakeAll _ => True
  | _ => False

structure Whole (s : Sys) : Prop where
  stored : s.state.state ≠ .woken
  waking : s.waking = 0
  plain : ∀ i wait, s.waits i = some wait → Plain wait
  holder : ∀ holder, s.holder = some holder → Quiet holder

theorem Whole.set (h : Whole s) {wait' : Wait} (hplain : Plain wait') : Whole (s.set i (some wait')) := by
  refine ⟨h.stored, h.waking, fun j wait hwait => ?_, h.holder⟩
  obtain ⟨-, rfl⟩ | ⟨-, hwait⟩ := set_some_cases hwait
  · exact hplain
  · exact h.plain j wait hwait

theorem Whole.poll (h : Whole s) (hwait : s.waits i = some wait) {wait' : Wait}
    (hwaker : wait'.waiter.waker = wait.waiter.waker) : Whole (s.set i (some wait')) :=
  h.set fun hone => h.plain i wait hwait (hwaker ▸ hone)

theorem Whole.told (h : Whole s) {popped : List Nat} {waits : Nat → Option Wait}
    (hwaits : ∀ i, waits i = if i ∈ popped then (s.waits i).map (tell .all) else s.waits i) (j : Nat) (wait : Wait)
    (hwait : waits j = some wait) : Plain wait := by
  rw [hwaits] at hwait
  split at hwait
  · obtain ⟨wait', hwait', rfl⟩ := Option.map_eq_some_iff.mp hwait
    exact fun heq => (by cases heq)
  · exact h.plain j wait hwait

theorem plain_registered {waker : Option Nat} : Plain (registered wait waker) := by
  show (waker.or wait.waker).elim Wakeup.empty .waiting ≠ .one
  cases waker.or wait.waker <;> exact fun heq => (by cases heq)

/-- What each step keeps -/
theorem whole_does (h : Whole s) (ho : Opened s) (ha : a ≠ .close) (ha' : a ≠ .wake) (hdoes : Does s a t) :
    Whole t := by
  cases hdoes with
  | wait =>
    have hset := @Whole.set s s.created h ⟨s.state.waiter, .idle, none, none⟩ fun heq => (by cases heq)
    exact ⟨hset.stored, hset.waking, hset.plain, hset.holder⟩
  | load hwait => exact h.poll hwait rfl
  | lock hwait => exact h.poll hwait rfl
  | again hwait => exact h.poll hwait rfl
  | consume hwait hpolling hstate => exact absurd (congrArg QueueState.state hstate) h.stored
  | miss hwait => exact h.poll hwait rfl
  | late hwait => exact h.poll hwait rfl
  | @enqueue i waker wait hwait =>
    have hset := @Whole.set s i h (registered wait waker) plain_registered
    exact ⟨fun heq => (by cases heq), hset.waking, hset.plain, hset.holder⟩
  | take hwait hpolling hfree hstart hsame hstate => exact absurd hstate h.stored
  | refuse hwait hpolling hfree hstart hsame hstate => exact absurd hstate ho.state
  | stay hwait => exact h.set plain_registered
  | told hwait hpolling hfree hstate hpolled =>
    obtain ⟨-, rfl⟩ | ⟨hclosed, -⟩ := hpolled
    · exact h.poll hwait rfl
    · exact absurd hclosed (ho.told _ _ hwait)
  | drop => exact ⟨h.stored, h.waking, fun j wait hwait => h.plain j wait (set_none_cases hwait).2, h.holder⟩
  | remove hwait =>
    refine ⟨h.stored, h.waking, fun j wait hwait => h.plain j wait (set_none_cases hwait).2, fun holder heq => ?_⟩
    obtain rfl := Option.some.inj heq
    exact h.plain _ _ hwait
  | lockWake hwaking => exact absurd h.waking (Nat.ne_of_gt hwaking)
  | lockWakeAll =>
    refine ⟨h.stored, h.waking, h.plain, fun holder heq => ?_⟩
    obtain rfl := Option.some.inj heq
    trivial
  | exchange hholder => exact absurd (h.holder _ hholder) id
  | fail hholder => exact absurd (h.holder _ hholder) id
  | pop hholder => exact absurd (h.holder _ hholder) id
  | store hholder => exact absurd (h.holder _ hholder) id
  | @release dropped waker curr hholder =>
    have hone : waker ≠ .one := h.holder _ hholder
    rw [Sys.released, if_neg hone]
    refine ⟨?_, h.waking, h.plain, fun _ heq => (by cases heq)⟩
    show (if s.queue = [] ∧ curr.state = .waiting then curr.withState .empty else s.state).state ≠ .woken
    split
    · exact fun heq => (by cases heq)
    · exact h.stored
  | wakeAllClosed => exact ⟨h.stored, h.waking, h.plain, fun _ heq => (by cases heq)⟩
  | wakeAllNone => exact ⟨h.stored, h.waking, h.plain, fun _ heq => (by cases heq)⟩
  | wakeAll hholder hstate hqueue hsound hwaits =>
    exact ⟨fun heq => (by cases heq), h.waking, h.told hwaits, fun _ heq => (by cases heq)⟩
  | drainAll hdraining hfree hqueue hsound hwaits => exact ⟨h.stored, h.waking, h.told hwaits, h.holder⟩
  | drainClosed hclosing => exact absurd ho.closing (Nat.ne_of_gt hclosing)
  | close => exact absurd rfl ha
  | tryWait hstate => exact absurd hstate h.stored
  | wakeClosed => exact absurd rfl ha'
  | wakeWaiting => exact absurd rfl ha'
  | wakeStored => exact absurd rfl ha'
  | _ => exact ⟨h.stored, h.waking, h.plain, h.holder⟩

/-- Each step is the one of its users that it is labelled with, or leaves them as they are. -/
theorem users_does (hi : Intact s) (hk : Kept s) (ho : Opened s) (h : Whole s)
    (hok : s.queue.length < t.queue.length → s.draining + s.closing = 0) (ha : a ≠ .close) (ha' : a ≠ .wake)
    (hdoes : Does s a t) :
    s.usersAct a = none ∧ t.users = s.users ∨ ∃ b, s.usersAct a = some b ∧ t.users = s.users.step b := by
  have hact : ∀ {i : Nat} {waker : Option Nat} {wait : Wait}, s.waits i = some wait →
      s.usersAct (.poll i waker) = if wait.waiter.state = .woken then some (.poll i) else none := by
    intro i waker wait hwait
    simp only [Sys.usersAct, hwait, Option.bind_eq_bind, Option.bind_some]
  have hlocked : ∀ {holder : Holder}, s.holder = some holder → s.usersAct .locked = holder.usersAct := by
    intro holder hholder
    simp only [Sys.usersAct, hholder, Option.bind_some]
  cases hdoes with
  | wait =>
    refine .inr ⟨.wait, rfl, users_eq rfl (users_set rfl ?_ fun _ _ _ _ => rfl) rfl⟩
    exact congrArg some (seen_start rfl)
  | load hwait hidle hstate =>
    exact .inl ⟨(hact hwait).trans (if_neg (by rw [hstate]; decide)), users_same hwait rfl⟩
  | lock hwait hidle hstate =>
    exact .inl ⟨(hact hwait).trans (if_neg (by rw [hstate]; decide)), users_same hwait rfl⟩
  | again hwait hidle hstate =>
    refine .inr ⟨.poll _, (hact hwait).trans (if_pos hstate),
      users_poll hwait rfl ?_ (fun _ _ _ _ => rfl) rfl rfl⟩
    rw [seen_woken hstate]
    exact seen_woken rfl
  | consume hwait hpolling hstate => exact absurd (congrArg QueueState.state hstate) h.stored
  | miss hwait => exact .inl ⟨rfl, users_same hwait rfl⟩
  | @late i waker wait hwait hpolling hfree hstart hlate =>
    refine .inr ⟨.poll i, rfl, users_poll hwait rfl ?_ (fun _ _ _ _ => rfl) rfl rfl⟩
    rw [seen_start hstart]
    exact (seen_woken rfl).trans (if_neg (Ne.symm hlate)).symm
  | @enqueue i waker wait hwait hpolling hfree hstart hsame hstate =>
    have hzero := hok (by show s.queue.length < (s.queue ++ [_]).length; simp)
    refine .inr ⟨.poll i, rfl, users_poll hwait rfl ?_ (fun j wait' hj hwait' => ?_) rfl rfl⟩
    · rw [seen_start hstart]
      exact (seen_linked (linked_elim rfl rfl)).trans (if_pos hsame.symm).symm
    · refine seen_congr (ho.told j wait' hwait') fun hlinked => iff_of_true rfl ?_
      have hmem := (hi.good j wait' hwait').linked.mpr hlinked
      exact (hk.queued (List.ne_nil_of_mem hmem)).resolve_right (Nat.not_lt.mpr (Nat.le_of_eq hzero))
  | take hwait hpolling hfree hstart hsame hstate => exact absurd hstate h.stored
  | refuse hwait hpolling hfree hstart hsame hstate => exact absurd hstate ho.state
  | @stay i waker wait hwait hpolling hfree hlinked =>
    refine .inr ⟨.poll i, rfl, users_poll hwait rfl ?_ (fun _ _ _ _ => rfl) rfl rfl⟩
    rw [seen_linked hlinked]
    refine (@seen_linked _ s.state (linked_elim rfl rfl)).trans ?_
    cases s.state.state <;> rfl
  | told hwait hpolling hfree hstate hpolled =>
    obtain ⟨htold, -⟩ | ⟨hclosed, -⟩ := hpolled
    · refine .inr ⟨.poll _, rfl, users_poll hwait rfl ?_ (fun _ _ _ _ => rfl) rfl rfl⟩
      rw [seen_told hstate htold]
      exact seen_woken rfl
    · exact absurd hclosed (ho.told _ _ hwait)
  | drop => exact .inr ⟨.drop _, rfl, users_eq rfl (users_set rfl rfl fun _ _ _ _ => rfl) rfl⟩
  | remove => exact .inr ⟨.drop _, rfl, users_eq rfl (users_set rfl rfl fun _ _ _ _ => rfl) rfl⟩
  | lockWake hwaking => exact absurd h.waking (Nat.ne_of_gt hwaking)
  | exchange hholder => exact absurd (h.holder _ hholder) id
  | fail hholder => exact absurd (h.holder _ hholder) id
  | pop hholder => exact absurd (h.holder _ hholder) id
  | store hholder => exact absurd (h.holder _ hholder) id
  | @release dropped waker curr hholder =>
    have hsnapshot : Snapshot s.state curr := (hk.holder _ hholder).1
    refine .inl ⟨hlocked hholder, ?_⟩
    by_cases hlast : s.queue = [] ∧ curr.state = .waiting
    · rw [Sys.released, if_pos hlast]
      refine users_eq hsnapshot.wakeAlls (fun j => users_keep rfl fun wait hwait => ?_) rfl
      refine seen_congr (ho.told j wait hwait) fun hlinked => ?_
      have hmem := (hi.good j wait hwait).linked.mpr hlinked
      rw [hlast.1] at hmem
      exact absurd hmem List.not_mem_nil
    · rw [Sys.released, if_neg hlast]
      rfl
  | wakeAllClosed hholder hcurr => exact absurd hcurr (ho.loaded _ hholder)
  | wakeAllNone hholder hcurr =>
    have hne : s.state.state ≠ .waiting := fun hstate =>
      not_waiting hcurr (Snapshot.loaded (hk.holder _ hholder) hstate)
    refine .inr ⟨.wakeAll, hlocked hholder, users_eq rfl (fun j => ?_) rfl⟩
    exact @users_told s _ j s.queue [] hi rfl (fun _ => (if_neg List.not_mem_nil).symm) hne Impl.Waiter.wakeAll
      fun wait hwait => seen_wakeAll (ho.told j wait hwait) hne
  | @wakeAll popped queue woken waits hholder hstate hqueue hsound hwaits =>
    refine .inr ⟨.wakeAll, hlocked hholder, users_eq rfl (fun j => ?_) rfl⟩
    exact @users_told s { s with queue, waits, woken, state := ⟨.empty, s.state.wakeAlls + 1⟩ } j queue popped hi hqueue
      hwaits (show State.empty ≠ .waiting by decide) Impl.Waiter.wakeAll
      fun wait hwait => seen_wakeAll (ho.told j wait hwait) (show State.empty ≠ .waiting by decide)
  | @drainAll popped queue woken waits hdraining hfree hqueue hsound hwaits =>
    have hne : s.state.state ≠ .waiting := fun hstate => by
      have hzero := (hk.waiting hstate).1
      omega
    refine .inl ⟨rfl, users_eq rfl (fun j => ?_) rfl⟩
    refine (@users_told s { s with queue, waits, woken } j queue popped hi hqueue hwaits hne id fun _ _ => rfl).trans ?_
    rw [Option.map_id]
    rfl
  | drainClosed hclosing => exact absurd ho.closing (Nat.ne_of_gt hclosing)
  | close => exact absurd rfl ha
  | tryWait hstate => exact absurd hstate h.stored
  | wakeClosed => exact absurd rfl ha'
  | wakeWaiting => exact absurd rfl ha'
  | wakeStored => exact absurd rfl ha'
  | panicAssert hholder => exact absurd (h.holder _ hholder) id
  | panicPop hholder => exact absurd (h.holder _ hholder) id
  | panicWakeAll hholder hcurr hne => exact absurd (ho.saw_waiting hk hholder hcurr) hne
  | _ => exact .inl ⟨rfl, rfl⟩

theorem usersAct_wakeAll (hact : s.usersAct a = some .wakeAll) : a = .locked := by
  cases a with
  | locked => rfl
  | poll i waker =>
    simp only [Sys.usersAct, Option.bind_eq_bind, Option.bind_eq_some_iff] at hact
    obtain ⟨wait, -, hact⟩ := hact
    split at hact <;> cases hact
  | _ => cases hact

/-- A call of `wake_all` takes the lock, and wakes all with it. -/
theorem usersWakes_does (h : Open s) (hdoes : Does s a t) :
    (s.usersAct a).toList.count .wakeAll + t.wakesAll = [a].count .lockWakeAll + s.wakesAll := by
  rw [← wakesAll_does h.kept h.opened hdoes]
  refine congrArg (· + t.wakesAll) ?_
  by_cases ha : a = .locked
  · subst ha
    cases hholder : s.holder with
    | none => simp only [Sys.usersAct, Sys.act, hholder, Option.bind_eq_bind, Option.bind_none]; rfl
    | some holder =>
      simp only [Sys.usersAct, Sys.act, hholder, Option.bind_eq_bind, Option.bind_some]
      cases holder with
      | wakeLocked dropped curr =>
        rw [Holder.act]
        split
        · rfl
        · cases dropped <;> rfl
      | store dropped curr => cases dropped <;> rfl
      | release => rfl
      | wakeAll => rfl
  · rw [List.count_eq_zero.mpr fun hmem => ha (usersAct_wakeAll (Option.mem_toList.mp hmem))]
    by_cases hwake : a = .wake
    · subst hwake
      show 0 = (if s.state.state = .waiting then none else some Notify.Act.wake).toList.count .wakeAll
      split <;> rfl
    · exact (count_other (.inr rfl) hwake ha).symm

/-- A waiter that was woken, whose last poll was not ready, is in a list that is being drained, or the next one is. -/
theorem seen_woken_cases (h : Open s) (hw : Whole s) (hwait : s.waits i = some wait)
    (hseen : s.users.waiters i = some .woken) :
    wait.polled = some .ready ∨ wait.waiter.waker = .all ∨ i ∈ s.queue ∧ 0 < s.draining := by
  have ho := h.opened
  replace hseen : wait.waiter.seen s.state = .woken := Option.some.inj ((users_some hwait).symm.trans hseen)
  obtain hstart | hwoken | hlinked | ⟨-, hone | hall⟩ := waiter_cases wait.waiter (ho.told i wait hwait)
  · cases (seen_start hstart).symm.trans hseen
  · exact .inl ((ho.fresh i wait hwait).ready.mpr hwoken)
  · have hmem := (h.intact.good i wait hwait).linked.mpr hlinked
    refine .inr (.inr ⟨hmem, ?_⟩)
    obtain hstate | hpos := h.kept.queued (List.ne_nil_of_mem hmem)
    · rw [seen_linked hlinked, if_pos hstate] at hseen
      cases hseen
    · rwa [ho.closing] at hpos
  · exact absurd hone (hw.plain i wait hwait)
  · exact .inr (.inl hall)

theorem whole_new : Whole (.new .empty) :=
  ⟨fun heq => (by cases heq), rfl, fun _ _ hwait => (by cases hwait), fun _ heq => (by cases heq)⟩

/-- A run of a queue that is only woken as a whole is the one of its users that its steps are, with the count and the
waiters that they have. Each call of `wake_all` is one there, or yet to be, which it can be by steps of its own; a poll
is ready only if the waiter was woken, and then it was, or the next one is, or the list is being drained. -/
theorem reached_users {as : List Action} (h : WholeTrace as s) :
    UsersTrace (usersActs as) s.users ∧
      (usersActs as).count .wakeAll + s.wakesAll = as.count .lockWakeAll ∧
      (∃ bs t, (∀ b ∈ bs, b = .lockWake ∨ b = .locked) ∧ WholeTrace (as ++ bs) t ∧ t.wakesAll = 0) ∧
      (∀ i wait, s.waits i = some wait → wait.polled = some .ready → s.users.waiters i = some .woken) ∧
      (∀ i wait, s.waits i = some wait → s.users.waiters i = some .woken →
        wait.polled = some .ready ∨ wait.waiter.waker = .all ∨ i ∈ s.queue ∧ 0 < s.draining) := by
  have hstep : ∀ {s t : Sys} {a : Action}, Open s ∧ Whole s → (s.Ok a ∧ a ≠ .close) ∧ a ≠ .wake → s.step a = some t →
      Open t ∧ Whole t := fun hs hok ht =>
    ⟨open_does hs.1 hok.1.1 hok.1.2 ht, whole_does hs.2 hs.1.opened hok.1.2 hok.2 (step_does hs.1.intact ht)⟩
  have hsim : ∀ {s t : Sys} {a : Action}, Open s ∧ Whole s → (s.Ok a ∧ a ≠ .close) ∧ a ≠ .wake → s.step a = some t →
      s.usersAct a = none ∧ t.users = s.users ∨
        ∃ b, s.usersAct a = some b ∧ True ∧ some (s.users.step b) = some t.users := by
    intro s t a hs hok ht
    obtain hkeep | ⟨b, hact, heq⟩ := users_does hs.1.intact hs.1.kept hs.1.opened hs.2 (hok.1.1 t ht) hok.1.2 hok.2
      (step_does hs.1.intact ht)
    · exact .inl hkeep
    · exact .inr ⟨b, hact, trivial, congrArg some heq.symm⟩
  have hnew : Open (.new .empty) ∧ Whole (.new .empty) := ⟨open_new (.inl rfl), whole_new⟩
  obtain ⟨hs, htrace⟩ := @Trace.simulate _ _ _ _ _ _ Sys.usersAct _ _ _ (fun u b => some (Users.step u b))
    (fun _ _ => True) (fun s => Open s ∧ Whole s) Sys.users hstep hsim h hnew
  refine ⟨htrace, ?_, ?_, fun i wait hwait hready => ?_, fun i wait => seen_woken_cases hs.1 hs.2⟩
  · exact h.count_labels Action.lockWakeAll Users.Act.wakeAll Sys.wakesAll hstep
      (fun hs hok ht => usersWakes_does hs.1 (step_does hs.1.intact ht)) hnew
  · obtain ⟨bs, t, hbs, htrace', -, hwakesAll⟩ := wakes_on hs.1
    exact ⟨bs, t, hbs, Trace.trans h htrace', hwakesAll⟩
  · rw [users_some hwait, seen_woken ((hs.1.opened.fresh i wait hwait).ready.mp hready)]

/-- A `Wait` that was woken with all and polled again, after which there is a call of `wake_all` -/
def polledActions : List Action :=
  enqueueActions 0 ++ [.lockWakeAll, .locked, .poll 0 none, .pollWait 0, .lockWakeAll]

def polledSteps : Option Sys :=
  exec Sys.step (fun s a => s.draining + s.closing = 0 ∧ a ≠ .close ∧ a ≠ .wake) (.new .empty) polledActions

def polledQueue : Sys := polledSteps.getD (.new .empty)

theorem wholeTrace_polledQueue : WholeTrace polledActions polledQueue :=
  (Trace.of_exec polledActions (show polledSteps = some polledQueue from rfl)).mono fun _ _ hok =>
    ⟨⟨fun _ _ _ => hok.1, hok.2.1⟩, hok.2.2⟩

theorem usersActs_polledActions : usersActs polledActions = [.wait, .poll 0, .wakeAll, .poll 0] := by decide

theorem reached_users_polledQueue : UsersTrace [.wait, .poll 0, .wakeAll, .poll 0] polledQueue.users ∧
    polledQueue.wakesAll = 1 := by
  obtain ⟨htrace, hwakesAll, hrest⟩ := reached_users wholeTrace_polledQueue
  rw [usersActs_polledActions] at htrace hwakesAll
  exact ⟨htrace, Nat.add_left_cancel hwakesAll⟩

end Metor.Proof.WaitQueue
