import Mathlib.Data.List.Nodup
import Metor.Spec.WaitQueue

/-!
# What a step of a wait queue does

`Does` lists what each step can do in a queue whose list is sound (`Sound`): the
nodes in the list are those that wait and have not been woken, and the last
waker of each is registered or has been called. `step_does` is the inversion of
`Sys.step`, and `sound_does` keeps the list sound.
-/

namespace Metor.Proof.WaitQueue

open Metor.Impl.WaitQueue Metor.Lib

variable {s t : Sys} {a : Action} {i j created : Nat} {wait : Wait} {w : Waiter} {queue woken batch : List Nat}
  {waits : Nat → Option Wait} {wakeup : Wakeup} {waker : Option Nat}

/-! ## The list -/

/-- What a node in the list is told when it is taken from it -/
def Told (wakeup : Wakeup) : Prop := wakeup = .one ∨ wakeup = .all ∨ wakeup = .closed

def tell (wakeup : Wakeup) (wait : Wait) : Wait := { wait with waiter := { wait.waiter with waker := wakeup } }

structure Good (queue : List Nat) (created : Nat) (woken : List Nat) (i : Nat) (wait : Wait) : Prop where
  created : i < created
  linked : i ∈ queue ↔ wait.waiter.Linked
  start : wait.waiter.state = .start → wait.waiter.waker = .empty ∧ wait.waker = none
  loaded : ∀ waker q, wait.polling = .loaded waker q → wait.waiter.state = .start
  locking : wait.polling ≠ .idle → wait.waiter.state ≠ .woken
  pending : wait.polled = some .pending ↔ wait.waiter.state = .waiting
  wakers : wait.waiter.state = .waiting → wait.waiter.waker = wait.waker.elim .empty .waiting ∨
    Told wait.waiter.waker ∧ ∀ waker ∈ wait.waker, waker ∈ woken

structure Sound (queue : List Nat) (waits : Nat → Option Wait) (created : Nat) (woken : List Nat) : Prop where
  nodup : queue.Nodup
  alive : ∀ i ∈ queue, ∃ wait, waits i = some wait
  good : ∀ i wait, waits i = some wait → Good queue created woken i wait

theorem linked_elim (hstate : w.state = .waiting) (hwaker : w.waker = waker.elim .empty .waiting) : w.Linked := by
  cases waker with
  | none => exact ⟨hstate, .inl hwaker⟩
  | some waker => exact ⟨hstate, .inr ⟨waker, hwaker⟩⟩

theorem not_linked_of_told (h : Told w.waker) : ¬ w.Linked := by
  rintro ⟨-, hwaker | ⟨waker, hwaker⟩⟩ <;>
  · rw [hwaker] at h
    obtain h | h | h := h <;> cases h

theorem not_linked_of_state (h : w.state ≠ .waiting) : ¬ w.Linked := fun hlinked => h hlinked.1

theorem wake_eq (hwaker : w.waker = waker.elim .empty .waiting) :
    w.wake wakeup = some ({ w with waker := wakeup }, waker) := by
  rw [Waiter.wake, hwaker]
  cases waker with
  | none => rfl
  | some waker => rfl

theorem Good.waker_eq (h : Good queue created woken i wait) (hlinked : wait.waiter.Linked) :
    wait.waiter.waker = wait.waker.elim .empty .waiting :=
  (h.wakers hlinked.1).resolve_right fun htold => not_linked_of_told htold.1 hlinked

theorem Sound.lt (h : Sound queue waits created woken) (hi : i ∈ queue) : i < created := by
  obtain ⟨wait, hwait⟩ := h.alive i hi
  exact (h.good i wait hwait).created

theorem set_some_cases {wait' wait'' : Wait} (h : Function.update waits i (some wait') j = some wait'') :
    j = i ∧ wait'' = wait' ∨ j ≠ i ∧ waits j = some wait'' := by
  by_cases hj : j = i
  · subst hj
    rw [Function.update_self] at h
    exact .inl ⟨rfl, (Option.some.inj h).symm⟩
  · rw [Function.update_of_ne hj] at h
    exact .inr ⟨hj, h⟩

theorem set_none_cases (h : Function.update waits i none j = some wait) : j ≠ i ∧ waits j = some wait := by
  by_cases hj : j = i
  · subst hj
    rw [Function.update_self] at h
    cases h
  · rw [Function.update_of_ne hj] at h
    exact ⟨hj, h⟩

theorem Good.other (h : Good queue created woken j wait) {queue' woken' : List Nat} {created' : Nat}
    (hqueue : j ∈ queue' ↔ j ∈ queue) (hcreated : created ≤ created') (hwoken : ∀ waker ∈ woken, waker ∈ woken') :
    Good queue' created' woken' j wait :=
  ⟨Nat.lt_of_lt_of_le h.created hcreated, hqueue.trans h.linked, h.start, h.loaded, h.locking, h.pending, fun hstate =>
    (h.wakers hstate).imp_right fun htold => ⟨htold.1, fun waker hwaker => hwoken waker (htold.2 waker hwaker)⟩⟩

theorem Sound.alive_set (h : Sound queue waits created woken) {wait' : Wait} :
    ∀ j ∈ queue, ∃ wait, Function.update waits i (some wait') j = some wait := by
  intro j hj
  by_cases heq : j = i
  · exact ⟨wait', by rw [heq, Function.update_self]⟩
  · obtain ⟨wait, hwait⟩ := h.alive j hj
    exact ⟨wait, by rw [Function.update_of_ne heq, hwait]⟩

theorem sound_set (h : Sound queue waits created woken) (hgood : Good queue created woken i wait) :
    Sound queue (Function.update waits i (some wait)) created woken := by
  refine ⟨h.nodup, h.alive_set, fun j wait' hwait => ?_⟩
  obtain ⟨rfl, rfl⟩ | ⟨-, hwait⟩ := set_some_cases hwait
  · exact hgood
  · exact h.good j wait' hwait

theorem sound_wait (h : Sound queue waits created woken) (q : QueueState) :
    Sound queue (Function.update waits created (some ⟨q.waiter, .idle, none, none⟩)) (created + 1) woken := by
  refine ⟨h.nodup, h.alive_set, fun j wait' hwait => ?_⟩
  obtain ⟨rfl, rfl⟩ | ⟨-, hwait⟩ := set_some_cases hwait
  · refine ⟨Nat.lt_succ_self _, iff_of_false (fun hj => Nat.lt_irrefl _ (h.lt hj)) ?_, fun _ => ⟨rfl, rfl⟩,
      ?_, ?_, ?_, ?_⟩
    · exact not_linked_of_state (show WaitState.start ≠ .waiting by decide)
    · exact fun _ _ hloaded => (by cases hloaded)
    · exact fun hidle => absurd rfl hidle
    · exact iff_of_false (fun hpolled => (by cases hpolled)) (show WaitState.start ≠ .waiting by decide)
    · exact fun hstate => (by cases hstate)
  · exact (h.good j wait' hwait).other Iff.rfl (Nat.le_succ _) fun _ hwaker => hwaker

theorem sound_push (h : Sound queue waits created woken) (hi : i ∉ queue)
    (hgood : Good (queue ++ [i]) created woken i wait) :
    Sound (queue ++ [i]) (Function.update waits i (some wait)) created woken := by
  refine ⟨List.nodup_append'.mpr ⟨h.nodup, List.nodup_singleton i, ?_⟩, fun j hj => ?_, fun j wait' hwait => ?_⟩
  · exact fun j hj hj' => hi (List.mem_singleton.mp hj' ▸ hj)
  · obtain hj | hj := List.mem_append.mp hj
    · exact h.alive_set j hj
    · exact ⟨wait, by rw [List.mem_singleton.mp hj, Function.update_self]⟩
  · obtain ⟨rfl, rfl⟩ | ⟨hne, hwait⟩ := set_some_cases hwait
    · exact hgood
    · refine (h.good j wait' hwait).other ?_ (Nat.le_refl _) fun _ hwaker => hwaker
      rw [List.mem_append, List.mem_singleton, or_iff_left hne]

theorem sound_erase (h : Sound queue waits created woken) (i : Nat) :
    Sound (queue.erase i) (Function.update waits i none) created woken := by
  refine ⟨h.nodup.erase i, fun j hj => ?_, fun j wait' hwait => ?_⟩
  · obtain ⟨hne, hj⟩ := h.nodup.mem_erase_iff.mp hj
    rw [Function.update_of_ne hne]
    exact h.alive j hj
  · obtain ⟨hne, hwait⟩ := set_none_cases hwait
    refine (h.good j wait' hwait).other ?_ (Nat.le_refl _) fun _ hwaker => hwaker
    rw [h.nodup.mem_erase_iff, and_iff_right hne]

/-- A node is taken from the list, and its waker is called. -/
theorem sound_pop (h : Sound (i :: queue) waits created woken) (hwait : waits i = some wait) (htold : Told wakeup) :
    Sound queue (Function.update waits i (some (tell wakeup wait))) created
      (wait.waker.toList ++ woken) := by
  obtain ⟨hi, hnodup⟩ := List.nodup_cons.mp h.nodup
  have hgood := h.good i wait hwait
  refine ⟨hnodup, fun j hj => ?_, fun j wait' hwait' => ?_⟩
  · exact h.alive_set j (List.mem_cons_of_mem _ hj)
  · obtain ⟨rfl, rfl⟩ | ⟨hne, hwait'⟩ := set_some_cases hwait'
    · have hstate := (hgood.linked.mp List.mem_cons_self).1
      refine ⟨hgood.created, iff_of_false hi (not_linked_of_told htold), ?_, hgood.loaded, hgood.locking, hgood.pending,
        fun _ => .inr ⟨htold, fun waker hwaker => ?_⟩⟩
      · exact fun hstart => absurd (hstart.symm.trans hstate) (by decide)
      · exact List.mem_append_left _ (Option.mem_toList.mpr hwaker)
    · refine (h.good j wait' hwait').other ?_ (Nat.le_refl _) fun _ hwaker => List.mem_append_right _ hwaker
      rw [List.mem_cons, or_iff_right hne]

/-- A batch takes nodes from the list in its order and tells each of them. -/
theorem drainToWakeBatch_spec (htold : Told wakeup) (h : Sound queue waits created (batch ++ woken)) :
    ∃ popped queue' waits' batch', drainToWakeBatch wakeup queue waits batch = some (queue', waits', batch') ∧
      queue = popped ++ queue' ∧ Sound queue' waits' created (batch' ++ woken) ∧
      ∀ i, waits' i = if i ∈ popped then (waits i).map (tell wakeup) else waits i := by
  induction queue generalizing waits batch with
  | nil => exact ⟨[], [], waits, batch, rfl, rfl, h, fun i => rfl⟩
  | cons i queue ih =>
    obtain ⟨wait, hwait⟩ := h.alive i List.mem_cons_self
    have hgood := h.good i wait hwait
    have hwake := @wake_eq wait.waiter wakeup wait.waker (hgood.waker_eq (hgood.linked.mp List.mem_cons_self))
    have hpop := sound_pop h hwait htold
    have hnot : i ∉ queue := (List.nodup_cons.mp h.nodup).1
    have hrest : ∀ popped, (∀ j ∈ popped, j ∈ queue) → ∀ j,
        (if j ∈ popped then (Function.update waits i (some (tell wakeup wait)) j).map (tell wakeup)
          else Function.update waits i (some (tell wakeup wait)) j) =
        if j ∈ i :: popped then (waits j).map (tell wakeup) else waits j := by
      intro popped hsub j
      by_cases hj : j = i
      · subst hj
        rw [if_neg fun hj => hnot (hsub _ hj), Function.update_self, if_pos List.mem_cons_self, hwait]
        rfl
      · simp only [Function.update_of_ne hj, List.mem_cons, hj, false_or]
    obtain ⟨waker, hwaker⟩ : ∃ waker, wait.waker = waker := ⟨_, rfl⟩
    rw [hwaker] at hwake hpop
    rw [drainToWakeBatch, hwait]
    simp only [Option.bind_eq_bind, Option.bind_some, hwake]
    cases waker with
    | none =>
      obtain ⟨popped, queue', waits', batch', heq, hqueue, hsound, hwaits⟩ := ih hpop
      refine ⟨i :: popped, queue', waits', batch', heq, congrArg (i :: ·) hqueue, hsound, fun j => ?_⟩
      exact (hwaits j).trans (hrest popped (fun j hj => hqueue ▸ List.mem_append_left _ hj) j)
    | some waker =>
      dsimp only
      split
      · obtain ⟨popped, queue', waits', batch', heq, hqueue, hsound, hwaits⟩ := @ih (waker :: batch) _ hpop
        refine ⟨i :: popped, queue', waits', batch', heq, congrArg (i :: ·) hqueue, hsound, fun j => ?_⟩
        exact (hwaits j).trans (hrest popped (fun j hj => hqueue ▸ List.mem_append_left _ hj) j)
      · exact ⟨[i], queue, _, _, rfl, rfl, hpop, hrest [] fun j hj => absurd hj List.not_mem_nil⟩

/-! ## The steps -/

/-- The list of a queue is sound. -/
def Intact (s : Sys) : Prop := Sound s.queue s.waits s.created s.woken

/-- What is left of a poll that returns with a new state of its waiter -/
def moved (wait : Wait) (waker : Option Nat) (state : WaitState) (polled : Poll) : Wait :=
  wait.returns waker { wait.waiter with state } polled

/-- A poll that is pending, which registers the last waker -/
def registered (wait : Wait) (waker : Option Nat) : Wait :=
  wait.returns waker
    { wait.waiter with state := .waiting, waker := (waker.or wait.waker).elim .empty .waiting } .pending

/-- What the steps can do -/
inductive Does (s : Sys) : Action → Sys → Prop
  | wait : Does s .wait s.wait
  | load {i : Nat} {waker : Option Nat} {wait : Wait} (hwait : s.waits i = some wait) (hidle : wait.polling = .idle)
      (hstate : wait.waiter.state = .start) :
      Does s (.poll i waker) (s.set i (some { wait with polling := .loaded waker s.state }))
  | lock {i : Nat} {waker : Option Nat} {wait : Wait} (hwait : s.waits i = some wait) (hidle : wait.polling = .idle)
      (hstate : wait.waiter.state = .waiting) :
      Does s (.poll i waker) (s.set i (some { wait with polling := .locking waker }))
  | again {i : Nat} {waker : Option Nat} {wait : Wait} (hwait : s.waits i = some wait) (hidle : wait.polling = .idle)
      (hstate : wait.waiter.state = .woken) : Does s (.poll i waker) (s.set i (some (moved wait waker .woken .ready)))
  | consume {i : Nat} {waker : Option Nat} {wait : Wait} {q : QueueState} (hwait : s.waits i = some wait)
      (hpolling : wait.polling = .loaded waker q) (hstate : s.state = q.withState .woken) :
      Does s (.tryConsume i)
        { s.set i (some (moved wait waker .woken .ready)) with state := q.withState .empty }
  | miss {i : Nat} {waker : Option Nat} {wait : Wait} {q : QueueState} (hwait : s.waits i = some wait)
      (hpolling : wait.polling = .loaded waker q) (hstate : s.state ≠ q.withState .woken) :
      Does s (.tryConsume i) (s.set i (some { wait with polling := .locking waker }))
  | late {i : Nat} {waker : Option Nat} {wait : Wait} (hwait : s.waits i = some wait)
      (hpolling : wait.polling = .locking waker) (hfree : s.holder = none) (hstart : wait.waiter.state = .start)
      (hlate : s.state.wakeAlls ≠ wait.waiter.wakeAlls) :
      Does s (.pollWait i) (s.set i (some (moved wait waker .woken .ready)))
  | enqueue {i : Nat} {waker : Option Nat} {wait : Wait} (hwait : s.waits i = some wait)
      (hpolling : wait.polling = .locking waker) (hfree : s.holder = none) (hstart : wait.waiter.state = .start)
      (hsame : s.state.wakeAlls = wait.waiter.wakeAlls) (hstate : s.state.state = .empty ∨ s.state.state = .waiting) :
      Does s (.pollWait i)
        { s.set i (some (registered wait waker)) with
          state := s.state.withState .waiting, queue := s.queue ++ [i] }
  | take {i : Nat} {waker : Option Nat} {wait : Wait} (hwait : s.waits i = some wait)
      (hpolling : wait.polling = .locking waker) (hfree : s.holder = none) (hstart : wait.waiter.state = .start)
      (hsame : s.state.wakeAlls = wait.waiter.wakeAlls) (hstate : s.state.state = .woken) :
      Does s (.pollWait i)
        { s.set i (some (moved wait waker .woken .ready)) with state := s.state.withState .empty }
  | refuse {i : Nat} {waker : Option Nat} {wait : Wait} (hwait : s.waits i = some wait)
      (hpolling : wait.polling = .locking waker) (hfree : s.holder = none) (hstart : wait.waiter.state = .start)
      (hsame : s.state.wakeAlls = wait.waiter.wakeAlls) (hstate : s.state.state = .closed) :
      Does s (.pollWait i) (s.set i (some (moved wait waker .start .closed)))
  | stay {i : Nat} {waker : Option Nat} {wait : Wait} (hwait : s.waits i = some wait)
      (hpolling : wait.polling = .locking waker) (hfree : s.holder = none) (hlinked : wait.waiter.Linked) :
      Does s (.pollWait i) (s.set i (some (registered wait waker)))
  | told {i : Nat} {waker : Option Nat} {wait : Wait} {polled : Poll} (hwait : s.waits i = some wait)
      (hpolling : wait.polling = .locking waker) (hfree : s.holder = none) (hstate : wait.waiter.state = .waiting)
      (hpolled : (wait.waiter.waker = .one ∨ wait.waiter.waker = .all) ∧ polled = .ready ∨
        wait.waiter.waker = .closed ∧ polled = .closed) :
      Does s (.pollWait i) (s.set i (some (moved wait waker .woken polled)))
  | drop {i : Nat} {wait : Wait} (hwait : s.waits i = some wait) (hidle : wait.polling = .idle)
      (hstate : wait.waiter.state ≠ .waiting) : Does s (.drop i) (s.set i none)
  | remove {i : Nat} {wait : Wait} (hwait : s.waits i = some wait) (hidle : wait.polling = .idle)
      (hstate : wait.waiter.state = .waiting) (hfree : s.holder = none) :
      Does s (.drop i)
        { s.set i none with
          queue := s.queue.erase i, holder := some (.release i wait.waiter.waker s.state) }
  | wakeClosed (hstate : s.state.state = .closed) : Does s .wake s
  | wakeWaiting (hstate : s.state.state = .waiting) : Does s .wake { s with waking := s.waking + 1 }
  | wakeStored (hstate : s.state.state = .empty ∨ s.state.state = .woken) :
      Does s .wake { s with state := s.state.withState .woken }
  | lockWake (hwaking : 0 < s.waking) (hfree : s.holder = none) :
      Does s .lockWake { s with waking := s.waking - 1, holder := some (.wakeLocked none s.state) }
  | lockWakeAll (hfree : s.holder = none) : Does s .lockWakeAll { s with holder := some (.wakeAll s.state) }
  | exchange {dropped : Option Nat} (hholder : s.holder = some (.wakeLocked dropped s.state))
      (hstate : s.state.state ≠ .waiting) :
      Does s .locked { s with state := s.state.withState .woken, holder := none }
  | fail {dropped : Option Nat} {curr : QueueState} (hholder : s.holder = some (.wakeLocked dropped curr))
      (hcurr : curr.state ≠ .waiting) (hstate : s.state.state ≠ .waiting) (hne : s.state ≠ curr) :
      Does s .locked { s with holder := some (.store dropped s.state) }
  | pop {dropped : Option Nat} {curr : QueueState} {i : Nat} {queue : List Nat} {wait : Wait}
      (hholder : s.holder = some (.wakeLocked dropped curr)) (hcurr : curr.state = .waiting)
      (hqueue : s.queue = i :: queue) (hwait : s.waits i = some wait) :
      Does s .locked
        { s.set i (some (tell .one wait)) with
          queue
          state := if queue = [] then curr.withState .empty else s.state
          woken := wait.waker.toList ++ s.woken
          holder := none }
  | store {dropped : Option Nat} {actual : QueueState} (hholder : s.holder = some (.store dropped actual)) :
      Does s .locked { s with state := actual.withState .woken, holder := none }
  | release {dropped : Nat} {waker : Wakeup} {curr : QueueState}
      (hholder : s.holder = some (.release dropped waker curr)) :
      Does s .locked (s.released dropped waker curr)
  | wakeAllClosed {curr : QueueState} (hholder : s.holder = some (.wakeAll curr)) (hcurr : curr.state = .closed) :
      Does s .locked { s with holder := none }
  | wakeAllNone {curr : QueueState} (hholder : s.holder = some (.wakeAll curr))
      (hcurr : curr.state = .empty ∨ curr.state = .woken) :
      Does s .locked { s with state := { s.state with wakeAlls := s.state.wakeAlls + 1 }, holder := none }
  | wakeAll {popped queue woken : List Nat} {waits : Nat → Option Wait}
      (hholder : s.holder = some (.wakeAll s.state)) (hstate : s.state.state = .waiting)
      (hqueue : s.queue = popped ++ queue) (hsound : Sound queue waits s.created woken)
      (hwaits : ∀ i, waits i = if i ∈ popped then (s.waits i).map (tell .all) else s.waits i) :
      Does s .locked
        { s with
          queue, waits, woken
          state := ⟨.empty, s.state.wakeAlls + 1⟩
          holder := none
          draining := if queue = [] then s.draining else s.draining + 1 }
  | drainAll {popped queue woken : List Nat} {waits : Nat → Option Wait} (hdraining : 0 < s.draining)
      (hfree : s.holder = none) (hqueue : s.queue = popped ++ queue) (hsound : Sound queue waits s.created woken)
      (hwaits : ∀ i, waits i = if i ∈ popped then (s.waits i).map (tell .all) else s.waits i) :
      Does s .drainAll
        { s with queue, waits, woken, draining := if queue = [] then s.draining - 1 else s.draining }
  | drainClosed {popped queue woken : List Nat} {waits : Nat → Option Wait} (hclosing : 0 < s.closing)
      (hfree : s.holder = none) (hqueue : s.queue = popped ++ queue) (hsound : Sound queue waits s.created woken)
      (hwaits : ∀ i, waits i = if i ∈ popped then (s.waits i).map (tell .closed) else s.waits i) :
      Does s .drainClosed
        { s with queue, waits, woken, closing := if queue = [] then s.closing - 1 else s.closing }
  | close : Does s .close s.close
  | tryWait (hstate : s.state.state = .woken) : Does s .tryWait { s with state := s.state.withState .empty }
  | tryWaitNot (hstate : s.state.state ≠ .woken) : Does s .tryWait s
  | panicAssert {dropped : Option Nat} {curr : QueueState} (hholder : s.holder = some (.wakeLocked dropped curr))
      (hcurr : curr.state ≠ .waiting) (hstate : s.state.state = .waiting) : Does s .locked s.panic
  | panicPop {dropped : Option Nat} {curr : QueueState} (hholder : s.holder = some (.wakeLocked dropped curr))
      (hcurr : curr.state = .waiting) (hqueue : s.queue = []) : Does s .locked s.panic
  | panicWakeAll {curr : QueueState} (hholder : s.holder = some (.wakeAll curr)) (hcurr : curr.state = .waiting)
      (hne : s.state ≠ curr) : Does s .locked s.panic

theorem pollWait_start (hstart : wait.waiter.state = .start) {q : QueueState} {pushed : Bool} {polled : Poll}
    (hpoll : wait.waiter.pollStart s.state waker = some (q, w, pushed, polled)) :
    s.pollWait i wait waker =
      { s.set i (some (wait.returns waker w polled)) with
        state := q, queue := if pushed then s.queue ++ [i] else s.queue } := by
  rw [Sys.pollWait]
  simp only [hstart, hpoll]

theorem pollStart_does (h : Intact s) (hwait : s.waits i = some wait) (hpolling : wait.polling = .locking waker)
    (hfree : s.holder = none) (hstart : wait.waiter.state = .start) :
    Does s (.pollWait i) (s.pollWait i wait waker) := by
  obtain ⟨hempty, hnone⟩ := (h.good i wait hwait).start hstart
  have henqueue : wait.waiter.enqueue waker =
      some { wait.waiter with state := .waiting, waker := (waker.or wait.waker).elim .empty .waiting } := by
    rw [hnone]
    cases waker with
    | none => exact congrArg some (by rw [← hempty]; rfl)
    | some waker => exact if_pos hempty
  by_cases hsame : s.state.wakeAlls = wait.waiter.wakeAlls
  · cases hstate : s.state.state with
    | empty =>
      have hpoll : wait.waiter.pollStart s.state waker = some (s.state.withState .waiting,
          { wait.waiter with state := .waiting, waker := (waker.or wait.waker).elim .empty .waiting }, true,
          .pending) := by
        simp only [Waiter.pollStart, hsame, ne_eq, not_true, if_false, hstate, henqueue, Option.map_some]
      rw [pollWait_start hstart hpoll]
      exact .enqueue hwait hpolling hfree hstart hsame (.inl hstate)
    | waiting =>
      have hkeep : s.state = s.state.withState .waiting := by rw [QueueState.withState, ← hstate]
      have hpoll : wait.waiter.pollStart s.state waker = some (s.state,
          { wait.waiter with state := .waiting, waker := (waker.or wait.waker).elim .empty .waiting }, true,
          .pending) := by
        simp only [Waiter.pollStart, hsame, ne_eq, not_true, if_false, hstate, henqueue, Option.map_some]
      have hdoes := Does.enqueue hwait hpolling hfree hstart hsame (.inr hstate)
      rw [← hkeep] at hdoes
      rw [pollWait_start hstart hpoll]
      exact hdoes
    | woken =>
      have hpoll : wait.waiter.pollStart s.state waker =
          some (s.state.withState .empty, { wait.waiter with state := .woken }, false, .ready) := by
        simp only [Waiter.pollStart, hsame, ne_eq, not_true, if_false, hstate]
      rw [pollWait_start hstart hpoll]
      exact .take hwait hpolling hfree hstart hsame hstate
    | closed =>
      have hpoll : wait.waiter.pollStart s.state waker =
          some (s.state, { wait.waiter with state := .start }, false, .closed) := by
        simp only [Waiter.pollStart, hsame, ne_eq, not_true, if_false, hstate, ← hstart]
      rw [pollWait_start hstart hpoll]
      exact .refuse hwait hpolling hfree hstart hsame hstate
  · have hpoll : wait.waiter.pollStart s.state waker =
        some (s.state, { wait.waiter with state := .woken }, false, .ready) := by
      simp only [Waiter.pollStart, hsame, ne_eq, not_false_eq_true, if_true]
    rw [pollWait_start hstart hpoll]
    exact .late hwait hpolling hfree hstart hsame

theorem pollWaiting_does (h : Intact s) (hwait : s.waits i = some wait) (hpolling : wait.polling = .locking waker)
    (hfree : s.holder = none) (hstart : wait.waiter.state ≠ .start) :
    Does s (.pollWait i) (s.pollWait i wait waker) := by
  have hgood := h.good i wait hwait
  have hstate : wait.waiter.state = .waiting := by
    cases hstate : wait.waiter.state with
    | start => exact absurd hstate hstart
    | waiting => rfl
    | woken => exact absurd hstate (hgood.locking (by rw [hpolling]; exact fun h => (by cases h)))
  have hpoll : s.pollWait i wait waker = s.set i (some (wait.returns waker (wait.waiter.pollWaiting waker).1
      (wait.waiter.pollWaiting waker).2)) := by
    rw [Sys.pollWait]
    simp only [hstate]
  rw [hpoll]
  obtain hwaker | ⟨hone | hall | hclosed, -⟩ := hgood.wakers hstate
  · have heq : wait.waiter.pollWaiting waker =
        ({ wait.waiter with state := .waiting, waker := (waker.or wait.waker).elim .empty .waiting }, .pending) := by
      rw [Waiter.pollWaiting, hwaker, ← hstate]
      cases wait.waker <;> cases waker <;> rfl
    rw [heq]
    exact .stay hwait hpolling hfree (linked_elim hstate hwaker)
  · rw [show wait.waiter.pollWaiting waker = ({ wait.waiter with state := .woken }, .ready) by
      simp only [Waiter.pollWaiting, hone]]
    exact .told hwait hpolling hfree hstate (.inl ⟨.inl hone, rfl⟩)
  · rw [show wait.waiter.pollWaiting waker = ({ wait.waiter with state := .woken }, .ready) by
      simp only [Waiter.pollWaiting, hall]]
    exact .told hwait hpolling hfree hstate (.inl ⟨.inr hall, rfl⟩)
  · rw [show wait.waiter.pollWaiting waker = ({ wait.waiter with state := .woken }, .closed) by
      simp only [Waiter.pollWaiting, hclosed]]
    exact .told hwait hpolling hfree hstate (.inr ⟨hclosed, rfl⟩)

theorem wakeLocked_does (h : Intact s) {dropped : Option Nat} {curr : QueueState}
    (hholder : s.holder = some (.wakeLocked dropped curr)) : Does s .locked (s.wakeLocked dropped curr) := by
  rw [Sys.wakeLocked]
  by_cases hcurr : curr.state = .waiting
  · rw [if_neg (not_not_intro hcurr)]
    cases hqueue : s.queue with
    | nil => exact .panicPop hholder hcurr hqueue
    | cons i queue =>
      have hi : i ∈ s.queue := hqueue ▸ List.mem_cons_self
      obtain ⟨wait, hwait⟩ := h.alive i hi
      have hgood := h.good i wait hwait
      have hwake := @wake_eq wait.waiter .one wait.waker (hgood.waker_eq (hgood.linked.mp hi))
      simp only [hwait, hwake]
      exact .pop hholder hcurr hqueue hwait
  · rw [if_pos hcurr]
    by_cases hsame : s.state = curr
    · rw [if_pos hsame, ← hsame]
      exact .exchange (hsame ▸ hholder) (hsame ▸ hcurr)
    · rw [if_neg hsame]
      by_cases hstate : s.state.state = .waiting
      · rw [if_pos hstate]
        exact .panicAssert hholder hcurr hstate
      · rw [if_neg hstate]
        exact .fail hholder hcurr hstate hsame

theorem drain_eq (h : Intact s) (htold : Told wakeup) :
    ∃ popped queue waits woken, s.drain wakeup = some { s with queue, waits, woken } ∧ s.queue = popped ++ queue ∧
      Sound queue waits s.created woken ∧
      ∀ i, waits i = if i ∈ popped then (s.waits i).map (tell wakeup) else s.waits i := by
  obtain ⟨popped, queue, waits, batch, heq, hqueue, hsound, hwaits⟩ :=
    @drainToWakeBatch_spec s.created s.queue s.woken []
    s.waits wakeup htold h
  refine ⟨popped, queue, waits, batch ++ s.woken, ?_, hqueue, hsound, hwaits⟩
  rw [Sys.drain, heq]
  rfl

theorem wakeAll_does (h : Intact s) {curr : QueueState} (hholder : s.holder = some (.wakeAll curr)) :
    Does s .locked (s.wakeAll curr) := by
  rw [Sys.wakeAll]
  cases hcurr : curr.state with
  | closed => exact .wakeAllClosed hholder hcurr
  | empty => exact .wakeAllNone hholder (.inl hcurr)
  | woken => exact .wakeAllNone hholder (.inr hcurr)
  | waiting =>
    dsimp only
    by_cases hsame : s.state = curr
    · subst hsame
      obtain ⟨popped, queue, waits, woken, heq, hqueue, hsound, hwaits⟩ := drain_eq h (.inr (.inl rfl))
      rw [if_pos rfl, heq]
      exact .wakeAll hholder hcurr hqueue hsound hwaits
    · rw [if_neg hsame]
      exact .panicWakeAll hholder hcurr hsame

/-- A step in a queue whose list is sound is one of those listed. -/
theorem step_does (h : Intact s) (hstep : s.step a = some t) : Does s a t := by
  rw [Sys.step.eq_def, Option.ite_none_left_eq_some] at hstep
  replace hstep := hstep.2
  cases a with
  | wait => exact Option.some.inj hstep ▸ .wait
  | poll i waker =>
    simp only [Option.bind_eq_bind, Option.bind_eq_some_iff, Option.ite_none_right_eq_some, Option.some.injEq] at hstep
    obtain ⟨wait, hwait, hidle, rfl⟩ := hstep
    rw [Sys.poll]
    cases hstate : wait.waiter.state with
    | start => exact .load hwait hidle hstate
    | waiting => exact .lock hwait hidle hstate
    | woken =>
      rw [show wait.returns waker wait.waiter .ready = moved wait waker .woken .ready by rw [moved, ← hstate]]
      exact .again hwait hidle hstate
  | tryConsume i =>
    simp only [Option.bind_eq_bind, Option.bind_eq_some_iff] at hstep
    obtain ⟨wait, hwait, hstep⟩ := hstep
    cases hpolling : wait.polling with
    | loaded waker q =>
      rw [hpolling] at hstep
      obtain rfl := Option.some.inj hstep
      rw [Sys.tryConsume]
      split
      · exact .consume hwait hpolling ‹_›
      · exact .miss hwait hpolling ‹_›
    | _ => simp only [hpolling, reduceCtorEq] at hstep
  | pollWait i =>
    simp only [Option.bind_eq_bind, Option.bind_eq_some_iff] at hstep
    obtain ⟨wait, hwait, hstep⟩ := hstep
    cases hpolling : wait.polling with
    | locking waker =>
      simp only [hpolling, Option.ite_none_right_eq_some, Option.some.injEq] at hstep
      obtain ⟨hfree, rfl⟩ := hstep
      by_cases hstart : wait.waiter.state = .start
      · exact pollStart_does h hwait hpolling hfree hstart
      · exact pollWaiting_does h hwait hpolling hfree hstart
    | _ => simp only [hpolling, reduceCtorEq] at hstep
  | drop i =>
    simp only [Option.bind_eq_bind, Option.bind_eq_some_iff, Option.ite_none_right_eq_some, Sys.release] at hstep
    obtain ⟨wait, hwait, hidle, hstep⟩ := hstep
    split at hstep
    · exact Option.some.inj hstep ▸ .drop hwait hidle ‹_›
    · simp only [Option.ite_none_right_eq_some, Option.some.injEq] at hstep
      obtain ⟨hfree, rfl⟩ := hstep
      exact .remove hwait hidle (not_not.mp ‹_›) hfree
  | wake =>
    obtain rfl := Option.some.inj hstep
    rw [Sys.wake]
    cases hstate : s.state.state with
    | empty => exact .wakeStored (.inl hstate)
    | waiting => exact .wakeWaiting hstate
    | woken => exact .wakeStored (.inr hstate)
    | closed => exact .wakeClosed hstate
  | lockWake =>
    simp only [Option.ite_none_right_eq_some, Option.some.injEq] at hstep
    obtain ⟨⟨hwaking, hfree⟩, rfl⟩ := hstep
    exact .lockWake hwaking hfree
  | lockWakeAll =>
    simp only [Option.ite_none_right_eq_some, Option.some.injEq] at hstep
    obtain ⟨hfree, rfl⟩ := hstep
    exact .lockWakeAll hfree
  | locked =>
    simp only [Option.map_eq_some_iff] at hstep
    obtain ⟨holder, hholder, rfl⟩ := hstep
    cases holder with
    | wakeLocked dropped curr => exact wakeLocked_does h hholder
    | store dropped actual => exact .store hholder
    | release dropped waker curr => exact .release hholder
    | wakeAll curr => exact wakeAll_does h hholder
  | drainAll =>
    obtain ⟨popped, queue, waits, woken, heq, hqueue, hsound, hwaits⟩ := drain_eq h (.inr (.inl rfl))
    simp only [Option.ite_none_right_eq_some, heq, Option.some.injEq] at hstep
    obtain ⟨⟨hdraining, hfree⟩, rfl⟩ := hstep
    exact .drainAll hdraining hfree hqueue hsound hwaits
  | drainClosed =>
    obtain ⟨popped, queue, waits, woken, heq, hqueue, hsound, hwaits⟩ := drain_eq h (.inr (.inr rfl))
    simp only [Option.ite_none_right_eq_some, heq, Option.some.injEq] at hstep
    obtain ⟨⟨hclosing, hfree⟩, rfl⟩ := hstep
    exact .drainClosed hclosing hfree hqueue hsound hwaits
  | close => exact Option.some.inj hstep ▸ .close
  | tryWait =>
    obtain rfl := Option.some.inj hstep
    split
    · exact .tryWait ‹_›
    · exact .tryWaitNot ‹_›

/-! ## The list in a run -/

theorem Good.polls (h : Good queue created woken i wait) {polling : Polling}
    (hloaded : ∀ waker q, polling = .loaded waker q → wait.waiter.state = .start)
    (hstate : wait.waiter.state ≠ .woken) :
    Good queue created woken i { wait with polling } :=
  ⟨h.created, h.linked, h.start, hloaded, fun _ => hstate, h.pending, h.wakers⟩

/-- A poll that returns, and leaves a node that is not in the list -/
theorem Good.moved (h : Good queue created woken i wait) (hlinked : ¬ wait.waiter.Linked) {state : WaitState}
    {polled : Poll}
    (hstate : state = .woken ∨ state = wait.waiter.state) (hwaiting : state ≠ .waiting) (hpolled : polled ≠ .pending) :
    Good queue created woken i (WaitQueue.moved wait waker state polled) := by
  have hkeep : (WaitQueue.moved wait waker state polled).waker = wait.waker := if_neg hpolled
  refine ⟨h.created, iff_of_false (mt h.linked.mp hlinked) (not_linked_of_state hwaiting), fun hstart => ?_,
    fun _ _ hloaded => (by cases hloaded), fun hidle => absurd rfl hidle, ?_, fun hwait => absurd hwait hwaiting⟩
  · obtain rfl | rfl := hstate
    · cases hstart
    · exact ⟨(h.start hstart).1, hkeep.trans (h.start hstart).2⟩
  · exact iff_of_false (fun heq => hpolled (Option.some.inj heq)) hwaiting

theorem Good.registered (h : Good queue created woken i wait) (hi : i ∈ queue) :
    Good queue created woken i (WaitQueue.registered wait waker) :=
  ⟨h.created, iff_of_true hi (linked_elim rfl rfl), fun hstart => (by cases hstart),
    fun _ _ hloaded => (by cases hloaded),
    fun hidle => absurd rfl hidle, iff_of_true rfl rfl, fun _ => .inl rfl⟩

/-- Each step keeps the list sound. -/
theorem intact_does (h : Intact s) (hdoes : Does s a t) : Intact t := by
  cases hdoes with
  | wait => exact sound_wait h s.state
  | load hwait hidle hstate =>
    exact sound_set h ((h.good _ _ hwait).polls (fun _ _ _ => hstate)
      (by rw [hstate]; decide))
  | lock hwait hidle hstate =>
    exact sound_set h ((h.good _ _ hwait).polls (fun _ _ heq => (by cases heq)) (by rw [hstate]; decide))
  | again hwait hidle hstate =>
    exact sound_set h ((h.good _ _ hwait).moved (not_linked_of_state (by rw [hstate]; decide)) (.inl rfl) (by decide)
      (by decide))
  | consume hwait hpolling hstate =>
    have hgood := h.good _ _ hwait
    exact sound_set h (hgood.moved (not_linked_of_state (by rw [hgood.loaded _ _ hpolling]; decide))
      (.inl rfl) (by decide)
      (by decide))
  | miss hwait hpolling =>
    have hgood := h.good _ _ hwait
    exact sound_set h (hgood.polls (fun _ _ heq => (by cases heq)) (by rw [hgood.loaded _ _ hpolling]; decide))
  | late hwait hpolling hfree hstart hlate =>
    exact sound_set h ((h.good _ _ hwait).moved (not_linked_of_state (by rw [hstart]; decide)) (.inl rfl) (by decide)
      (by decide))
  | @enqueue i waker wait hwait hpolling hfree hstart hsame hstate =>
    have hgood := h.good i wait hwait
    have hi := mt hgood.linked.mp (not_linked_of_state (by rw [hstart]; decide))
    have hmem : i ∈ s.queue ++ [i] := List.mem_append_right _ (List.mem_singleton_self i)
    exact sound_push h hi ⟨hgood.created, iff_of_true hmem (linked_elim rfl rfl), fun hstart => (by cases hstart),
      fun _ _ hloaded => (by cases hloaded), fun hidle => absurd rfl hidle, iff_of_true rfl rfl, fun _ => .inl rfl⟩
  | take hwait hpolling hfree hstart hsame hstate =>
    exact sound_set h ((h.good _ _ hwait).moved (not_linked_of_state (by rw [hstart]; decide)) (.inl rfl) (by decide)
      (by decide))
  | refuse hwait hpolling hfree hstart hsame hstate =>
    exact sound_set h ((h.good _ _ hwait).moved (not_linked_of_state (by rw [hstart]; decide)) (.inr hstart.symm)
      (by decide) (by decide))
  | stay hwait hpolling hfree hlinked =>
    have hgood := h.good _ _ hwait
    exact sound_set h (hgood.registered (hgood.linked.mpr hlinked))
  | told hwait hpolling hfree hstate hpolled =>
    have htold : Told _ := hpolled.elim (fun h => h.1.imp_right .inl) fun h => .inr (.inr h.1)
    exact sound_set h ((h.good _ _ hwait).moved (not_linked_of_told htold) (.inl rfl) (by decide)
      (by obtain ⟨-, rfl⟩ | ⟨-, rfl⟩ := hpolled <;> decide))
  | @drop i wait hwait hidle hstate =>
    have herase := sound_erase h i
    rw [List.erase_of_not_mem (mt (h.good _ _ hwait).linked.mp (not_linked_of_state hstate))] at herase
    exact herase
  | remove => exact sound_erase h _
  | pop hholder hcurr hqueue hwait =>
    have hsound : Sound s.queue s.waits s.created s.woken := h
    rw [hqueue] at hsound
    exact sound_pop hsound hwait (.inl rfl)
  | wakeAll hholder hstate hqueue hsound hwaits => exact hsound
  | drainAll hdraining hfree hqueue hsound hwaits => exact hsound
  | drainClosed hclosing hfree hqueue hsound hwaits => exact hsound
  | _ => exact h

theorem intact_step (h : Intact s) (hstep : s.step a = some t) : Intact t := intact_does h (step_does h hstep)

theorem intact_new {state : State} : Intact (.new state) :=
  ⟨List.nodup_nil, fun _ hi => absurd hi List.not_mem_nil, fun _ _ hwait => (by cases hwait)⟩

end Metor.Proof.WaitQueue
