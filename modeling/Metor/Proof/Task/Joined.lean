import Mathlib.Logic.Relation
import Metor.Proof.Task.Counted

/-!
# The `JoinHandle` of a task

Each step is a move of what the `JoinHandle` is to the task (`joining_step`),
where the slot of the join waker is written before it is read, and the output
is taken once (`joining_move`). Once somebody has taken the join waker, the
task is over (`awaited_step`).
-/

namespace Metor.Proof.Task

open Metor.Lib Metor.Impl.Task

variable {v w : Joining} {s t : Sys} {a : Action}

/-- Nobody polls the task any more, and its join waker is waited for where there is one. -/
theorem joining_over (h : v.Ok) (hfreed : v.freed = 0) {completed hasOutput : Bool} {output : Output}
    {joinWaker : JoinWakerState} {waiting reading : Nat} (hone : waiting + reading ≤ 1)
    (hpast : completed = true ∨ v.canceled = true)
    (hwaiting : 0 < waiting ↔ joinWaker = .registering ∨ joinWaker = .waiting)
    (hregistering : joinWaker = .registering ↔ v.joinWaker = .registering)
    (hslot : v.joinWaker = .waiting ∨ 0 < v.reading ↔ joinWaker = .waiting ∨ 0 < reading)
    (hready : completed = true → v.Joins → hasOutput = true ∧ output = .ready)
    (hpending : completed = false → hasOutput = false ∧ output = .pending)
    (houtput : output = .joined ↔ v.output = .joined) :
    Joining.Ok { v with
      completed := completed, hasOutput := hasOutput, output := output, joinWaker := joinWaker, waiting := waiting,
      reading := reading } :=
  { h with
    one := hone
    past := fun _ => hpast
    waiting := hwaiting.mp
    reading := fun hpos hor => by
      have hpos' : 0 < waiting := hwaiting.mpr hor
      replace hpos : 0 < reading := hpos
      omega
    registering := hregistering.trans h.registering
    slot := fun _ => (h.slot hfreed).trans (by clear * - hslot; grind)
    freed := fun hpos => absurd hfreed (Nat.ne_of_gt hpos)
    kept := fun _ => hwaiting.mpr
    ready := hready
    pending := hpending
    taken := h.taken.trans (if_congr houtput.symm rfl rfl)
    joined := fun ho => h.joined (houtput.mp ho) }

/-- The join waker of a task that nobody polls any more is taken, or waited for. -/
theorem joining_takeWaker (h : v.Ok) (hnone : v.Unclaimed) {completed hasOutput : Bool} {output : Output}
    (hpast : completed = true ∨ v.canceled = true)
    (hready : completed = true → v.Joins → hasOutput = true ∧ output = .ready)
    (hpending : completed = false → hasOutput = false ∧ output = .pending)
    (houtput : output = .joined ↔ v.output = .joined) :
    Joining.Ok (Joining.takeWaker { v with completed := completed, hasOutput := hasOutput, output := output }) := by
  obtain ⟨hwaiting, hreading, hnot, hfreed⟩ := hnone
  cases hj : v.joinWaker with
  | empty =>
    simp only [Joining.takeWaker]
    exact joining_over h hfreed (by omega) hpast (by simp [hwaiting]) (by simp [hj]) (by simp [hj]) hready hpending
      houtput
  | registering =>
    simp only [Joining.takeWaker]
    exact joining_over h hfreed (by omega) hpast (by simp) (by simp [hj]) (by simp [hj]) hready hpending houtput
  | waiting =>
    simp only [Joining.takeWaker]
    exact joining_over h hfreed (by omega) hpast (by simp [hwaiting]) (by simp [hj]) (by simp [hj]) hready hpending
      houtput
  | woken => exact absurd hj hnot

theorem joining_waited (h : v.Ok) (hwaiting : 0 < v.waiting) (hwaker : v.joinWaker = .waiting) :
    Joining.Ok { v with joinWaker := .woken, waiting := v.waiting - 1, reading := v.reading + 1 } :=
  have hone := h.one
  { h with
    one := show v.waiting - 1 + (v.reading + 1) ≤ 1 by omega
    past := fun _ => h.past (.inl (by omega))
    waiting := fun hpos => absurd (show 0 < v.waiting - 1 from hpos) (by omega)
    reading := fun _ hor => hor.elim (fun h => (by cases h)) (fun h => (by cases h))
    registering := by
      have hnot := mt h.registering.mpr (by simp [hwaker])
      exact ⟨fun hj => (by cases hj), fun hor => absurd hor hnot⟩
    slot := fun hfreed => iff_of_true ((h.slot hfreed).mpr (.inl hwaker)) (.inr (.inr (.inr (Nat.succ_pos _))))
    freed := fun hfreed => absurd (h.freed hfreed).2.2.1 (by omega)
    kept := fun _ hor => hor.elim (fun h => (by cases h)) (fun h => (by cases h)) }

theorem joining_wake (h : v.Ok) (hreading : 0 < v.reading) :
    Joining.Ok { v with slot := false, reading := v.reading - 1 } :=
  have hone := h.one
  have hnone : ¬ v.HasWaker := h.reading hreading
  { h with
    one := show v.waiting + (v.reading - 1) ≤ 1 by omega
    past := fun _ => h.past (.inl (by omega))
    reading := fun _ => hnone
    slot := by
      have hnot := mt h.registering.mpr fun hj => hnone (.inl hj)
      refine fun _ => iff_of_false Bool.false_ne_true ?_
      rintro (hj | hj | hj | hr)
      · exact hnone (.inr hj)
      · exact hnot (.inl ⟨false, hj⟩)
      · exact hnot (.inr hj)
      · replace hr : 0 < v.reading - 1 := hr
        omega
    freed := fun hfreed => absurd (h.freed hfreed).2.2.2 (by omega) }

/-- The `JoinHandle` is polled or leaves, and changes the flag of its waker and the slot with it. -/
theorem joining_handle (h : v.Ok) (hjoin : v.join ≠ .gone) {joinWaker : JoinWakerState} {join : Join}
    {hasJoinHandle slot : Bool}
    (hwoken : joinWaker = .woken → v.joinWaker = .woken)
    (hwaker : (joinWaker = .registering ∨ joinWaker = .waiting ↔ v.HasWaker) ∨
      v.completed = false ∧ v.canceled = false)
    (hregistering : joinWaker = .registering ↔ (∃ first, join = .registering first) ∨ join = .registered)
    (hslot : slot = true ↔
      joinWaker = .waiting ∨ join = .registering false ∨ join = .registered ∨ 0 < v.reading)
    (hhandle : hasJoinHandle = true ↔ join ≠ .leaving ∧ join ≠ .gone)
    (hjoins : join ≠ .done → join ≠ .leaving → join ≠ .gone → v.Joins) :
    Joining.Ok { v with joinWaker := joinWaker, join := join, hasJoinHandle := hasJoinHandle, slot := slot } :=
  have hpast : 0 < v.waiting + v.reading → (joinWaker = .registering ∨ joinWaker = .waiting ↔ v.HasWaker) :=
    fun hpos => hwaker.resolve_right fun hnot => (h.past (.inl hpos)).elim
      (fun hc => absurd (hnot.1.symm.trans hc) (by decide)) (fun hn => absurd (hnot.2.symm.trans hn) (by decide))
  { h with
    past := fun hor => h.past (hor.imp_right hwoken)
    waiting := fun hpos => (hpast (Nat.add_pos_left hpos _)).mpr (h.waiting hpos)
    reading := fun hpos => (hpast (Nat.add_pos_right _ hpos)).not.mpr (h.reading hpos)
    registering := hregistering
    slot := fun _ => hslot
    freed := fun hfreed => absurd (h.freed hfreed).2.1 hjoin
    kept := fun hc hor => hwaker.elim (fun hiff => h.kept hc (hiff.mp hor))
      (fun hnot => absurd (hnot.1.symm.trans hc) (by decide))
    handle := hhandle
    ready := fun hc hj => h.ready hc (hjoins hj.1 hj.2.1 hj.2.2)
    joined := fun ho hj => h.joined ho (hjoins hj.1 hj.2.1 hj.2.2) }

theorem joins_of_idle (hjoin : v.join = .idle) : v.Joins := by
  refine ⟨?_, ?_, ?_⟩ <;> rw [hjoin] <;> decide

/-- While the `JoinHandle` is not being polled, the slot has what is registered. -/
theorem slot_of_join (h : v.Ok) (hjoin : v.join ≠ .gone) (hnot : ∀ first, v.join ≠ .registering first)
    (hnot' : v.join ≠ .registered) : v.joinWaker ≠ .registering ∧
      (v.slot = true ↔ v.joinWaker = .waiting ∨ 0 < v.reading) := by
  have hfreed : v.freed = 0 := Nat.eq_zero_of_not_pos fun hfreed => hjoin (h.freed hfreed).2.1
  refine ⟨fun hj => ?_, ?_⟩
  · obtain ⟨first, hfirst⟩ | hjoin := h.registering.mp hj
    · exact hnot first hfirst
    · exact hnot' hjoin
  · rw [h.slot hfreed]
    simp [hnot, hnot']

theorem joining_register (h : v.Ok) (hjoin : v.join = .idle) (hcanceled : v.canceled = false)
    (hleft : v.completed = false ∨ v.hasOutput = false) :
    Joining.Ok { v with joinWaker := .registering, join := .registering (v.joinWaker = .empty) } := by
  have hc : v.completed = false := hleft.elim id fun ho => Bool.eq_false_iff.mpr fun hc =>
    absurd (ho.symm.trans (h.ready hc (joins_of_idle hjoin)).1) (by decide)
  have hpast : ¬ (0 < v.waiting + v.reading ∨ v.joinWaker = .woken) := fun hor => by
    simpa [hc, hcanceled] using h.past hor
  obtain ⟨hnot, hslot⟩ := slot_of_join h (by simp [hjoin]) (by simp [hjoin]) (by simp [hjoin])
  refine joining_handle h (by simp [hjoin]) (fun hj => (by cases hj)) (.inr ⟨hc, hcanceled⟩)
    (iff_of_true rfl (.inl ⟨_, rfl⟩)) ?_ ?_ (fun _ _ _ => joins_of_idle hjoin)
  · rw [hslot]
    cases hj : v.joinWaker <;> simp_all
  · rw [h.handle, hjoin]
    simp

theorem joining_write (h : v.Ok) {first : Bool} (hjoin : v.join = .registering first) :
    Joining.Ok { v with join := .registered, slot := true } := by
  refine joining_handle h (by simp [hjoin]) id (.inl Iff.rfl) ?_ (iff_of_true rfl (.inr (.inr (.inl rfl)))) ?_
    (fun _ _ _ => by simp [Joining.Joins, hjoin])
  · exact iff_of_true (h.registering.mpr (.inl ⟨first, hjoin⟩)) (.inr rfl)
  · rw [h.handle, hjoin]
    simp

theorem joining_registered (h : v.Ok) (hjoin : v.join = .registered) :
    Joining.Ok { v with join := .idle, hasJoinHandle := true, joinWaker := .waiting } := by
  have hj : v.joinWaker = .registering := h.registering.mpr (.inr hjoin)
  have hfreed : v.freed = 0 := Nat.eq_zero_of_not_pos fun hfreed =>
    absurd (h.freed hfreed).2.1 (by simp [hjoin])
  exact joining_handle h (by simp [hjoin]) (fun hj => (by cases hj)) (.inl (iff_of_true (.inr rfl) (.inl hj)))
    (by simp) (iff_of_true ((h.slot hfreed).mpr (.inr (.inr (.inl hjoin)))) (.inl rfl)) (by simp)
    (fun _ _ _ => by simp [Joining.Joins, hjoin])

/-- The `JoinHandle` is done, with what it has of the waker left as it is. -/
theorem joining_leave (h : v.Ok) (hjoin : v.join = .idle ∨ v.join = .done ∨ v.join = .leaving) {join : Join}
    {hasJoinHandle : Bool} (hdone : join = .done ∨ join = .leaving ∨ join = .gone)
    (hhandle : hasJoinHandle = true ↔ join ≠ .leaving ∧ join ≠ .gone) :
    Joining.Ok { v with join := join, hasJoinHandle := hasJoinHandle } := by
  obtain ⟨hnot, hslot⟩ := slot_of_join h (by rintro heq; simp [heq] at hjoin) (by rintro first heq; simp [heq] at hjoin)
    (by rintro heq; simp [heq] at hjoin)
  have hne : (∀ first, join ≠ .registering first) ∧ join ≠ .registered := by
    obtain rfl | rfl | rfl := hdone <;> simp
  refine joining_handle h (by rintro heq; simp [heq] at hjoin) id (.inl Iff.rfl) ?_ ?_ hhandle ?_
  · exact iff_of_false hnot fun hor => hor.elim (fun ⟨first, heq⟩ => hne.1 first heq) hne.2
  · rw [hslot]
    simp [hne]
  · intro hdone' hleaving hgone
    exact absurd hdone (by simp [hdone', hleaving, hgone])

theorem joining_done (h : v.Ok) (hjoin : v.join = .idle) : Joining.Ok { v with join := .done } :=
  joining_leave h (.inl hjoin) (.inl rfl) (by simp [h.handle, hjoin])

theorem joining_dropHandle (h : v.Ok) (hjoin : v.join = .done) :
    Joining.Ok { v with join := .leaving, hasJoinHandle := false } :=
  joining_leave h (.inr (.inl hjoin)) (.inr (.inl rfl)) (by simp)

theorem joining_gone (h : v.Ok) (hjoin : v.join = .leaving) : Joining.Ok { v with join := .gone } :=
  joining_leave h (.inr (.inr hjoin)) (.inr (.inr rfl)) (by simp [h.handle, hjoin])

theorem completed_of_hasOutput (h : v.Ok) (houtput : v.hasOutput = true) : v.completed = true := by
  by_contra hc
  exact absurd (houtput.symm.trans (h.pending (Bool.eq_false_iff.mpr hc)).1) (by decide)

/-- An output that is there is taken by the `JoinHandle` that has not taken it before. -/
theorem ready_of_hasOutput (h : v.Ok) (hjoin : v.join = .idle) (houtput : v.hasOutput = true) : v.output = .ready :=
  (h.ready (completed_of_hasOutput h houtput) (joins_of_idle hjoin)).2

theorem joining_take (h : v.Ok) (hasOutput : Bool) (hjoin : v.join = .idle) (houtput : v.hasOutput = true) :
    Joining.Ok { v with hasOutput := hasOutput, join := .done, output := .joined, taken := v.taken + 1 } :=
  have hnone : v.taken = 0 := by rw [h.taken, if_neg (by simp [ready_of_hasOutput h hjoin houtput])]
  have hcompleted := completed_of_hasOutput h houtput
  { joining_done h hjoin with
    ready := fun _ hj => absurd rfl hj.1
    pending := fun hc => absurd (hc.symm.trans hcompleted) (by decide)
    taken := congrArg (· + 1) hnone
    joined := fun _ hj => absurd rfl hj.1 }

theorem joining_free (h : v.Ok) (hjoin : v.join = .gone) (hwaiting : v.waiting = 0) (hreading : v.reading = 0)
    (hfreed : v.freed = 0) :
    Joining.Ok { v with freed := 1, slot := if v.joinWaker = .waiting then false else v.slot } :=
  { h with
    slot := fun hzero => (by cases hzero)
    freed := by
      refine fun _ => ⟨?_, hjoin, hwaiting, hreading⟩
      have hslot := h.slot hfreed
      by_cases hj : v.joinWaker = .waiting <;> simp_all }

theorem joining_move (h : v.Ok) (hm : Joining.Move v w) : w.Ok := by
  cases hm with
  | keep => exact h
  | cancel =>
    exact ⟨h.one, fun _ => .inr rfl, h.waiting, h.reading, h.registering, h.slot, h.freed, h.kept, h.handle,
      h.ready, h.pending, h.taken, h.joined⟩
  | refuse hn hnone => exact joining_takeWaker h hnone (.inr hn) h.ready h.pending Iff.rfl
  | complete hc hnone =>
    refine joining_takeWaker h hnone (.inl rfl) (fun _ _ => ⟨rfl, rfl⟩) (fun h => (by cases h)) ?_
    rw [(h.pending hc).2]
    decide
  | waited hwaiting hwaker => exact joining_waited h hwaiting hwaker
  | wake hreading => exact joining_wake h hreading
  | register hjoin hcanceled hnot => exact joining_register h hjoin hcanceled hnot
  | write hjoin => exact joining_write h hjoin
  | registered hjoin => exact joining_registered h hjoin
  | take hasOutput hjoin houtput => exact joining_take h hasOutput hjoin houtput
  | done hjoin => exact joining_done h hjoin
  | dropHandle hjoin => exact joining_dropHandle h hjoin
  | gone hjoin => exact joining_gone h hjoin
  | free hjoin hwaiting hreading hfreed => exact joining_free h hjoin hwaiting hreading hfreed

/-! ## Steps -/

/-- Who has taken the join waker -/
def Claimed (s : Sys) : Prop := 0 < s.waiting + s.reading ∨ s.state.joinWaker = .woken

theorem unclaimed (h : Counted s) (hpos : 0 < s.references) (hnot : ¬ Claimed s) : s.joining.Unclaimed := by
  have hnone : s.waiting + s.reading = 0 := by
    by_contra hne
    exact hnot (.inl (Nat.pos_of_ne_zero hne))
  exact ⟨(Nat.add_eq_zero_iff.mp hnone).1, (Nat.add_eq_zero_iff.mp hnone).2, fun hj => hnot (.inr hj), (h.live hpos).2⟩

theorem joining_takesWaker (s : Sys) : (takesWaker s).joining = s.joining.takeWaker := by
  cases hj : s.state.joinWaker <;>
    simp only [takesWaker, Joining.takeWaker, Sys.joining, hj]

theorem joining_wakeByRef (s : Sys) : s.wakeByRef.joining = s.joining := by
  obtain ⟨-, heq⟩ | ⟨-, heq⟩ | ⟨-, -, -, heq⟩ := wakeByRef_cases s
  · rw [heq]
  · rw [heq]
    rfl
  · rw [heq]
    rfl

theorem joining_wakeByVal (s : Sys) : s.wakeByVal.joining = s.joining := by
  obtain ⟨-, heq⟩ | ⟨-, -, -, heq⟩ | ⟨-, -, -, heq⟩ | ⟨-, -, -, heq⟩ := wakeByVal_cases s
  all_goals
    rw [heq]
    rfl

theorem joining_cancel (s : Sys) : Joining.Move s.joining s.cancel.joining := by
  obtain ⟨-, heq⟩ | ⟨-, heq⟩ := cancel_cases s
  · rw [heq]
    exact .keep
  · rw [heq]
    exact .cancel

/-- Where there are no references, nobody has a `JoinHandle` or its waker. -/
theorem joining_deallocate (hnone : s.references = 0) (hfreed : s.freed = 0) :
    Joining.Move s.joining s.deallocate.joining := by
  simp only [Sys.references] at hnone
  have hgone : s.join = .gone := by
    by_contra hne
    rw [if_neg hne] at hnone
    omega
  have hmove := Joining.Move.free (v := s.joining) hgone (show s.waiting = 0 by omega) (show s.reading = 0 by omega)
    hfreed
  show Joining.Move s.joining { s.joining with
    freed := s.freed + 1, slot := if s.state.joinWaker = .waiting then false else s.slot }
  rw [hfreed]
  exact hmove

/-- The task is deallocated with the last reference. -/
theorem joining_dropRef (hrefs : s.state.refs = s.references + 1) (hfreed : s.freed = 0) :
    Joining.Move s.joining s.dropRef.joining := by
  obtain ⟨hlast, heq⟩ | ⟨-, heq⟩ := dropRef_cases s
  · rw [heq]
    exact joining_deallocate (s := { s with state := s.state.decRefs }) (show s.references = 0 by omega) hfreed
  · rw [heq]
    exact .keep

/-- The last reference is dropped once more. -/
theorem joining_dropLast (h : Counted s) (hpos : 0 < s.dropping) :
    Joining.Move s.joining ({ s with dropping := s.dropping - 1 } : Sys).dropRef.joining := by
  have honce := h.once
  have hnone : s.references = 0 := h.last.mpr (by omega)
  have hzero := h.refs (by omega)
  obtain ⟨-, heq⟩ | ⟨hmore, -⟩ := dropRef_cases { s with dropping := s.dropping - 1 }
  · rw [heq]
    exact joining_deallocate hnone (by omega)
  · replace hmore : 1 < s.state.refs := hmore
    omega

theorem joining_startPoll (h : Counted s) (hd : 0 < s.dequeued) (hnot : ¬ Claimed s) :
    Joining.Move s.joining ({ s with dequeued := s.dequeued - 1 } : Sys).startPoll.joining := by
  have hnone := unclaimed h (show 0 < s.references by simp only [Sys.references]; omega) hnot
  obtain ⟨-, heq⟩ | ⟨-, -, hn, heq⟩ | ⟨-, -, -, heq⟩ := startPoll_cases { s with dequeued := s.dequeued - 1 }
  · rw [heq]
    exact .keep
  · rw [heq, joining_takesWaker]
    exact .refuse hn hnone
  · rw [heq]
    exact .keep

theorem joining_endPoll (h : Counted s) (hp : 0 < s.polling) (hnot : ¬ Claimed s) (hc : s.state.completed = false)
    (completed : Bool) :
    Joining.Move s.joining (({ s with polling := s.polling - 1 } : Sys).endPoll completed).joining := by
  cases completed with
  | true =>
    have hnone := unclaimed h (show 0 < s.references by simp only [Sys.references]; omega) hnot
    rw [endPoll_true, joining_takesWaker]
    exact .complete hc hnone
  | false =>
    have hkeep : ({ s.joining with completed := false } : Joining) = s.joining := by
      rw [← hc]
      rfl
    obtain ⟨-, heq⟩ | ⟨-, heq⟩ := endPoll_false { s with polling := s.polling - 1 }
    all_goals
      rw [heq]
      show Joining.Move s.joining { s.joining with completed := false }
      rw [hkeep]
      exact .keep

theorem joining_tryJoin (hidle : s.join = .idle) : Joining.Move s.joining s.tryJoin.joining := by
  obtain ⟨-, -, heq⟩ | ⟨-, ho, heq⟩ | ⟨hn, hc, heq⟩ | ⟨-, -, ho, heq⟩ := tryJoin_cases s
  · rw [heq]
    exact .done hidle
  · rw [heq]
    exact .take s.state.hasOutput hidle ho
  · rw [heq]
    exact .register hidle hn hc
  · rw [heq]
    exact .take false hidle ho

/-- Who has taken the join waker finds the task over, and it is not scheduled again. -/
def Awaited (s : Sys) : Prop := Claimed s → s.sched.Over

theorem not_claimed (h : Awaited s) (hpos : 0 < s.sched.scheduled + s.sched.polls) : ¬ Claimed s :=
  fun hclaimed => absurd (h hclaimed).1 (Nat.ne_of_gt hpos)

/-- Every step is a move of what the `JoinHandle` is to the task, or two where it leaves with the last reference. -/
theorem joining_step (h : Counted s) (hok : s.sched.Ok) (ha : Awaited s) (hstep : s.step a = some t) :
    Relation.ReflTransGen Joining.Move s.joining t.joining := by
  have hdrop : ∀ {s' : Sys}, s'.state.refs = s.state.refs → s.references = s'.references + 1 → s'.freed = s.freed →
      s'.joining = s.joining → Joining.Move s.joining s'.dropRef.joining := by
    intro s' hrefs hreferences hfreed hjoining
    have hlive := h.live (by omega)
    rw [← hjoining]
    refine joining_dropRef ?_ (hfreed.trans hlive.2)
    rw [hrefs, h.refs hlive.2, hreferences]
  cases step_does hstep with
  | drop hpos =>
    exact .single (@hdrop { s with handles := s.handles - 1 } rfl (by simp only [Sys.references]; omega) rfl rfl)
  | wakeByRef => rw [joining_wakeByRef]
  | wakeByVal => rw [joining_wakeByVal]
  | cancel => exact .single (joining_cancel s)
  | wakeCanceled =>
    rw [joining_wakeByRef]
    exact .refl
  | leave hpos =>
    exact .single (@hdrop { s with leaving := s.leaving - 1 } rfl (by simp only [Sys.references]; omega) rfl rfl)
  | dropLast hpos => exact .single (joining_dropLast h hpos)
  | startPoll hpos =>
    refine .single (joining_startPoll h hpos (not_claimed ha ?_))
    show 0 < s.entering + s.waking + s.queued + s.dequeued + s.polling
    omega
  | @endPoll completed hp =>
    have hpos : 0 < s.sched.scheduled + s.sched.polls := Nat.lt_of_lt_of_le hp (Nat.le_add_left _ _)
    refine .single (joining_endPoll h hp (not_claimed ha hpos) (Bool.eq_false_iff.mpr fun hc => ?_) completed)
    exact absurd (hok.completed hc) (Nat.ne_of_gt hpos)
  | waitForJoinWaker hpos hstate => exact .single (.waited hpos hstate)
  | wakeJoinWaker hpos => exact .single (.wake hpos)
  | finish hpos =>
    exact .single (@hdrop { s with finishing := s.finishing - 1 } rfl (by simp only [Sys.references]; omega) rfl rfl)
  | tryJoin hidle => exact .single (joining_tryJoin hidle)
  | writeJoinWaker hjoin => exact .single (.write hjoin)
  | setJoinWakerRegistered hjoin => exact .single (.registered hjoin)
  | dropJoin hidle => exact .single (.done hidle)
  | dropJoinHandle hjoin => exact .single (.dropHandle hjoin)
  | leaveJoin hjoin =>
    have hreferences : s.references = ({ s with join := .gone } : Sys).references + 1 := by
      simp [Sys.references, hjoin]
    have hlive := h.live (by omega)
    refine .tail (.single (.gone hjoin)) (joining_dropRef (s := { s with join := .gone }) ?_ hlive.2)
    show s.state.refs = _
    rw [h.refs hlive.2, hreferences]
  | _ => exact .refl

/-! ## Who takes the join waker -/

/-- A task that is over stays so. -/
theorem over_move {v w : Sched} (h : v.Over) (hm : Sched.Move v w) : w.Over := by
  obtain ⟨hnone, hwhy⟩ := h
  cases hm with
  | keep => exact ⟨hnone, hwhy⟩
  | enqueue hp hw hc =>
    obtain hc' | ⟨-, hw'⟩ := hwhy
    · exact absurd (hc.symm.trans hc') (by decide)
    · exact absurd (hw.symm.trans hw') (by decide)
  | wake hp => exact ⟨hnone, hwhy.imp_right fun h => ⟨h.1, rfl⟩⟩
  | cancel => exact ⟨hnone, hwhy.imp_right fun _ => ⟨rfl, rfl⟩⟩
  | start hs => omega
  | refuse hs => omega
  | complete hp => omega
  | pause hp => omega
  | again hp => omega
  | close => exact ⟨hnone, hwhy⟩

theorem claimed_dropRef (s : Sys) : Claimed s.dropRef ↔ Claimed s := by
  obtain ⟨-, heq⟩ | ⟨-, heq⟩ := dropRef_cases s
  all_goals
    rw [heq]
    rfl

theorem claimed_of_joining (h : t.joining = s.joining) : Claimed t ↔ Claimed s := by
  show 0 < t.joining.waiting + t.joining.reading ∨ t.joining.joinWaker = .woken ↔ Claimed s
  rw [h]
  rfl

theorem awaited_startPoll (hok : s.sched.Ok) (hd : 0 < s.dequeued) (hnot : ¬ Claimed s) :
    Awaited ({ s with dequeued := s.dequeued - 1 } : Sys).startPoll := by
  obtain ⟨-, heq⟩ | ⟨-, -, hn, heq⟩ | ⟨-, -, -, heq⟩ := startPoll_cases { s with dequeued := s.dequeued - 1 }
  · rw [heq]
    exact fun hclaimed => absurd hclaimed hnot
  · have hone : s.entering + s.waking + s.queued + s.dequeued + s.polling ≤ 1 := hok.one
    have hwoken : s.state.woken = true := hok.woken (show 0 < s.entering + s.waking + s.queued + s.dequeued by omega)
    rw [heq]
    intro _
    rw [sched_takesWaker]
    refine ⟨?_, .inr ⟨hn, hwoken⟩⟩
    show s.entering + s.waking + s.queued + (s.dequeued - 1) + s.polling = 0
    omega
  · rw [heq]
    exact fun hclaimed => absurd hclaimed hnot

theorem awaited_endPoll (hok : s.sched.Ok) (hp : 0 < s.polling) (hnot : ¬ Claimed s) (completed : Bool) :
    Awaited (({ s with polling := s.polling - 1 } : Sys).endPoll completed) := by
  cases completed with
  | true =>
    have hone : s.entering + s.waking + s.queued + s.dequeued + s.polling ≤ 1 := hok.one
    rw [endPoll_true]
    intro _
    rw [sched_takesWaker]
    refine ⟨?_, .inl rfl⟩
    show s.entering + s.waking + s.queued + s.dequeued + (s.polling - 1) = 0
    omega
  | false =>
    obtain ⟨-, heq⟩ | ⟨-, heq⟩ := endPoll_false { s with polling := s.polling - 1 }
    all_goals
      rw [heq]
      exact fun hclaimed => absurd hclaimed hnot

theorem claimed_cancel (hnot : ¬ Claimed s) : ¬ Claimed s.cancel := by
  obtain ⟨-, heq⟩ | ⟨-, heq⟩ := cancel_cases s
  · rw [heq]
    exact hnot
  · rw [heq]
    exact hnot

theorem claimed_tryJoin (hnot : ¬ Claimed s) : ¬ Claimed s.tryJoin := by
  obtain ⟨-, -, heq⟩ | ⟨-, -, heq⟩ | ⟨-, -, heq⟩ | ⟨-, -, -, heq⟩ := tryJoin_cases s
  · rw [heq]
    exact hnot
  · rw [heq]
    exact hnot
  · rw [heq]
    exact fun hclaimed => hnot (.inl (hclaimed.resolve_right (fun h => (by cases h))))
  · rw [heq]
    exact hnot

theorem awaited_step (hok : s.sched.Ok) (ha : Awaited s) (hstep : s.step a = some t) : Awaited t := by
  by_cases hnot : Claimed s
  · exact fun _ => over_move (ha hnot) (sched_step hstep)
  have hjoining : t.joining = s.joining → Awaited t := fun heq hclaimed => absurd ((claimed_of_joining heq).mp hclaimed)
    hnot
  cases step_does hstep with
  | drop => exact fun hclaimed => absurd ((claimed_dropRef _).mp hclaimed) hnot
  | wakeByRef => exact hjoining (joining_wakeByRef _)
  | wakeByVal => exact hjoining (joining_wakeByVal _)
  | cancel => exact fun hclaimed => absurd hclaimed (claimed_cancel hnot)
  | wakeCanceled => exact hjoining (joining_wakeByRef _)
  | leave => exact fun hclaimed => absurd ((claimed_dropRef _).mp hclaimed) hnot
  | dropLast => exact fun hclaimed => absurd ((claimed_dropRef _).mp hclaimed) hnot
  | startPoll hpos => exact awaited_startPoll hok hpos hnot
  | endPoll hpos => exact awaited_endPoll hok hpos hnot _
  | waitForJoinWaker hpos => exact absurd (.inl (Nat.lt_of_lt_of_le hpos (Nat.le_add_right _ _))) hnot
  | wakeJoinWaker hpos => exact absurd (.inl (Nat.lt_of_lt_of_le hpos (Nat.le_add_left _ _))) hnot
  | finish => exact fun hclaimed => absurd ((claimed_dropRef _).mp hclaimed) hnot
  | tryJoin => exact fun hclaimed => absurd hclaimed (claimed_tryJoin hnot)
  | writeJoinWaker => exact fun hclaimed => absurd hclaimed hnot
  | setJoinWakerRegistered =>
    exact fun hclaimed => absurd (hclaimed.resolve_right (fun h => (by cases h))) fun h => hnot (.inl h)
  | dropJoin => exact fun hclaimed => absurd hclaimed hnot
  | dropJoinHandle => exact fun hclaimed => absurd hclaimed hnot
  | leaveJoin => exact fun hclaimed => absurd ((claimed_dropRef _).mp hclaimed) hnot
  | _ => exact hjoining rfl

end Metor.Proof.Task
