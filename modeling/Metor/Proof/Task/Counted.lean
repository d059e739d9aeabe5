import Metor.Proof.Task.Steps

/-!
# The references of a task

They are counted, and the last one that is dropped deallocates the task
(`counted_step`). Where `wake_by_val` drops the last one it is dropped once
more, after the count was zero.
-/

namespace Metor.Proof.Task

open Metor.Lib Metor.Impl.Task

variable {s t : Sys} {a : Action}

/-- The references are counted, until the last is dropped. -/
structure Counted (s : Sys) : Prop where
  refs : s.freed = 0 → s.state.refs = s.references
  bound : s.references < refsBound
  once : s.dropping + s.freed ≤ 1
  last : s.references = 0 ↔ s.dropping + s.freed = 1

/-- While somebody has a reference, the task is there. -/
theorem Counted.live (h : Counted s) (hpos : 0 < s.references) : s.dropping = 0 ∧ s.freed = 0 := by
  have honce := h.once
  have hlast := h.last
  omega

theorem counted_keep (h : Counted s) (hrefs : t.state.refs = s.state.refs) (hreferences : t.references = s.references)
    (hdropping : t.dropping = s.dropping) (hfreed : t.freed = s.freed) : Counted t := by
  refine ⟨fun hf => ?_, ?_, ?_, ?_⟩
  · rw [hrefs, hreferences]
    exact h.refs (hfreed ▸ hf)
  · rw [hreferences]
    exact h.bound
  · rw [hdropping, hfreed]
    exact h.once
  · rw [hreferences, hdropping, hfreed]
    exact h.last

/-- A reference more -/
theorem counted_clone (h : Counted s) (hfits : s.references + 1 < refsBound) (hpos : 0 < s.references)
    (hrefs : t.state.refs = s.state.cloneRef.refs) (hreferences : t.references = s.references + 1)
    (hdropping : t.dropping = s.dropping) (hfreed : t.freed = s.freed) : Counted t := by
  obtain ⟨hd, hf⟩ := h.live hpos
  have hcount := h.refs hf
  have hclone : s.state.cloneRef.refs = s.references + 1 := by
    show (if s.state.refs + 1 = refsBound then 0 else s.state.refs + 1) = s.references + 1
    rw [hcount, if_neg (Nat.ne_of_lt hfits)]
  refine ⟨fun _ => ?_, by omega, by omega, by omega⟩
  rw [hrefs, hclone, hreferences]

/-- A reference less, and the task is deallocated with the last one. -/
theorem counted_dropRef (h : Counted s) (s' : Sys) (hrefs : s'.state.refs = s.state.refs)
    (hreferences : s.references = s'.references + 1) (hdropping : s'.dropping = s.dropping)
    (hfreed : s'.freed = s.freed) :
    Counted s'.dropRef := by
  obtain ⟨hd, hf⟩ := h.live (by omega)
  have hcount := h.refs hf
  have hbound := h.bound
  have hdec : s'.state.decRefs.refs = s'.references := by
    show (if s'.state.refs = 0 then refsBound - 1 else s'.state.refs - 1) = s'.references
    rw [if_neg (by omega)]
    omega
  obtain ⟨hlast, heq⟩ | ⟨hmore, heq⟩ := dropRef_cases s'
  · rw [heq]
    refine ⟨fun hzero => ?_, ?_, ?_, ?_⟩
    · replace hzero : s'.freed + 1 = 0 := hzero
      omega
    · show s'.references < refsBound
      omega
    · show s'.dropping + (s'.freed + 1) ≤ 1
      omega
    · show s'.references = 0 ↔ s'.dropping + (s'.freed + 1) = 1
      omega
  · rw [heq]
    refine ⟨fun _ => hdec, ?_, ?_, ?_⟩
    · show s'.references < refsBound
      omega
    · show s'.dropping + s'.freed ≤ 1
      omega
    · show s'.references = 0 ↔ s'.dropping + s'.freed = 1
      omega

theorem references_pos (h : s.Lends) : 0 < s.references := by
  rw [Sys.references]
  obtain h | h | h := h
  · omega
  · omega
  · rw [h, if_neg (by decide)]
    omega

theorem counted_wakeByRef (h : Counted s) (hfits : s.references + 1 < refsBound) (hlends : s.Lends) :
    Counted s.wakeByRef := by
  obtain ⟨-, heq⟩ | ⟨-, heq⟩ | ⟨-, -, -, heq⟩ := wakeByRef_cases s
  · rw [heq]
    exact h
  · rw [heq]
    exact counted_keep h rfl rfl rfl rfl
  · rw [heq]
    refine counted_clone h hfits (references_pos hlends) rfl ?_ rfl rfl
    simp only [Sys.references]
    omega

/-- A reference less, where it is the last one but for one thread that drops it again -/
theorem counted_less (h : Counted s) (hrefs : t.state.refs = s.state.decRefs.refs)
    (hreferences : s.references = t.references + 1)
    (hfreed : t.freed = s.freed)
    (hlast : t.references = 0 ∧ t.dropping = s.dropping + 1 ∨ 0 < t.references ∧ t.dropping = s.dropping) :
    Counted t := by
  obtain ⟨hd, hf⟩ := h.live (by omega)
  have hcount := h.refs hf
  have hbound := h.bound
  have hdec : s.state.decRefs.refs = t.references := by
    show (if s.state.refs = 0 then refsBound - 1 else s.state.refs - 1) = t.references
    rw [if_neg (by omega)]
    omega
  exact ⟨fun _ => hrefs.trans hdec, by omega, by omega, by omega⟩

/-- Waking by value drops the waker's reference. -/
theorem counted_wakeByVal (h : Counted s) (hok : s.sched.Ok) (hfits : s.references + 1 < refsBound)
    (hpos : 0 < s.handles) :
    Counted s.wakeByVal := by
  have hlends := references_pos (.inl hpos)
  have hcount := h.refs (h.live hlends).2
  have hless : ∀ state : State, ∀ n, s.references =
      ({ s with state := state, handles := s.handles - 1, dropping := n } : Sys).references + 1 := by
    intro state n
    simp only [Sys.references]
    omega
  have hdec : s.state.decRefs.refs = s.references - 1 := by
    show (if s.state.refs = 0 then refsBound - 1 else s.state.refs - 1) = s.references - 1
    rw [if_neg (by omega), hcount]
  obtain ⟨hp, heq⟩ | ⟨-, -, hzero, heq⟩ | ⟨-, -, hmore, heq⟩ | ⟨-, -, -, heq⟩ := wakeByVal_cases s
  · rw [heq]
    refine counted_less h rfl (hless _ _) rfl (.inr ⟨?_, rfl⟩)
    have hpolls : 0 < s.polling := hok.polling.mp hp
    simp only [Sys.references]
    omega
  · have href := hless s.state.decRefs (s.dropping + 1)
    rw [heq]
    exact counted_less h rfl href rfl (.inl ⟨by omega, rfl⟩)
  · have href := hless s.state.decRefs s.dropping
    rw [heq]
    exact counted_less h rfl href rfl (.inr ⟨by omega, rfl⟩)
  · rw [heq]
    refine counted_clone h hfits hlends rfl ?_ rfl rfl
    simp only [Sys.references]
    omega

theorem counted_takesWaker {s' : Sys} (h : Counted s) (hrefs : s'.state.refs = s.state.refs)
    (hreferences : s.references = s'.references + 1) (hdropping : s'.dropping = s.dropping)
    (hfreed : s'.freed = s.freed) :
    Counted (takesWaker s') := by
  simp only [Sys.references] at hreferences
  rw [takesWaker]
  cases s'.state.joinWaker with
  | registering => exact counted_keep h hrefs (by simp only [Sys.references]; omega) hdropping hfreed
  | waiting => exact counted_keep h hrefs (by simp only [Sys.references]; omega) hdropping hfreed
  | empty => exact counted_keep h hrefs (by simp only [Sys.references]; omega) hdropping hfreed
  | woken => exact counted_keep h hrefs (by simp only [Sys.references]; omega) hdropping hfreed

/-- One thread goes to where the scheduler, or the task, keeps its reference. -/
theorem counted_startPoll (h : Counted s) (hd : 0 < s.dequeued) :
    Counted ({ s with dequeued := s.dequeued - 1 } : Sys).startPoll := by
  have hless : s.references = ({ s with dequeued := s.dequeued - 1 } : Sys).references + 1 := by
    simp only [Sys.references]
    omega
  obtain ⟨-, heq⟩ | ⟨-, -, -, heq⟩ | ⟨-, -, -, heq⟩ := startPoll_cases { s with dequeued := s.dequeued - 1 }
  · rw [heq]
    exact counted_keep h rfl (by simp only [Sys.references]; omega) rfl rfl
  · rw [heq]
    exact counted_takesWaker h rfl hless rfl rfl
  · rw [heq]
    exact counted_keep h rfl (by simp only [Sys.references]; omega) rfl rfl

theorem counted_endPoll (h : Counted s) (hp : 0 < s.polling) (completed : Bool) :
    Counted (({ s with polling := s.polling - 1 } : Sys).endPoll completed) := by
  cases completed with
  | true =>
    rw [endPoll_true]
    exact counted_takesWaker h rfl (by simp only [Sys.references]; omega) rfl rfl
  | false =>
    obtain ⟨-, heq⟩ | ⟨-, heq⟩ := endPoll_false { s with polling := s.polling - 1 }
    · rw [heq]
      exact counted_keep h rfl (by simp only [Sys.references]; omega) rfl rfl
    · rw [heq]
      exact counted_keep h rfl (by simp only [Sys.references]; omega) rfl rfl

theorem counted_cancel (h : Counted s) : Counted s.cancel := by
  obtain ⟨-, heq⟩ | ⟨-, heq⟩ := cancel_cases s
  · rw [heq]
    exact h
  · rw [heq]
    exact counted_keep h rfl rfl rfl rfl

/-- The `JoinHandle` keeps its reference until it leaves. -/
theorem references_of_join {s' : Sys} (hjoin : s'.join = .gone ↔ s.join = .gone)
    (hrest : ({ s' with join := s.join } : Sys).references = s.references) : s'.references = s.references := by
  rw [← hrest]
  simp only [Sys.references, hjoin]

theorem counted_tryJoin (h : Counted s) (hidle : s.join = .idle) : Counted s.tryJoin := by
  have hgone : s.join ≠ .gone := by
    rw [hidle]
    decide
  have hdone : Join.done = .gone ↔ s.join = .gone := iff_of_false (by decide) hgone
  obtain ⟨-, -, heq⟩ | ⟨-, -, heq⟩ | ⟨-, -, heq⟩ | ⟨-, -, -, heq⟩ := tryJoin_cases s
  · rw [heq]
    exact counted_keep h rfl (references_of_join hdone rfl) rfl rfl
  · rw [heq]
    exact counted_keep h rfl (references_of_join hdone rfl) rfl rfl
  · rw [heq]
    exact counted_keep h rfl (references_of_join (iff_of_false (fun h => (by cases h)) hgone) rfl) rfl rfl
  · rw [heq]
    exact counted_keep h rfl (references_of_join hdone rfl) rfl rfl

/-- The task is deallocated, though its count is less than zero now. -/
theorem counted_dropLast (h : Counted s) (hpos : 0 < s.dropping) :
    Counted ({ s with dropping := s.dropping - 1 } : Sys).dropRef := by
  have honce := h.once
  have hnone : s.references = 0 := h.last.mpr (by omega)
  have hzero := h.refs (by omega)
  have hbound := h.bound
  obtain ⟨-, heq⟩ | ⟨hmore, -⟩ := dropRef_cases { s with dropping := s.dropping - 1 }
  · rw [heq]
    refine ⟨fun hf => ?_, hbound, ?_, ?_⟩
    · replace hf : s.freed + 1 = 0 := hf
      omega
    · show s.dropping - 1 + (s.freed + 1) ≤ 1
      omega
    · show s.references = 0 ↔ s.dropping - 1 + (s.freed + 1) = 1
      omega
  · replace hmore : 1 < s.state.refs := hmore
    omega

/-- Every step keeps the count. -/
theorem counted_step (h : Counted s) (hok : s.sched.Ok) (hfits : s.Fits a) (hstep : s.step a = some t) : Counted t := by
  cases step_does hstep with
  | clone hlends =>
    exact counted_clone h hfits (references_pos hlends) rfl (by simp only [Sys.references]; omega) rfl rfl
  | drop hpos =>
    exact counted_dropRef h { s with handles := s.handles - 1 } rfl (by simp only [Sys.references]; omega) rfl rfl
  | wakeByRef hlends => exact counted_wakeByRef h hfits hlends
  | wakeByVal hpos => exact counted_wakeByVal h hok hfits hpos
  | cancel => exact counted_cancel h
  | wakeCanceled hpos hlends =>
    exact counted_wakeByRef (s := { s with canceling := s.canceling - 1 }) (counted_keep h rfl rfl rfl rfl) hfits hlends
  | leave hpos =>
    exact counted_dropRef h { s with leaving := s.leaving - 1 } rfl (by simp only [Sys.references]; omega) rfl rfl
  | dropLast hpos => exact counted_dropLast h hpos
  | startPoll hpos => exact counted_startPoll h hpos
  | endPoll hpos => exact counted_endPoll h hpos _
  | finish hpos =>
    exact counted_dropRef h { s with finishing := s.finishing - 1 } rfl (by simp only [Sys.references]; omega) rfl rfl
  | tryJoin hidle => exact counted_tryJoin h hidle
  | writeJoinWaker hjoin => exact counted_keep h rfl (references_of_join (by simp [hjoin]) rfl) rfl rfl
  | setJoinWakerRegistered hjoin => exact counted_keep h rfl (references_of_join (by simp [hjoin]) rfl) rfl rfl
  | dropJoin hidle => exact counted_keep h rfl (references_of_join (by simp [hidle]) rfl) rfl rfl
  | dropJoinHandle hjoin => exact counted_keep h rfl (references_of_join (by simp [hjoin]) rfl) rfl rfl
  | leaveJoin hjoin => exact counted_dropRef h { s with join := .gone } rfl (by simp [Sys.references, hjoin]) rfl rfl
  | close => exact counted_keep h rfl rfl rfl rfl
  | _ => exact counted_keep h rfl (by simp only [Sys.references]; omega) rfl rfl

end Metor.Proof.Task
