import Metor.Spec.Streams

/-!
# Where the tasks of a paused stream end

A step of a task is one of a few (`step_cases`), and brings a task of a paused
stream nearer to where it waits (`distance_lt`), which no other task changes
(`step_eq_none`). So some run gets to where no task can go on
(`exists_stuck`).
-/

namespace Metor.Proof.FixedRate

open Metor.Lib Metor.Impl Metor.Impl.FixedRate

/-! ## What a step does -/

section
variable {st st' : FixedRateStreamState} {task task' : Task}

/-- A step of a task, by where the task is. -/
inductive TaskStep (st : FixedRateStreamState) (task : Task) : FixedRateStreamState → Task → Prop
  | start (pc : task.pc = .top) : TaskStep st task st { task with pc := .started (.start st.wakeAlls) }
  | subscribe (waiter : Waiter) (pc : task.pc = .started waiter) :
    TaskStep st task st { task with pc := .check (waiter.poll st.wakeAlls) }
  | playing (waiter : Waiter) (pc : task.pc = .check waiter) (playing : st.isPlaying = true) :
    TaskStep st task st { task with pc := .sample }
  | scrubbed (waiter : Waiter) (pc : task.pc = .check waiter) (scrubbed : st.isScrubbed = true) :
    TaskStep st task { st with isScrubbed := false } { task with pc := .sample }
  | block (waiter : Waiter) (pc : task.pc = .check waiter) (scrubbed : st.isScrubbed = false) :
    TaskStep st task st { task with pc := .await waiter }
  | wake (waiter : Waiter) (pc : task.pc = .await waiter) (woken : waiter.poll st.wakeAlls = .woken) :
    TaskStep st task st { task with pc := .top }
  | pass (pc : task.pc = .sample) (pc' : Pc) (next : pc' = .top ∨ pc' = .written ∨ pc' = .panicked ∨ ∃ t, pc' = .tick t)
    (missing : ¬task.source.HasSample st.currentTick) : TaskStep st task st { task with pc := pc' }
  | emit (pc : task.pc = .sample) (timestamp : Int) (data : Bytes)
    (found : task.source.sample st.currentTick = .found timestamp data) :
    TaskStep st task st ⟨task.source.sent timestamp, .tick st.currentTick,
      task.emitted ++ [⟨st.currentTick, timestamp, data⟩]⟩
  | increment (last : Int) (pc : task.pc = .tick last) :
    TaskStep st task (tryIncrementTick st last) { task with pc := task.source.next }

theorem next_eq (source : Source) : source.next = .top ∨ source.next = .written := by
  cases source with
  | stage => exact .inr rfl
  | msgs => exact .inl rfl

theorem step_cases (h : task.step st = some (st', task')) : TaskStep st task st' task' := by
  unfold Task.step at h
  split at h
  · next hpc =>
    cases h
    exact .start hpc
  · next waiter hpc =>
    cases h
    exact .subscribe waiter hpc
  · next waiter hpc =>
    split at h
    · next hplaying =>
      cases h
      exact .playing waiter hpc hplaying
    · split at h
      · next hscrubbed =>
        cases h
        exact .scrubbed waiter hpc hscrubbed
      · next hscrubbed =>
        cases h
        exact .block waiter hpc (Bool.eq_false_of_not_eq_true hscrubbed)
  · next waiter hpc =>
    split at h
    · next hwoken =>
      cases h
      exact .wake waiter hpc hwoken
    · cases h
  · next hpc =>
    have hmissing {x : Sample} (hx : task.source.sample st.currentTick = x) (hne : ∀ t d, x ≠ .found t d) :
        ¬task.source.HasSample st.currentTick := fun ⟨t, d, e⟩ => hne t d (hx.symm.trans e)
    split at h
    · next hx =>
      cases h
      refine .pass hpc _ ?_ (hmissing hx (by simp))
      rcases next_eq task.source with e | e
      · exact .inl e
      · exact .inr (.inl e)
    · next hx =>
      cases h
      exact .pass hpc _ (.inr (.inr (.inr ⟨_, rfl⟩))) (hmissing hx (by simp))
    · next hx =>
      cases h
      exact .pass hpc _ (.inr (.inr (.inl rfl))) (hmissing hx (by simp))
    · next timestamp data hx =>
      cases h
      exact .emit hpc timestamp data hx
  · next last hpc =>
    cases h
    exact .increment last hpc
  · cases h
  · cases h

/-- Whether a task can take a step does not depend on the other tasks. -/
theorem step_eq_none (h : task.step st = none) (hw : st'.wakeAlls = st.wakeAlls) : task.step st' = none := by
  unfold Task.step at *
  cases hpc : task.pc with
  | top => simp [hpc] at h
  | started waiter => simp [hpc] at h
  | check waiter =>
    simp only [hpc] at h
    split at h
    · cases h
    · split at h <;> cases h
  | await waiter =>
    simp only [hpc, hw] at h ⊢
    split at h
    · cases h
    · next hn => exact if_neg hn
  | sample =>
    simp only [hpc] at h
    split at h <;> cases h
  | tick last => simp [hpc] at h
  | written => rfl
  | panicked => rfl

theorem tryIncrementTick_spec (st : FixedRateStreamState) (last : Int) :
    (tryIncrementTick st last).isScrubbed = st.isScrubbed ∧ (tryIncrementTick st last).isPlaying = st.isPlaying ∧
      (tryIncrementTick st last).wakeAlls = st.wakeAlls := by
  unfold tryIncrementTick
  split <;> exact ⟨rfl, rfl, rfl⟩

/-! ## Runs that end -/

/-- How far a task is from waiting, with the flag cleared. -/
def rank (wakeAlls : Nat) : Pc → Nat
  | .top => 3
  | .started waiter => if waiter.poll wakeAlls = .woken then 6 else 2
  | .check waiter => if waiter.poll wakeAlls = .woken then 5 else 1
  | .await waiter => if waiter.poll wakeAlls = .woken then 4 else 0
  | .sample => 5
  | .tick _ => 4
  | .written | .panicked => 0

/-- How far it is with the flag as it is. -/
def distance (st : FixedRateStreamState) (task : Task) : Nat := 7 * st.isScrubbed.toNat + rank st.wakeAlls task.pc

theorem poll_poll (wakeAlls : Nat) (waiter : Waiter) : (waiter.poll wakeAlls).poll wakeAlls = waiter.poll wakeAlls := by
  cases waiter with
  | start n =>
    rw [Waiter.poll]
    split <;> rfl
  | waiting | woken => rfl

/-- While the stream is paused, each step of a task brings it nearer to waiting. -/
theorem distance_lt (hp : st.isPlaying = false) (h : TaskStep st task st' task') :
    distance st' task' < distance st task ∧ st'.isPlaying = false ∧ st'.wakeAlls = st.wakeAlls := by
  unfold distance
  cases h with
  | start pc =>
    refine ⟨Nat.add_lt_add_left ?_ _, hp, rfl⟩
    have : Waiter.poll st.wakeAlls (.start st.wakeAlls) ≠ .woken := by
      rw [Waiter.poll, if_pos rfl]
      decide
    rw [pc, rank, rank, if_neg this]
    decide
  | subscribe waiter pc =>
    refine ⟨Nat.add_lt_add_left ?_ _, hp, rfl⟩
    rw [pc, rank, rank, poll_poll]
    split <;> decide
  | playing waiter pc playing => rw [hp] at playing; cases playing
  | scrubbed waiter pc scrubbed =>
    refine ⟨?_, hp, rfl⟩
    rw [scrubbed]
    show 7 * 0 + 5 < 7 * 1 + _
    omega
  | block waiter pc scrubbed =>
    refine ⟨Nat.add_lt_add_left ?_ _, hp, rfl⟩
    rw [pc, rank, rank]
    split <;> decide
  | wake waiter pc woken =>
    refine ⟨Nat.add_lt_add_left ?_ _, hp, rfl⟩
    rw [pc, rank, rank, if_pos woken]
    decide
  | pass pc pc' next missing =>
    refine ⟨Nat.add_lt_add_left ?_ _, hp, rfl⟩
    rw [pc]
    rcases next with rfl | rfl | rfl | ⟨t, rfl⟩
    · exact (show 3 < 5 by decide)
    · exact (show 0 < 5 by decide)
    · exact (show 0 < 5 by decide)
    · exact (show 4 < 5 by decide)
  | emit pc timestamp data found =>
    refine ⟨Nat.add_lt_add_left ?_ _, hp, rfl⟩
    rw [pc]
    exact (show 4 < 5 by decide)
  | increment last pc =>
    obtain ⟨hs, hpl, hw⟩ := tryIncrementTick_spec st last
    refine ⟨?_, hpl.trans hp, hw⟩
    rw [hs, hw, pc]
    refine Nat.add_lt_add_left ?_ _
    show rank st.wakeAlls task.source.next < 4
    rcases next_eq task.source with e | e
    · rw [e]
      exact (show 3 < 4 by decide)
    · rw [e]
      exact (show 0 < 4 by decide)

end

section
variable {s₀ s : FixedRate.State}

theorem step_task {i : Nat} {task : Task} (hi : s.tasks[i]? = some task) :
    FixedRate.step s (.task i) =
      (task.step s.state).map fun p => { s with state := p.1, tasks := s.tasks.set i p.2 } := by
  simp only [FixedRate.step, hi, Option.bind_some]

/-- A task can go on until it waits, and leaves the others where they are. -/
theorem exists_blocked (h : Run FixedRate.step (fun _ _ => True) s₀ s) (hp : s.state.isPlaying = false) (i : Nat) :
    ∃ s', Run FixedRate.step (fun _ _ => True) s₀ s' ∧ s'.state.isPlaying = false ∧ s'.scrub = s.scrub ∧
      s'.state.wakeAlls = s.state.wakeAlls ∧ s'.tasks.length = s.tasks.length ∧
      (∀ task ∈ s'.tasks[i]?, task.step s'.state = none) ∧ ∀ j ≠ i, s'.tasks[j]? = s.tasks[j]? := by
  cases hi : s.tasks[i]? with
  | none => exact ⟨s, h, hp, rfl, rfl, rfl, by simp [hi], fun _ _ => rfl⟩
  | some task =>
    induction hd : distance s.state task using Nat.strong_induction_on generalizing s task with
    | _ d ih =>
      cases hstep : task.step s.state with
      | none =>
        refine ⟨s, h, hp, rfl, rfl, rfl, fun x hx => ?_, fun _ _ => rfl⟩
        rw [hi] at hx
        cases hx
        exact hstep
      | some p =>
        obtain ⟨st, task'⟩ := p
        obtain ⟨hlt, hp', hw⟩ := distance_lt hp (step_cases hstep)
        have hs : FixedRate.step s (.task i) = some { s with state := st, tasks := s.tasks.set i task' } := by
          rw [step_task hi, hstep]
          rfl
        have hlen : i < s.tasks.length := (List.getElem?_eq_some_iff.mp hi).1
        have hi' : (s.tasks.set i task')[i]? = some task' := List.getElem?_set_self hlen
        obtain ⟨s', hrun, hp'', hscrub, hw', hlen', hblocked, hothers⟩ :=
          ih _ (hd ▸ hlt) (h.snoc trivial hs) hp' task' hi' rfl
        refine ⟨s', hrun, hp'', hscrub, hw'.trans hw, hlen'.trans List.length_set, hblocked, fun j hj => ?_⟩
        rw [hothers j hj]
        exact List.getElem?_set_ne (Ne.symm hj)

/-- All tasks can go on until no one can. -/
theorem exists_stuck (h : Run FixedRate.step (fun _ _ => True) s₀ s) (hp : s.state.isPlaying = false) :
    ∃ s', Run FixedRate.step (fun _ _ => True) s₀ s' ∧ s'.scrub = s.scrub ∧ Stuck s' := by
  have hfirst (k : Nat) : ∃ s', Run FixedRate.step (fun _ _ => True) s₀ s' ∧ s'.state.isPlaying = false ∧
      s'.scrub = s.scrub ∧ s'.tasks.length = s.tasks.length ∧
      ∀ j < k, ∀ task ∈ s'.tasks[j]?, task.step s'.state = none := by
    induction k with
    | zero => exact ⟨s, h, hp, rfl, rfl, fun j hj => absurd hj (Nat.not_lt_zero j)⟩
    | succ k ih =>
      obtain ⟨s₁, hrun, hp₁, hscrub, hlen, hblocked⟩ := ih
      obtain ⟨s₂, hrun₂, hp₂, hscrub₂, hw, hlen₂, hk, hothers⟩ := exists_blocked hrun hp₁ k
      refine ⟨s₂, hrun₂, hp₂, hscrub₂.trans hscrub, hlen₂.trans hlen, fun j hj task htask => ?_⟩
      by_cases hjk : j = k
      · exact hk task (hjk ▸ htask)
      · rw [hothers j hjk] at htask
        exact step_eq_none (hblocked j (by omega) task htask) hw
  obtain ⟨s', hrun, -, hscrub, hlen, hblocked⟩ := hfirst s.tasks.length
  refine ⟨s', hrun, hscrub, fun i => ?_⟩
  cases hi : s'.tasks[i]? with
  | none => simp only [FixedRate.step, hi, Option.bind_none]
  | some task =>
    have hlt : i < s.tasks.length := hlen ▸ (List.getElem?_eq_some_iff.mp hi).1
    rw [step_task hi, hblocked i hlt task hi, Option.map_none]

end

end Metor.Proof.FixedRate
