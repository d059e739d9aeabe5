import Metor.Impl.FixedRate
import Metor.Spec.Streams

/-!
# The states of fixed-rate streams, over runs

No state has a frequency of zero as long as none is asked for, so that a task
never divides by zero (`Healthy`). The handler of `SetStreamState` leaves the
time step alone: it obeys a message exactly when the message has no other time
step than the stream (`handle_obeys_iff`). Together with ticks that do not
overflow, this is `streams_obey`.
-/

namespace Metor.Proof.Streams

open Metor.Lib Metor.Impl.Streams

/-! ## The handler of `SetStreamState` -/

variable (st : FixedRateStreamState) (msg : SetStreamState)

@[simp] theorem handle_isPlaying : (st.handle msg).isPlaying = msg.playing.getD st.isPlaying := by
  unfold FixedRateStreamState.handle
  cases msg.playing <;> cases msg.timestamp <;> cases msg.frequency <;> rfl

@[simp] theorem handle_currentTick : (st.handle msg).currentTick = msg.timestamp.getD st.currentTick := by
  unfold FixedRateStreamState.handle
  cases msg.playing <;> cases msg.timestamp <;> cases msg.frequency <;> rfl

@[simp] theorem handle_frequency : (st.handle msg).frequency = msg.frequency.getD st.frequency := by
  unfold FixedRateStreamState.handle
  cases msg.playing <;> cases msg.timestamp <;> cases msg.frequency <;> rfl

@[simp] theorem handle_timeStep : (st.handle msg).timeStep = st.timeStep := by
  unfold FixedRateStreamState.handle
  cases msg.playing <;> cases msg.timestamp <;> cases msg.frequency <;> rfl

/-- All but the time step is obeyed. -/
theorem handle_obeys_iff : Obeys msg (st.handle msg) ↔ ∀ timeStep ∈ msg.timeStep, timeStep = st.timeStep.toNat := by
  constructor
  · intro h timeStep ht
    rw [← h.timeStep timeStep ht, handle_timeStep]
  · intro h
    exact
      { playing := fun playing hp => by rw [handle_isPlaying, Option.mem_def.mp hp]; rfl
        timestamp := fun timestamp ht => by rw [handle_currentTick, Option.mem_def.mp ht]; rfl
        timeStep := fun timeStep ht => by rw [handle_timeStep, h timeStep ht]
        frequency := fun frequency hf => by rw [handle_frequency, Option.mem_def.mp hf]; rfl }

theorem handle_frequency_ne (h : st.frequency ≠ 0) (hm : msg.frequency ≠ some 0) : (st.handle msg).frequency ≠ 0 := by
  rw [handle_frequency]
  intro e
  cases hf : msg.frequency with
  | none => exact h (by rwa [hf] at e)
  | some f => exact hm (by rw [hf] at e ⊢; exact congrArg some e)

/-! ## Ticks -/

variable {st}

theorem sleepTime_isSome (h : st.frequency ≠ 0) : st.sleepTime.isSome := by
  rw [FixedRateStreamState.sleepTime, if_neg h]
  rfl

theorem nextTick_eq {last : Int} (h : last + (st.timeStep.toNat / 1000 : Nat) < 2 ^ 63) :
    st.nextTick last = some (last + (st.timeStep.toNat / 1000 : Nat)) := by
  unfold FixedRateStreamState.nextTick
  exact if_pos h

/-- The state as the tasks that emit samples see it, which count in whole microseconds. -/
def view (st : FixedRateStreamState) (wakeAlls : Nat) : Metor.Impl.FixedRate.FixedRateStreamState :=
  ⟨(st.timeStep.toNat / 1000 : Nat), st.isScrubbed, st.currentTick, st.isPlaying, wakeAlls⟩

/-- Without an overflow, `try_increment_tick` is the one of the tasks that emit samples. -/
theorem tryIncrementTick_view {last : Int} (wakeAlls : Nat)
    (h : last + (st.timeStep.toNat / 1000 : Nat) < 2 ^ 63) :
    (st.tryIncrementTick last).map (view · wakeAlls) =
      some (Metor.Impl.FixedRate.tryIncrementTick (view st wakeAlls) last) := by
  rw [FixedRateStreamState.tryIncrementTick, nextTick_eq h, Option.map_some, Option.map_some]
  unfold Metor.Impl.FixedRate.tryIncrementTick
  by_cases hc : st.currentTick = last
  · rw [if_pos hc, if_pos (show (view st wakeAlls).currentTick = last from hc)]
    rfl
  · rw [if_neg hc, if_neg (show (view st wakeAlls).currentTick ≠ last from hc)]

/-! ## One step -/

/-- No stream has a frequency of zero, and all is well so far. -/
structure Healthy (s : State) : Prop where
  frequency : ∀ st ∈ s.states, st.frequency ≠ 0
  obedient : Obedient s

variable {s t : State}

theorem Healthy.new_state (h : Healthy s) {behavior : FixedRateBehavior} (hf : behavior.frequency ≠ 0) :
    Healthy (s.newState behavior) where
  frequency st hst := by
    rcases List.mem_append.mp hst with hst | hst
    · exact h.frequency st hst
    · rw [List.mem_singleton.mp hst]
      exact hf
  obedient := ⟨h.obedient.quiet, h.obedient.obeyed⟩

theorem Healthy.insert_stream (h : Healthy s) (id : UInt64) (i : Nat) : Healthy (s.insertStream id i) :=
  ⟨h.frequency, h.obedient.quiet, h.obedient.obeyed⟩

theorem Healthy.spawn (h : Healthy s) (kind : Kind) (i : Nat) : Healthy (s.spawn kind i) where
  frequency := h.frequency
  obedient :=
    { quiet := by
        intro task htask p
        rcases List.mem_append.mp htask with htask | htask
        · exact h.obedient.quiet task htask p
        · rw [List.mem_singleton.mp htask]
          simp
      obeyed := h.obedient.obeyed }

theorem Healthy.get_or_insert (h : Healthy s) {op : FixedRateOp}
    (hf : (s.streams.lookup op.streamId).isNone → op.behavior.frequency ≠ 0) : Healthy (s.getOrInsert op).1 := by
  unfold State.getOrInsert
  cases hl : s.streams.lookup op.streamId with
  | some i => exact h
  | none => exact (h.new_state (hf (by rw [hl]; rfl))).insert_stream _ _

/-- A task keeps what its step keeps of the state it shares, and does not panic. -/
theorem Healthy.on_task (h : Healthy s) {i : Nat}
    {f : Task → FixedRateStreamState → Option (FixedRateStreamState × Pc)}
    (hf : ∀ task st st' pc, s.tasks[i]? = some task → s.states[task.state]? = some st → f task st = some (st', pc) →
      st.frequency ≠ 0 → st'.frequency ≠ 0 ∧ ∀ p, pc ≠ .panicked p)
    (ht : s.onTask i f = some t) : Healthy t := by
  unfold State.onTask at ht
  obtain ⟨task, htask, ht⟩ := Option.bind_eq_some_iff.mp ht
  obtain ⟨st, hst, ht⟩ := Option.bind_eq_some_iff.mp ht
  obtain ⟨⟨st', pc⟩, hpc, ht⟩ := Option.bind_eq_some_iff.mp ht
  obtain rfl := Option.some.inj ht
  have hkeep := hf task st st' pc htask hst hpc (h.frequency st (List.mem_of_getElem? hst))
  exact
    { frequency := by
        intro u hu
        rcases List.mem_or_eq_of_mem_set hu with hu | rfl
        · exact h.frequency u hu
        · exact hkeep.1
      obedient :=
        { quiet := by
            intro u hu p
            rcases List.mem_or_eq_of_mem_set hu with hu | rfl
            · exact h.obedient.quiet u hu p
            · exact hkeep.2 p
          obeyed := h.obedient.obeyed } }

theorem Healthy.set_stream_state (h : Healthy s) {msg : SetStreamState} {i : Nat} {st : FixedRateStreamState}
    (hst : s.states[i]? = some st) (hf : msg.frequency ≠ some 0)
    (ho : ∀ timeStep ∈ msg.timeStep, timeStep = st.timeStep.toNat) :
    Healthy { s with
      states := s.states.set i (st.handle msg), handled := s.handled ++ [(msg, st, st.handle msg)] } where
  frequency u hu := by
    rcases List.mem_or_eq_of_mem_set hu with hu | rfl
    · exact h.frequency u hu
    · exact handle_frequency_ne st msg (h.frequency st (List.mem_of_getElem? hst)) hf
  obedient :=
    { quiet := h.obedient.quiet
      obeyed := by
        intro m hm
        rcases List.mem_append.mp hm with hm | hm
        · exact h.obedient.obeyed m hm
        · rw [List.mem_singleton.mp hm]
          exact (handle_obeys_iff st msg).mpr ho }

/-- What a task has read and shares is what it increments. -/
theorem due_eq {i : Nat} {task : Task} {st : FixedRateStreamState} {last : Int} (htask : s.tasks[i]? = some task)
    (hst : s.states[task.state]? = some st) (hl : task.pc.last = some last) : s.due i = some (last, st) := by
  unfold State.due
  rw [htask, Option.bind_eq_bind, Option.bind_some, hl, Option.bind_eq_bind, Option.bind_some, hst]
  rfl

theorem increment_sound {i : Nat} {task : Task} {st : FixedRateStreamState} {last : Int} (ha : Sound s (.increment i))
    (htask : s.tasks[i]? = some task) (hst : s.states[task.state]? = some st) (hl : task.pc.last = some last) :
    ∃ st', st.tryIncrementTick last = some st' ∧ st'.frequency = st.frequency := by
  have hd := ha (last, st) (due_eq htask hst hl)
  refine ⟨_, by rw [FixedRateStreamState.tryIncrementTick, nextTick_eq hd, Option.map_some], ?_⟩
  split <;> rfl

theorem step_healthy {a : Act} (h : Healthy s) (ha : Sound s a) (ht : step s a = some t) : Healthy t := by
  cases a with
  | update timestamp =>
    obtain ⟨-, ht⟩ := Option.ite_none_right_eq_some.mp ht
    obtain rfl := Option.some.inj ht
    exact ⟨h.frequency, h.obedient.quiet, h.obedient.obeyed⟩
  | stream id behavior =>
    obtain ⟨-, ht⟩ := Option.ite_none_right_eq_some.mp ht
    obtain rfl := Option.some.inj ht
    exact ((h.new_state ha).insert_stream _ _).spawn _ _
  | fixedRateMsgStream op =>
    obtain ⟨-, ht⟩ := Option.ite_none_right_eq_some.mp ht
    obtain rfl := Option.some.inj ht
    exact (h.get_or_insert ha).spawn _ _
  | vtableStream op spawned =>
    obtain ⟨-, ht⟩ := Option.ite_none_right_eq_some.mp ht
    obtain rfl := Option.some.inj ht
    cases spawned with
    | true => exact (h.get_or_insert ha).spawn _ _
    | false => exact h.get_or_insert ha
  | setStreamState msg =>
    obtain ⟨-, ht⟩ := Option.ite_none_right_eq_some.mp ht
    cases hl : s.streams.lookup msg.id with
    | none =>
      rw [hl] at ht
      obtain rfl := Option.some.inj ht
      exact h
    | some i =>
      rw [hl] at ht
      obtain ⟨st, hst, ht⟩ := Option.bind_eq_some_iff.mp ht
      obtain rfl := Option.some.inj ht
      have hfound : s.found msg.id = some st := by rw [State.found, hl, Option.bind_some, hst]
      exact h.set_stream_state hst (ha st hfound).1 (ha st hfound).2
  | sleep i =>
    refine h.on_task ?_ ht
    intro task st st' pc _ _ hpc hf
    have hs := sleepTime_isSome hf
    split at hpc
    · simp only [hs, if_true, Option.some.injEq, Prod.mk.injEq] at hpc
      obtain ⟨rfl, rfl⟩ := hpc
      exact ⟨hf, by simp⟩
    · simp only [hs, if_true, Option.some.injEq, Prod.mk.injEq] at hpc
      obtain ⟨rfl, rfl⟩ := hpc
      exact ⟨hf, by simp⟩
    · cases hpc
  | play i =>
    refine h.on_task ?_ ht
    intro task st st' pc _ _ hpc hf
    split at hpc
    case h_3 => cases hpc
    all_goals
      split at hpc
      · cases hpc
        exact ⟨hf, by simp⟩
      · obtain ⟨-, hpc⟩ := Option.ite_none_right_eq_some.mp hpc
        cases hpc
        exact ⟨hf, by simp⟩
  | read i =>
    refine h.on_task ?_ ht
    intro task st st' pc _ _ hpc hf
    split at hpc
    · cases hpc
      exact ⟨hf, by simp⟩
    · cases hpc
  | skip i =>
    refine h.on_task ?_ ht
    intro task st st' pc _ _ hpc hf
    split at hpc
    · cases hpc
      exact ⟨hf, by simp⟩
    · cases hpc
  | increment i =>
    refine h.on_task ?_ ht
    intro task st st' pc htask hst hpc hf
    split at hpc
    case h_1 last hk hp =>
      obtain ⟨u, hu, hfu⟩ := increment_sound ha htask hst (congrArg Pc.last hp)
      rw [hu] at hpc
      cases hpc
      exact ⟨hfu ▸ hf, by simp⟩
    case h_2 last hk hp =>
      obtain ⟨u, hu, hfu⟩ := increment_sound ha htask hst (congrArg Pc.last hp)
      rw [hu] at hpc
      cases hpc
      exact ⟨hfu ▸ hf, by simp⟩
    case h_3 => cases hpc
  | finish i =>
    refine h.on_task ?_ ht
    intro task st st' pc _ _ hpc hf
    split at hpc
    · cases hpc
    · cases hpc
      exact ⟨hf, by simp⟩

/-! ## Runs -/

theorem run_healthy {earliest last : Int} (h : Run step Sound (init earliest last) s) : Healthy s := by
  refine h.invariant step_healthy ⟨?_, ?_, ?_⟩
  · intro st hst
    cases hst
  · intro task htask
    cases htask
  · intro h hh
    cases hh

/-- As long as the steps are sound, no task divides by zero or overflows, and
every `SetStreamState` is obeyed. -/
theorem streams_obey (earliest last : Int) (h : Run step Sound (init earliest last) s) : Obedient s :=
  (run_healthy h).obedient

/-- A stream of 60 Hz that is scrubbed, slowed down and paused between its ticks. -/
theorem streams_obey_scrubbed :
    ∃ s, Run step Sound (init 1000 5000) s ∧ s.handled.length = 2 ∧ Obedient s := by
  have hs : (exec step Sound (init 1000 5000)
      [.stream 1 ⟨.earliest, 16666667, 60⟩, .play 0, .read 0, .sleep 0, .increment 0, .play 0,
        .setStreamState ⟨1, none, some 3000, none, some 30⟩, .read 0, .sleep 0, .increment 0,
        .fixedRateMsgStream ⟨1, ⟨.latest, 0, 0⟩⟩, .setStreamState ⟨1, some false, none, some 16666667, none⟩]).map
      (·.handled.length) = some 2 := by decide +kernel
  obtain ⟨s, hs, hlen⟩ := Option.map_eq_some_iff.mp hs
  have hrun := Run.of_exec _ .refl hs
  exact ⟨s, hrun, hlen, streams_obey 1000 5000 hrun⟩

/-- A stream without a frequency divides by zero at its first tick. -/
theorem zero_frequency_panics :
    ¬ ∀ earliest last s, Run step (fun _ _ => True) (init earliest last) s → Obedient s := by
  intro h
  have hs : (exec step (fun _ _ => True) (init 0 0)
      [.stream 1 ⟨.earliest, 1000000, 0⟩, .play 0, .read 0, .sleep 0]).map State.tasks =
      some [⟨.stream, 0, .panicked .divisionByZero⟩] := by decide +kernel
  obtain ⟨s, hs, htasks⟩ := Option.map_eq_some_iff.mp hs
  refine (h 0 0 s (Run.of_exec _ .refl hs)).quiet ⟨.stream, 0, .panicked .divisionByZero⟩ ?_ _ rfl
  rw [htasks]
  exact List.mem_singleton_self _

end Metor.Proof.Streams
