import Mathlib.Algebra.Order.BigOperators.Group.List
import Mathlib.Data.List.Forall2
import Metor.Proof.FixedRate.Stuck

/-!
# A scrub and the tasks of its stream

A scrub sets one flag, and the first task to look at it clears it. So at most
one task emits (`Inv`), and it does if it has a sample (`Toward`). The others
find the flag cleared and wait again, until no task can go on. A scrub thus
reaches every task if there is only one (`scrub_reaches_iff`).
-/

namespace Metor.Proof.FixedRate

open Metor.Lib Metor.Impl Metor.Impl.FixedRate

/-! ## One scrub, one sample -/

theorem wakeAll_source (task : Task) : task.wakeAll.source = task.source := by
  unfold Task.wakeAll
  split <;> rfl

theorem wakeAll_emitted (task : Task) : task.wakeAll.emitted = task.emitted := by
  unfold Task.wakeAll
  split <;> rfl

/-- What a task has emitted, or is about to. -/
def weight (task : Task) : Nat := task.emitted.length + if task.pc = .sample then 1 else 0

theorem weight_of_ne {task : Task} (h : task.pc ≠ .sample) : weight task = task.emitted.length := by
  rw [weight, if_neg h, Nat.add_zero]

theorem weight_sample {task : Task} (h : task.pc = .sample) : weight task = task.emitted.length + 1 := by
  rw [weight, if_pos h]

theorem weight_wakeAll (task : Task) : weight task.wakeAll = weight task := by
  have hpc : task.wakeAll.pc = .sample ↔ task.pc = .sample := by
    unfold Task.wakeAll
    split
    all_goals simp_all
  simp only [weight, wakeAll_emitted, hpc]

/-- The flag becomes a sample that is about to be emitted. -/
theorem weight_step {st st' : FixedRateStreamState} {task task' : Task} (hp : st.isPlaying = false)
    (h : TaskStep st task st' task') :
    weight task' + st'.isScrubbed.toNat ≤ weight task + st.isScrubbed.toNat := by
  cases h with
  | start pc | subscribe waiter pc | block waiter pc | wake waiter pc =>
    refine Nat.add_le_add_right (Nat.le_of_eq ?_) _
    rw [weight_of_ne (by simp), weight_of_ne (by simp [pc])]
  | playing waiter pc playing => rw [hp] at playing; cases playing
  | scrubbed waiter pc scrubbed =>
    rw [weight_sample rfl, weight_of_ne (by simp [pc]), scrubbed]
    exact Nat.le_refl _
  | pass pc pc' next missing =>
    refine Nat.add_le_add_right ?_ _
    rw [weight_of_ne (by rcases next with rfl | rfl | rfl | ⟨t, rfl⟩ <;> simp), weight_sample pc]
    exact Nat.le_succ _
  | emit pc timestamp data found =>
    refine Nat.add_le_add_right (Nat.le_of_eq ?_) _
    rw [weight_of_ne (by simp), weight_sample pc, List.length_append]
    rfl
  | increment last pc =>
    rw [(tryIncrementTick_spec st last).1]
    refine Nat.add_le_add_right (Nat.le_of_eq ?_) _
    have hne : task.source.next ≠ .sample := by
      rcases next_eq task.source with e | e
      all_goals simp [e]
    rw [weight_of_ne hne, weight_of_ne (by simp [pc])]

theorem sum_map_set {α : Type} (f : α → Nat) {xs : List α} {i : Nat} {x : α} (h : xs[i]? = some x) (y : α) :
    ((xs.set i y).map f).sum + f x = (xs.map f).sum + f y := by
  induction xs generalizing i with
  | nil => cases h
  | cons z xs ih =>
    cases i with
    | zero =>
      cases h
      simp only [List.set_cons_zero, List.map_cons, List.sum_cons]
      omega
    | succ i =>
      have := ih h
      simp only [List.set_cons_succ, List.map_cons, List.sum_cons]
      omega

theorem forall₂_set {α β : Type} {R : α → β → Prop} {xs : List α} {ys : List β} (h : List.Forall₂ R xs ys) {i : Nat}
    {y y' : β} (hi : ys[i]? = some y) (hy : ∀ x, R x y → R x y') : List.Forall₂ R xs (ys.set i y') := by
  induction h generalizing i with
  | nil => exact .nil
  | cons hx h ih =>
    cases i with
    | zero =>
      cases hi
      exact .cons (hy _ hx) h
    | succ i => exact .cons hx (ih hi)

/-- A task that started from the source. -/
structure FromSource (source : Source) (task : Task) : Prop where
  same : task.emitted = [] → task.source = source
  sample : ∀ e ∈ task.emitted, source.HasSample e.time

structure Inv (sources : List Source) (s : FixedRate.State) : Prop where
  paused : s.state.isPlaying = false
  source : List.Forall₂ FromSource sources s.tasks
  budget : (s.tasks.map weight).sum + s.state.isScrubbed.toNat ≤ s.scrub.isSome.toNat

theorem start_inv {st : FixedRateStreamState} (h : Paused st) (sources : List Source) :
    Inv sources ⟨st, sources.map Task.idle, none⟩ := by
  refine ⟨h.1, List.forall₂_map_right_iff.mpr (List.forall₂_same.mpr fun source _ => ⟨fun _ => rfl, nofun⟩), ?_⟩
  show ((sources.map Task.idle).map weight).sum + st.isScrubbed.toNat ≤ 0
  have hzero : (sources.map Task.idle).map weight = sources.map fun _ => 0 := List.map_map
  rw [h.2, hzero, List.map_const', List.sum_replicate]
  exact Nat.le_refl _

theorem taskStep_fromSource {st st' : FixedRateStreamState} {task task' : Task} {source : Source}
    (h : TaskStep st task st' task') (hw : weight task ≤ 1) (hs : FromSource source task) : FromSource source task' := by
  cases h with
  | start | subscribe | playing | scrubbed | block | wake | pass | increment => exact ⟨hs.same, hs.sample⟩
  | emit pc timestamp data found =>
    rw [weight_sample pc] at hw
    have hnil : task.emitted = [] := List.length_eq_zero_iff.mp (by omega)
    refine ⟨fun e => absurd e (List.concat_ne_nil _ _), fun e he => ?_⟩
    rw [hnil, List.nil_append] at he
    rw [List.mem_singleton.mp he, ← hs.same hnil]
    exact ⟨timestamp, data, found⟩

theorem step_inv {sources : List Source} {s s' : FixedRate.State} {a : Act} (hs : Inv sources s)
    (h : FixedRate.step s a = some s') : Inv sources s' := by
  cases a with
  | setTimestamp t =>
    simp only [FixedRate.step, Option.ite_none_right_eq_some, Option.some.injEq] at h
    obtain ⟨hscrub, rfl⟩ := h
    have hbudget := hs.budget
    rw [hscrub] at hbudget
    refine ⟨hs.paused, List.forall₂_map_right_iff.mpr (hs.source.imp fun source task hst => ?_), ?_⟩
    · exact ⟨fun e => (wakeAll_source task).trans (hst.same ((wakeAll_emitted task).symm.trans e)),
        (wakeAll_emitted task).symm ▸ hst.sample⟩
    · show ((s.tasks.map Task.wakeAll).map weight).sum + 1 ≤ 1
      have hsame : (s.tasks.map Task.wakeAll).map weight = s.tasks.map weight := by
        rw [List.map_map]
        exact List.map_congr_left fun task _ => weight_wakeAll task
      rw [hsame]
      exact Nat.add_le_add_right ((Nat.le_add_right _ _).trans hbudget) 1
  | task i =>
    cases hi : s.tasks[i]? with
    | none => simp [FixedRate.step, hi] at h
    | some task =>
      rw [step_task hi, Option.map_eq_some_iff] at h
      obtain ⟨⟨st, task'⟩, hstep, rfl⟩ := h
      have hts := step_cases hstep
      have hweight := weight_step hs.paused hts
      have hsum := sum_map_set weight hi task'
      have hle : weight task ≤ (s.tasks.map weight).sum :=
        List.le_sum_of_mem (List.mem_map_of_mem (List.mem_of_getElem? hi))
      have hone : s.scrub.isSome.toNat ≤ 1 := Bool.toNat_le _
      have hbudget := hs.budget
      refine ⟨(distance_lt hs.paused hts).2.1, forall₂_set hs.source hi fun source hst =>
        taskStep_fromSource hts (by omega) hst, ?_⟩
      show ((s.tasks.set i task').map weight).sum + st.isScrubbed.toNat ≤ s.scrub.isSome.toNat
      omega
  | notifyWriters i =>
    simp only [FixedRate.step, Option.bind_eq_some_iff, Option.ite_none_right_eq_some, Option.some.injEq] at h
    obtain ⟨task, hi, hpc, rfl⟩ := h
    have hsum := sum_map_set weight hi { task with pc := .top }
    have hwritten : weight task = task.emitted.length := weight_of_ne (by simp [hpc])
    have htop : weight { task with pc := .top } = task.emitted.length := weight_of_ne (by simp)
    refine ⟨hs.paused, forall₂_set hs.source hi fun source hst => ⟨hst.same, hst.sample⟩, ?_⟩
    have hbudget := hs.budget
    dsimp only at hsum ⊢
    omega

/-- If each of the tasks gets to emit its sample, there is one at most, and it has a sample. -/
theorem le_one_of_reaches {st : FixedRateStreamState} {sources : List Source} {t : Int} (hst : Paused st)
    (h : ScrubReaches st sources t) : sources.length ≤ 1 ∧ ∀ source ∈ sources, source.HasSample t := by
  have hscrub : Run FixedRate.step (fun _ _ => True) ⟨st, sources.map Task.idle, none⟩
      ⟨{ st with isScrubbed := true, currentTick := t, wakeAlls := st.wakeAlls + 1 },
        (sources.map Task.idle).map Task.wakeAll, some t⟩ :=
    Run.refl.snoc (a := .setTimestamp t) trivial rfl
  obtain ⟨s, hrun, hs, hstuck⟩ := exists_stuck hscrub hst.1
  have hinv : Inv sources s := hrun.invariant (fun hs _ h => step_inv hs h) (start_inv hst sources)
  have hemitted := h s hrun hs hstuck
  have hbudget := hinv.budget
  rw [hs] at hbudget
  have hlen : s.tasks.length ≤ (s.tasks.map weight).sum := by
    have : ∀ w ∈ s.tasks.map weight, 1 ≤ w := by
      intro w hw
      obtain ⟨task, htask, rfl⟩ := List.mem_map.mp hw
      obtain ⟨e, he, -⟩ := hemitted task htask
      exact (List.length_pos_of_mem he).trans_le (Nat.le_add_right _ _)
    have hle := List.length_le_sum_of_one_le _ this
    rwa [List.length_map] at hle
  refine ⟨?_, fun source hsource => ?_⟩
  · rw [hinv.source.length_eq]
    exact hlen.trans ((Nat.le_add_right _ _).trans hbudget)
  · obtain ⟨i, hi, rfl⟩ := List.mem_iff_getElem.mp hsource
    have hfrom := hinv.source.get hi (hinv.source.length_eq ▸ hi)
    obtain ⟨e, he, rfl⟩ := hemitted _ (List.getElem_mem (hinv.source.length_eq ▸ hi))
    exact hfrom.sample e he

/-! ## One task -/

/-- In the loop of `wait_for`; a waiter that was polled is not at its start. -/
inductive InLoop : Pc → Prop
  | top : InLoop .top
  | started (waiter : Waiter) : InLoop (.started waiter)
  | check (waiter : Waiter) (polled : ∀ n, waiter ≠ .start n) : InLoop (.check waiter)
  | await (waiter : Waiter) (polled : ∀ n, waiter ≠ .start n) : InLoop (.await waiter)

theorem poll_ne_start (wakeAlls n : Nat) (waiter : Waiter) : waiter.poll wakeAlls ≠ .start n := by
  cases waiter with
  | start m =>
    rw [Waiter.poll]
    split <;> simp
  | waiting | woken => simp [Waiter.poll]

/-- How far the only task is on its way to its sample. -/
inductive Toward (source : Source) (st : FixedRateStreamState) (scrub : Option Int) (task : Task) : Prop
  | before (scrub : scrub = none) (flag : st.isScrubbed = false) (source : task.source = source) (pc : InLoop task.pc)
  | scrubbed (t : Int) (scrub : scrub = some t) (flag : st.isScrubbed = true) (tick : st.currentTick = t)
    (source : task.source = source) (pc : InLoop task.pc) (woken : ∀ waiter, task.pc = .await waiter → waiter = .woken)
  | sample (t : Int) (scrub : scrub = some t) (tick : st.currentTick = t) (source : task.source = source)
    (pc : task.pc = .sample)
  | emitted (t : Int) (scrub : scrub = some t) (emitted : task.HasEmitted t)
  /-- It has no sample for the time. -/
  | missed (t : Int) (scrub : scrub = some t) (missing : ¬source.HasSample t)

theorem toward_step {source : Source} {st st' : FixedRateStreamState} {scrub : Option Int} {task task' : Task}
    (hp : st.isPlaying = false) (h : TaskStep st task st' task') (hs : Toward source st scrub task) :
    Toward source st' scrub task' := by
  have hkeep (t : Int) (he : task.HasEmitted t) : task'.HasEmitted t := by
    obtain ⟨e, he, ht⟩ := he
    cases h with
    | start | subscribe | playing | scrubbed | block | wake | pass | increment => exact ⟨e, he, ht⟩
    | emit => exact ⟨e, List.mem_append_left _ he, ht⟩
  cases hs with
  | emitted t hscrub he => exact .emitted t hscrub (hkeep t he)
  | missed t hscrub missing => exact .missed t hscrub missing
  | before hscrub flag hsource hloop =>
    cases h with
    | start pc => exact .before hscrub flag hsource (.started _)
    | subscribe waiter pc => exact .before hscrub flag hsource (.check _ fun n => poll_ne_start _ n _)
    | playing waiter pc playing => rw [hp] at playing; cases playing
    | scrubbed waiter pc scrubbed => rw [flag] at scrubbed; cases scrubbed
    | block waiter pc scrubbed =>
      rw [pc] at hloop
      cases hloop with
      | check _ polled => exact .before hscrub flag hsource (.await _ polled)
    | wake waiter pc woken => exact .before hscrub flag hsource .top
    | pass pc | emit pc | increment last pc =>
      rw [pc] at hloop
      cases hloop
  | scrubbed t hscrub flag tick hsource hloop hwoken =>
    cases h with
    | start pc => exact .scrubbed t hscrub flag tick hsource (.started _) (fun _ e => by cases e)
    | subscribe waiter pc =>
      exact .scrubbed t hscrub flag tick hsource (.check _ fun n => poll_ne_start _ n _) (fun _ e => by cases e)
    | playing waiter pc playing => rw [hp] at playing; cases playing
    | scrubbed waiter pc scrubbed => exact .sample t hscrub tick hsource rfl
    | block waiter pc scrubbed => rw [flag] at scrubbed; cases scrubbed
    | wake waiter pc woken => exact .scrubbed t hscrub flag tick hsource .top (fun _ e => by cases e)
    | pass pc | emit pc | increment last pc =>
      rw [pc] at hloop
      cases hloop
  | sample t hscrub tick hsource hpc =>
    cases h with
    | start pc | subscribe waiter pc | playing waiter pc | scrubbed waiter pc | block waiter pc | wake waiter pc
    | increment last pc => exact absurd (hpc.symm.trans pc) (by simp)
    | pass pc pc' next missing =>
      rw [hsource, tick] at missing
      exact .missed t hscrub missing
    | emit pc timestamp data found => exact .emitted t hscrub ⟨_, List.mem_append_right _ (List.mem_singleton_self _), tick⟩

/-- The scrub wakes the task, if it waits. -/
theorem toward_wakeAll {source : Source} {st : FixedRateStreamState} {task : Task} (hsource : task.source = source)
    (hloop : InLoop task.pc) (t : Int) (wakeAlls : Nat) :
    Toward source { st with isScrubbed := true, currentTick := t, wakeAlls := wakeAlls } (some t) task.wakeAll := by
  have hs : task.wakeAll.source = source := (wakeAll_source task).trans hsource
  have hpolled {waiter : Waiter} (polled : ∀ n, waiter ≠ .start n) : waiter.wakeAll = .woken := by
    cases waiter with
    | start n => exact absurd rfl (polled n)
    | waiting | woken => rfl
  cases hpc : task.pc with
  | top =>
    have e : task.wakeAll.pc = .top := by rw [Task.wakeAll, hpc, hpc]
    exact .scrubbed t rfl rfl rfl hs (e ▸ .top) (fun _ h => by rw [e] at h; cases h)
  | started waiter =>
    have e : task.wakeAll.pc = .started waiter.wakeAll := by rw [Task.wakeAll, hpc]
    exact .scrubbed t rfl rfl rfl hs (e ▸ .started _) (fun _ h => by rw [e] at h; cases h)
  | check waiter =>
    rw [hpc] at hloop
    cases hloop with
    | check _ polled =>
      have e : task.wakeAll.pc = .check waiter.wakeAll := by rw [Task.wakeAll, hpc]
      rw [hpolled polled] at e
      exact .scrubbed t rfl rfl rfl hs (e ▸ .check _ (by simp)) (fun _ h => by rw [e] at h; cases h)
  | await waiter =>
    rw [hpc] at hloop
    cases hloop with
    | await _ polled =>
      have e : task.wakeAll.pc = .await waiter.wakeAll := by rw [Task.wakeAll, hpc]
      rw [hpolled polled] at e
      exact .scrubbed t rfl rfl rfl hs (e ▸ .await _ (by simp)) (fun _ h => (Pc.await.inj (e.symm.trans h)).symm)
  | sample | tick last | written | panicked =>
    rw [hpc] at hloop
    cases hloop

/-- The state of a stream with one task. -/
def Single (source : Source) (s : FixedRate.State) : Prop :=
  s.state.isPlaying = false ∧ ∃ task, s.tasks = [task] ∧ Toward source s.state s.scrub task

theorem step_single {source : Source} {s s' : FixedRate.State} {a : Act} (hs : Single source s)
    (h : FixedRate.step s a = some s') : Single source s' := by
  obtain ⟨hp, task, htasks, htoward⟩ := hs
  cases a with
  | setTimestamp t =>
    simp only [FixedRate.step, Option.ite_none_right_eq_some, Option.some.injEq] at h
    obtain ⟨hscrub, rfl⟩ := h
    refine ⟨hp, task.wakeAll, congrArg (List.map Task.wakeAll) htasks, ?_⟩
    rw [hscrub] at htoward
    cases htoward with
    | before _ flag hsource hloop => exact toward_wakeAll hsource hloop t _
    | scrubbed _ hscrub | sample _ hscrub | emitted _ hscrub | missed _ hscrub => cases hscrub
  | task i =>
    cases hi : s.tasks[i]? with
    | none => simp [FixedRate.step, hi] at h
    | some x =>
      rw [step_task hi, Option.map_eq_some_iff] at h
      obtain ⟨⟨st, task'⟩, hstep, rfl⟩ := h
      rw [htasks, List.getElem?_singleton] at hi
      split at hi
      · next hi0 =>
        cases hi
        have hts := step_cases hstep
        refine ⟨(distance_lt hp hts).2.1, task', ?_, toward_step hp hts htoward⟩
        show s.tasks.set i task' = [task']
        rw [htasks, hi0]
        rfl
      · cases hi
  | notifyWriters i =>
    simp only [FixedRate.step, Option.bind_eq_some_iff, Option.ite_none_right_eq_some, Option.some.injEq] at h
    obtain ⟨x, hi, hpc, rfl⟩ := h
    rw [htasks, List.getElem?_singleton] at hi
    split at hi
    · next hi0 =>
      cases hi
      refine ⟨hp, { task with pc := .top }, ?_, ?_⟩
      · show s.tasks.set i _ = _
        rw [htasks, hi0]
        rfl
      · cases htoward with
        | before _ _ _ hloop | scrubbed _ _ _ _ _ hloop =>
          rw [hpc] at hloop
          cases hloop
        | sample _ _ _ _ hpc' => exact absurd (hpc.symm.trans hpc') (by simp)
        | emitted t hscrub he => exact .emitted t hscrub he
        | missed t hscrub missing => exact .missed t hscrub missing
    · cases hi

/-- The only task emits its sample, if it has one. -/
theorem reaches_single {st : FixedRateStreamState} {source : Source} {t : Int} (hst : Paused st)
    (hsample : source.HasSample t) : ScrubReaches st [source] t := by
  intro s hrun hscrub hstuck
  have hstart : Single source ⟨st, [source].map Task.idle, none⟩ :=
    ⟨hst.1, Task.idle source, rfl, .before rfl hst.2 rfl .top⟩
  obtain ⟨hp, task, htasks, htoward⟩ := hrun.invariant (fun hs _ h => step_single hs h) hstart
  intro x hx
  rw [htasks] at hx
  rw [List.mem_singleton.mp hx]
  have hi : s.tasks[0]? = some task := by rw [htasks]; rfl
  have hnone : task.step s.state = none := by
    have := hstuck 0
    rwa [step_task hi, Option.map_eq_none_iff] at this
  rw [hscrub] at htoward
  cases htoward with
  | before h => cases h
  | scrubbed u h flag tick hsource hloop hwoken =>
    exfalso
    unfold Task.step at hnone
    cases hpc : task.pc with
    | top => simp [hpc] at hnone
    | started waiter => simp [hpc] at hnone
    | check waiter => simp [hpc, hp, flag] at hnone
    | await waiter => simp [hpc, hwoken waiter hpc, Waiter.poll] at hnone
    | sample | tick last | written | panicked =>
      rw [hpc] at hloop
      cases hloop
  | sample u h tick hsource hpc =>
    exfalso
    unfold Task.step at hnone
    simp only [hpc] at hnone
    split at hnone <;> cases hnone
  | emitted u h he => exact Option.some.inj h ▸ he
  | missed u h missing => exact absurd (Option.some.inj h ▸ hsample) missing

/-- A series with the byte 7 at time 5. -/
def seven : Source := .stage [⟨"5", ⟨5, 100, [5]⟩, ⟨1, 100, [7]⟩⟩]

/-- A stream that is paused at time 0. -/
def atZero : FixedRateStreamState := ⟨10, false, 0, false, 0⟩

/-- The first task takes the scrub, and the second finds none. -/
def firstTakes : List Act :=
  .setTimestamp 5 :: List.replicate 5 (.task 0) ++ List.replicate 3 (.task 1)

end Metor.Proof.FixedRate
