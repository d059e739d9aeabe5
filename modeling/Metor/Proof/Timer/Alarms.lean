import Metor.Proof.Timer.Turn

/-!
# The timer does what alarms do

Every step of a timer can be taken and is that of the alarms that it is seen as
(`step_spec`). So every run is one of the alarms (`reached_alarms`): a turn
fires just the sleeps that are due, and each sleep fires once.
-/

namespace Metor.Proof.Timer

open Metor.Lib Metor.Impl.Timer

variable {core : Core} {s t : Sys} {e : Entry}

theorem Inv.lt (hi : Inv core) (h : Pending core e) : core.now < e.deadline := by
  obtain ⟨l, slot, he⟩ := h
  exact (hi.digit l slot e he).lt

theorem inv_new : Inv Core.new := by
  refine ⟨fun l => rfl, fun l slot => ?_, fun l slot => List.nodup_nil, fun l slot e he => ?_, fun l slot e he => ?_⟩
  · show (0#64).getLsbD slot.val = true ↔ ([] : List Entry) ≠ []
    simp
  · cases he
  · cases he

/-- What holds of a timer in every run -/
structure Good (s : Sys) : Prop where
  inv : Inv s.core
  nodup : s.fired.Nodup
  due : ∀ e ∈ s.fired, e.deadline ≤ s.core.now

theorem good_new : Good .new := ⟨inv_new, List.nodup_nil, fun _ h => (by cases h)⟩

/-- A sleep that is registered fires, or it waits. -/
theorem register_spec (hg : Good s) (hallowed : s.alarms.Allowed (.register e)) :
    ∃ t, s.step (.register e) = some t ∧ Good t ∧ t.alarms = s.alarms.step (.register e) := by
  obtain ⟨hwaiting, hfired, hrotation⟩ := hallowed
  by_cases hdue : e.deadline ≤ s.core.now
  · have hregister : s.core.registerSleep e = (true, s.core) := if_pos hdue
    refine ⟨⟨s.core, s.fired ++ [e]⟩, ?_, ⟨hg.inv, ?_, fun x hx => ?_⟩, ?_⟩
    · rw [Sys.step, hregister]
      rfl
    · exact List.nodup_append'.mpr ⟨hg.nodup, List.nodup_singleton e, fun x hx hx' => hfired
        (List.mem_singleton.mp hx' ▸ hx)⟩
    · obtain hx | hx := List.mem_append.mp hx
      · exact hg.due x hx
      · obtain rfl := List.mem_singleton.mp hx
        exact hdue
    · show (⟨s.core.now, {x | Pending s.core x}, {x | x ∈ s.fired ++ [e]}⟩ : Alarms) = _
      rw [Alarms.step, if_pos (show e.deadline ≤ s.alarms.now from hdue)]
      refine congrArg (Alarms.mk _ _) (Set.ext fun x => ?_)
      simp [Sys.alarms, or_comm]
  · have hlt : s.core.now < e.deadline := Nat.not_le.mp hdue
    have hregister : s.core.registerSleep e = (false, s.core.insertSleepAt e) := if_neg hdue
    obtain ⟨hi, hpending⟩ := insertSleepAt_spec hg.inv hlt (hrotation hlt) hwaiting
    refine ⟨⟨s.core.insertSleepAt e, s.fired⟩, ?_, ⟨hi, hg.nodup, hg.due⟩, ?_⟩
    · rw [Sys.step, hregister]
      rfl
    · show (⟨s.core.now, {x | Pending (s.core.insertSleepAt e) x}, {x | x ∈ s.fired}⟩ : Alarms) = _
      rw [Alarms.step, if_neg (show ¬ e.deadline ≤ s.alarms.now from hdue)]
      refine congrArg (Alarms.mk _ · _) (Set.ext fun x => ?_)
      exact hpending x

/-- Only the sleep that is cancelled does not wait any more. -/
theorem cancel_spec (hg : Good s) (hallowed : s.alarms.Allowed (.cancel e)) :
    ∃ t, s.step (.cancel e) = some t ∧ Good t ∧ t.alarms = s.alarms.step (.cancel e) := by
  obtain ⟨hi, hpending⟩ := cancelSleep_spec hg.inv hallowed
  refine ⟨⟨s.core.cancelSleep e, s.fired⟩, rfl, ⟨hi, hg.nodup, hg.due⟩, ?_⟩
  show (⟨s.core.now, {x | Pending (s.core.cancelSleep e) x}, {x | x ∈ s.fired}⟩ : Alarms) = _
  refine congrArg (Alarms.mk _ · _) (Set.ext fun x => ?_)
  exact hpending x

/-- A turn moves the sleeps that are due from those that wait to those that have fired. -/
theorem turn_spec {now : Nat} (hg : Good s) (hle : s.core.now ≤ now) :
    ∃ t, s.step (.turn now) = some t ∧ Good t ∧ t.alarms = s.alarms.step (.turn now) := by
  obtain ⟨fired, next, core, hturn, hi, hnow, hnodup, hfired, hpending, -⟩ := turnTo_spec hg.inv hle
  refine ⟨⟨core, s.fired ++ fired⟩, ?_, ⟨hi, ?_, fun x hx => ?_⟩, ?_⟩
  · rw [Sys.step, hturn]
    rfl
  · refine List.nodup_append'.mpr ⟨hg.nodup, hnodup, fun x hx hx' => ?_⟩
    exact absurd (hg.inv.lt ((hfired x).mp hx').1) (Nat.not_lt.mpr (hg.due x hx))
  · show x.deadline ≤ core.now
    rw [hnow]
    obtain hx | hx := List.mem_append.mp hx
    · exact Nat.le_trans (hg.due x hx) hle
    · exact ((hfired x).mp hx).2
  · show (⟨core.now, {x | Pending core x}, {x | x ∈ s.fired ++ fired}⟩ : Alarms) = ⟨now, _, _⟩
    have hwaiting : {x | Pending core x} = {x | Pending s.core x ∧ now < x.deadline} := Set.ext hpending
    have hfiring : {x | x ∈ s.fired ++ fired} = {x | x ∈ s.fired} ∪ {x | Pending s.core x ∧ x.deadline ≤ now} := by
      refine Set.ext fun x => ?_
      show x ∈ s.fired ++ fired ↔ x ∈ s.fired ∨ Pending s.core x ∧ x.deadline ≤ now
      rw [List.mem_append, hfired]
    rw [hnow, hwaiting, hfiring]
    rfl

/-- Every step that is allowed is that of the alarms. -/
theorem step_spec (hg : Good s) {a : Action} (hallowed : s.alarms.Allowed a) :
    ∃ t, s.step a = some t ∧ Good t ∧ t.alarms = s.alarms.step a :=
  match a with
  | .register _ => register_spec hg hallowed
  | .cancel _ => cancel_spec hg hallowed
  | .turn _ => turn_spec hg hallowed

theorem good_step (hg : Good s) {a : Action} (hallowed : s.alarms.Allowed a) (hstep : s.step a = some t) :
    Good t ∧ t.alarms = s.alarms.step a := by
  obtain ⟨t', hstep', h⟩ := step_spec hg hallowed
  obtain rfl := Option.some.inj (hstep.symm.trans hstep')
  exact h

theorem reached_good (h : Reached s) : Good s :=
  Run.invariant (fun hg hallowed hstep => (good_step hg hallowed hstep).1) h good_new

theorem alarms_new : Sys.new.alarms = Alarms.new := by
  refine congrArg₂ (Alarms.mk 0) (Set.ext fun x => ?_) (Set.ext fun x => ?_)
  · refine ⟨fun hx => ?_, fun hx => (by cases hx)⟩
    obtain ⟨l, slot, hx⟩ := hx
    cases hx
  · exact ⟨fun hx => (by cases hx), fun hx => (by cases hx)⟩

/-- A run of a timer is one of alarms, each step that is allowed can be taken, and a sleep fires once, when it is due. -/
theorem reached_alarms (h : Reached s) :
    AlarmsReached s.alarms ∧ s.fired.Nodup ∧ (∀ e ∈ s.alarms.waiting, s.alarms.now < e.deadline) ∧
      (∀ e ∈ s.alarms.fired, e.deadline ≤ s.alarms.now) ∧
      ∀ a, s.alarms.Allowed a → ∃ t, s.step a = some t ∧ t.alarms = s.alarms.step a := by
  have hg := reached_good h
  refine ⟨?_, hg.nodup, fun e he => hg.inv.lt he, hg.due, fun a hallowed => ?_⟩
  · have hsim := @Run.simulate _ _ _ _ _ _ _ _ (fun a b => some (Alarms.step a b)) Alarms.Allowed Good Sys.alarms
      (fun hg hallowed hstep => (good_step hg hallowed hstep).1)
      (fun {s t a} hg hallowed hstep => .inr ⟨a, hallowed, congrArg some (good_step hg hallowed hstep).2.symm⟩) h
      good_new
    rw [alarms_new] at hsim
    exact hsim.2
  · obtain ⟨t, hstep, -, halarms⟩ := step_spec hg hallowed
    exact ⟨t, hstep, halarms⟩

/-- A timer with a sleep on its third wheel -/
def sampleTimer : Sys := ⟨Core.new.insertSleepAt ⟨0, 5000⟩, []⟩

theorem reached_sampleTimer : Reached sampleTimer := by
  refine Run.refl.snoc (a := .register ⟨0, 5000⟩) ?_ rfl
  rw [alarms_new]
  exact ⟨fun h => h, fun h => h, fun _ => show (0 : Nat) / 64 ^ 6 = 5000 / 64 ^ 6 by decide⟩

theorem reached_alarms_sample : AlarmsReached sampleTimer.alarms ∧
    ∃ t, sampleTimer.step (.turn 5000) = some t ∧ t.alarms = sampleTimer.alarms.step (.turn 5000) :=
  have h := reached_alarms reached_sampleTimer
  ⟨h.1, h.2.2.2.2 (.turn 5000) (Nat.zero_le _)⟩

end Metor.Proof.Timer
