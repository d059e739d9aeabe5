import Mathlib.Algebra.Order.BigOperators.Group.Finset
import Metor.Proof.Timer.Alarms

/-!
# Advancing the timer

A turn to a time at which the next deadline has come fires a sleep or moves it
to a lower wheel (`weight_lt`). So the clock is read at most six times for each
sleep that waits, and twice more (`advanceLocked_spec`).
-/

namespace Metor.Proof.Timer

open Metor.Lib Metor.Impl.Timer

variable {core core' : Core} {e : Entry} {now : Nat}

/-! ## Levels -/

/-- A sleep does not move to a higher wheel, -/
theorem Level.mono {now' d l l' : Nat} (h : Level now d l) (h' : Level now' d l') (hle : now ≤ now') : l' ≤ l := by
  by_contra hlt
  have hup : now / 64 ^ l' = d / 64 ^ l' := by
    obtain ⟨m, rfl⟩ : ∃ m, l' = l + 1 + m := ⟨l' - (l + 1), by omega⟩
    rw [Nat.pow_add, ← Nat.div_div_eq_div_mul, ← Nat.div_div_eq_div_mul, h.1]
  have hdiv : now / 64 ^ l' ≤ now' / 64 ^ l' := Nat.div_le_div_right hle
  rw [hup] at hdiv
  exact absurd h'.2 (Nat.not_lt.mpr hdiv)

/-- and to a lower one when its slot begins. -/
theorem Level.lt_of_slotStart {now' d l l' : Nat} (h : Level now d l) (h' : Level now' d l') (hle : now ≤ now')
    (hstart : slotStart l d ≤ now') : l' < l := by
  refine Nat.lt_of_le_of_ne (h.mono h' hle) fun heq => ?_
  subst heq
  have hpos : 0 < 64 ^ l' := Nat.pow_pos (by decide)
  exact absurd h'.2 (Nat.not_lt.mpr ((Nat.le_div_iff_mul_le hpos).mpr hstart))

theorem Inv.wheelIndex (hi : Inv core) (h : Pending core e) :
    Level core.now e.deadline (wheelIndex core.now e.deadline).val := by
  obtain ⟨l, slot, he⟩ := h
  have hlevel := hi.digit l slot e he
  exact level_wheelIndex hlevel.lt (hlevel.inRotation l.isLt)

/-! ## How many turns there are -/

/-- The sleeps that wait, wheel after wheel and slot after slot -/
def waitingList (core : Core) : List Entry :=
  (List.finRange 6).flatMap fun l => (List.finRange 64).flatMap fun s => (core.wheels l).slots s

/-- The sleeps that wait -/
def waiting (core : Core) : Finset Entry := (waitingList core).toFinset

theorem mem_waiting : e ∈ waiting core ↔ Pending core e := by
  rw [waiting, List.mem_toFinset, waitingList, List.mem_flatMap]
  constructor
  · rintro ⟨l, -, he⟩
    obtain ⟨s, -, he⟩ := List.mem_flatMap.mp he
    exact ⟨l, s, he⟩
  · rintro ⟨l, s, he⟩
    exact ⟨l, List.mem_finRange l, List.mem_flatMap.mpr ⟨s, List.mem_finRange s, he⟩⟩

theorem waiting_subset (h : ∀ e, Pending core' e → Pending core e) : waiting core' ⊆ waiting core := by
  intro e he
  exact mem_waiting.mpr (h e (mem_waiting.mp he))

theorem card_waiting_le (core : Core) : (waiting core).card ≤ core.size := by
  have hlength : (waitingList core).length = core.size := by
    simp only [waitingList, List.length_flatMap, Core.size]
  rw [← hlength]
  exact List.toFinset_card_le _

/-- How often the sleeps that wait may still move to a lower wheel or fire -/
def weight (core : Core) : Nat := ∑ e ∈ waiting core, ((wheelIndex core.now e.deadline).val + 1)

theorem weight_le (core : Core) : weight core ≤ 6 * (waiting core).card := by
  have hle : weight core ≤ ∑ _e ∈ waiting core, 6 := Finset.sum_le_sum fun e _ => Nat.succ_le_of_lt
    (wheelIndex core.now e.deadline).isLt
  rwa [Finset.sum_const, smul_eq_mul, Nat.mul_comm] at hle

/-- A turn to a time at which the next deadline has come -/
theorem weight_lt (hi : Inv core) (hi' : Inv core') {next : Option Deadline}
    (hnext : IsNext core next) {deadline : Deadline}
    (hd : deadline ∈ next) (hle : deadline.ticks ≤ core'.now)
    (hpending : ∀ e, Pending core' e ↔ Pending core e ∧ core'.now < e.deadline) : weight core' < weight core := by
  obtain ⟨hnow, -, e, l, he, hlevel, hstart⟩ := hnext.2 deadline hd
  have hle' : core.now ≤ core'.now := Nat.le_trans (Nat.le_of_lt hnow) hle
  have hsub := waiting_subset fun e he => ((hpending e).mp he).1
  have hmono : ∀ x ∈ waiting core', (wheelIndex core'.now x.deadline).val ≤ (wheelIndex core.now x.deadline).val := by
    intro x hx
    exact (hi.wheelIndex (mem_waiting.mp (hsub hx))).mono (hi'.wheelIndex (mem_waiting.mp hx)) hle'
  by_cases hstays : e ∈ waiting core'
  · have hlt : (wheelIndex core'.now e.deadline).val < (wheelIndex core.now e.deadline).val := by
      rw [(hi.wheelIndex he).unique hlevel]
      exact hlevel.lt_of_slotStart (hi'.wheelIndex (mem_waiting.mp hstays)) hle' (hstart ▸ hle)
    calc weight core' < ∑ x ∈ waiting core', ((wheelIndex core.now x.deadline).val + 1) :=
          Finset.sum_lt_sum (fun x hx => Nat.succ_le_succ (hmono x hx)) ⟨e, hstays, Nat.succ_lt_succ hlt⟩
      _ ≤ weight core := Finset.sum_le_sum_of_subset hsub
  · calc weight core' ≤ ∑ x ∈ waiting core', ((wheelIndex core.now x.deadline).val + 1) :=
          Finset.sum_le_sum fun x hx => Nat.succ_le_succ (hmono x hx)
      _ < weight core := Finset.sum_lt_sum_of_subset hsub (mem_waiting.mpr he) hstays (Nat.succ_pos _) fun _ _ _ =>
      Nat.zero_le _

/-! ## The loop -/

/-- What holds between two turns: the sleeps that waited have fired where they were due, and wait where not. -/
structure Advancing (core core' : Core) (expired : List Entry) : Prop where
  inv : Inv core'
  nodup : expired.Nodup
  expired : ∀ e, e ∈ expired ↔ Pending core e ∧ e.deadline ≤ core'.now
  waiting : ∀ e, Pending core' e ↔ Pending core e ∧ core'.now < e.deadline

theorem advancing_refl (hi : Inv core) : Advancing core core [] := by
  refine ⟨hi, List.nodup_nil, fun e => ⟨fun he => (by cases he), fun ⟨he, hle⟩ => ?_⟩,
    fun e => ⟨fun he => ⟨he, hi.lt he⟩, And.left⟩⟩
  exact absurd (hi.lt he) (Nat.not_lt.mpr hle)

/-- A turn -/
theorem Advancing.turn {core₀ : Core} {expired : List Entry} (h : Advancing core₀ core expired) (hle : core.now ≤ now) :
    ∃ fired next core', core.turnTo now = some (fired, next, core') ∧ Advancing core₀ core' (expired ++ fired) ∧
    core'.now = now ∧
      IsNext core' next ∧ ∀ e, Pending core' e ↔ Pending core e ∧ now < e.deadline := by
  obtain ⟨fired, next, core', hturn, hi, hnow, hnodup, hfired, hpending, hnext⟩ := turnTo_spec h.inv hle
  refine ⟨fired, next, core', hturn, ⟨hi, ?_, fun e => ?_, fun e => ?_⟩, hnow, hnext, hpending⟩
  · refine List.nodup_append'.mpr ⟨h.nodup, hnodup, fun e he he' => ?_⟩
    have hdue := ((h.expired e).mp he).2
    exact absurd ((h.waiting e).mp ((hfired e).mp he').1).2 (Nat.not_lt.mpr hdue)
  · rw [List.mem_append, h.expired, hfired, h.waiting, hnow]
    constructor
    · rintro (⟨he, hdue⟩ | ⟨⟨he, -⟩, hdue⟩)
      · exact ⟨he, Nat.le_trans hdue hle⟩
      · exact ⟨he, hdue⟩
    · rintro ⟨he, hdue⟩
      obtain hold | hnew := Nat.lt_or_ge core.now e.deadline
      · exact .inr ⟨⟨he, hold⟩, hdue⟩
      · exact .inl ⟨he, hnew⟩
  · rw [hpending, h.waiting, hnow]
    exact ⟨fun ⟨⟨he, _⟩, hlt⟩ => ⟨he, hlt⟩, fun ⟨he, hlt⟩ => ⟨⟨he, Nat.lt_of_le_of_lt hle hlt⟩, hlt⟩⟩

/-- The turns end before the clock is read once more than the weight says. -/
theorem advanceLoop_spec {core₀ : Core} (clock : List Nat) : ∀ (core : Core) (now : Nat) (expired : List Entry),
    Advancing core₀ core expired → (now :: clock).Pairwise (· ≤ ·) → core.now ≤ now →
    (∀ fired next core', core.turnTo now = some (fired, next, core') → weight core' < clock.length) →
    ∃ turn core', advanceLoop clock core now expired = some (turn, core') ∧ Advanced core₀ turn core' := by
  induction clock with
  | nil =>
    intro core now expired h _ hle hweight
    obtain ⟨fired, next, core', hturn, -⟩ := h.turn hle
    exact absurd (hweight fired next core' hturn) (Nat.not_lt_zero _)
  | cons now' clock ih =>
    intro core now expired h hclock hle hweight
    obtain ⟨fired, next, core', hturn, h', hnow, hnext, -⟩ := h.turn hle
    obtain ⟨hfirst, hclock⟩ := List.pairwise_cons.mp hclock
    have hle' : core'.now ≤ now' := hnow ▸ hfirst now' List.mem_cons_self
    rw [advanceLoop, hturn]
    cases next with
    | none =>
      refine ⟨_, core', rfl, ⟨Nat.le_of_eq hnow, h'.nodup, h'.expired, h'.waiting, none, rfl, ?_, fun n hn =>
        (by cases hn)⟩⟩
      exact ⟨fun _ => hnext.1.mp rfl, fun _ => rfl⟩
    | some next =>
      obtain ⟨-, hbefore, e, l, he, -⟩ := hnext.2 next rfl
      by_cases hpast : next.ticks ≤ now'
      · have hrest := ih core' now' (expired ++ fired) h' hclock hle' ?_
        · obtain ⟨turn, core'', hloop, hadvanced⟩ := hrest
          exact ⟨turn, core'', (if_pos hpast).trans hloop, hadvanced⟩
        · intro fired' next' core'' hturn'
          obtain ⟨_, _, _, hturn'', h'', hnow', -, hpending⟩ := h'.turn hle'
          obtain ⟨rfl, rfl, rfl⟩ : _ ∧ _ ∧ _ := by simpa using hturn''.symm.trans hturn'
          have hlt := weight_lt h'.inv h''.inv hnext rfl (hnow'.symm ▸ hpast) (hnow'.symm ▸ hpending)
          exact Nat.lt_of_lt_of_le hlt (Nat.le_of_lt_succ (hweight fired _ core' hturn))
      · have hlt := Nat.not_le.mp hpast
        refine ⟨_, core', if_neg hpast, ⟨hle', h'.nodup, h'.expired, h'.waiting, some (next.ticks - now'), ?_, ?_, ?_⟩⟩
        · exact if_neg (Nat.not_lt.mpr (Nat.le_of_lt hlt))
        · exact ⟨fun h => (by cases h), fun hnone => absurd he (hnone e)⟩
        · intro n hn
          obtain rfl := Option.some.inj hn
          refine ⟨Nat.sub_pos_of_lt hlt, fun e he => ?_⟩
          show now' + (next.ticks - now') ≤ e.deadline
          rw [Nat.add_sub_cancel' (Nat.le_of_lt hlt)]
          exact hbefore e he

/-- Advancing ends, and fires just the sleeps that are due; the time to the next deadline is that to a time after now,
by which no other sleep is due. -/
theorem advanceLocked_spec {s : Sys} (h : Reached s) (clock : List Nat)
    (hclock : (s.core.now :: clock).Pairwise (· ≤ ·))
    (hlength : 6 * s.core.size + 2 ≤ clock.length) :
    ∃ turn core', advanceLocked s.core clock = some (turn, core') ∧ Advanced s.core turn core' := by
  have hi := (reached_good h).inv
  cases clock with
  | nil => exact absurd hlength (by simp)
  | cons now clock =>
    obtain ⟨hfirst, hclock⟩ := List.pairwise_cons.mp hclock
    refine advanceLoop_spec clock s.core now [] (advancing_refl hi) hclock (hfirst now List.mem_cons_self) ?_
    intro fired next core' hturn
    obtain ⟨_, _, core'', hturn', -, -, -, hpending⟩ := (advancing_refl hi).turn (hfirst now List.mem_cons_self)
    obtain ⟨rfl, rfl, rfl⟩ : _ ∧ _ ∧ core'' = core' := by simpa using hturn'.symm.trans hturn
    have hsub := waiting_subset fun e he => ((hpending e).mp he).1
    have hcard := Nat.le_trans (Finset.card_le_card hsub) (card_waiting_le s.core)
    have hweight := weight_le core''
    rw [List.length_cons] at hlength
    omega

theorem advanceLocked_sample : ∃ turn core', advanceLocked sampleTimer.core (List.replicate 8 4990) = some
    (turn, core') ∧
    Advanced sampleTimer.core turn core' :=
  advanceLocked_spec reached_sampleTimer _ (by decide) (by decide)

end Metor.Proof.Timer
