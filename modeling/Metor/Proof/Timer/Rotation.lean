import Mathlib.Tactic.Ring
import Metor.Proof.Timer.Alarms

/-!
# Sleeps that end in the next rotation

The highest wheel turns once in `64 ^ 6` ticks. A sleep that ends in its next
turn is put on it as well, but its slot is looked for from that of `now` on. One
before it is `64` slots further, and of these `next_deadline` skips as many
turns as the slot has ticks (`nextDeadline_crossing`), not one. So the deadline
is reported in time in two cases only (`timely_iff`).
-/

namespace Metor.Proof.Timer

open Metor.Lib Metor.Impl.Timer

variable {core : Core} {e : Entry} {now d : Nat}

/-- The one bit of a map is found where it is, or 64 further where it is before the offset. -/
theorem nextSetBit_one {k s : Nat} (hk : k < 64) (hs : s < 64) :
    nextSetBit (1#64 <<< k) s = some (if s ≤ k then k else k + 64) := by
  have hbit : ∀ i, (1#64 <<< k).getLsbD i = true ↔ i = k := by
    intro i
    rw [BitVec.getLsbD_shiftLeft, BitVec.getLsbD_one]
    simp only [Bool.and_eq_true, decide_eq_true_eq, Bool.not_eq_true', decide_eq_false_iff_not]
    omega
  by_cases hle : s ≤ k
  · obtain ⟨first, hfirst, -, -, hset, -⟩ := nextSetBit_spec hle ((hbit k).mpr rfl)
    rw [hfirst, (hbit first).mp hset, if_pos hle]
  · have hne : 1#64 <<< k ≠ 0 := by
      intro hzero
      have hset := (hbit k).mpr rfl
      rw [hzero] at hset
      simp at hset
    have hshifted : (1#64 <<< k) >>> s = 0 := by
      refine BitVec.eq_of_getLsbD_eq fun i hi => ?_
      rw [BitVec.getLsbD_ushiftRight, Bool.eq_iff_iff, hbit]
      simp only [BitVec.ofNat_eq_ofNat, BitVec.getLsbD_zero, Bool.false_eq_true, iff_false]
      omega
    have hrotated : ∀ i, ((1#64 <<< k).rotateRight s).getLsbD i = true ↔ i = k + 64 - s := by
      intro i
      rw [BitVec.getLsbD_rotateRight, Nat.mod_eq_of_lt hs]
      by_cases hi : i < 64 - s
      · rw [decide_eq_true hi, cond_true, hbit]
        omega
      · rw [decide_eq_false hi, cond_false, Bool.and_eq_true, hbit, decide_eq_true_eq]
        omega
    have hne' : (1#64 <<< k).rotateRight s ≠ 0 := by
      intro hzero
      have hset := (hrotated _).mpr rfl
      rw [hzero] at hset
      simp at hset
    have hctz := (hrotated _).mp (BitVec.getLsbD_true_ctz_of_ne_zero hne')
    rw [nextSetBit, if_neg hne, if_neg hle]
    simp only [hshifted, if_true, hctz]
    congr 1
    omega

/-- A sleep that ends in the next rotation is on the highest wheel. -/
theorem wheelIndex_crossing (hcross : d / 64 ^ 6 = now / 64 ^ 6 + 1) : wheelIndex now d = 5 := by
  have hmax : maxSleepTicks = 2 ^ 36 - 1 := rfl
  have hge : ¬ (now ^^^ d) ||| 63 < 2 ^ 36 := by
    rw [or_lt_iff, xor_lt_iff]
    have h36 : (2 : Nat) ^ 36 = 64 ^ 6 := by decide
    rw [h36]
    omega
  have hcapped : (if maxSleepTicks ≤ (now ^^^ d) ||| 63 then maxSleepTicks - 1
    else (now ^^^ d) ||| 63) = 2 ^ 36 - 2 := by
    rw [if_pos (by omega), hmax]
    rfl
  rw [wheelIndex]
  simp only [hcapped]
  decide

theorem slots_eq_nil (hnone : ∀ e, ¬ Pending core e) (l : Fin 6) (s : Fin 64) : (core.wheels l).slots s = [] :=
  List.eq_nil_iff_forall_not_mem.mpr fun e he => hnone e ⟨l, s, he⟩

/-- The deadline that is reported where no other sleep waits -/
theorem nextDeadline_crossing (hi : Inv core) (hnone : ∀ e, ¬ Pending core e)
    (hcross : e.deadline / 64 ^ 6 = core.now / 64 ^ 6 + 1) :
    (core.insertSleepAt e).nextDeadline.map (·.ticks) = some (core.now / 64 ^ 6 * 64 ^ 6 + topSlot e.deadline * 64 ^ 5 +
      (if topSlot core.now ≤ topSlot e.deadline then 0 else topSlot e.deadline) * 64 ^ 6) := by
  have hk : topSlot e.deadline < 64 := Nat.mod_lt _ (by decide)
  have hs : topSlot core.now < 64 := Nat.mod_lt _ (by decide)
  have hwheel : (core.insertSleepAt e).wheels 5 = (core.wheels 5).insert e := by
    rw [Core.insertSleepAt, wheelIndex_crossing hcross]
    show Function.update core.wheels (5 : Fin 6) ((core.wheels 5).insert e) 5 = _
    rw [Function.update_self]
  have hlower : ∀ l : Fin 6, l ≠ 5 → ((core.insertSleepAt e).wheels l).nextDeadline core.now = none := by
    intro l hl
    have heq : (core.insertSleepAt e).wheels l = core.wheels l := by
      rw [Core.insertSleepAt, wheelIndex_crossing hcross]
      show Function.update core.wheels (5 : Fin 6) ((core.wheels 5).insert e) l = core.wheels l
      rw [Function.update_of_ne hl]
    rw [heq]
    exact (wheel_nextDeadline_none hi).mpr (slots_eq_nil hnone l)
  have hlevel : ((core.wheels 5).insert e).level = 5 := hi.level 5
  have hoccupied : ((core.wheels 5).insert e).occupiedSlots = 1#64 <<< topSlot e.deadline := by
    have hslot : ((core.wheels 5).slotIndex e.deadline).val = topSlot e.deadline := slotIndex_val (hi.level 5)
    show (core.wheels 5).occupiedSlots ||| 1#64 <<< ((core.wheels 5).slotIndex e.deadline).val = _
    rw [(occupied_eq_zero_iff hi).mpr (slots_eq_nil hnone 5), hslot]
    exact BitVec.zero_or
  have hdistance : ((core.wheels 5).insert e).nextSlotDistance core.now =
      some (if topSlot core.now ≤ topSlot e.deadline then topSlot e.deadline else topSlot e.deadline + 64) := by
    rw [Wheel.nextSlotDistance, Wheel.ticksPerSlot, hlevel, hoccupied]
    exact nextSetBit_one hk hs
  have htop : (((core.insertSleepAt e).wheels 5).nextDeadline core.now).map (·.ticks) = some
    (core.now / 64 ^ 6 * 64 ^ 6 +
      topSlot e.deadline * 64 ^ 5 + (if topSlot core.now ≤ topSlot e.deadline then 0
      else topSlot e.deadline) * 64 ^ 6) := by
    rw [hwheel, Wheel.nextDeadline, hdistance, Wheel.ticksPerWheel, Wheel.ticksPerSlot, hlevel]
    generalize topSlot e.deadline = k at hk
    by_cases hle : topSlot core.now ≤ k
    · have hmod : k % 64 = k := Nat.mod_eq_of_lt hk
      simp [hle, Fin.ofNat, hmod]
      omega
    · have hmod : (k + 64) % 64 = k := by omega
      simp [hle, Fin.ofNat, hmod]
  have hfind : (core.insertSleepAt e).nextDeadline = ((core.insertSleepAt e).wheels 5).nextDeadline core.now := by
    show (List.finRange 6).findSome? (fun level => ((core.insertSleepAt e).wheels level).nextDeadline core.now) = _
    have hrange : List.finRange 6 = [0, 1, 2, 3, 4, 5] := by decide
    rw [hrange]
    simp only [List.findSome?_cons, hlower 0 (by decide), hlower 1 (by decide), hlower 2 (by decide),
      hlower 3 (by decide),
      hlower 4 (by decide), List.findSome?_nil]
    cases ((core.insertSleepAt e).wheels 5).nextDeadline core.now <;> rfl
  rw [hfind, htop]

/-- Slots are counted on over the rotations. -/
theorem slots_iff (a b : Nat) (hcross : b / 64 = a / 64 + 1) :
    (a < a / 64 * 64 + b % 64 + (if a % 64 ≤ b % 64 then 0 else b % 64) * 64 ∧
      a / 64 * 64 + b % 64 + (if a % 64 ≤ b % 64 then 0 else b % 64) * 64 ≤ b) ↔ a % 64 < b % 64 ∨ b % 64 = 1 ∧
      1 < a % 64 := by
  split
  · omega
  · omega

/-- A sleep that ends in the next rotation is reported in time just where its slot is after that of `now`, or is the
second one and that of `now` is later. -/
theorem timely_iff {s : Sys} (h : Reached s) (hnone : ∀ e, ¬ Pending s.core e) (e : Entry)
    (hcross : e.deadline / 64 ^ 6 = s.core.now / 64 ^ 6 + 1) :
    Timely s.core.now e.deadline (s.core.insertSleepAt e).nextDeadline ↔
      topSlot s.core.now < topSlot e.deadline ∨ topSlot e.deadline = 1 ∧ 1 < topSlot s.core.now := by
  rw [Timely, nextDeadline_crossing (reached_good h).inv hnone hcross]
  have hnow : s.core.now / 64 ^ 6 = s.core.now / 64 ^ 5 / 64 := by
    rw [Nat.div_div_eq_div_mul, ← Nat.pow_succ]
  have hd : e.deadline / 64 ^ 6 = e.deadline / 64 ^ 5 / 64 := by
    rw [Nat.div_div_eq_div_mul, ← Nat.pow_succ]
  have hpow : (64 : Nat) ^ 6 = 64 * 64 ^ 5 := by decide
  have hpos : 0 < (64 : Nat) ^ 5 := by decide
  rw [hnow, hd] at hcross
  generalize s.core.now = now at *
  generalize e.deadline = d at *
  have hafter : ∀ m, now < m * 64 ^ 5 ↔ now / 64 ^ 5 < m := fun m => (Nat.div_lt_iff_lt_mul hpos).symm
  have hbefore : ∀ m, m * 64 ^ 5 ≤ d ↔ m ≤ d / 64 ^ 5 := fun m => (Nat.le_div_iff_mul_le hpos).symm
  have hticks : now / 64 ^ 6 * 64 ^ 6 + topSlot d * 64 ^ 5 + (if topSlot now ≤ topSlot d then 0
      else topSlot d) * 64 ^ 6 =
      (now / 64 ^ 5 / 64 * 64 + topSlot d + (if topSlot now ≤ topSlot d then 0 else topSlot d) * 64) * 64 ^ 5 := by
    rw [hnow, hpow]
    ring
  rw [hticks]
  clear hticks hnow hd
  simp only [Option.some.injEq, exists_eq_left', hafter, hbefore, topSlot]
  clear hafter hbefore
  exact slots_iff _ _ hcross

/-- From boot, a sleep that ends in the fourth slot of the second rotation -/
theorem timely_iff_sample : Timely 0 ((64 + 3) * 64 ^ 5) (Core.new.insertSleepAt ⟨0, (64 + 3) * 64 ^ 5⟩).nextDeadline ↔
    topSlot 0 < topSlot ((64 + 3) * 64 ^ 5) ∨ topSlot ((64 + 3) * 64 ^ 5) = 1 ∧ 1 < topSlot 0 :=
  timely_iff (s := .new) .refl (fun e h => absurd (alarms_new ▸ h : e ∈ Alarms.new.waiting) (fun h => h))
  ⟨0, (64 + 3) * 64 ^ 5⟩
    (by decide)

end Metor.Proof.Timer
