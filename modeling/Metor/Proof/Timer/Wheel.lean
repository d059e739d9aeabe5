import Mathlib.Data.Nat.Bitwise
import Metor.Spec.Timer

/-!
# The wheels of the timer

A sleep whose deadline is in the rotation of `now` is on the wheel of the
highest digit, to the base 64, in which the two are different
(`wheelIndex_eq_iff`), in the slot of that digit. `Inv` says so of every sleep
that waits. The next deadline is then the earliest slot of the lowest wheel
with a sleep, and no other slot begins by then (`nextDeadline_spec`).
-/

namespace Metor.Proof.Timer

open Metor.Impl.Timer

/-! ## Digits -/

variable {now d : Nat}

/-- The highest digit in which a deadline is not `now` -/
def Level (now d l : Nat) : Prop := now / 64 ^ (l + 1) = d / 64 ^ (l + 1) ∧ now / 64 ^ l < d / 64 ^ l

theorem pow_eq (l : Nat) : 64 ^ l = 2 ^ (6 * l) := by
  rw [Nat.pow_mul]

/-- Numbers differ in a low digit only where their quotients are equal. -/
theorem xor_lt_iff (a b k : Nat) : a ^^^ b < 2 ^ k ↔ a / 2 ^ k = b / 2 ^ k := by
  rw [← Nat.shiftRight_eq_div_pow, ← Nat.shiftRight_eq_div_pow, ← Nat.xor_eq_zero_iff, ← Nat.shiftRight_xor_distrib,
    Nat.shiftRight_eq_div_pow, Nat.div_eq_zero_iff_lt (Nat.two_pow_pos k)]

theorem or_lt_iff (a b k : Nat) : a ||| b < 2 ^ k ↔ a < 2 ^ k ∧ b < 2 ^ k :=
  ⟨fun h => ⟨Nat.lt_of_le_of_lt Nat.left_le_or h, Nat.lt_of_le_of_lt Nat.right_le_or h⟩,
  fun h => Nat.or_lt_two_pow h.1 h.2⟩

/-- What `wheel_index` takes the highest digit of is as long as the digits in which the two numbers differ. -/
theorem capped_lt_iff (hrotation : now / 64 ^ 6 = d / 64 ^ 6) {l : Nat} (hl : l < 6) :
    (if maxSleepTicks ≤ (now ^^^ d) ||| 63 then maxSleepTicks - 1 else (now ^^^ d) ||| 63) < 64 ^ (l + 1) ↔
      now / 64 ^ (l + 1) = d / 64 ^ (l + 1) := by
  have hmax : maxSleepTicks = 2 ^ 36 - 1 := rfl
  have hlt : (now ^^^ d) ||| 63 < 2 ^ 36 := (or_lt_iff _ _ 36).mpr ⟨(xor_lt_iff now d 36).mpr hrotation, by decide⟩
  have hor : (now ^^^ d) ||| 63 < 64 ^ (l + 1) ↔ now / 64 ^ (l + 1) = d / 64 ^ (l + 1) := by
    rw [pow_eq, or_lt_iff, xor_lt_iff]
    refine ⟨fun h => h.1, fun h => ⟨h, ?_⟩⟩
    exact Nat.lt_of_lt_of_le (show 63 < 2 ^ 6 by decide) (Nat.pow_le_pow_right (by decide) (by omega))
  rw [← hor]
  split
  · obtain h5 | rfl : l < 5 ∨ l = 5 := by omega
    · have hle : (64 : Nat) ^ (l + 1) ≤ 64 ^ 5 := Nat.pow_le_pow_right (by decide) (by omega)
      have h30 : (64 : Nat) ^ 5 = 2 ^ 30 := by decide
      omega
    · have h36 : (64 : Nat) ^ (5 + 1) = 2 ^ 36 := by decide
      omega
  · rfl

/-- In the rotation of `now`, a deadline is on the wheel of the highest digit in which it is not `now`. -/
theorem wheelIndex_eq_iff (hrotation : now / 64 ^ 6 = d / 64 ^ 6) (hlt : now < d) (l : Fin 6) :
    wheelIndex now d = l ↔ Level now d l := by
  have hmax : maxSleepTicks = 2 ^ 36 - 1 := rfl
  have hcapped := fun {l : Nat} (hl : l < 6) => capped_lt_iff (l := l) hrotation hl
  have hge : 63 ≤ (now ^^^ d) ||| 63 := Nat.right_le_or
  rw [wheelIndex]
  generalize hy : (if maxSleepTicks ≤ (now ^^^ d) ||| 63 then maxSleepTicks - 1 else (now ^^^ d) ||| 63) = y at hcapped
  have hpos : 62 ≤ y := by
    rw [← hy]
    split
    · omega
    · omega
  have hne : y ≠ 0 := by omega
  have htop : y.log2 / 6 < 6 := by
    have hlog := (Nat.log2_lt hne (k := 36)).mpr ((hcapped (l := 5) (by decide)).mpr hrotation)
    omega
  have hindex : Fin.ofNat 6 (y.log2 / 6) = l ↔ y.log2 / 6 = l := by
    rw [Fin.ext_iff]
    show y.log2 / 6 % 6 = l ↔ _
    rw [Nat.mod_eq_of_lt htop]
  have hupper : y.log2 < 6 * (l + 1) ↔ now / 64 ^ (l.val + 1) = d / 64 ^ (l.val + 1) := by
    rw [Nat.log2_lt hne, ← pow_eq, hcapped l.isLt]
  have hlower : 6 * l ≤ y.log2 ↔ now / 64 ^ l.val < d / 64 ^ l.val := by
    obtain ⟨l, hl⟩ := l
    cases l with
    | zero => simpa using hlt
    | succ l =>
      have hle : now / 64 ^ (l + 1) ≤ d / 64 ^ (l + 1) := Nat.div_le_div_right (Nat.le_of_lt hlt)
      have hdigit := hcapped (l := l) (by omega)
      rw [pow_eq, ← Nat.log2_lt hne, ← pow_eq] at hdigit
      show 6 * (l + 1) ≤ y.log2 ↔ now / 64 ^ (l + 1) < d / 64 ^ (l + 1)
      omega
  rw [hindex, Level, ← hupper, ← hlower]
  omega

/-! ## Bitmaps -/

/-- The first set bit from an offset on, where there is one. -/
theorem nextSetBit_spec {bitmap : BitVec 64} {offset i : Nat} (hi : offset ≤ i) (hbit : bitmap.getLsbD i = true) :
    ∃ first, nextSetBit bitmap offset = some first ∧ offset ≤ first ∧ first ≤ i ∧ bitmap.getLsbD first = true ∧
      ∀ j, offset ≤ j → bitmap.getLsbD j = true → first ≤ j := by
  have hne : bitmap ≠ 0 := by
    rintro rfl
    simp at hbit
  have hshifted : ∀ j, offset ≤ j → bitmap.getLsbD j = true → (bitmap >>> offset).getLsbD (j - offset) = true := by
    intro j hj hb
    rwa [BitVec.getLsbD_ushiftRight, Nat.add_sub_cancel' hj]
  have hne' : bitmap >>> offset ≠ 0 := by
    intro hzero
    have hb := hshifted i hi hbit
    rw [hzero] at hb
    simp at hb
  have hleast : ∀ j, offset ≤ j → bitmap.getLsbD j = true → (bitmap >>> offset).ctz.toNat + offset ≤ j := by
    intro j hj hb
    by_contra hlt
    have hfalse := BitVec.getLsbD_false_of_lt_ctz (x := bitmap >>> offset) (i := j - offset) (by omega)
    rw [hshifted j hj hb] at hfalse
    cases hfalse
  refine ⟨(bitmap >>> offset).ctz.toNat + offset, ?_, Nat.le_add_left _ _, hleast i hi hbit, ?_, hleast⟩
  · rw [nextSetBit, if_neg hne]
    simp only [if_neg hne']
  · have hfirst := BitVec.getLsbD_true_ctz_of_ne_zero hne'
    rwa [BitVec.getLsbD_ushiftRight, Nat.add_comm] at hfirst

theorem nextSetBit_eq_none {bitmap : BitVec 64} {offset : Nat} : nextSetBit bitmap offset = none ↔ bitmap = 0 := by
  rw [nextSetBit]
  split
  · exact ⟨fun _ => ‹_›, fun _ => rfl⟩
  · exact ⟨fun h => (by cases h), fun h => absurd h ‹_›⟩

/-! ## The invariant -/

variable {core : Core} {e e' : Entry} {l l' : Fin 6} {s s' : Fin 64}

/-- When the slot of a deadline begins -/
def slotStart (l d : Nat) : Nat := d / 64 ^ l * 64 ^ l

/-- Every sleep that waits is on the wheel and in the slot of its deadline. -/
structure Inv (core : Core) : Prop where
  level : ∀ l, (core.wheels l).level = l
  occupied : ∀ l s, (core.wheels l).occupiedSlots.getLsbD s.val = true ↔ (core.wheels l).slots s ≠ []
  nodup : ∀ l s, ((core.wheels l).slots s).Nodup
  digit : ∀ l s, ∀ e ∈ (core.wheels l).slots s, Level core.now e.deadline l.val
  slot : ∀ l s, ∀ e ∈ (core.wheels l).slots s, e.deadline / 64 ^ l.val % 64 = s.val

theorem slotIndex_val {w : Wheel} (hw : w.level = l) : (w.slotIndex d).val = d / 64 ^ l.val % 64 := by
  rw [Wheel.slotIndex, hw, Nat.shiftRight_eq_div_pow, Nat.mul_comm, ← pow_eq]
  rfl

theorem Level.lt {l : Nat} (h : Level now d l) : now < d := by
  by_contra hle
  exact absurd h.2 (Nat.not_lt.mpr (Nat.div_le_div_right (Nat.not_lt.mp hle)))

/-- A sleep is on one wheel only. -/
theorem Level.unique {l l' : Nat} (h : Level now d l) (h' : Level now d l') : l = l' := by
  have hup : ∀ {m n : Nat}, m < n → now / 64 ^ (m + 1) = d / 64 ^ (m + 1) → now / 64 ^ n = d / 64 ^ n := by
    intro m n hmn heq
    have hn : n = (m + 1) + (n - (m + 1)) := by omega
    rw [hn, Nat.pow_add, ← Nat.div_div_eq_div_mul, ← Nat.div_div_eq_div_mul, heq]
  by_contra hne
  obtain hlt | hlt := Nat.lt_or_gt_of_ne hne
  · exact Nat.ne_of_lt h'.2 (hup hlt h.1)
  · exact Nat.ne_of_lt h.2 (hup hlt h'.1)

theorem lt_slotStart {l : Nat} (h : Level now d l) : now < slotStart l d := by
  have hpos : 0 < 64 ^ l := Nat.pow_pos (by decide)
  exact (Nat.div_lt_iff_lt_mul hpos).mp h.2

theorem slotStart_le (l d : Nat) : slotStart l d ≤ d := Nat.div_mul_le_self d _

/-- A time before the slot of a deadline begins leaves it on its wheel. -/
theorem Level.of_le {l now' : Nat} (h : Level now d l) (hle : now ≤ now') (hlt : now' < slotStart l d) :
    Level now' d l := by
  have hpos : 0 < 64 ^ l := Nat.pow_pos (by decide)
  refine ⟨Nat.le_antisymm (Nat.div_le_div_right ?_) ?_, (Nat.div_lt_iff_lt_mul hpos).mpr hlt⟩
  · exact Nat.le_of_lt (Nat.lt_of_lt_of_le hlt (slotStart_le l d))
  · rw [← h.1]
    exact Nat.div_le_div_right hle

/-- Slots of a higher wheel begin after those of a lower one. -/
theorem slotStart_lt_slotStart {d d' l l' : Nat} (h : Level now d l) (h' : Level now d' l') (hlt : l < l') :
    slotStart l d < slotStart l' d' := by
  have hpos : 0 < 64 ^ (l + 1) := Nat.pow_pos (by decide)
  have hpow : 64 ^ (l' - (l + 1)) * 64 ^ (l + 1) = 64 ^ l' := by
    rw [← Nat.pow_add]
    congr 1
    omega
  have hblock : d < (d / 64 ^ (l + 1) + 1) * 64 ^ (l + 1) := by
    rw [Nat.mul_comm]
    exact Nat.lt_mul_div_succ d hpos
  have hstart : slotStart l' d' = d' / 64 ^ l' * 64 ^ (l' - (l + 1)) * 64 ^ (l + 1) := by
    rw [slotStart, Nat.mul_assoc, hpow]
  have hnext : d / 64 ^ (l + 1) + 1 ≤ d' / 64 ^ l' * 64 ^ (l' - (l + 1)) := by
    rw [← h.1]
    refine (Nat.div_lt_iff_lt_mul hpos).mpr ?_
    rw [← hstart]
    exact lt_slotStart h'
  calc slotStart l d ≤ d := slotStart_le l d
    _ < (d / 64 ^ (l + 1) + 1) * 64 ^ (l + 1) := hblock
    _ ≤ d' / 64 ^ l' * 64 ^ (l' - (l + 1)) * 64 ^ (l + 1) := Nat.mul_le_mul_right _ hnext
    _ = slotStart l' d' := hstart.symm

/-- A slot begins where its rotation does, and as many slots later as its digit says. -/
theorem slotStart_eq {l : Nat} (h : Level now d l) :
    slotStart l d = now / 64 ^ (l + 1) * 64 ^ (l + 1) + d / 64 ^ l % 64 * 64 ^ l := by
  have hdiv : d / 64 ^ l = d / 64 ^ (l + 1) * 64 + d / 64 ^ l % 64 := by
    rw [Nat.pow_succ, ← Nat.div_div_eq_div_mul]
    omega
  rw [slotStart, h.1]
  calc d / 64 ^ l * 64 ^ l = (d / 64 ^ (l + 1) * 64 + d / 64 ^ l % 64) * 64 ^ l := by rw [← hdiv]
    _ = d / 64 ^ (l + 1) * 64 ^ (l + 1) + d / 64 ^ l % 64 * 64 ^ l := by rw [Nat.add_mul, Nat.mul_assoc, Nat.pow_succ']

/-- The digit of a deadline is greater than that of `now`. -/
theorem digit_lt {l : Nat} (h : Level now d l) : now / 64 ^ l % 64 < d / 64 ^ l % 64 := by
  obtain ⟨hup, hlt⟩ := h
  rw [Nat.pow_succ, ← Nat.div_div_eq_div_mul, ← Nat.div_div_eq_div_mul] at hup
  omega

/-! ## The next deadline -/

section
variable (hi : Inv core)
include hi

theorem occupied_eq_zero_iff : (core.wheels l).occupiedSlots = 0 ↔ ∀ s, (core.wheels l).slots s = [] := by
  constructor
  · intro hzero s
    by_contra hne
    have hbit := (hi.occupied l s).mpr hne
    rw [hzero] at hbit
    simp at hbit
  · intro hnil
    refine BitVec.eq_of_getLsbD_eq fun i hlt => ?_
    have hbit := hi.occupied l ⟨i, hlt⟩
    rw [hnil] at hbit
    simpa using hbit

/-- A wheel with a sleep answers its first slot with one. -/
theorem wheel_nextDeadline (he : e ∈ (core.wheels l).slots s) :
    ∃ first : Fin 64, (core.wheels l).nextDeadline core.now =
        some ⟨core.now / 64 ^ (l.val + 1) * 64 ^ (l.val + 1) + first.val * 64 ^ l.val, first, l⟩ ∧
      (core.wheels l).slots first ≠ [] ∧ ∀ s', (core.wheels l).slots s' ≠ [] → first ≤ s' := by
  have hafter : ∀ s', (core.wheels l).slots s' ≠ [] → core.now / 64 ^ l.val % 64 ≤ s'.val := by
    intro s' hs'
    obtain ⟨e', he'⟩ := List.exists_mem_of_ne_nil _ hs'
    rw [← hi.slot l s' e' he']
    exact Nat.le_of_lt (digit_lt (hi.digit l s' e' he'))
  have hne : (core.wheels l).slots s ≠ [] := List.ne_nil_of_mem he
  obtain ⟨first, hfirst, -, hle, hbit, hleast⟩ := nextSetBit_spec (hafter s hne) ((hi.occupied l s).mpr hne)
  have hlt : first < 64 := Nat.lt_of_le_of_lt hle s.isLt
  refine ⟨⟨first, hlt⟩, ?_, (hi.occupied l ⟨first, hlt⟩).mp hbit, fun s' hs' =>
    hleast s'.val (hafter s' hs') ((hi.occupied l s').mpr hs')⟩
  have hslot : Fin.ofNat 64 first = ⟨first, hlt⟩ := Fin.ext (Nat.mod_eq_of_lt hlt)
  have hskipped : first - 64 = 0 := by omega
  rw [Wheel.nextDeadline, Wheel.nextSlotDistance, Wheel.ticksPerWheel, Wheel.ticksPerSlot, hi.level, hfirst]
  simp only [Option.bind_eq_bind, Option.bind_some, Option.pure_def, hslot, hskipped, Nat.zero_mul, Nat.add_zero,
    Nat.pow_succ]

theorem wheel_nextDeadline_none : (core.wheels l).nextDeadline core.now = none ↔ ∀ s, (core.wheels l).slots s = [] := by
  rw [← occupied_eq_zero_iff hi, ← @nextSetBit_eq_none _ (core.now / (core.wheels l).ticksPerSlot % 64)]
  rw [Wheel.nextDeadline, Wheel.nextSlotDistance]
  cases nextSetBit (core.wheels l).occupiedSlots (core.now / (core.wheels l).ticksPerSlot % 64) with
  | none => exact ⟨fun _ => rfl, fun _ => rfl⟩
  | some distance => exact ⟨fun h => (by cases h), fun h => (by cases h)⟩

theorem nextDeadline_eq_none : core.nextDeadline = none ↔ ∀ e, ¬ Pending core e := by
  rw [Core.nextDeadline, List.findSome?_eq_none_iff]
  constructor
  · rintro h e ⟨l, s, he⟩
    rw [(wheel_nextDeadline_none hi).mp (h l (List.mem_finRange l)) s] at he
    cases he
  · intro h l _
    refine (wheel_nextDeadline_none hi).mpr fun s => ?_
    exact List.eq_nil_iff_forall_not_mem.mpr fun e he => h e ⟨l, s, he⟩

/-- The next deadline is the first slot of the lowest wheel, and all other slots begin later. -/
theorem nextDeadline_spec {deadline : Deadline} (h : core.nextDeadline = some deadline) :
    (core.wheels deadline.wheel).slots deadline.slot ≠ [] ∧ core.now < deadline.ticks ∧
      (∀ e ∈ (core.wheels deadline.wheel).slots deadline.slot, slotStart deadline.wheel e.deadline = deadline.ticks) ∧
      ∀ l s, ∀ e ∈ (core.wheels l).slots s, (l ≠ deadline.wheel ∨ s ≠ deadline.slot) →
        deadline.ticks < slotStart l e.deadline := by
  rw [Core.nextDeadline, List.findSome?_eq_some_iff] at h
  obtain ⟨lower, l, higher, hsplit, hfound, hnone⟩ := h
  have hlower : ∀ l', l' < l → l' ∈ lower := by
    intro l' hlt
    have hmem := List.mem_finRange l'
    have hsorted := List.pairwise_lt_finRange 6
    rw [hsplit] at hmem hsorted
    obtain hmem | hmem := List.mem_append.mp hmem
    · exact hmem
    · obtain rfl | hmem := List.mem_cons.mp hmem
      · exact absurd hlt (Fin.lt_irrefl l')
      · have hgt := (List.pairwise_cons.mp (List.pairwise_append.mp hsorted).2.1).1 l' hmem
        exact absurd hlt (Fin.not_lt.mpr (Fin.le_of_lt hgt))
  have hsome : ∃ s, (core.wheels l).slots s ≠ [] := by
    by_contra hall
    have hnil : ∀ s, (core.wheels l).slots s = [] := fun s => by
      by_contra hne
      exact hall ⟨s, hne⟩
    rw [(wheel_nextDeadline_none hi).mpr hnil] at hfound
    cases hfound
  obtain ⟨s, hs⟩ := hsome
  obtain ⟨e, he⟩ := List.exists_mem_of_ne_nil _ hs
  obtain ⟨first, hfirst, hne, hleast⟩ := wheel_nextDeadline hi he
  obtain rfl := Option.some.inj (hfirst.symm.trans hfound)
  have hstart : ∀ s', ∀ e ∈ (core.wheels l).slots s', slotStart l e.deadline =
      core.now / 64 ^ (l.val + 1) * 64 ^ (l.val + 1) + s'.val * 64 ^ l.val := by
    intro s' e he
    rw [slotStart_eq (hi.digit l s' e he), hi.slot l s' e he]
  obtain ⟨e₁, he₁⟩ := List.exists_mem_of_ne_nil _ hne
  refine ⟨hne, ?_, fun e he => hstart first e he, fun l' s' e' he' hother => ?_⟩
  · show core.now < core.now / 64 ^ (l.val + 1) * 64 ^ (l.val + 1) + first.val * 64 ^ l.val
    rw [← hstart first e₁ he₁]
    exact lt_slotStart (hi.digit l first e₁ he₁)
  · show core.now / 64 ^ (l.val + 1) * 64 ^ (l.val + 1) + first.val * 64 ^ l.val < slotStart l' e'.deadline
    obtain hlt | heq | hgt := Nat.lt_trichotomy l'.val l.val
    · rw [(wheel_nextDeadline_none hi).mp (hnone l' (hlower l' hlt)) s'] at he'
      cases he'
    · obtain rfl := Fin.ext heq
      have hs' : first < s' := by
        refine Nat.lt_of_le_of_ne (hleast s' (List.ne_nil_of_mem he')) fun heq => ?_
        obtain hl | hs := hother
        · exact hl rfl
        · exact hs (Fin.ext heq).symm
      rw [hstart s' e' he']
      exact Nat.add_lt_add_left (Nat.mul_lt_mul_of_pos_right hs' (Nat.pow_pos (by decide))) _
    · rw [← hstart first e₁ he₁]
      exact slotStart_lt_slotStart (hi.digit l first e₁ he₁) (hi.digit l' s' e' he') hgt

end

end Metor.Proof.Timer
