import Mathlib.Algebra.BigOperators.Fin
import Mathlib.Algebra.Order.BigOperators.Group.Finset
import Metor.Proof.Timer.Wheel

/-!
# Turns of the timer

Inserting, removing and taking sleeps change the list of one slot
(`Replaces`), and keep the invariant (`inv_replace`). A turn takes every slot
that has begun (`turnLoop_spec`), so that it fires just the sleeps whose
deadline has come, and its next deadline is later than `now` and not later than
that of any sleep that waits (`turnTo_spec`).
-/

namespace Metor.Proof.Timer

open Metor.Impl.Timer

variable {core core' : Core} {e e' : Entry} {l l' : Fin 6} {s s' : Fin 64} {now : Nat}

/-! ## One slot -/

/-- The list of a slot is another one. -/
structure Replaces (w w' : Wheel) (slot : Fin 64) (entries : List Entry) : Prop where
  level : w'.level = w.level
  slots : ∀ s, w'.slots s = if s = slot then entries else w.slots s
  occupied : ∀ s, w'.occupiedSlots.getLsbD s.val = if s = slot then !entries.isEmpty else w.occupiedSlots.getLsbD s.val

theorem getLsbD_one_shiftLeft (slot s : Fin 64) : (1#64 <<< slot.val).getLsbD s.val = decide (s = slot) := by
  have hs := s.isLt
  rw [BitVec.getLsbD_shiftLeft, BitVec.getLsbD_one, Bool.eq_iff_iff]
  simp only [Bool.and_eq_true, decide_eq_true_eq, Bool.not_eq_true', decide_eq_false_iff_not, Fin.ext_iff]
  omega

theorem fillSlot_occupied (w : Wheel) (slot s : Fin 64) :
    (w.fillSlot slot).occupiedSlots.getLsbD s.val = if s = slot then true else w.occupiedSlots.getLsbD s.val := by
  rw [Wheel.fillSlot, BitVec.getLsbD_or, getLsbD_one_shiftLeft]
  by_cases hs : s = slot <;> simp [hs]

theorem clearSlot_occupied (w : Wheel) (slot s : Fin 64) :
    (w.clearSlot slot).occupiedSlots.getLsbD s.val = if s = slot then false else w.occupiedSlots.getLsbD s.val := by
  rw [Wheel.clearSlot, BitVec.getLsbD_and, BitVec.getLsbD_not, getLsbD_one_shiftLeft]
  by_cases hs : s = slot <;> simp [hs]

theorem insert_replaces (w : Wheel) (e : Entry) :
    Replaces w (w.insert e) (w.slotIndex e.deadline) (e :: w.slots (w.slotIndex e.deadline)) where
  level := rfl
  slots _ := Function.update_apply _ _ _ _
  occupied _ := fillSlot_occupied _ _ _

theorem take_replaces (w : Wheel) (slot : Fin 64) : Replaces w (w.take slot).2 slot [] where
  level := rfl
  slots _ := Function.update_apply _ _ _ _
  occupied _ := clearSlot_occupied _ _ _

theorem remove_replaces {w : Wheel} {e : Entry}
    (hbit : w.occupiedSlots.getLsbD (w.slotIndex e.deadline).val = true) :
    Replaces w (w.remove e) (w.slotIndex e.deadline) ((w.slots (w.slotIndex e.deadline)).erase e) := by
  have hself : Function.update w.slots (w.slotIndex e.deadline) ((w.slots (w.slotIndex e.deadline)).erase e)
      (w.slotIndex e.deadline) = (w.slots (w.slotIndex e.deadline)).erase e := Function.update_self _ _ _
  by_cases hnil : ((w.slots (w.slotIndex e.deadline)).erase e).isEmpty
  · have heq : w.remove e = Wheel.clearSlot { w with
        slots := Function.update w.slots (w.slotIndex e.deadline) ((w.slots (w.slotIndex e.deadline)).erase e) }
        (w.slotIndex e.deadline) := by
      simp only [Wheel.remove, hself, hnil, if_true]
    rw [heq]
    refine ⟨rfl, fun s => Function.update_apply _ _ _ _, fun s => ?_⟩
    rw [clearSlot_occupied, hnil]
    rfl
  · have heq : w.remove e = { w with
        slots := Function.update w.slots (w.slotIndex e.deadline) ((w.slots (w.slotIndex e.deadline)).erase e) } := by
      simp only [Wheel.remove, hself, hnil, if_false, Bool.false_eq_true]
    rw [heq]
    refine ⟨rfl, fun s => Function.update_apply _ _ _ _, fun s => ?_⟩
    split
    · rename_i hs
      rw [hs, hbit]
      simpa using hnil
    · rfl

/-- A slot is replaced by one of sleeps that belong there, and the others stay where they belong. -/
theorem inv_replace (hi : Inv core) {w : Wheel} {entries : List Entry} (h : Replaces (core.wheels l) w s entries)
    (hnodup : entries.Nodup) (hentries : ∀ e ∈ entries, Level now e.deadline l.val ∧
    e.deadline / 64 ^ l.val % 64 = s.val)
    (hothers : ∀ l' s', ∀ e ∈ (core.wheels l').slots s', (l' ≠ l ∨ s' ≠ s) → Level now e.deadline l'.val) :
    Inv ⟨now, Function.update core.wheels l w⟩ := by
  have hwheel : ∀ l', l' ≠ l → Function.update core.wheels l w l' = core.wheels l' := fun l' hl => Function.update_of_ne
    hl _ _
  have hself : Function.update core.wheels l w l = w := Function.update_self _ _ _
  have hslot : ∀ l' s', ∀ e ∈ (Function.update core.wheels l w l').slots s',
      l' = l ∧ s' = s ∧ e ∈ entries ∨ (l' ≠ l ∨ s' ≠ s) ∧ e ∈ (core.wheels l').slots s' := by
    intro l' s' e he
    by_cases hl : l' = l
    · subst hl
      rw [hself, h.slots] at he
      by_cases hs : s' = s
      · rw [if_pos hs] at he
        exact .inl ⟨rfl, hs, he⟩
      · rw [if_neg hs] at he
        exact .inr ⟨.inr hs, he⟩
    · rw [hwheel l' hl] at he
      exact .inr ⟨.inl hl, he⟩
  refine ⟨fun l' => ?_, fun l' s' => ?_, fun l' s' => ?_, fun l' s' e he => ?_, fun l' s' e he => ?_⟩
  · by_cases hl : l' = l
    · subst hl
      show (Function.update core.wheels l' w l').level = l'
      rw [hself, h.level, hi.level]
    · show (Function.update core.wheels l w l').level = l'
      rw [hwheel l' hl, hi.level]
  · show (Function.update core.wheels l w l').occupiedSlots.getLsbD s'.val = true ↔
      (Function.update core.wheels l w l').slots s' ≠ []
    by_cases hl : l' = l
    · subst hl
      rw [hself, h.occupied, h.slots]
      by_cases hs : s' = s
      · rw [if_pos hs, if_pos hs]
        simp
      · rw [if_neg hs, if_neg hs]
        exact hi.occupied l' s'
    · rw [hwheel l' hl]
      exact hi.occupied l' s'
  · show ((Function.update core.wheels l w l').slots s').Nodup
    by_cases hl : l' = l
    · subst hl
      rw [hself, h.slots]
      by_cases hs : s' = s
      · rwa [if_pos hs]
      · rw [if_neg hs]
        exact hi.nodup l' s'
    · rw [hwheel l' hl]
      exact hi.nodup l' s'
  · obtain ⟨rfl, rfl, he⟩ | ⟨hother, he⟩ := hslot l' s' e he
    · exact (hentries e he).1
    · exact hothers l' s' e he hother
  · obtain ⟨rfl, rfl, he⟩ | ⟨-, he⟩ := hslot l' s' e he
    · exact (hentries e he).2
    · exact hi.slot l' s' e he

/-- What waits after a slot is replaced. -/
theorem pending_replace {w : Wheel} {entries : List Entry} (h : Replaces (core.wheels l) w s entries) :
    Pending ⟨now, Function.update core.wheels l w⟩ e ↔
      e ∈ entries ∨ ∃ l' s', (l' ≠ l ∨ s' ≠ s) ∧ e ∈ (core.wheels l').slots s' := by
  have hself : Function.update core.wheels l w l = w := Function.update_self _ _ _
  constructor
  · rintro ⟨l', s', he⟩
    by_cases hl : l' = l
    · subst hl
      replace he : e ∈ (Function.update core.wheels l' w l').slots s' := he
      rw [hself, h.slots] at he
      by_cases hs : s' = s
      · rw [if_pos hs] at he
        exact .inl he
      · rw [if_neg hs] at he
        exact .inr ⟨l', s', .inr hs, he⟩
    · replace he : e ∈ (Function.update core.wheels l w l').slots s' := he
      rw [Function.update_of_ne hl] at he
      exact .inr ⟨l', s', .inl hl, he⟩
  · rintro (he | ⟨l', s', hother, he⟩)
    · refine ⟨l, s, ?_⟩
      show e ∈ (Function.update core.wheels l w l).slots s
      rwa [hself, h.slots, if_pos rfl]
    · refine ⟨l', s', ?_⟩
      show e ∈ (Function.update core.wheels l w l').slots s'
      by_cases hl : l' = l
      · subst hl
        rw [hself, h.slots, if_neg (hother.resolve_left fun h => h rfl)]
        exact he
      · rwa [Function.update_of_ne hl]

/-- A sleep waits in one place. -/
theorem place_unique (hi : Inv core) (he : e ∈ (core.wheels l).slots s) (he' : e ∈ (core.wheels l').slots s') :
    l' = l ∧ s' = s := by
  obtain rfl := Fin.ext ((hi.digit l' s' e he').unique (hi.digit l s e he))
  exact ⟨rfl, Fin.ext ((hi.slot l' s' e he').symm.trans (hi.slot l' s e he))⟩

/-! ## Inserting and cancelling -/

theorem Level.inRotation {now d l : Nat} (h : Level now d l) (hl : l < 6) : InRotation now d := by
  have hsplit : (64 : Nat) ^ 6 = 64 ^ (l + 1) * 64 ^ (6 - (l + 1)) := by
    rw [← Nat.pow_add]
    congr 1
    omega
  rw [InRotation, hsplit, ← Nat.div_div_eq_div_mul, ← Nat.div_div_eq_div_mul, h.1]

theorem level_wheelIndex {d : Nat} (hlt : now < d) (hrotation : InRotation now d) :
    Level now d (wheelIndex now d).val :=
  (wheelIndex_eq_iff hrotation hlt _).mp rfl

/-- A sleep that is inserted waits in its place. -/
theorem insertSleepAt_spec (hi : Inv core) (hlt : core.now < e.deadline) (hrotation : InRotation core.now e.deadline)
    (hnew : ¬ Pending core e) :
    Inv (core.insertSleepAt e) ∧ ∀ e', Pending (core.insertSleepAt e) e' ↔ e' = e ∨ Pending core e' := by
  have hlevel := level_wheelIndex hlt hrotation
  have hreplaces := insert_replaces (core.wheels (wheelIndex core.now e.deadline)) e
  have hslot := slotIndex_val (d := e.deadline) (hi.level (wheelIndex core.now e.deadline))
  refine ⟨inv_replace hi hreplaces ?_ ?_ fun l' s' e' he' _ => hi.digit l' s' e' he', fun e' => ?_⟩
  · exact List.nodup_cons.mpr ⟨fun he => hnew ⟨_, _, he⟩, hi.nodup _ _⟩
  · intro e' he'
    obtain rfl | he' := List.mem_cons.mp he'
    · exact ⟨hlevel, hslot.symm⟩
    · exact ⟨hi.digit _ _ e' he', hi.slot _ _ e' he'⟩
  · refine (pending_replace hreplaces).trans ?_
    constructor
    · rintro (he' | ⟨l', s', -, he'⟩)
      · exact (List.mem_cons.mp he').imp_right fun he' => ⟨_, _, he'⟩
      · exact .inr ⟨l', s', he'⟩
    · rintro (rfl | ⟨l', s', he'⟩)
      · exact .inl List.mem_cons_self
      · by_cases hplace : l' = wheelIndex core.now e.deadline ∧
          s' = (core.wheels (wheelIndex core.now e.deadline)).slotIndex e.deadline
        · obtain ⟨rfl, rfl⟩ := hplace
          exact .inl (List.mem_cons_of_mem _ he')
        · exact .inr ⟨l', s', not_and_or.mp hplace, he'⟩

/-- A sleep that is cancelled is found where it waits, and only that one is removed. -/
theorem cancelSleep_spec (hi : Inv core) (he : Pending core e) :
    Inv (core.cancelSleep e) ∧ ∀ e', Pending (core.cancelSleep e) e' ↔ Pending core e' ∧ e' ≠ e := by
  obtain ⟨l, s, he⟩ := he
  have hlevel := hi.digit l s e he
  have hwheel : wheelIndex core.now e.deadline = l := (wheelIndex_eq_iff (hlevel.inRotation l.isLt) hlevel.lt l).mpr
    hlevel
  have hslot : (core.wheels l).slotIndex e.deadline = s :=
    Fin.ext ((slotIndex_val (d := e.deadline) (hi.level l)).trans (hi.slot l s e he))
  have hreplaces := remove_replaces (w := core.wheels l) (e := e)
    (by rw [hslot]; exact (hi.occupied l s).mpr (List.ne_nil_of_mem he))
  rw [hslot] at hreplaces
  have hmem : ∀ e', e' ∈ ((core.wheels l).slots s).erase e ↔ e' ≠ e ∧ e' ∈ (core.wheels l).slots s := fun e' =>
    (hi.nodup l s).mem_erase_iff
  have heq : core.cancelSleep e = ⟨core.now, Function.update core.wheels l ((core.wheels l).remove e)⟩ := by
    rw [Core.cancelSleep, hwheel]
  rw [heq]
  refine ⟨inv_replace hi hreplaces ((hi.nodup l s).erase e) (fun e' he' => ?_) fun l' s' e' he' _ => hi.digit
    l' s' e' he',
    fun e' => (pending_replace hreplaces).trans ⟨?_, ?_⟩⟩
  · have he' := ((hmem e').mp he').2
    exact ⟨hi.digit l s e' he', hi.slot l s e' he'⟩
  · rintro (he' | ⟨l', s', hother, he'⟩)
    · exact ⟨⟨l, s, ((hmem e').mp he').2⟩, ((hmem e').mp he').1⟩
    · refine ⟨⟨l', s', he'⟩, fun heq => ?_⟩
      subst heq
      obtain ⟨hl, hs⟩ := place_unique hi he he'
      exact hother.elim (fun h => h hl) fun h => h hs
  · rintro ⟨⟨l', s', he'⟩, hne⟩
    by_cases hplace : l' = l ∧ s' = s
    · obtain ⟨rfl, rfl⟩ := hplace
      exact .inl ((hmem e').mpr ⟨hne, he'⟩)
    · exact .inr ⟨l', s', not_and_or.mp hplace, he'⟩

/-! ## The loop of a turn -/

/-- The wheels after the slot of the next deadline is taken -/
def taken (core : Core) (deadline : Deadline) : Core :=
  ⟨deadline.ticks, Function.update core.wheels deadline.wheel ((core.wheels deadline.wheel).take deadline.slot).2⟩

theorem taken_spec (hi : Inv core) {deadline : Deadline} (h : core.nextDeadline = some deadline) :
    Inv (taken core deadline) ∧
      (∀ e, Pending core e ↔ e ∈ (core.wheels deadline.wheel).slots deadline.slot ∨ Pending (taken core deadline) e) ∧
      ∀ e ∈ (core.wheels deadline.wheel).slots deadline.slot, ¬ Pending (taken core deadline) e := by
  obtain ⟨-, hnow, -, hlater⟩ := nextDeadline_spec hi h
  have hreplaces := take_replaces (core.wheels deadline.wheel) deadline.slot
  refine ⟨inv_replace hi hreplaces List.nodup_nil (fun e he => by cases he) fun l' s' e he hother => ?_, fun e => ?_,
    fun e he hpending => ?_⟩
  · exact (hi.digit l' s' e he).of_le (Nat.le_of_lt hnow) (hlater l' s' e he hother)
  · constructor
    · rintro ⟨l', s', he⟩
      by_cases hplace : l' = deadline.wheel ∧ s' = deadline.slot
      · obtain ⟨rfl, rfl⟩ := hplace
        exact .inl he
      · exact .inr ((pending_replace hreplaces).mpr (.inr ⟨l', s', not_and_or.mp hplace, he⟩))
    · rintro (he | hpending)
      · exact ⟨_, _, he⟩
      · obtain he | ⟨l', s', -, he⟩ := (pending_replace hreplaces).mp hpending
        · cases he
        · exact ⟨l', s', he⟩
  · obtain he' | ⟨l', s', hother, he'⟩ := (pending_replace hreplaces).mp hpending
    · cases he'
    · obtain ⟨hl, hs⟩ := place_unique hi he he'
      exact hother.elim (fun h => h hl) fun h => h hs

/-- A turn of the loop takes at least one sleep. -/
theorem size_taken_lt {deadline : Deadline} (h : (core.wheels deadline.wheel).slots deadline.slot ≠ []) :
    (taken core deadline).size < core.size := by
  have hsize : ∀ core : Core, core.size = ∑ l, ∑ s, ((core.wheels l).slots s).length := fun core => by
    simp only [Core.size, Fin.sum_univ_def]
  have hslots : ∀ l s, ((taken core deadline).wheels l).slots s =
      if l = deadline.wheel ∧ s = deadline.slot then [] else (core.wheels l).slots s := by
    intro l s
    by_cases hl : l = deadline.wheel
    · subst hl
      show (Function.update core.wheels _ _ _).slots s = _
      rw [Function.update_self, (take_replaces (core.wheels deadline.wheel) deadline.slot).slots]
      simp
    · show (Function.update core.wheels _ _ l).slots s = _
      rw [Function.update_of_ne hl, if_neg fun h => hl h.1]
  have hle : ∀ l s, (((taken core deadline).wheels l).slots s).length ≤ ((core.wheels l).slots s).length := by
    intro l s
    rw [hslots]
    split
    · exact Nat.zero_le _
    · exact Nat.le_refl _
  rw [hsize, hsize]
  refine Finset.sum_lt_sum (fun l _ => Finset.sum_le_sum fun s _ => hle l s) ⟨deadline.wheel, Finset.mem_univ _, ?_⟩
  refine Finset.sum_lt_sum (fun s _ => hle _ s) ⟨deadline.slot, Finset.mem_univ _, ?_⟩
  rw [hslots, if_pos ⟨rfl, rfl⟩]
  exact List.length_pos_iff.mpr h

/-- What holds as the slots that have begun are taken: of the sleeps `all` that waited, each waits, has fired as its
deadline has come, or is to be rescheduled as it has not. -/
structure Turning (all : Entry → Prop) (now : Nat) (core : Core) (pending fired : List Entry) : Prop where
  inv : Inv core
  le : core.now ≤ now
  all : ∀ e, all e ↔ Pending core e ∨ e ∈ pending ∨ e ∈ fired
  due : ∀ e ∈ fired, e.deadline ≤ now
  early : ∀ e ∈ pending, now < e.deadline ∧ InRotation now e.deadline
  nodupFired : fired.Nodup
  nodupPending : pending.Nodup
  notFired : ∀ e ∈ fired, ¬ Pending core e
  notPending : ∀ e ∈ pending, ¬ Pending core e

theorem foldl_push (p : Entry → Prop) [DecidablePred p] (entries pending : List Entry) :
    entries.foldl (fun pending entry => if p entry then entry :: pending else pending) pending =
      (entries.filter p).reverse ++ pending := by
  induction entries generalizing pending with
  | nil => rfl
  | cons e entries ih =>
    rw [List.foldl_cons, ih]
    by_cases hp : p e
    · simp [hp]
    · simp [hp]

/-- A deadline after a later time of the rotation is in the rotation of that time. -/
theorem inRotation_of_le {d now' : Nat} (h : InRotation now d) (hle : now ≤ now') (hlt : now' < d) :
    InRotation now' d :=
  Nat.le_antisymm (Nat.div_le_div_right (Nat.le_of_lt hlt)) (h ▸ Nat.div_le_div_right hle)

/-- A slot that has begun is taken. -/
theorem turning_taken {all : Entry → Prop} {pending fired : List Entry} (h : Turning all now core pending fired)
    {deadline : Deadline} (hnext : core.nextDeadline = some deadline) (hle : deadline.ticks ≤ now) :
    Turning all now (taken core deadline)
      (((core.wheels deadline.wheel).slots deadline.slot).foldl
        (fun pending entry => if now < entry.deadline then entry :: pending else pending) pending)
      (fired ++ ((core.wheels deadline.wheel).slots deadline.slot).filter fun entry => ¬ now < entry.deadline) := by
  obtain ⟨hinv, hall, hgone⟩ := taken_spec h.inv hnext
  have hnodup := h.inv.nodup deadline.wheel deadline.slot
  have hdigit := fun e he => h.inv.digit deadline.wheel deadline.slot e he
  rw [foldl_push]
  generalize (core.wheels deadline.wheel).slots deadline.slot = entries at hall hgone hnodup hdigit ⊢
  refine ⟨hinv, hle, fun e => ?_, fun e he => ?_, fun e he => ?_, ?_, ?_, fun e he => ?_, fun e he => ?_⟩
  · rw [h.all, hall]
    simp only [List.mem_append, List.mem_reverse, List.mem_filter, decide_eq_true_eq]
    by_cases hlt : now < e.deadline
    · simp only [hlt, and_true, not_true_eq_false, and_false, or_false]
      tauto
    · simp only [hlt, and_false, not_false_eq_true, and_true, false_or]
      tauto
  · obtain he | he := List.mem_append.mp he
    · exact h.due e he
    · exact Nat.not_lt.mp (of_decide_eq_true (List.mem_filter.mp he).2)
  · obtain he | he := List.mem_append.mp he
    · obtain ⟨he, hlt⟩ := List.mem_filter.mp (List.mem_reverse.mp he)
      have hlt := of_decide_eq_true hlt
      exact ⟨hlt, inRotation_of_le ((hdigit e he).inRotation deadline.wheel.isLt) h.le hlt⟩
    · exact h.early e he
  · refine List.nodup_append'.mpr ⟨h.nodupFired, hnodup.filter _, fun e he he' => h.notFired e he ?_⟩
    exact (hall e).mpr (.inl (List.mem_filter.mp he').1)
  · refine List.nodup_append'.mpr ⟨List.nodup_reverse.mpr (hnodup.filter _), h.nodupPending,
      fun e he he' => h.notPending e he' ?_⟩
    exact (hall e).mpr (.inl (List.mem_filter.mp (List.mem_reverse.mp he)).1)
  · obtain he | he := List.mem_append.mp he
    · exact fun hpending => h.notFired e he ((hall e).mpr (.inr hpending))
    · exact hgone e (List.mem_filter.mp he).1
  · obtain he | he := List.mem_append.mp he
    · exact hgone e (List.mem_filter.mp (List.mem_reverse.mp he)).1
    · exact fun hpending => h.notPending e he ((hall e).mpr (.inr hpending))

/-- The loop ends when no slot has begun. -/
theorem turnLoop_spec {all : Entry → Prop} (fuel : Nat) : ∀ (core : Core) (pending fired : List Entry),
    Turning all now core pending fired → core.size < fuel →
    ∃ core' pending' fired' next, Core.turnLoop now fuel core pending fired = some (core', pending', fired', next) ∧
      Turning all now core' pending' fired' ∧ next = core'.nextDeadline ∧ ∀ deadline ∈ next, now < deadline.ticks := by
  induction fuel with
  | zero =>
    intro core _ _ _ hfuel
    exact absurd hfuel (Nat.not_lt_zero _)
  | succ fuel ih =>
    intro core pending fired h hfuel
    rw [Core.turnLoop]
    cases hnext : core.nextDeadline with
    | none => exact ⟨core, pending, fired, none, rfl, h, hnext.symm, fun _ hd => by cases hd⟩
    | some deadline =>
      by_cases hlt : now < deadline.ticks
      · refine ⟨core, pending, fired, some deadline, if_pos hlt, h, hnext.symm, fun d hd => ?_⟩
        obtain rfl := Option.some.inj hd
        exact hlt
      · have hsize := size_taken_lt (nextDeadline_spec h.inv hnext).1
        obtain ⟨core', pending', fired', next, hloop, hrest⟩ :=
          ih (taken core deadline) _ _ (turning_taken h hnext (Nat.not_lt.mp hlt)) (by omega)
        exact ⟨core', pending', fired', next, (if_neg hlt).trans hloop, hrest⟩

/-- The wheels at a later time, when no slot has begun by then -/
theorem inv_later (hi : Inv core) (hle : core.now ≤ now)
    (hlater : ∀ deadline ∈ core.nextDeadline, now < deadline.ticks) :
    Inv ⟨now, core.wheels⟩ ∧ ∀ deadline ∈ core.nextDeadline, ∀ e, Pending core e → deadline.ticks ≤ e.deadline := by
  have hstart : ∀ deadline ∈ core.nextDeadline, ∀ l s, ∀ e ∈ (core.wheels l).slots s, deadline.ticks ≤ slotStart l
    e.deadline := by
    intro deadline hd l s e he
    obtain ⟨-, -, hfirst, hothers⟩ := nextDeadline_spec hi hd
    by_cases hplace : l = deadline.wheel ∧ s = deadline.slot
    · obtain ⟨rfl, rfl⟩ := hplace
      exact Nat.le_of_eq (hfirst e he).symm
    · exact Nat.le_of_lt (hothers l s e he (not_and_or.mp hplace))
  refine ⟨⟨hi.level, hi.occupied, hi.nodup, fun l s e he => ?_, hi.slot⟩, fun deadline hd e he => ?_⟩
  · cases hnext : core.nextDeadline with
    | none => exact absurd ⟨l, s, he⟩ ((nextDeadline_eq_none hi).mp hnext e)
    | some deadline =>
      exact (hi.digit l s e he).of_le hle (Nat.lt_of_lt_of_le (hlater deadline hnext) (hstart deadline hnext l s e he))
  · obtain ⟨l, s, he⟩ := he
    exact Nat.le_trans (hstart deadline hd l s e he) (slotStart_le _ _)

/-- Rescheduling inserts all sleeps. -/
theorem insertAll_spec {pending : List Entry} (hi : Inv core) (hearly : ∀ e ∈ pending, core.now < e.deadline ∧
    InRotation core.now e.deadline)
    (hnodup : pending.Nodup) (hnew : ∀ e ∈ pending, ¬ Pending core e) :
    Inv (pending.foldl Core.insertSleepAt core) ∧ (pending.foldl Core.insertSleepAt core).now = core.now ∧
      ∀ e, Pending (pending.foldl Core.insertSleepAt core) e ↔ e ∈ pending ∨ Pending core e := by
  induction pending generalizing core with
  | nil => exact ⟨hi, rfl, fun e => by simp⟩
  | cons e pending ih =>
    obtain ⟨hne, hnodup⟩ := List.nodup_cons.mp hnodup
    obtain ⟨hlt, hrotation⟩ := hearly e List.mem_cons_self
    obtain ⟨hi', hpending⟩ := insertSleepAt_spec hi hlt hrotation (hnew e List.mem_cons_self)
    have hnew' : ∀ e' ∈ pending, ¬ Pending (core.insertSleepAt e) e' := by
      intro e' he' hp
      obtain rfl | hp := (hpending e').mp hp
      · exact hne he'
      · exact hnew e' (List.mem_cons_of_mem _ he') hp
    obtain ⟨hinv, hnow, hall⟩ := ih hi' (fun e' he' => hearly e' (List.mem_cons_of_mem _ he')) hnodup hnew'
    refine ⟨hinv, hnow, fun e' => ?_⟩
    rw [List.foldl_cons, hall, hpending, List.mem_cons]
    tauto

/-- What the next deadline of a turn is: when the slot of a sleep that waits begins, and none does before -/
def IsNext (core : Core) (next : Option Deadline) : Prop :=
  (next = none ↔ ∀ e, ¬ Pending core e) ∧
    ∀ deadline ∈ next, core.now < deadline.ticks ∧ (∀ e, Pending core e → deadline.ticks ≤ e.deadline) ∧
      ∃ (e : Entry) (l : Nat), Pending core e ∧ Level core.now e.deadline l ∧ slotStart l e.deadline = deadline.ticks

/-- The next deadline stays what it is until then. -/
theorem isNext_nextDeadline (hi : Inv core) (hle : core.now ≤ now)
    (hlater : ∀ deadline ∈ core.nextDeadline, now < deadline.ticks) :
    IsNext ⟨now, core.wheels⟩ core.nextDeadline := by
  obtain ⟨hi', hdeadlines⟩ := inv_later hi hle hlater
  refine ⟨nextDeadline_eq_none hi, fun deadline hd => ⟨hlater deadline hd, hdeadlines deadline hd, ?_⟩⟩
  obtain ⟨hne, -, hfirst, -⟩ := nextDeadline_spec hi hd
  obtain ⟨e, he⟩ := List.exists_mem_of_ne_nil _ hne
  exact ⟨e, deadline.wheel, ⟨_, _, he⟩, hi'.digit _ _ e he, hfirst e he⟩

/-- A turn fires just the sleeps whose deadline has come, each once. -/
theorem turnTo_spec (hi : Inv core) (hle : core.now ≤ now) :
    ∃ fired next core', core.turnTo now = some (fired, next, core') ∧ Inv core' ∧ core'.now = now ∧ fired.Nodup ∧
      (∀ e, e ∈ fired ↔ Pending core e ∧ e.deadline ≤ now) ∧
      (∀ e, Pending core' e ↔ Pending core e ∧ now < e.deadline) ∧
      IsNext core' next := by
  have hstart : Turning (Pending core) now core [] [] := ⟨hi, hle, fun e => (by simp), fun _ h => (by cases h),
    fun _ h => (by cases h), List.nodup_nil, List.nodup_nil, fun _ h => (by cases h), fun _ h => (by cases h)⟩
  obtain ⟨core₁, pending, fired, next, hloop, h, hnext, hlater⟩ :=
    turnLoop_spec (core.size + 1) core [] [] hstart (Nat.lt_succ_self _)
  subst hnext
  have hi₁ := (inv_later h.inv h.le hlater).1
  obtain ⟨hi₂, hnow, hpending⟩ := insertAll_spec hi₁ h.early h.nodupPending h.notPending
  have hwaits : ∀ e, Pending core₁ e → now < e.deadline := by
    rintro e ⟨l, s, he⟩
    exact (hi₁.digit l s e he).lt
  refine ⟨fired, if !pending.isEmpty then (pending.foldl Core.insertSleepAt ⟨now, core₁.wheels⟩).nextDeadline
    else core₁.nextDeadline, pending.foldl Core.insertSleepAt ⟨now, core₁.wheels⟩, ?_, hi₂, hnow, h.nodupFired,
    fun e => ?_, fun e => ?_, ?_⟩
  · rw [Core.turnTo, hloop]
    rfl
  · constructor
    · exact fun he => ⟨(h.all e).mpr (.inr (.inr he)), h.due e he⟩
    · rintro ⟨he, hdue⟩
      obtain he | he | he := (h.all e).mp he
      · exact absurd (hwaits e he) (Nat.not_lt.mpr hdue)
      · exact absurd (h.early e he).1 (Nat.not_lt.mpr hdue)
      · exact he
  · rw [hpending]
    constructor
    · rintro (he | he)
      · exact ⟨(h.all e).mpr (.inr (.inl he)), (h.early e he).1⟩
      · exact ⟨(h.all e).mpr (.inl he), hwaits e he⟩
    · rintro ⟨he, hlt⟩
      obtain he | he | he := (h.all e).mp he
      · exact .inr he
      · exact .inl he
      · exact absurd hlt (Nat.not_lt.mpr (h.due e he))
  · cases pending with
    | nil => exact isNext_nextDeadline h.inv h.le hlater
    | cons e pending => exact isNext_nextDeadline hi₂ (Nat.le_refl _) fun d hd => (nextDeadline_spec hi₂ hd).2.1

end Metor.Proof.Timer
