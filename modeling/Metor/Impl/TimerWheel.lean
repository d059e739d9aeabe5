import Mathlib.Algebra.GroupWithZero.Nat
import Mathlib.Data.Finset.Range
import Mathlib.Logic.Function.Basic

/-!
# Timers (`libs/stellarator/maitake/src/time/timer.rs` and `timer/wheel.rs`)

Six wheels of 64 slots each hold the sleeps that wait, on the wheel of the
highest group of six bits in which their deadline is not `now`. A tick is a
nanosecond since boot, a `u64`. The list of a slot is the list of its entries.
A sleep that fires has its waker closed and is not linked any more: it is in
the list that a turn returns. The clock is what it answers, in order.
-/

namespace Metor.Impl.Timer

/-- `sleep::Entry`: `id` is its address -/
structure Entry where
  id : Nat
  deadline : Nat
  deriving DecidableEq, Repr

/-- `Deadline` -/
structure Deadline where
  ticks : Nat
  slot : Fin 64
  wheel : Fin 6
  deriving DecidableEq, Repr

/-- `Wheel`; what depends on its level alone is a function of it. -/
structure Wheel where
  level : Fin 6
  occupiedSlots : BitVec 64
  slots : Fin 64 → List Entry

/-- `Core` -/
structure Core where
  now : Nat
  wheels : Fin 6 → Wheel

/-- `next_set_bit` -/
def nextSetBit (bitmap : BitVec 64) (offset : Nat) : Option Nat :=
  if bitmap = 0 then none
  else
    let shifted := bitmap >>> offset
    let zeros := if shifted = 0 then (bitmap.rotateRight offset).ctz else shifted.ctz
    some (zeros.toNat + offset)

/-- `Core::MAX_SLEEP_TICKS` -/
def maxSleepTicks : Nat := 2 ^ (6 * 6) - 1

/-- `wheel_index` -/
def wheelIndex (now ticks : Nat) : Fin 6 :=
  let wheelIndices := (now ^^^ ticks) ||| 63
  let wheelIndices := if maxSleepTicks ≤ wheelIndices then maxSleepTicks - 1 else wheelIndices
  Fin.ofNat 6 (wheelIndices.log2 / 6)

namespace Wheel

/-- `Wheel::new` -/
def new (level : Fin 6) : Wheel := ⟨level, 0, fun _ => []⟩

/-- `ticks_per_slot` -/
def ticksPerSlot (w : Wheel) : Nat := 64 ^ w.level.val

/-- `ticks_per_wheel` -/
def ticksPerWheel (w : Wheel) : Nat := w.ticksPerSlot * 64

/-- `slot_index` -/
def slotIndex (w : Wheel) (ticks : Nat) : Fin 64 := Fin.ofNat 64 (ticks >>> (w.level.val * 6))

/-- `clear_slot` -/
def clearSlot (w : Wheel) (slot : Fin 64) :
    Wheel := { w with occupiedSlots := w.occupiedSlots &&& ~~~(1#64 <<< slot.val) }

/-- `fill_slot` -/
def fillSlot (w : Wheel) (slot : Fin 64) : Wheel := { w with occupiedSlots := w.occupiedSlots ||| 1#64 <<< slot.val }

/-- `Wheel::insert` -/
def insert (w : Wheel) (sleep : Entry) : Wheel :=
  let slot := w.slotIndex sleep.deadline
  { w with slots := Function.update w.slots slot (sleep :: w.slots slot) }.fillSlot slot

/-- `Wheel::remove` -/
def remove (w : Wheel) (sleep : Entry) : Wheel :=
  let slot := w.slotIndex sleep.deadline
  let w := { w with slots := Function.update w.slots slot ((w.slots slot).erase sleep) }
  if (w.slots slot).isEmpty then w.clearSlot slot else w

/-- `Wheel::take` -/
def take (w : Wheel) (slot : Fin 64) : List Entry × Wheel :=
  (w.slots slot, { w with slots := Function.update w.slots slot [] }.clearSlot slot)

/-- `next_slot_distance` -/
def nextSlotDistance (w : Wheel) (now : Nat) : Option Nat := nextSetBit w.occupiedSlots (now / w.ticksPerSlot % 64)

/-- `Wheel::next_deadline`; `wheel_mask` masks out what is below `ticks_per_wheel`. -/
def nextDeadline (w : Wheel) (now : Nat) : Option Deadline := do
  let distance ← w.nextSlotDistance now
  let slot := Fin.ofNat 64 distance
  let skipped := distance - 64
  let rotationStart := now / w.ticksPerWheel * w.ticksPerWheel
  let skippedTicks := skipped * w.ticksPerWheel
  return ⟨rotationStart + slot.val * w.ticksPerSlot + skippedTicks, slot, w.level⟩

end Wheel

namespace Core

/-- `Core::new` -/
def new : Core := ⟨0, Wheel.new⟩

/-- `Core::next_deadline` -/
def nextDeadline (core : Core) : Option Deadline :=
  (List.finRange 6).findSome? fun level => (core.wheels level).nextDeadline core.now

/-- `insert_sleep_at` -/
def insertSleepAt (core : Core) (sleep : Entry) : Core :=
  let wheel := wheelIndex core.now sleep.deadline
  { core with wheels := Function.update core.wheels wheel ((core.wheels wheel).insert sleep) }

/-- `register_sleep`: whether it is ready -/
def registerSleep (core : Core) (sleep : Entry) : Bool × Core :=
  if sleep.deadline ≤ core.now then (true, core) else (false, core.insertSleepAt sleep)

/-- `cancel_sleep` -/
def cancelSleep (core : Core) (sleep : Entry) : Core :=
  let wheel := wheelIndex core.now sleep.deadline
  { core with wheels := Function.update core.wheels wheel ((core.wheels wheel).remove sleep) }

/-- The loop of `turn_to`: the wheels, what is to be rescheduled, what has fired, and the next deadline. -/
def turnLoop (now : Nat) : Nat → Core → List Entry → List Entry → Option
    (Core × List Entry × List Entry × Option Deadline)
  | 0, _, _, _ => none
  | fuel + 1, core, pendingReschedule, fired =>
    match core.nextDeadline with
    | none => some (core, pendingReschedule, fired, none)
    | some deadline =>
      if now < deadline.ticks then some (core, pendingReschedule, fired, some deadline)
      else
        let (entries, wheel) := (core.wheels deadline.wheel).take deadline.slot
        let core := { core with wheels := Function.update core.wheels deadline.wheel wheel }
        let pendingReschedule := entries.foldl
          (fun pending entry => if now < entry.deadline then entry :: pending else pending) pendingReschedule
        let fired := fired ++ entries.filter fun entry => ¬ now < entry.deadline
        turnLoop now fuel { core with now := deadline.ticks } pendingReschedule fired

/-- How many sleeps wait. -/
def size (core : Core) : Nat := ((List.finRange 6).map fun level =>
  ((List.finRange 64).map fun slot => ((core.wheels level).slots slot).length).sum).sum

/-- `turn_to`: the sleeps that fire, the next deadline, and the wheels. There is a turn of the loop
for each sleep that waits, at most. -/
def turnTo (core : Core) (now : Nat) : Option (List Entry × Option Deadline × Core) := do
  let (core, pendingReschedule, fired, nextDeadline) ← turnLoop now (core.size + 1) core [] []
  let core := { core with now := now }
  let any := !pendingReschedule.isEmpty
  let core := pendingReschedule.foldl insertSleepAt core
  return (fired, if any then core.nextDeadline else nextDeadline, core)

end Core

/-- `Turn` -/
structure Turn where
  now : Nat
  nextDeadlineTicks : Option Nat
  expired : List Entry
  deriving DecidableEq, Repr

/-- The loop of `advance_locked`, with what the clock answers from then on. -/
def advanceLoop : List Nat → Core → Nat → List Entry → Option (Turn × Core)
  | clock, core, now, expired => do
    let (expiring, nextDeadline, core) ← core.turnTo now
    let expired := expired ++ expiring
    match nextDeadline with
    | none => return (⟨now, none, expired⟩, core)
    | some next =>
      match clock with
      | [] => none
      | now :: clock =>
        if next.ticks ≤ now then advanceLoop clock core now expired
        else return (⟨now, some next.ticks, expired⟩, core)

/-- `advance_locked`: nothing ever adds to `pending_ticks`. It has no result where it reads the clock more often. -/
def advanceLocked (core : Core) (clock : List Nat) : Option (Turn × Core) :=
  match clock with
  | [] => none
  | now :: clock => advanceLoop clock core now []

/-- `Turn::ticks_to_next_deadline`; no result is a subtraction below zero. -/
def Turn.ticksToNextDeadline (turn : Turn) : Option (Option Nat) :=
  match turn.nextDeadlineTicks with
  | none => some none
  | some deadline => if deadline < turn.now then none else some (some (deadline - turn.now))

end Metor.Impl.Timer
