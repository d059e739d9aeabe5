import Mathlib.Data.Set.Insert
import Metor.Impl.TimerWheel
import Metor.Lib.Run

/-!
# What a timer is for

`Alarms` is a clock, the set of the sleeps that wait, and the set of those that
have fired. The wheels, seen as such (`Sys.alarms`), are to do what it does.
-/

namespace Metor.Impl.Timer

open Metor.Lib

/-- A sleep that waits -/
def Pending (core : Core) (e : Entry) : Prop := ∃ l s, e ∈ (core.wheels l).slots s

/-- The deadline is in the rotation of `now` of the highest wheel. -/
def InRotation (now d : Nat) : Prop := now / 64 ^ 6 = d / 64 ^ 6

/-- What is done to a timer while its lock is held -/
inductive Action
  | register (sleep : Entry)
  | cancel (sleep : Entry)
  | turn (now : Nat)

/-- The wheels, and the sleeps that have fired so far, in order -/
structure Sys where
  core : Core
  fired : List Entry

namespace Sys

def new : Sys := ⟨Core.new, []⟩

def step (s : Sys) : Action → Option Sys
  | .register sleep =>
    let (ready, core) := s.core.registerSleep sleep
    some ⟨core, if ready then s.fired ++ [sleep] else s.fired⟩
  | .cancel sleep => some ⟨s.core.cancelSleep sleep, s.fired⟩
  | .turn now => do
    let (fired, _, core) ← s.core.turnTo now
    return ⟨core, s.fired ++ fired⟩

end Sys

/-! ## Alarms -/

/-- A clock, the sleeps that wait, and those that have fired -/
structure Alarms where
  now : Nat
  waiting : Set Entry
  fired : Set Entry

namespace Alarms

def new : Alarms := ⟨0, ∅, ∅⟩

/-- A sleep whose deadline has come fires; others wait until it does. -/
def step (a : Alarms) : Action → Alarms
  | .register sleep =>
    if sleep.deadline ≤ a.now then { a with fired := insert sleep a.fired }
      else { a with waiting := insert sleep a.waiting }
  | .cancel sleep => { a with waiting := a.waiting \ {sleep} }
  | .turn now => ⟨now, {e ∈ a.waiting | now < e.deadline}, a.fired ∪ {e ∈ a.waiting | e.deadline ≤ now}⟩

/-- A sleep is registered once, within the rotation; one that waits may be cancelled, and time does not go back. -/
def Allowed (a : Alarms) : Action → Prop
  | .register sleep => sleep ∉ a.waiting ∧ sleep ∉ a.fired ∧ (a.now < sleep.deadline → InRotation a.now sleep.deadline)
  | .cancel sleep => sleep ∈ a.waiting
  | .turn now => a.now ≤ now

end Alarms

/-- The wheels as alarms -/
def Sys.alarms (s : Sys) : Alarms := ⟨s.core.now, {e | Pending s.core e}, {e | e ∈ s.fired}⟩

/-- The runs of a timer -/
def Reached (s : Sys) : Prop := Run Sys.step (fun s a => s.alarms.Allowed a) .new s

/-- The runs of alarms -/
def AlarmsReached (a : Alarms) : Prop := Run (fun a b => some (Alarms.step a b)) Alarms.Allowed .new a

/-! ## Advancing -/

/-- What a turn to the time of a clock gives: all sleeps whose deadline has come have fired, and there is nothing to do
before the next deadline, which is not past. -/
structure Advanced (core : Core) (turn : Turn) (core' : Core) : Prop where
  le : core'.now ≤ turn.now
  nodup : turn.expired.Nodup
  expired : ∀ e, e ∈ turn.expired ↔ Pending core e ∧ e.deadline ≤ core'.now
  waiting : ∀ e, Pending core' e ↔ Pending core e ∧ core'.now < e.deadline
  next : ∃ ticks, turn.ticksToNextDeadline = some ticks ∧ (ticks = none ↔ ∀ e, ¬ Pending core' e) ∧
    ∀ n ∈ ticks, 0 < n ∧ ∀ e, Pending core' e → turn.now + n ≤ e.deadline

/-! ## The end of the rotation -/

/-- The slot of a time on the highest wheel -/
def topSlot (d : Nat) : Nat := d / 64 ^ 5 % 64

/-- A deadline that is reported is after `now`, and not after the sleep's own. -/
def Timely (now d : Nat) (reported : Option Deadline) : Prop := ∃ ticks, reported.map (·.ticks) = some ticks ∧
    now < ticks ∧ ticks ≤ d

end Metor.Impl.Timer
