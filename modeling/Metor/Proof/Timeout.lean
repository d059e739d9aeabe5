import Mathlib.Tactic.NormNum.GCD
import Mathlib.Data.Nat.Prime.Basic
import Metor.Impl.Timeout

/-!
# How long the executor sleeps

The nanoseconds of the timespec of `wait_for_io` are all those of the duration
modulo `2 ^ 32`. They are those below a second just when the seconds are a
multiple of `2 ^ 23` (`sleeps_iff`), in particular for every sleep of less
than a second.
-/

namespace Metor.Proof.Timeout

open Metor.Impl.Uring

/-- The timespec is valid, and as long as the duration. -/
def Denotes (t : Timespec) (d : Duration) : Prop := t.nsec < 1000000000 ∧ t.sec * 1000000000 + t.nsec = d.asNanos

instance (t : Timespec) (d : Duration) : Decidable (Denotes t d) := inferInstanceAs (Decidable (_ ∧ _))

/-- The executor sleeps for the duration it was given, as a timeout operation would. -/
def Sleeps (d : Duration) : Prop :=
  ∃ t, waitForIoTimespec (some d) = some t ∧ Denotes t d ∧ t = (Timeout.new d).timespec

theorem denotes_new (d : Duration) : Denotes (Timeout.new d).timespec d := ⟨d.nanos_lt, rfl⟩

/-- A second has `2 ^ 9 * 5 ^ 9` nanoseconds. -/
theorem mod_nanos_iff {secs nanos : Nat} (h : nanos < 1000000000) :
    (secs * 1000000000 + nanos) % 2 ^ 32 = nanos ↔ secs % 2 ^ 23 = 0 := by
  have hdrop : (secs * 1000000000 + nanos) % 2 ^ 32 = nanos ↔ 2 ^ 32 ∣ secs * 1000000000 := by
    generalize secs * 1000000000 = a
    omega
  have hfactor : secs * 1000000000 = 2 ^ 9 * (secs * 5 ^ 9) := by
    rw [Nat.mul_left_comm]
    norm_num
  rw [hdrop, hfactor, show (2 : Nat) ^ 32 = 2 ^ 9 * 2 ^ 23 by norm_num, Nat.mul_dvd_mul_iff_left (by norm_num),
    ← Nat.dvd_iff_mod_eq_zero]
  have hcoprime : Nat.Coprime (2 ^ 23) (5 ^ 9) := by norm_num
  exact ⟨hcoprime.dvd_of_dvd_mul_right, fun h => Dvd.dvd.mul_right h _⟩

theorem sleeps_iff (d : Duration) : Sleeps d ↔ d.asSecs % 2 ^ 23 = 0 := by
  have hmod := @mod_nanos_iff d.secs d.nanos d.nanos_lt
  constructor
  · rintro ⟨t, ht, -, he⟩
    obtain rfl := Option.some.inj ht
    exact hmod.mp (congrArg Timespec.nsec he)
  · intro h
    have he : (⟨d.asSecs, Metor.Impl.Proto.asU32 d.asNanos⟩ : Timespec) = (Timeout.new d).timespec := by
      show (⟨d.secs, d.asNanos % 2 ^ 32⟩ : Timespec) = ⟨d.secs, d.nanos⟩
      rw [Duration.asNanos, hmod.mpr h]
    refine ⟨_, rfl, ?_, he⟩
    show Denotes ⟨d.asSecs, Metor.Impl.Proto.asU32 d.asNanos⟩ d
    rw [he]
    exact denotes_new d

/-- Five seconds. -/
def fiveSeconds : Duration := ⟨5, 0, by decide, by decide⟩

/-- Their timespec is 5 s and 705032704 ns. -/
theorem five_seconds_too_long : ¬ Sleeps fiveSeconds ∧
    waitForIoTimespec (some fiveSeconds) = some ⟨5, 705032704⟩ := by
  refine ⟨?_, rfl⟩
  rintro ⟨t, ht, hd, -⟩
  obtain rfl := Option.some.inj ht
  revert hd
  decide

end Metor.Proof.Timeout
