import Metor.Lib.Run
import Metor.Proof.Disruptor.Inv

/-!
# The readers' arithmetic is in range

`Ranged` bounds a reader's cursor and the end of what it holds (`stop`), which
is the cursor's next value. A write grant is in one of three phases: it goes on
from `committed`, it wraps around and has `high_water_mark` at 0, or it starts
a new lap of a ring that is full to its end; `GrantPhase.Apart` is where the readers
are then. `run_in_range` follows from the steps keeping this (`sound_step`).
A new lap over a reader that holds what is at the start of the ring breaks it
(`lapped_not_in_range`).
-/

namespace Metor.Proof.Disruptor

open Metor.Lib Metor.Impl.Disruptor

/-- No cursor is beyond the ring, nor beyond the high water mark if it is ahead of `committed`; and a poll
subtracts without underflow and hands out a range of the ring. -/
def InRange (s : State) : Prop :=
  ∀ r ∈ s.readers, r.cursor ≤ s.cap ∧ (s.head.committed < r.cursor → r.cursor ≤ s.head.highWaterMark) ∧
    ∃ cursor range, tryNext s.head r.cursor = some (cursor, range) ∧
      ∀ g ∈ range, g.start < g.stop ∧ g.stop ≤ s.cap

/-- No grant starts a new lap over a reader that still holds the start of the ring, and not all of it. -/
def LapSafe (s : State) : Act → Prop
  | .grant len => (tryGrant s.head s.cursors s.cap len).isOk ∧ s.head.committed = s.cap →
      ∀ r ∈ s.readers, ¬ (r.cursor = 0 ∧ ∃ g ∈ r.grant, g.stop ≠ s.cap)
  | _ => True

/-! ## The invariant -/

structure Ranged (s : State) (r : Reader) : Prop where
  cursor_le : r.cursor ≤ stop r
  stop_le : stop r ≤ s.cap
  /-- On the writer's lap, unless it was lapped while it held the whole ring. -/
  lap : r.cursor ≤ s.head.committed → stop r ≤ s.head.committed ∨ r.cursor = 0 ∧ stop r = s.cap
  hwm : s.head.committed < stop r → stop r ≤ s.head.highWaterMark

/-- What a write grant is. -/
inductive GrantPhase
  | ahead
  | wrapped
  | lapping

/-- The high water mark while a grant is out. -/
def GrantPhase.Head (s : State) (g : Range) : GrantPhase → Prop
  | .ahead => s.head.committed < g.stop ∧ g.stop ≤ s.head.highWaterMark
  | .wrapped => s.head.highWaterMark = 0
  | .lapping => s.head.committed = s.cap ∧ s.head.highWaterMark = s.cap

/-- Where a reader is while a grant is out. -/
def GrantPhase.Apart (s : State) (g : Range) (r : Reader) : GrantPhase → Prop
  | .ahead => s.head.committed < r.cursor → g.stop < r.cursor ∨ r.cursor = s.cap
  | .wrapped => r.cursor ≤ s.head.committed ∧ stop r ≤ s.head.committed ∧
      (g.stop < r.cursor ∨ r.cursor = s.head.committed)
  | .lapping => r.cursor = 0 ∧ (stop r = 0 ∨ stop r = s.cap) ∨ g.stop < r.cursor ∨ r.cursor = s.cap

structure Sound (s : State) : Prop where
  pos : 0 < s.cap
  committed : s.head.committed ≤ s.cap
  hwm : s.head.highWaterMark ≤ s.cap
  readers : ∀ r ∈ s.readers, Ranged s r
  idle : s.grant = none → s.head.committed ≤ s.head.highWaterMark
  grant : ∀ g, s.grant = some g → g.start ≤ g.stop ∧ g.stop ≤ s.cap ∧ ∃ p : GrantPhase, p.Head s g ∧ ∀ r ∈ s.readers, p.Apart s g r

section
variable {s t : State} {r : Reader} {g : Range}

theorem Ranged.cursor_le_hwm (h : Ranged s r) (hc : s.head.committed < r.cursor) :
    r.cursor ≤ s.head.highWaterMark := by
  have hle := h.cursor_le
  have hw := h.hwm
  omega

theorem Sound.inRange (h : Sound s) : InRange s := by
  intro r hr
  have hi := h.readers r hr
  have hle := hi.cursor_le
  have hstop := hi.stop_le
  have hcap := h.committed
  have hhwm := h.hwm
  refine ⟨by omega, hi.cursor_le_hwm, ?_⟩
  have hrange {a b : Nat} (hb : b ≤ s.cap) : ∀ g ∈ handOut a b, g.start < g.stop ∧ g.stop ≤ s.cap := by
    intro g hg
    obtain ⟨hab, e⟩ := Option.ite_none_right_eq_some.mp hg
    obtain rfl := Option.some.inj e
    exact ⟨hab, hb⟩
  rcases tryNext_eq hi.cursor_le_hwm with ⟨-, e⟩ | ⟨-, -, e⟩ | ⟨-, -, e⟩
  · exact ⟨_, _, e, hrange hcap⟩
  · exact ⟨_, _, e, hrange hcap⟩
  · exact ⟨_, _, e, hrange hhwm⟩

/-! ## The readers' steps -/

theorem stop_handOut {a b : Nat} (hab : a ≤ b) (r : Reader) (handed : Bytes) :
    stop { r with cursor := a, grant := handOut a b, handed := handed } = b := by
  unfold stop handOut
  split_ifs with h
  · rfl
  · exact Nat.le_antisymm hab (Nat.le_of_not_lt h)

/-- A poll leaves the cursor where it is, or takes it from the end of the last lap to the start; what it hands
out ends at `committed` or, on the lap before, at the high water mark. -/
theorem poll_cases (h : Ranged s r) :
    ∃ r', r.poll s = some r' ∧
      (r.cursor ≤ s.head.committed ∧ r'.cursor = r.cursor ∧ stop r' = s.head.committed ∨
      s.head.committed < r.cursor ∧ r'.cursor = 0 ∧ stop r' = s.head.committed ∨
      s.head.committed < r.cursor ∧ r.cursor < s.head.highWaterMark ∧ r'.cursor = r.cursor ∧
        stop r' = s.head.highWaterMark) := by
  unfold Reader.poll
  rcases tryNext_eq h.cursor_le_hwm with ⟨hc, e⟩ | ⟨hc, -, e⟩ | ⟨hc, hw, e⟩ <;> rw [e, Option.map_some]
  · exact ⟨_, rfl, .inl ⟨hc, rfl, stop_handOut hc ..⟩⟩
  · exact ⟨_, rfl, .inr (.inl ⟨hc, rfl, stop_handOut (Nat.zero_le _) ..⟩)⟩
  · exact ⟨_, rfl, .inr (.inr ⟨hc, hw, rfl, stop_handOut (Nat.le_of_lt hw) ..⟩)⟩

/-- A reader's place in the ring is where it is and where it goes next. -/
theorem Sound.ranged_poll (hs : Sound s) {r' : Reader} (hr : r ∈ s.readers) (hg : r.grant = none)
    (hp : r.poll s = some r') : Ranged s r' ∧ ∀ g, ∀ p : GrantPhase, p.Head s g → p.Apart s g r → p.Apart s g r' := by
  have hi := hs.readers r hr
  have hstop : stop r = r.cursor := by simp [stop, hg]
  have hle := hi.stop_le
  have hcap := hs.committed
  have hhwm := hs.hwm
  obtain ⟨r'', hp', hcases⟩ := poll_cases hi
  obtain rfl := Option.some.inj (hp.symm.trans hp')
  refine ⟨⟨?_, ?_, ?_, ?_⟩, fun g p hhead hapart => ?_⟩
  · omega
  · omega
  · omega
  · omega
  · cases p with
    | ahead =>
      show s.head.committed < r'.cursor → g.stop < r'.cursor ∨ r'.cursor = s.cap
      have hapart : s.head.committed < r.cursor → g.stop < r.cursor ∨ r.cursor = s.cap := hapart
      omega
    | wrapped =>
      show r'.cursor ≤ s.head.committed ∧ stop r' ≤ s.head.committed ∧
        (g.stop < r'.cursor ∨ r'.cursor = s.head.committed)
      obtain ⟨hc, -, hapart⟩ := hapart
      omega
    | lapping =>
      show r'.cursor = 0 ∧ (stop r' = 0 ∨ stop r' = s.cap) ∨ g.stop < r'.cursor ∨ r'.cursor = s.cap
      obtain ⟨hc, hh⟩ := hhead
      have hapart : r.cursor = 0 ∧ (stop r = 0 ∨ stop r = s.cap) ∨ g.stop < r.cursor ∨ r.cursor = s.cap := hapart
      omega

theorem Sound.ranged_release (hs : Sound s) (hr : r ∈ s.readers) (hg : r.grant = some g) :
    Ranged s (r.release g) ∧ ∀ g', ∀ p : GrantPhase, p.Head s g' → p.Apart s g' r → p.Apart s g' (r.release g) := by
  have hi := hs.readers r hr
  have hstop : stop r = g.stop := by simp [stop, hg]
  have hcursor : (r.release g).cursor = stop r := hstop.symm
  have hstop' : stop (r.release g) = stop r := hstop.symm
  have h₁ := hi.cursor_le
  have h₂ := hi.stop_le
  have h₃ := hi.lap
  have h₄ := hi.hwm
  refine ⟨⟨?_, ?_, ?_, ?_⟩, fun g' p hhead hapart => ?_⟩
  · omega
  · omega
  · omega
  · omega
  · cases p with
    | ahead =>
      show s.head.committed < (r.release g).cursor → g'.stop < (r.release g).cursor ∨ (r.release g).cursor = s.cap
      have hapart : s.head.committed < r.cursor → g'.stop < r.cursor ∨ r.cursor = s.cap := hapart
      omega
    | wrapped =>
      obtain ⟨hc, hle, hapart⟩ := hapart
      show (r.release g).cursor ≤ s.head.committed ∧ stop (r.release g) ≤ s.head.committed ∧
        (g'.stop < (r.release g).cursor ∨ (r.release g).cursor = s.head.committed)
      omega
    | lapping =>
      show (r.release g).cursor = 0 ∧ (stop (r.release g) = 0 ∨ stop (r.release g) = s.cap) ∨
        g'.stop < (r.release g).cursor ∨ (r.release g).cursor = s.cap
      have hapart : r.cursor = 0 ∧ (stop r = 0 ∨ stop r = s.cap) ∨ g'.stop < r.cursor ∨ r.cursor = s.cap := hapart
      omega

/-- Steps that only change the readers. -/
theorem Sound.of_readers {rs : List Reader} (hs : Sound s)
    (h : ∀ r ∈ rs, Ranged s r ∧ ∀ g, ∀ p : GrantPhase, p.Head s g → (∀ r' ∈ s.readers, p.Apart s g r') → p.Apart s g r) :
    Sound { s with readers := rs } := by
  refine ⟨hs.pos, hs.committed, hs.hwm, fun r hr => ?_, hs.idle, fun g hg => ?_⟩
  · obtain ⟨h₁, h₂, h₃, h₄⟩ := (h r hr).1
    exact ⟨h₁, h₂, h₃, h₄⟩
  · obtain ⟨hstart, hle, p, hhead, hapart⟩ := hs.grant g hg
    refine ⟨hstart, hle, p, ?_⟩
    cases p with
    | ahead => exact ⟨hhead, fun r hr => (h r hr).2 g .ahead hhead hapart⟩
    | wrapped => exact ⟨hhead, fun r hr => (h r hr).2 g .wrapped hhead hapart⟩
    | lapping => exact ⟨hhead, fun r hr => (h r hr).2 g .lapping hhead hapart⟩

theorem Sound.set {i : Nat} {r' : Reader} (hs : Sound s) (hr : r ∈ s.readers)
    (h : Ranged s r' ∧ ∀ g, ∀ p : GrantPhase, p.Head s g → p.Apart s g r → p.Apart s g r') :
    Sound { s with readers := s.readers.set i r' } := by
  refine hs.of_readers fun x hx => ?_
  rcases List.mem_or_eq_of_mem_set hx with hm | rfl
  · exact ⟨hs.readers x hm, fun g p _ hapart => hapart x hm⟩
  · exact ⟨h.1, fun g p hhead hapart => h.2 g p hhead (hapart r hr)⟩

theorem sound_reader (hs : Sound s) : Sound (readerStep s) := by
  refine hs.of_readers fun r hr => ?_
  rcases List.mem_cons.mp hr with rfl | hr
  · refine ⟨⟨Nat.le_refl _, hs.committed, fun _ => .inl (Nat.le_refl _), fun h => absurd h (Nat.lt_irrefl _)⟩,
      fun g p hhead _ => ?_⟩
    cases p with
    | ahead => exact fun h => absurd h (Nat.lt_irrefl _)
    | wrapped => exact ⟨Nat.le_refl _, Nat.le_refl _, .inr rfl⟩
    | lapping => exact .inr (.inr hhead.1)
  · exact ⟨hs.readers r hr, fun g p _ hapart => hapart r hr⟩

/-! ## The writer's steps -/

/-- A position modulo the capacity, which is the position unless it is the end of the ring. -/
theorem mod_cap {n cap : Nat} (h : n ≤ cap) : n = cap ∧ n % cap = 0 ∨ n < cap ∧ n % cap = n := by
  rcases Nat.lt_or_eq_of_le h with h | rfl
  · exact .inr ⟨h, Nat.mod_eq_of_lt h⟩
  · exact .inl ⟨rfl, Nat.mod_self _⟩

theorem Ranged.of_head (h : Ranged s r) (hcap : t.cap = s.cap) (hc : t.head.committed = s.head.committed)
    (hw : s.head.highWaterMark ≤ t.head.highWaterMark) : Ranged t r := by
  refine ⟨h.cursor_le, hcap ▸ h.stop_le, ?_, fun hlt => ?_⟩
  · rw [hc, hcap]
    exact h.lap
  · exact Nat.le_trans (h.hwm (hc ▸ hlt)) hw

section
variable {len : Nat} {head : WriteHead}

/-- A grant that wraps around leaves the readers between it and `committed`. -/
theorem Sound.granted_wrapped (hs : Sound s) (hcan : canWrite s.cursors len (loadWrite s.head s.cap) s.cap = true)
    (hle : len ≤ s.cap) (hwrap : s.cap < loadWrite s.head s.cap + len) (hc : head.committed = s.head.committed)
    (hzero : head.highWaterMark = 0) : Sound { s with head := head, grant := some ⟨0, len⟩ } := by
  have hcap := hs.committed
  have hw := mod_cap hcap
  have hload : loadWrite s.head s.cap = s.head.committed % s.cap := rfl
  have hplace {r : Reader} (hr : r ∈ s.readers) :
      len < r.cursor ∧ r.cursor ≤ s.head.committed ∧ stop r ≤ s.head.committed := by
    have hi := hs.readers r hr
    have hfree := canWrite_iff.mp hcan r.cursor (List.mem_map_of_mem hr)
    have hr := mod_cap (Nat.le_trans hi.cursor_le hi.stop_le)
    have hlap := hi.lap
    omega
  refine ⟨hs.pos, hc ▸ hcap, ?_, fun r hr => ?_, nofun, fun g hg => ?_⟩
  · show head.highWaterMark ≤ s.cap
    rw [hzero]
    exact Nat.zero_le _
  · obtain ⟨-, -, hstop⟩ := hplace hr
    have hi := hs.readers r hr
    exact ⟨hi.cursor_le, hi.stop_le, fun _ => .inl (hc ▸ hstop), fun hlt => absurd hlt (Nat.not_lt.mpr (hc ▸ hstop))⟩
  · obtain rfl := Option.some.inj hg
    refine ⟨Nat.zero_le _, hle, .wrapped, hzero, fun r hr => ?_⟩
    obtain ⟨hlt, hcur, hstop⟩ := hplace hr
    exact ⟨hc ▸ hcur, hc ▸ hstop, .inl hlt⟩

/-- One that does not goes on from `committed`, or starts a new lap if that is the end of the ring. -/
theorem Sound.granted_fit (hs : Sound s) (hlen : 0 < len)
    (hsafe : s.head.committed = s.cap → ∀ r ∈ s.readers, ¬ (r.cursor = 0 ∧ ∃ g ∈ r.grant, g.stop ≠ s.cap))
    (hidle : s.head.committed ≤ s.head.highWaterMark)
    (hcan : canWrite s.cursors len (loadWrite s.head s.cap) s.cap = true)
    (hfit : loadWrite s.head s.cap + len ≤ s.cap) (hc : head.committed = s.head.committed)
    (hmax : head.highWaterMark = max s.head.highWaterMark (loadWrite s.head s.cap + len)) :
    Sound { s with head := head, grant := some ⟨loadWrite s.head s.cap, loadWrite s.head s.cap + len⟩ } := by
  have hhwm := hs.hwm
  have hw := mod_cap hs.committed
  have hload : loadWrite s.head s.cap = s.head.committed % s.cap := rfl
  refine ⟨hs.pos, hc ▸ hs.committed, ?_, fun r hr => ?_, nofun, fun g hg => ?_⟩
  · show head.highWaterMark ≤ s.cap
    omega
  · exact (hs.readers r hr).of_head rfl hc (by show s.head.highWaterMark ≤ head.highWaterMark; omega)
  · obtain rfl := Option.some.inj hg
    refine ⟨Nat.le_add_right _ _, hfit, ?_⟩
    rcases hw with ⟨hend, hzero⟩ | ⟨hlt, hmod⟩
    · refine ⟨.lapping, ?_, fun r hr => ?_⟩
      · show head.committed = s.cap ∧ head.highWaterMark = s.cap
        omega
      · show r.cursor = 0 ∧ (stop r = 0 ∨ stop r = s.cap) ∨ loadWrite s.head s.cap + len < r.cursor ∨ r.cursor = s.cap
        have hi := hs.readers r hr
        have hfree := canWrite_iff.mp hcan r.cursor (List.mem_map_of_mem hr)
        have hm := mod_cap (Nat.le_trans hi.cursor_le hi.stop_le)
        rcases Nat.eq_zero_or_pos r.cursor with hz | hpos
        · refine .inl ⟨hz, ?_⟩
          cases hg : r.grant with
          | none => exact .inl (by simpa [stop, hg] using hz)
          | some g =>
            refine .inr (Classical.not_not.mp fun hne => hsafe hend r hr ⟨hz, g, hg, ?_⟩)
            simpa [stop, hg] using hne
        · omega
    · refine ⟨.ahead, ?_, fun r hr => ?_⟩
      · show head.committed < loadWrite s.head s.cap + len ∧ loadWrite s.head s.cap + len ≤ head.highWaterMark
        omega
      · show head.committed < r.cursor → loadWrite s.head s.cap + len < r.cursor ∨ r.cursor = s.cap
        have hi := hs.readers r hr
        have hfree := canWrite_iff.mp hcan r.cursor (List.mem_map_of_mem hr)
        have hm := mod_cap (Nat.le_trans hi.cursor_le hi.stop_le)
        omega

end

theorem sound_grant {len : Nat} (hs : Sound s) (hlen : 0 < len) (hok : LapSafe s (.grant len))
    (hg : s.grant = none) : Sound (grantStep s len) := by
  unfold grantStep
  cases h : tryGrant s.head s.cursors s.cap len with
  | error e => exact hs
  | ok granted =>
    obtain ⟨head, g⟩ := granted
    obtain ⟨hle, hcan, hc, ⟨hwrap, hzero, rfl⟩ | ⟨hfit, hmax, rfl⟩⟩ := reserve_ok h
    · exact hs.granted_wrapped hcan hle hwrap hc hzero
    · exact hs.granted_fit hlen (fun hend => hok ⟨by rw [h]; rfl, hend⟩) (hs.idle hg) hcan hfit hc hmax

/-- The bytes of the ring do not matter. -/
theorem Sound.of_ring (hs : Sound s) {ringbuf : Bytes} (h : ringbuf.length = s.cap) :
    Sound { s with ringbuf := ringbuf } := by
  have hcap : ({ s with ringbuf := ringbuf } : State).cap = s.cap := h
  refine ⟨hcap ▸ hs.pos, hcap ▸ hs.committed, hcap ▸ hs.hwm, fun r hr => ?_, hs.idle, fun g hg => ?_⟩
  · exact (hs.readers r hr).of_head hcap rfl (Nat.le_refl _)
  · obtain ⟨hstart, hle, p, hhead, hapart⟩ := hs.grant g hg
    refine ⟨hstart, hcap ▸ hle, p, ?_⟩
    cases p <;> simp only [GrantPhase.Head, GrantPhase.Apart, hcap] at hhead hapart ⊢ <;> exact ⟨hhead, hapart⟩

theorem sound_fill {offset : Nat} {bytes : Bytes} (hs : Sound s) (hg : s.grant = some g)
    (h : fillStep s g offset bytes = some t) : Sound t := by
  obtain ⟨hlen, h⟩ := Option.ite_none_right_eq_some.mp h
  obtain rfl := Option.some.inj h
  obtain ⟨hstart, hle, -⟩ := hs.grant g hg
  have hcap : s.cap = s.ringbuf.length := rfl
  exact hs.of_ring (length_overwrite (by omega))

theorem sound_commit (hs : Sound s) (hg : s.grant = some g) : Sound (commitStep s g) := by
  obtain ⟨-, hle, p, hhead, hapart⟩ := hs.grant g hg
  have hcap := hs.committed
  have hhwm := hs.hwm
  have hw : (commitStep s g).head.highWaterMark =
      if g.stop < s.head.committed ∧ g.stop ≠ s.cap then s.head.committed
      else if g.stop > s.head.highWaterMark then s.cap else s.head.highWaterMark := rfl
  have hc : (commitStep s g).head.committed = g.stop := rfl
  refine ⟨hs.pos, hle, ?_, fun r hr => ?_, fun _ => ?_, nofun⟩
  · show (commitStep s g).head.highWaterMark ≤ s.cap
    rw [hw]
    split_ifs <;> omega
  · have hi := hs.readers r hr
    have h₁ := hi.cursor_le
    have h₂ := hi.stop_le
    have h₃ := hi.lap
    have h₄ := hi.hwm
    have hapart := hapart r hr
    refine ⟨h₁, h₂, ?_, ?_⟩
    · show r.cursor ≤ g.stop → stop r ≤ g.stop ∨ r.cursor = 0 ∧ stop r = s.cap
      cases p <;> simp only [GrantPhase.Head, GrantPhase.Apart] at hhead hapart <;> omega
    · show g.stop < stop r → stop r ≤ (commitStep s g).head.highWaterMark
      rw [hw]
      cases p <;> simp only [GrantPhase.Head, GrantPhase.Apart] at hhead hapart <;> split_ifs <;> omega
  · show g.stop ≤ (commitStep s g).head.highWaterMark
    rw [hw]
    cases p <;> simp only [GrantPhase.Head] at hhead <;> split_ifs <;> omega

/-! ## Runs -/

theorem sound_step {a : Act} (hs : Sound s) (hok : LapSafe s a) (h : step s a = some t) : Sound t := by
  cases a with
  | grant len =>
    obtain ⟨⟨hg, hlen⟩, h⟩ := Option.ite_none_right_eq_some.mp h
    obtain rfl := Option.some.inj h
    exact sound_grant hs hlen hok hg
  | fill offset bytes =>
    obtain ⟨g, hg, h⟩ := Option.bind_eq_some_iff.mp h
    exact sound_fill hs hg h
  | commit =>
    obtain ⟨g, hg, rfl⟩ := Option.map_eq_some_iff.mp h
    exact sound_commit hs hg
  | reader =>
    obtain rfl := Option.some.inj h
    exact sound_reader hs
  | tryNext i =>
    simp only [step, Option.bind_eq_bind, Option.bind_eq_some_iff, Option.pure_def, Option.some.injEq] at h
    obtain ⟨r, hr, _, hg, r', hp, rfl⟩ := h
    have hm := List.mem_of_getElem? hr
    exact hs.set hm (hs.ranged_poll hm ((Option.guard_eq_some' _).mp hg) hp)
  | release i =>
    simp only [step, Option.bind_eq_bind, Option.bind_eq_some_iff, Option.pure_def, Option.some.injEq] at h
    obtain ⟨r, hr, g, hg, rfl⟩ := h
    have hm := List.mem_of_getElem? hr
    exact hs.set hm (hs.ranged_release hm hg)
  | dropReader i =>
    simp only [step, Option.bind_eq_bind, Option.bind_eq_some_iff, Option.pure_def, Option.some.injEq] at h
    obtain ⟨r, hr, -, -, rfl⟩ := h
    refine hs.of_readers fun r' hr' => ?_
    have hm := List.mem_of_mem_eraseIdx hr'
    exact ⟨hs.readers r' hm, fun g p _ hapart => hapart r' hm⟩

theorem sound_new {capacity : Nat} (h : 0 < capacity) : Sound (new capacity) := by
  have hcap : (new capacity).cap = capacity := List.length_replicate
  exact ⟨by rw [hcap]; exact h, Nat.zero_le _, Nat.zero_le _, nofun, fun _ => Nat.le_refl _, nofun⟩

/-- Every run is in range whose grants start no new lap over a reader that still holds the start of the ring. -/
theorem run_in_range {capacity : Nat} (hc : 0 < capacity) (s : State) (h : Run step LapSafe (new capacity) s) :
    InRange s :=
  (h.invariant sound_step (sound_new hc)).inRange

end

instance (s : State) : (a : Act) → Decidable (LapSafe s a)
  | .grant _ => inferInstanceAs (Decidable (_ → _))
  | .fill _ _ | .commit | .reader | .tryNext _ | .release _ | .dropReader _ => isTrue trivial

/-- A reader that holds a range while a grant wraps around. -/
theorem run_in_range_wrap : ∃ s, Run step LapSafe (new 8) s ∧ s.head = ⟨7, 0⟩ ∧ InRange s := by
  have h : Run step LapSafe (new 8) _ := Run.of_exec [.reader, .grant 7, .commit, .tryNext 0, .release 0, .grant 3]
    .refl rfl
  exact ⟨_, h, rfl, run_in_range (by decide) _ h⟩

/-- Not every run is: a reader that holds the first half of a full ring while a new lap is started over it ends
up ahead of `committed`, with a grant out that has wrapped around. -/
theorem lapped_not_in_range :
    ¬ ∀ capacity, 0 < capacity → ∀ s, Run step (fun _ _ => True) (new capacity) s → InRange s := by
  intro h
  have hr : Run step (fun _ _ => True) (new 8) _ := Run.of_exec [.reader, .grant 4, .commit, .tryNext 0, .grant 4,
    .commit, .grant 1, .commit, .grant 6, .release 0, .tryNext 0, .commit, .grant 2, .release 0] .refl rfl
  have hend := (h 8 (by decide) _ hr _ (List.mem_singleton_self _)).2.1
  revert hend
  decide

end Metor.Proof.Disruptor
