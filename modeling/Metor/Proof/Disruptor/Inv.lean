import Mathlib.Data.Option.Basic
import Metor.Impl.Disruptor

/-!
# Writes laid end to end in the ring

`Tiles ring a b ws`: the ranges of `ws` cover `[a, b)` in order and without
gaps, and the ring holds the bytes of each. Tilings split, extend by a write
that starts where they end (`Tiles.snoc`), read as the bytes of their writes
(`Tiles.slice_eq`), and are kept by a write to the ring outside `[a, b)`
(`Tiles.overwrite`).
-/

namespace Metor.Proof.Disruptor

open Metor.Lib Metor.Impl.Disruptor

/-- The bytes of some writes, in order. -/
def bytesOf (ws : List Write) : Bytes := (ws.map (·.bytes)).flatten

@[simp] theorem bytesOf_nil : bytesOf [] = [] := rfl

@[simp] theorem bytesOf_cons (w : Write) (ws : List Write) : bytesOf (w :: ws) = w.bytes ++ bytesOf ws := by
  simp [bytesOf]

@[simp] theorem bytesOf_append (ws ws' : List Write) : bytesOf (ws ++ ws') = bytesOf ws ++ bytesOf ws' := by
  simp [bytesOf]

def Tiles (ring : Bytes) : Nat → Nat → List Write → Prop
  | a, b, [] => a = b
  | a, b, w :: ws => w.range.start = a ∧ a < w.range.stop ∧ slice ring a w.range.stop = w.bytes ∧
      Tiles ring w.range.stop b ws

namespace Tiles

variable {ring : Bytes} {a b c : Nat} {ws ws' : List Write} {w : Write}

theorem le : ∀ {ws : List Write} {a : Nat}, Tiles ring a b ws → a ≤ b
  | [], _, h => Nat.le_of_eq h
  | _ :: _, _, ⟨_, hlt, _, h⟩ => Nat.le_trans (Nat.le_of_lt hlt) (le h)

theorem eq_nil (h : Tiles ring a a ws) : ws = [] := by
  cases ws with
  | nil => rfl
  | cons w ws =>
    obtain ⟨_, hlt, _, h⟩ := h
    have := h.le
    omega

theorem append (h : Tiles ring a b ws) (h' : Tiles ring b c ws') : Tiles ring a c (ws ++ ws') := by
  induction ws generalizing a with
  | nil => cases h; exact h'
  | cons w ws ih =>
    obtain ⟨hs, hlt, hb, h⟩ := h
    exact ⟨hs, hlt, hb, ih h⟩

/-- A write granted where the tiling ends extends it. -/
theorem snoc {g : Range} (h : Tiles ring a g.start ws) (hlt : g.start < g.stop) :
    Tiles ring a g.stop (ws ++ [⟨g, slice ring g.start g.stop⟩]) :=
  h.append ⟨rfl, hlt, rfl, rfl⟩

theorem slice_eq (h : Tiles ring a b ws) : slice ring a b = bytesOf ws := by
  induction ws generalizing a with
  | nil => cases h; exact slice_of_le _ (Nat.le_refl _)
  | cons w ws ih =>
    obtain ⟨_, hlt, hb, h⟩ := h
    rw [bytesOf_cons, ← hb, ← ih h, slice_append _ (Nat.le_of_lt hlt) h.le]

/-- Bytes written outside the tiling leave it as it is. -/
theorem overwrite {o : Nat} {ys : Bytes} (h : Tiles ring a b ws) (ho : o + ys.length ≤ ring.length)
    (hd : b ≤ o ∨ o + ys.length ≤ a) : Tiles (Lib.overwrite ring o ys) a b ws := by
  induction ws generalizing a with
  | nil => exact h
  | cons w ws ih =>
    obtain ⟨hs, hlt, hb, h⟩ := h
    have hle := h.le
    refine ⟨hs, hlt, ?_, ih h (by omega)⟩
    rw [slice_overwrite_of_disjoint ho (by omega), hb]

/-- The ranges of a tiling lie within it. -/
theorem mem_range (h : Tiles ring a b ws) (hw : w ∈ ws) : a ≤ w.range.start ∧ w.range.stop ≤ b := by
  induction ws generalizing a with
  | nil => cases hw
  | cons v ws ih =>
    obtain ⟨hs, hlt, _, h⟩ := h
    have hle := h.le
    rcases List.mem_cons.mp hw with rfl | hw
    · omega
    · have := ih h hw; omega

/-- Each write of a tiling ends where a later one starts, or before. -/
theorem pairwise (h : Tiles ring a b ws) : ws.Pairwise fun v w => v.range.stop ≤ w.range.start := by
  induction ws generalizing a with
  | nil => exact .nil
  | cons v ws ih =>
    obtain ⟨_, _, _, h⟩ := h
    exact .cons (fun w hw => (h.mem_range hw).1) (ih h)

theorem bytes_ne_nil (h : Tiles ring a b ws) (hb : b ≤ ring.length) (hw : w ∈ ws) : w.bytes ≠ [] := by
  induction ws generalizing a with
  | nil => cases hw
  | cons v ws ih =>
    obtain ⟨_, hlt, hv, h⟩ := h
    have hle := h.le
    rcases List.mem_cons.mp hw with rfl | hw
    · rw [← hv, ← List.length_pos_iff, length_slice (by omega)]; omega
    · exact ih h hw

end Tiles

end Metor.Proof.Disruptor

/-!
# The invariant of the ring

Each reader splits the log into what it has released (`old`), what it holds
(`held`) and what it has still to read (`ws`), the last two laid end to end in
the ring from its cursor on (`ReaderInv`): up to `committed` if the reader is
on the writer's lap, and up to `high_water_mark` and then from the start of
the ring if it is one lap behind (`Unread`). A write grant keeps clear of all
of it (`Clear`). `GrantSafe` names the two grants that `can_write` lets
through although they do not; the steps that meet it keep the invariant
(`step_inv`).
-/

namespace Metor.Proof.Disruptor

open Metor.Lib Metor.Impl.Disruptor

/-- What a reader at `pos` has still to read. -/
def Unread (s : State) (pos : Nat) (ws : List Write) : Prop :=
  (pos ≤ s.head.committed ∧ Tiles s.ringbuf pos s.head.committed ws) ∨
  (s.head.committed < pos ∧ pos ≤ s.head.highWaterMark ∧ ∃ us vs, ws = us ++ vs ∧
    Tiles s.ringbuf pos s.head.highWaterMark us ∧ Tiles s.ringbuf 0 s.head.committed vs)

/-- Where the reader goes on after what it holds. -/
def stop (r : Reader) : Nat := (r.grant.map (·.stop)).getD r.cursor

structure ReaderInv (s : State) (r : Reader) (old held ws : List Write) : Prop where
  log : s.log = old ++ held ++ ws
  birth : r.birth ≤ old.length
  handed : r.handed = bytesOf (old.drop r.birth) ++ bytesOf held
  start : ∀ g, r.grant = some g → g.start = r.cursor
  lap : r.cursor ≤ s.head.committed → stop r ≤ s.head.committed
  tiles : Tiles s.ringbuf r.cursor (stop r) held
  unread : Unread s (stop r) ws

/-- The granted range starts at `committed`, or at the start of the ring when
everything unread is above it; in both cases it ends below a reader that is
ahead of it. -/
def Clear (s : State) (g : Range) (cursor : Nat) : Prop :=
  (cursor ≤ s.head.committed ∧ g.start = s.head.committed) ∨
  (cursor ≤ s.head.committed ∧ g.start = 0 ∧ g.stop < cursor) ∨
  (s.head.committed < cursor ∧ g.start = s.head.committed ∧ g.stop < cursor)

structure GrantInv (s : State) (g : Range) : Prop where
  lt : g.start < g.stop
  le : g.stop ≤ s.cap
  clear : ∀ r ∈ s.readers, Clear s g r.cursor
  hwm : g.start = s.head.committed → g.stop ≤ s.head.highWaterMark

structure Inv (s : State) : Prop where
  committed : s.head.committed ≤ s.cap
  hwm : s.head.highWaterMark ≤ s.cap
  readers : ∀ r ∈ s.readers, ∃ old held ws, ReaderInv s r old held ws
  grant : ∀ g, s.grant = some g → GrantInv s g

/-- The two grants that `can_write` lets through and should not: one while a
reader has the whole ring unread (`committed` and the reader's cursor are the
two ends of the ring, equal modulo its length), and one that ends where the
ring does while a reader stands there, which then looks empty to the reader. -/
def GrantSafe (s : State) (len : Nat) : Prop :=
  canWrite s.cursors len (loadWrite s.head s.cap) s.cap = true → ∀ r ∈ s.readers,
    ¬ (s.head.committed = s.cap ∧ r.cursor = 0) ∧
    ¬ (r.cursor = s.cap ∧ loadWrite s.head s.cap + len = s.cap)

instance (s : State) (len : Nat) : Decidable (GrantSafe s len) :=
  inferInstanceAs (Decidable (_ → _))

/-- A reader starts at `committed`. It may be created while a grant is out, if
that grant goes on from there or ends below. -/
def ReaderSafe (s : State) : Prop :=
  ∀ g ∈ s.grant, g.start = s.head.committed ∨ (g.start = 0 ∧ g.stop < s.head.committed)

instance (s : State) : Decidable (ReaderSafe s) :=
  match h : s.grant with
  | none => isTrue (by simp [ReaderSafe, h])
  | some g => decidable_of_iff (g.start = s.head.committed ∨ (g.start = 0 ∧ g.stop < s.head.committed))
      (by simp [ReaderSafe, h])

/-- The steps the ring is lossless under. -/
def Safe (s : State) : Act → Prop
  | .grant len => GrantSafe s len
  | .reader => ReaderSafe s
  | _ => True

instance (s : State) : (a : Act) → Decidable (Safe s a)
  | .grant _ => inferInstanceAs (Decidable (GrantSafe _ _))
  | .reader => inferInstanceAs (Decidable (ReaderSafe _))
  | .fill _ _ | .commit | .tryNext _ | .release _ | .dropReader _ => isTrue trivial

/-! ## Readers -/

theorem Unread.le {s : State} {pos : Nat} {ws : List Write} (h : Unread s pos ws)
    (hl : s.head.committed < pos) : pos ≤ s.head.highWaterMark := by
  rcases h with ⟨h, -⟩ | ⟨-, h, -⟩
  · omega
  · exact h

theorem ReaderInv.cursor_le {s : State} {r : Reader} {old held ws : List Write}
    (h : ReaderInv s r old held ws) (hl : s.head.committed < r.cursor) :
    r.cursor ≤ s.head.highWaterMark := by
  have h₁ := h.tiles.le
  have h₂ := h.unread.le (by omega)
  omega

theorem Inv.cursor_le {s : State} (h : Inv s) {r : Reader} (hr : r ∈ s.readers) : r.cursor ≤ s.cap := by
  obtain ⟨old, held, ws, hi⟩ := h.readers r hr
  have hc := h.committed
  have hh := h.hwm
  by_cases hl : s.head.committed < r.cursor
  · have := hi.cursor_le hl; omega
  · omega

/-- What a reader knows of the ring: kept by a step that keeps its bytes, the
committed position, the log and, for a reader one lap behind, the high water mark. -/
theorem ReaderInv.congr {s t : State} {r : Reader} {old held ws : List Write}
    (h : ReaderInv s r old held ws) (hr : t.ringbuf = s.ringbuf) (hl : t.log = s.log)
    (hc : t.head.committed = s.head.committed)
    (hw : s.head.committed < r.cursor → t.head.highWaterMark = s.head.highWaterMark) :
    ReaderInv t r old held ws := by
  refine ⟨hl.trans h.log, h.birth, h.handed, h.start, by rw [hc]; exact h.lap, by rw [hr]; exact h.tiles, ?_⟩
  rcases h.unread with hu | ⟨hlt, hu⟩
  · left; rw [hr, hc]; exact hu
  · right
    have hcur : s.head.committed < r.cursor := Nat.lt_of_not_le fun hn => by have := h.lap hn; omega
    rw [hr, hc, hw hcur]
    exact ⟨hlt, hu⟩

/-! ## The writer's steps -/

theorem canWrite_iff {readers : List Nat} {len write max : Nat} :
    canWrite readers len write max = true ↔ ∀ c ∈ readers,
      ¬ (write < c % max ∧ c % max ≤ write + len) ∧ ¬ (max < write + len ∧ c % max ≤ len) := by
  simp only [canWrite, Bool.not_eq_true', List.any_eq_false, ge_iff_le, gt_iff_lt]
  refine forall₂_congr fun c _ => ?_
  split <;> simp [*]

/-- What a granted range is: at the loaded position, or at the start of the ring. -/
theorem reserve_ok {head head' : WriteHead} {readers : List Nat} {cap write len : Nat} {g : Range}
    (h : reserve head readers cap write len = .ok (head', g)) :
    len ≤ cap ∧ canWrite readers len write cap = true ∧ head'.committed = head.committed ∧
    ((cap < write + len ∧ head'.highWaterMark = 0 ∧ g = ⟨0, len⟩) ∨
     (write + len ≤ cap ∧ head'.highWaterMark = max head.highWaterMark (write + len) ∧
      g = ⟨write, write + len⟩)) := by
  simp only [reserve, gt_iff_lt, Bool.not_eq_true'] at h
  split at h
  · cases h
  split at h
  · cases h
  rename_i hlen hcan
  rw [Bool.not_eq_false] at hcan
  refine ⟨by omega, hcan, ?_⟩
  split at h
  · cases h; exact ⟨rfl, .inl ⟨by assumption, rfl, by simp⟩⟩
  split at h
  · cases h; exact ⟨rfl, .inr ⟨by omega, (Nat.max_eq_right (Nat.le_of_lt (by assumption))).symm, rfl⟩⟩
  · cases h; exact ⟨rfl, .inr ⟨by omega, (Nat.max_eq_left (by omega)).symm, rfl⟩⟩

/-- A safe grant keeps clear of every reader. -/
theorem grant_clear {s : State} {head : WriteHead} {g : Range} {len : Nat} (hs : Inv s) (hlen : 0 < len)
    (hsafe : GrantSafe s len) (h : tryGrant s.head s.cursors s.cap len = .ok (head, g)) {r : Reader}
    (hr : r ∈ s.readers) : Clear s g r.cursor := by
  obtain ⟨hle, hcan, -, hg⟩ := reserve_ok h
  obtain ⟨h₁, h₂⟩ := canWrite_iff.mp hcan r.cursor (List.mem_map_of_mem hr)
  obtain ⟨h₃, h₄⟩ := hsafe hcan r hr
  have hc := hs.committed
  have hcur := hs.cursor_le hr
  -- `committed` and the cursor are both taken modulo the capacity: each is the
  -- position itself, unless it is the end of the ring and counts as its start.
  have mod_pos : ∀ n ≤ s.cap, (n = s.cap ∧ n % s.cap = 0) ∨ (n < s.cap ∧ n % s.cap = n) := fun n hn => by
    rcases Nat.lt_or_eq_of_le hn with h | rfl
    · exact .inr ⟨h, Nat.mod_eq_of_lt h⟩
    · exact .inl ⟨rfl, Nat.mod_self _⟩
  have mw := mod_pos _ hc
  have mr := mod_pos _ hcur
  simp only [loadWrite, Clear] at h₁ h₂ h₄ hg ⊢
  rcases hg with ⟨hw, -, rfl⟩ | ⟨hw, -, rfl⟩ <;> dsimp only <;> omega

theorem grantStep_inv {s : State} {len : Nat} (hs : Inv s) (hlen : 0 < len) (hsafe : GrantSafe s len) :
    Inv (grantStep s len) := by
  simp only [grantStep]
  split
  · exact hs
  rename_i head g h
  obtain ⟨hle, -, hc, hr⟩ := reserve_ok h
  have hclear := fun {r} => grant_clear hs hlen hsafe h (r := r)
  have hp : 0 < s.cap := Nat.lt_of_lt_of_le hlen hle
  have hcap := hs.hwm
  have hcom := hs.committed
  -- A reader one lap behind is below the high water mark, and the grant ends below the reader.
  have hlap : ∀ r ∈ s.readers, s.head.committed < r.cursor → head.highWaterMark = s.head.highWaterMark := by
    intro r hm hlt
    obtain ⟨old, held, ws, hi⟩ := hs.readers r hm
    have hcur := hi.cursor_le hlt
    have hcl := hclear hm
    simp only [Clear] at hcl
    rcases hr with ⟨hw, -, rfl⟩ | ⟨hw, he, rfl⟩
    · have : loadWrite s.head s.cap < s.cap := Nat.mod_lt _ hp
      have : loadWrite s.head s.cap ≤ s.head.committed := Nat.mod_le _ _
      dsimp only at hcl
      omega
    · rw [he]; exact Nat.max_eq_left (by dsimp only at hcl; omega)
  refine ⟨by rw [hc]; exact hs.committed, ?_, fun r hm => ?_, ?_⟩
  · show head.highWaterMark ≤ s.cap
    rcases hr with ⟨-, he, -⟩ | ⟨hw, he, -⟩ <;> omega
  · obtain ⟨old, held, ws, hi⟩ := hs.readers r hm
    exact ⟨old, held, ws, hi.congr rfl rfl hc (hlap r hm)⟩
  · intro g' hg'
    cases hg'
    refine ⟨?_, ?_, fun r hm => ?_, ?_⟩
    · rcases hr with ⟨-, -, rfl⟩ | ⟨-, -, rfl⟩ <;> dsimp only <;> omega
    · rcases hr with ⟨-, -, rfl⟩ | ⟨hw, -, rfl⟩ <;> assumption
    · have hcl := hclear hm
      simp only [Clear, hc] at hcl ⊢
      exact hcl
    · rcases hr with ⟨hw, -, rfl⟩ | ⟨-, he, rfl⟩
      · intro e
        simp only [loadWrite, hc] at hw e
        rw [← e, Nat.zero_mod] at hw
        omega
      · exact fun _ => he ▸ Nat.le_max_right _ _

/-- What a reader holds and has to read is outside a range that is clear of its cursor. -/
theorem ReaderInv.overwrite {s : State} {r : Reader} {old held ws : List Write} {g : Range} {o : Nat}
    {ys : Bytes} (h : ReaderInv s r old held ws) (hcl : Clear s g r.cursor) (hg : g.stop ≤ s.cap)
    (h₁ : g.start ≤ o) (h₂ : o + ys.length ≤ g.stop) :
    ReaderInv { s with ringbuf := Lib.overwrite s.ringbuf o ys } r old held ws := by
  have ho : o + ys.length ≤ s.ringbuf.length := Nat.le_trans h₂ hg
  have hle := h.tiles.le
  have hlap := h.lap
  simp only [Clear] at hcl
  refine ⟨h.log, h.birth, h.handed, h.start, h.lap, h.tiles.overwrite ho ?_, ?_⟩
  · rcases hcl with ⟨hc, e⟩ | ⟨-, -, hlt⟩ | ⟨-, -, hlt⟩
    · have := hlap hc; omega
    all_goals omega
  rcases h.unread with ⟨hc, ht⟩ | ⟨hc, hw, us, vs, e, hu, hv⟩
  · exact .inl ⟨hc, ht.overwrite ho (by omega)⟩
  · exact .inr ⟨hc, hw, us, vs, e, hu.overwrite ho (by omega), hv.overwrite ho (by omega)⟩

theorem fillStep_inv {s t : State} {g : Range} {offset : Nat} {bytes : Bytes} (hs : Inv s)
    (hg : s.grant = some g) (h : fillStep s g offset bytes = some t) : Inv t := by
  simp only [fillStep, Option.ite_none_right_eq_some, Option.some.injEq] at h
  obtain ⟨hlen, rfl⟩ := h
  have hi := hs.grant g hg
  have hlt := hi.lt
  have hle : g.start + offset + bytes.length ≤ s.ringbuf.length := by
    have := hi.le; simp only [State.cap] at this; omega
  have hcap : ({ s with ringbuf := Lib.overwrite s.ringbuf (g.start + offset) bytes } : State).cap = s.cap :=
    length_overwrite hle
  refine ⟨hcap ▸ hs.committed, hcap ▸ hs.hwm, fun r hr => ?_, fun g' hg' => ?_⟩
  · obtain ⟨old, held, ws, hr'⟩ := hs.readers r hr
    exact ⟨old, held, ws, hr'.overwrite (hi.clear r hr) hi.le (by omega) (by omega)⟩
  · rw [hg] at hg'
    cases hg'
    exact ⟨hi.lt, hcap ▸ hi.le, hi.clear, hi.hwm⟩

/-- The committed write joins what every reader has still to read. -/
theorem ReaderInv.commit {s : State} {r : Reader} {old held ws : List Write} {g : Range}
    (h : ReaderInv s r old held ws) (hs : Inv s) (hi : GrantInv s g) (hcl : Clear s g r.cursor) :
    ReaderInv (commitStep s g) r old held (ws ++ [⟨g, slice s.ringbuf g.start g.stop⟩]) := by
  have hle := h.tiles.le
  have hlap := h.lap
  have hlt := hi.lt
  have hcap := hi.le
  have hcom := hs.committed
  have hcur := h.cursor_le
  simp only [Clear] at hcl
  have hw : (commitStep s g).head.highWaterMark =
      if g.stop < s.head.committed ∧ g.stop ≠ s.cap then s.head.committed
      else if g.stop > s.head.highWaterMark then s.cap else s.head.highWaterMark := rfl
  refine ⟨?_, h.birth, h.handed, h.start, ?_, h.tiles, ?_⟩
  · simp only [commitStep, h.log, List.append_assoc]
  · show r.cursor ≤ g.stop → stop r ≤ g.stop
    rcases hcl with ⟨hc, e⟩ | ⟨hc, e, hlt'⟩ | ⟨hc, e, hlt'⟩
    · have := hlap hc; omega
    all_goals omega
  rcases hcl with ⟨hc, e⟩ | ⟨hc, e, hlt'⟩ | ⟨hc, e, hlt'⟩
  · -- the writer goes on where the reader's bytes end
    have hstop := hlap hc
    rcases h.unread with ⟨-, ht⟩ | ⟨hn, -⟩
    · exact .inl ⟨by show stop r ≤ g.stop; omega, Tiles.snoc (e ▸ ht) hlt⟩
    · omega
  · -- the writer starts a new lap, which the reader is not on yet
    have hstop := hlap hc
    rw [if_pos ⟨by omega, by omega⟩] at hw
    rcases h.unread with ⟨-, ht⟩ | ⟨hn, -⟩
    · refine .inr ⟨by show g.stop < stop r; omega, by rw [hw]; exact hstop, ws, _, rfl, ?_, ?_⟩
      · rw [hw]; exact ht
      · exact Tiles.snoc (show Tiles _ _ _ [] from e.symm) hlt
    · omega
  · -- the writer goes on, and the reader stays one lap behind
    have hh := hi.hwm e
    rw [if_neg (by omega), if_neg (by omega)] at hw
    rcases h.unread with ⟨hn, -⟩ | ⟨hn, hm, us, vs, rfl, hu, hv⟩
    · omega
    · refine .inr ⟨by show g.stop < stop r; omega, by rw [hw]; exact hm, us, vs ++ [_],
        List.append_assoc _ _ _, by rw [hw]; exact hu, Tiles.snoc (e ▸ hv) hlt⟩

theorem commitStep_inv {s : State} {g : Range} (hs : Inv s) (hg : s.grant = some g) :
    Inv (commitStep s g) := by
  have hi := hs.grant g hg
  have hcap := hi.le
  have hcom := hs.committed
  have hhwm := hs.hwm
  refine ⟨hi.le, ?_, fun r hr => ?_, fun g' hg' => by cases hg'⟩
  · show (if _ then _ else if _ then _ else _) ≤ s.cap
    split
    · exact hcom
    split
    · exact Nat.le_refl _
    · exact hhwm
  · obtain ⟨old, held, ws, hr'⟩ := hs.readers r hr
    exact ⟨old, held, _, hr'.commit hs hi (hi.clear r hr)⟩

/-! ## The readers' steps -/

/-- Steps that only change the readers. -/
theorem Inv.of_readers {s : State} {rs : List Reader} (hs : Inv s)
    (h : ∀ r ∈ rs, (∃ old held ws, ReaderInv s r old held ws) ∧
      ∀ g, s.grant = some g → Clear s g r.cursor) : Inv { s with readers := rs } := by
  refine ⟨hs.committed, hs.hwm, fun r hr => ?_, fun g hg => ?_⟩
  · obtain ⟨⟨old, held, ws, hi⟩, -⟩ := h r hr
    exact ⟨old, held, ws, hi.congr rfl rfl rfl fun _ => rfl⟩
  · have hi := hs.grant g hg
    exact ⟨hi.lt, hi.le, fun r hr => (h r hr).2 g hg, hi.hwm⟩

theorem readerStep_inv {s : State} (hs : Inv s) (hok : ReaderSafe s) : Inv (readerStep s) := by
  refine hs.of_readers fun r hr => ?_
  rcases List.mem_cons.mp hr with rfl | hr
  · refine ⟨⟨s.log, [], [], by simp, Nat.le_refl _, by simp, nofun, id, rfl, .inl ⟨Nat.le_refl _, rfl⟩⟩, ?_⟩
    intro g hg
    rcases hok g hg with h | h
    · exact .inl ⟨Nat.le_refl _, h⟩
    · exact .inr (.inl ⟨Nat.le_refl _, h⟩)
  · exact ⟨hs.readers r hr, fun g hg => (hs.grant g hg).clear r hr⟩

/-- The range a poll hands out, if it is not empty. -/
def handOut (a b : Nat) : Option Range := if a < b then some ⟨a, b⟩ else none

theorem handOut_eq {a b : Nat} (h : a ≤ b) :
    (if b - a > 0 then some (⟨a, a + (b - a)⟩ : Range) else none) = handOut a b := by
  simp only [handOut, Nat.add_sub_cancel' h]
  exact if_congr (by omega) rfl rfl

theorem Tiles.eq_nil_of_handOut {ring : Bytes} {a b : Nat} {ws : List Write} (h : Tiles ring a b ws)
    (hn : handOut a b = none) : ws = [] := by
  have hle := h.le
  simp only [handOut, ite_eq_right_iff, reduceCtorEq, imp_false] at hn
  obtain rfl : a = b := by omega
  exact h.eq_nil

/-- The three outcomes of a poll: on the writer's lap, at the end of the lap
before it, and before that end. -/
theorem tryNext_eq {head : WriteHead} {cursor : Nat}
    (h : head.committed < cursor → cursor ≤ head.highWaterMark) :
    (cursor ≤ head.committed ∧ tryNext head cursor = some (cursor, handOut cursor head.committed)) ∨
    (head.committed < cursor ∧ cursor = head.highWaterMark ∧
      tryNext head cursor = some (0, handOut 0 head.committed)) ∨
    (head.committed < cursor ∧ cursor < head.highWaterMark ∧
      tryNext head cursor = some (cursor, handOut cursor head.highWaterMark)) := by
  by_cases hc : cursor ≤ head.committed
  · refine .inl ⟨hc, ?_⟩
    have e : (if cursor = head.highWaterMark ∧ head.committed < cursor then 0 else cursor) = cursor :=
      if_neg (by omega)
    simp only [tryNext, e, if_neg (show ¬ head.committed < cursor by omega), handOut_eq hc]
  have hh := h (by omega)
  by_cases he : cursor = head.highWaterMark
  · refine .inr (.inl ⟨by omega, he, ?_⟩)
    have e : (if cursor = head.highWaterMark ∧ head.committed < cursor then 0 else cursor) = 0 :=
      if_pos ⟨he, by omega⟩
    simp only [tryNext, e, Nat.not_lt_zero, ite_false, handOut_eq (Nat.zero_le head.committed)]
  · refine .inr (.inr ⟨by omega, by omega, ?_⟩)
    have e : (if cursor = head.highWaterMark ∧ head.committed < cursor then 0 else cursor) = cursor :=
      if_neg (by omega)
    simp only [tryNext, e, if_pos (show head.committed < cursor by omega),
      if_neg (show ¬ head.highWaterMark < cursor by omega), handOut_eq hh]

/-- A reader handed `[a, b)`, which `held` tiles. -/
theorem ReaderInv.handOut {s : State} {r : Reader} {old held ws : List Write} {a b : Nat}
    (hl : s.log = old ++ (held ++ ws)) (hb : r.birth ≤ old.length)
    (hh : r.handed = bytesOf (old.drop r.birth)) (hlap : a ≤ s.head.committed → b ≤ s.head.committed)
    (ht : Tiles s.ringbuf a b held) (hu : Unread s b ws) :
    ReaderInv s { r with
      cursor := a
      grant := handOut a b
      handed := r.handed ++ (handOut a b).elim [] fun g => slice s.ringbuf g.start g.stop } old held ws := by
  have hle := ht.le
  by_cases hab : a < b
  · have e : Disruptor.handOut a b = some ⟨a, b⟩ := if_pos hab
    refine ⟨by rw [hl, List.append_assoc], hb, ?_, fun g hg => ?_, ?_, ?_, ?_⟩
    · simp only [e, Option.elim_some, ht.slice_eq, hh]
    · rw [e] at hg; cases hg; rfl
    all_goals simp only [stop, e, Option.map_some, Option.getD_some]
    exacts [hlap, ht, hu]
  · obtain rfl : a = b := by omega
    have e : Disruptor.handOut a a = none := if_neg hab
    refine ⟨by rw [hl, List.append_assoc], hb, ?_, fun g hg => ?_, ?_, ?_, ?_⟩
    · simp only [e, Option.elim_none, hh, ht.eq_nil, bytesOf_nil]
    · rw [e] at hg; cases hg
    all_goals simp only [stop, e, Option.map_none, Option.getD_none]
    exacts [hlap, ht, hu]

/-- A reader that is polled holds what it is handed, and has less to read. -/
theorem poll_inv {s : State} {r : Reader} {old held ws : List Write} (h : ReaderInv s r old held ws)
    (hg : r.grant = none) :
    ∃ r' held' ws', r.poll s = some r' ∧ ws = held' ++ ws' ∧ ReaderInv s r' old held' ws' ∧
      (r'.cursor = r.cursor ∨ (s.head.committed < r.cursor ∧ r'.cursor = 0)) ∧
      (r'.grant = none → ws = []) ∧
      (ws' = [] ∨ (r.cursor < s.head.highWaterMark ∧ stop r' = s.head.highWaterMark)) := by
  have hstop : stop r = r.cursor := by simp [stop, hg]
  have ht := h.tiles
  rw [hstop] at ht
  obtain rfl := ht.eq_nil
  have hu := h.unread
  have hl : s.log = old ++ ws := by simpa using h.log
  have hh : r.handed = bytesOf (old.drop r.birth) := by simpa using h.handed
  rw [hstop] at hu
  simp only [Reader.poll]
  rcases tryNext_eq h.cursor_le with ⟨hc, e⟩ | ⟨hc, hw, e⟩ | ⟨hc, hw, e⟩ <;> rw [e, Option.map_some] <;>
    rcases hu with ⟨hc', ht⟩ | ⟨hc', hw', us, vs, rfl, hu, hv⟩ <;> first | omega | skip
  · exact ⟨_, ws, [], rfl, by simp, ReaderInv.handOut (by simpa using hl) h.birth hh (fun _ => Nat.le_refl _)
      ht (.inl ⟨Nat.le_refl _, rfl⟩), .inl rfl, ht.eq_nil_of_handOut, .inl rfl⟩
  · rw [← hw] at hu
    obtain rfl := hu.eq_nil
    exact ⟨_, vs, [], rfl, by simp, ReaderInv.handOut (by simpa using hl) h.birth hh (fun _ => Nat.le_refl _)
      hv (.inl ⟨Nat.le_refl _, rfl⟩), .inr ⟨hc, rfl⟩, hv.eq_nil_of_handOut, .inl rfl⟩
  · refine ⟨_, us, vs, rfl, rfl, ReaderInv.handOut hl h.birth hh (by omega) hu
      (.inr ⟨by omega, Nat.le_refl _, [], vs, rfl, rfl, hv⟩), .inl rfl, fun hn => ?_, .inr ⟨hw, ?_⟩⟩
    · rw [Disruptor.handOut, if_pos hw] at hn
      cases hn
    · simp [stop, Disruptor.handOut, hw]

theorem release_inv {s : State} {r : Reader} {old held ws : List Write} {g : Range}
    (h : ReaderInv s r old held ws) (hg : r.grant = some g) :
    ReaderInv s (r.release g) (old ++ held) [] ws := by
  have hstop : stop r = g.stop := by simp [stop, hg]
  have hb := h.birth
  have hu := h.unread
  rw [hstop] at hu
  refine ⟨by simpa using h.log, ?_, ?_, nofun, id, rfl, hu⟩
  · show r.birth ≤ (old ++ held).length
    rw [List.length_append]; omega
  · show r.handed = bytesOf ((old ++ held).drop r.birth) ++ bytesOf []
    rw [h.handed, bytesOf_nil, List.append_nil, List.drop_append_of_le_length hb, bytesOf_append]

/-- A cursor that only moves on, or from the end of the ring's last lap to its
start, stays clear of the write grant. -/
theorem Clear.release {s : State} {r : Reader} {old held ws : List Write} {g g' : Range}
    (h : ReaderInv s r old held ws) (hg : r.grant = some g) (hcl : Clear s g' r.cursor) :
    Clear s g' g.stop := by
  have hstop : stop r = g.stop := by simp [stop, hg]
  have hle := h.tiles.le
  have hlap := h.lap
  rw [hstop] at hle hlap
  simp only [Clear] at hcl ⊢
  rcases hcl with ⟨hc, e⟩ | ⟨hc, e, hlt⟩ | ⟨hc, e, hlt⟩
  · exact .inl ⟨hlap hc, e⟩
  · exact .inr (.inl ⟨hlap hc, e, by omega⟩)
  · exact .inr (.inr ⟨by omega, e, by omega⟩)

/-- Replacing a reader by one that satisfies the invariant. -/
theorem Inv.set {s : State} {i : Nat} {r : Reader} (hs : Inv s)
    (hr : ∃ old held ws, ReaderInv s r old held ws)
    (hcl : ∀ g, s.grant = some g → Clear s g r.cursor) : Inv { s with readers := s.readers.set i r } := by
  refine hs.of_readers fun r' hr' => ?_
  rcases List.mem_or_eq_of_mem_set hr' with hm | rfl
  · exact ⟨hs.readers r' hm, fun g hg => (hs.grant g hg).clear r' hm⟩
  · exact ⟨hr, hcl⟩

/-- The safe steps keep the invariant. -/
theorem step_inv {s t : State} {a : Act} (hs : Inv s) (hok : Safe s a) (h : step s a = some t) : Inv t := by
  cases a with
  | grant len =>
    simp only [step, Option.ite_none_right_eq_some, Option.some.injEq] at h
    obtain ⟨⟨-, hlen⟩, rfl⟩ := h
    exact grantStep_inv hs hlen hok
  | fill offset bytes =>
    simp only [step, Option.bind_eq_some_iff] at h
    obtain ⟨g, hg, h⟩ := h
    exact fillStep_inv hs hg h
  | commit =>
    simp only [step, Option.map_eq_some_iff] at h
    obtain ⟨g, hg, rfl⟩ := h
    exact commitStep_inv hs hg
  | reader =>
    simp only [step, Option.some.injEq] at h
    subst h
    exact readerStep_inv hs hok
  | tryNext i =>
    simp only [step, Option.bind_eq_bind, Option.bind_eq_some_iff, Option.pure_def, Option.some.injEq] at h
    obtain ⟨r, hr, _, hg, r', hp, rfl⟩ := h
    have hm := List.mem_of_getElem? hr
    obtain ⟨old, held, ws, hi⟩ := hs.readers r hm
    obtain ⟨r'', held', ws', hp', -, hi', hcur, -, -⟩ := poll_inv hi ((Option.guard_eq_some' _).mp hg)
    rw [hp] at hp'
    cases hp'
    refine hs.set ⟨_, _, _, hi'⟩ fun g hg => ?_
    have hcl := (hs.grant g hg).clear r hm
    rcases hcur with e | ⟨hlt, e⟩
    · rw [e]; exact hcl
    · simp only [Clear, e] at hcl ⊢
      omega
  | release i =>
    simp only [step, Option.bind_eq_bind, Option.bind_eq_some_iff, Option.pure_def, Option.some.injEq] at h
    obtain ⟨r, hr, g, hg, rfl⟩ := h
    have hm := List.mem_of_getElem? hr
    obtain ⟨old, held, ws, hi⟩ := hs.readers r hm
    exact hs.set ⟨_, _, _, release_inv hi hg⟩ fun g' hg' => ((hs.grant g' hg').clear r hm).release hi hg
  | dropReader i =>
    simp only [step, Option.bind_eq_bind, Option.bind_eq_some_iff, Option.pure_def, Option.some.injEq] at h
    obtain ⟨r, hr, -, -, rfl⟩ := h
    refine hs.of_readers fun r' hr' => ?_
    have hm := List.mem_of_mem_eraseIdx hr'
    exact ⟨hs.readers r' hm, fun g hg => (hs.grant g hg).clear r' hm⟩

theorem new_inv (capacity : Nat) : Inv (new capacity) := ⟨Nat.zero_le _, Nat.zero_le _, nofun, nofun⟩

end Metor.Proof.Disruptor
