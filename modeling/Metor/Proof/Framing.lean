import Metor.Spec.Frame

/-!
# Length-delimited reading

While a `recv` reads, the buffer holds what was held first, and `scratch` is
what is left of it: a read from `scratch` empties it or fills the buffer
(`Reading`, `read_spec`, `readUntil_spec`). So only a `recv` whose buffer is
shorter than `scratch` can leave bytes in `scratch`, and then what it read
beyond its frame goes behind them (`recv_spec`, `faithful_iff`).
-/

namespace Metor.Proof.Framing

open Metor.Lib Metor.Impl.Io Metor.Impl.Io.LengthDelReader

/-- `total` bytes were read into a buffer of `b` bytes, by a reader that held `S` in `scratch` and `H` in all. -/
structure Reading (S H : Bytes) (b total : Nat) (buf : Bytes) (r : LengthDelReader) : Prop where
  length : buf.length = b
  le_buf : total ≤ b
  le_held : total ≤ H.length
  read : buf.take total = H.take total
  held : r.held = H.drop total
  scratch : r.scratch = S.drop total
  filled : total < S.length → total = 0 ∨ total = b

section
variable {S H : Bytes} {b total : Nat} {buf : Bytes} {r : LengthDelReader}

theorem reading_start (r : LengthDelReader) (buf : Bytes) : Reading r.scratch r.held buf.length 0 buf r :=
  ⟨rfl, Nat.zero_le _, Nat.zero_le _, rfl, rfl, rfl, fun _ => .inl rfl⟩

/-- The next `n` bytes held are copied behind those read. -/
theorem Reading.overwrite (h : Reading S H b total buf r) {n : Nat} (hn : total + n ≤ b) (hH : total + n ≤ H.length)
    {r' : LengthDelReader} (hheld : r'.held = r.held.drop n) (hs : r'.scratch = S.drop (total + n))
    (hf : total + n < S.length → total + n = b) :
    Reading S H b (total + n) (Lib.overwrite buf total (r.held.take n)) r' := by
  have hl := h.length
  have hlen : (r.held.take n).length = n := by
    rw [h.held, List.length_take, List.length_drop]; omega
  have hfits : total + (r.held.take n).length ≤ buf.length := by omega
  refine ⟨by rw [length_overwrite hfits, hl], hn, hH, ?_, ?_, hs, fun hlt => .inr (hf hlt)⟩
  · have e := take_overwrite hfits
    rw [hlen] at e
    rw [e, h.read, h.held, ← List.take_add]
  · rw [hheld, h.held, List.drop_drop]

/-- One read, of a buffer that is not full from a reader that has more. -/
theorem read_spec (h : Reading S H b total buf r) (hb : total < b) (hH : total < H.length) :
    let (len, slice, r') := r.read ⟨buf, total, b⟩
    0 < len ∧ Reading S H b (total + len) slice.inner r' := by
  have hlen := congrArg List.length h.held
  simp only [LengthDelReader.held, List.length_append, List.length_drop] at hlen
  by_cases hs : r.scratch = []
  · have hheld : r.held = r.reader.unread := by rw [LengthDelReader.held, hs, List.nil_append]
    have hS : S.length ≤ total := List.drop_eq_nil_iff.mp (h.scratch ▸ hs)
    simp only [hs, List.length_nil] at hlen
    simp only [LengthDelReader.read, hs, ne_eq, not_true_eq_false, if_false, Transport.read, Slice.totalLen]
    refine ⟨by omega, ?_⟩
    rw [← hheld] at hlen ⊢
    refine h.overwrite (by omega) (by omega) rfl ?_ (by omega)
    exact (List.drop_of_length_le (by omega)).symm
  · have hpos : 0 < r.scratch.length := List.length_pos_iff.mpr hs
    have hsl := congrArg List.length h.scratch
    rw [List.length_drop] at hsl
    have ht : r.scratch.take (min r.scratch.length (b - total)) = r.held.take (min r.scratch.length (b - total)) := by
      rw [LengthDelReader.held, List.take_append_of_le_length (Nat.min_le_left _ _)]
    simp only [LengthDelReader.read, ne_eq, hs, not_false_eq_true, if_true, Slice.totalLen, ht]
    refine ⟨by omega, h.overwrite (by omega) (by omega) ?_ ?_ (by omega)⟩
    · rw [LengthDelReader.held, LengthDelReader.held, List.drop_append_of_le_length (Nat.min_le_left _ _)]
    · rw [h.scratch, List.drop_drop]

theorem readUntil_spec (overflow : Error) {target rounds : Nat} (h : Reading S H b total buf r) (hb : target ≤ b)
    (hH : target ≤ H.length) (hr : target ≤ total + rounds) :
    ∃ total' buf' r', readUntil overflow target rounds total buf r = .ok (total', buf', r') ∧ target ≤ total' ∧
      Reading S H b total' buf' r' := by
  induction rounds generalizing total buf r with
  | zero => exact ⟨total, buf, r, rfl, hr, h⟩
  | succ rounds ih =>
    rw [readUntil]
    by_cases hlt : total < target
    · have hread := read_spec h (by omega) (by omega)
      have hl := h.length
      have htry : trySlice buf total none = some ⟨buf, total, b⟩ := by
        rw [trySlice, if_neg (by omega), if_neg (by simp), Option.getD_none, hl]
      rw [if_pos hlt, htry]
      dsimp only
      generalize r.read ⟨buf, total, b⟩ = res at hread
      obtain ⟨len, slice, r'⟩ := res
      obtain ⟨hpos, h'⟩ := hread
      dsimp only
      rw [if_neg (by omega)]
      exact ih h' (by omega)
    · rw [if_neg hlt]
      exact ⟨total, buf, r, rfl, by omega, h⟩

end

/-! ## One `recv` -/

section
variable {L : Length} {payload buf rest : Bytes} {r : LengthDelReader}

theorem length_frame : (frame L payload).length = L.size + payload.length := by
  rw [frame, List.length_append, length_leBytes]

theorem size_pos (L : Length) : 0 < L.size := by cases L <;> decide

/-- The reader after a `recv` that read `total` bytes: those behind the frame are put back. -/
def putBack (L : Length) (payload : Bytes) (total : Nat) (buf : Bytes) (r : LengthDelReader) : LengthDelReader :=
  if total - (payload.length + L.size) > 0 then
    { r with scratch := r.scratch ++ slice buf (payload.length + L.size) total }
  else r

/-- A `recv` reads the whole frame, and maybe more. -/
theorem recv_eq (hf : Fits L payload buf) (hh : r.held = frame L payload ++ rest) :
    ∃ total buf' r', payload.length + L.size ≤ total ∧ Reading r.scratch r.held buf.length total buf' r' ∧
      recv L r buf = .ok (⟨buf', L.size, payload.length + L.size⟩, putBack L payload total buf' r') := by
  have hbuf := hf.le_buf
  have hlt := hf.buf_lt
  have hpos := size_pos L
  have hl : r.held.length = L.size + payload.length + rest.length := by
    rw [hh, List.length_append, length_frame]
  rw [length_frame] at hbuf
  have hsize : L.size ≤ 0 + L.size := by omega
  obtain ⟨total₁, buf₁, r₁, e₁, ht₁, h₁⟩ := readUntil_spec .panic (reading_start r buf) (by omega) (by omega) hsize
  have hlen : leNat (buf₁.take L.size) = payload.length := by
    have e : buf₁.take L.size = leBytes L.size payload.length := by
      have := congrArg (List.take L.size) h₁.read
      rw [List.take_take, List.take_take, Nat.min_eq_left ht₁, hh, frame, List.append_assoc] at this
      rw [this, List.take_left' (length_leBytes _ _)]
    rw [e, leNat_leBytes hf.payload_lt]
  have hrounds : payload.length + L.size ≤ total₁ + (payload.length + L.size - total₁) := by omega
  obtain ⟨total, buf₂, r₂, e₂, ht, h₂⟩ := readUntil_spec .bufferOverflow h₁ (by omega) (by omega) hrounds
  have hb₂ := h₂.length
  have htry : trySlice buf₂ L.size (some (payload.length + L.size)) = some ⟨buf₂, L.size, payload.length + L.size⟩ := by
    rw [trySlice, if_neg (by omega), if_neg (by omega)]; rfl
  refine ⟨total, buf₂, r₂, ht, h₂, ?_⟩
  rw [recv, recvGrowable, e₁]
  simp only [Except.bind, bind, hlen, wrapperGrow]
  rw [if_pos (by omega), e₂]
  simp only [htry]
  rfl

theorem take_frame (hh : r.held = frame L payload ++ rest) : r.held.take (payload.length + L.size) = frame L payload := by
  rw [hh, List.take_left' (by rw [length_frame, Nat.add_comm])]

/-- What comes after the frame: what was read of it, and what was not read. -/
theorem rest_eq (hh : r.held = frame L payload ++ rest) {total : Nat} (ht : payload.length + L.size ≤ total) :
    rest = slice r.held (payload.length + L.size) total ++ r.held.drop total := by
  have hl : r.held.length = L.size + payload.length + rest.length := by
    rw [hh, List.length_append, length_frame]
  have hle : payload.length + L.size ≤ (r.held.take total).length := by
    simp only [List.length_take]
    omega
  rw [slice, ← List.drop_append_of_le_length hle, List.take_append_drop, hh, List.drop_left' (by rw [length_frame, Nat.add_comm])]

/-- What was read behind the frame is put back behind what is left in `scratch`. -/
theorem held_putBack {total : Nat} {buf' : Bytes} {r' : LengthDelReader}
    (h : Reading r.scratch r.held buf.length total buf' r') :
    (putBack L payload total buf' r').held =
      r.scratch.drop total ++ (slice r.held (payload.length + L.size) total ++ r'.reader.unread) := by
  have e : slice buf' (payload.length + L.size) total = slice r.held (payload.length + L.size) total := by
    rw [slice, slice, h.read]
  by_cases hx : total - (payload.length + L.size) > 0
  · rw [putBack, if_pos hx, LengthDelReader.held, h.scratch, e, List.append_assoc]
  · rw [putBack, if_neg hx, LengthDelReader.held, h.scratch, slice_of_le _ (by omega), List.nil_append]

theorem held_putBack_iff (hh : r.held = frame L payload ++ rest) {total : Nat} {buf' : Bytes} {r' : LengthDelReader}
    (ht : payload.length + L.size ≤ total) (h : Reading r.scratch r.held buf.length total buf' r') :
    (putBack L payload total buf' r').held = rest ↔ InOrder L r payload buf := by
  have hheld := h.held
  have hpos := size_pos L
  rw [LengthDelReader.held, h.scratch] at hheld
  rw [held_putBack h, rest_eq hh ht, ← hheld, InOrder, length_frame, Nat.add_comm L.size]
  rcases Nat.lt_or_ge total r.scratch.length with hlt | hge
  · -- The buffer was filled from `scratch` alone.
    obtain rfl : total = buf.length := (h.filled hlt).resolve_left (by omega)
    have e : slice r.held (payload.length + L.size) buf.length =
        slice r.scratch (payload.length + L.size) buf.length := by
      rw [slice, slice, LengthDelReader.held, List.take_append_of_le_length hlt.le]
    rw [e, ← List.append_assoc, ← List.append_assoc, List.append_left_inj]
  · rw [List.drop_of_length_le hge, List.drop_of_length_le (hge.trans h.le_buf), List.nil_append, List.nil_append,
      List.nil_append, List.append_nil]
    exact ⟨fun _ => rfl, fun _ => rfl⟩

/-- A `recv` returns the payload of its frame. What it holds afterwards is what comes after the frame
just when the call kept the bytes in order. -/
theorem recv_spec (hf : Fits L payload buf) (hh : r.held = frame L payload ++ rest) :
    ∃ slice r', recv L r buf = .ok (slice, r') ∧ slice.deref = some payload ∧
      (r'.held = rest ↔ InOrder L r payload buf) := by
  obtain ⟨total, buf', r', ht, h, hrecv⟩ := recv_eq hf hh
  have hl := h.length
  have hb := h.le_buf
  have e : buf'.take (payload.length + L.size) = frame L payload := by
    have hread := congrArg (List.take (payload.length + L.size)) h.read
    rwa [List.take_take, List.take_take, Nat.min_eq_left ht, take_frame hh] at hread
  refine ⟨_, _, hrecv, ?_, held_putBack_iff hh ht h⟩
  rw [Slice.deref, if_pos (by dsimp only; omega), slice, e, frame, List.drop_left' (length_leBytes _ _)]

end

/-! ## Any number of them -/

/-- A reader hands out its frames in order just when each call keeps the bytes in order. -/
theorem faithful_of_held {L : Length} {calls : List (Bytes × Bytes)} (hf : ∀ c ∈ calls, Fits L c.1 c.2) {r : LengthDelReader}
    (hh : r.held = stream L calls) : Faithful L r calls ↔ AllInOrder L r calls := by
  induction calls generalizing r with
  | nil => exact Iff.rfl
  | cons c calls ih =>
    obtain ⟨payload, buf⟩ := c
    have ih := @ih fun c hc => hf c (List.mem_cons_of_mem _ hc)
    obtain ⟨slice, r', hrecv, hderef, horder⟩ := recv_spec (hf _ List.mem_cons_self) hh
    rw [Faithful, AllInOrder]
    constructor
    · rintro ⟨slice', r'', e, -, hheld, hrest⟩
      rw [hrecv] at e
      cases e
      refine ⟨horder.mp hheld, fun s r₁ e => ?_⟩
      rw [hrecv] at e
      cases e
      exact (ih hheld).mp hrest
    · rintro ⟨hord, hrest⟩
      have hheld := horder.mpr hord
      exact ⟨slice, r', hrecv, hderef, hheld, (ih hheld).mpr (hrest slice r' hrecv)⟩

/-- Frames sent through a transport that splits them in any way. -/
theorem faithful_iff (L : Length) (calls : List (Bytes × Bytes)) (hf : ∀ c ∈ calls, Fits L c.1 c.2) (offer : Nat → Nat) :
    Faithful L (.new ⟨stream L calls, offer, 0⟩) calls ↔ AllInOrder L (.new ⟨stream L calls, offer, 0⟩) calls :=
  faithful_of_held hf rfl

/-! ## Three frames -/

/-- Two bytes at a time, with a buffer for each frame that is longer than the frame. -/
theorem faithful_two : Faithful .u32 (.new ⟨[1, 0, 0, 0, 7, 2, 0, 0, 0, 8, 9], fun _ => 1, 0⟩)
    [([7], List.replicate 8 0), ([8, 9], List.replicate 7 0)] := by
  have hf : ∀ c ∈ [(([7] : Bytes), (List.replicate 8 0 : Bytes)), ([8, 9], List.replicate 7 0)], Fits .u32 c.1 c.2 := by
    simp only [List.forall_mem_cons, List.not_mem_nil, false_imp_iff, implies_true, and_true]
    exact ⟨⟨by decide, by decide, by decide⟩, ⟨by decide, by decide, by decide⟩⟩
  refine (faithful_iff .u32 _ hf fun _ => 1).mpr ⟨by decide, fun s r h => ⟨?_, fun _ _ _ => trivial⟩⟩
  have e : recv .u32 (.new ⟨[1, 0, 0, 0, 7, 2, 0, 0, 0, 8, 9], fun _ => 1, 0⟩) (List.replicate 8 0) =
    .ok (⟨[1, 0, 0, 0, 7, 2, 0, 0], 4, 5⟩, ⟨⟨[0, 0, 0, 8, 9], fun _ => 1, 3⟩, [2]⟩) := rfl
  cases e.symm.trans h
  decide

/-- Three frames arrive at once; the second call's buffer takes a part of the third frame and leaves the rest. -/
theorem short_buffer_not_faithful : ¬ ∀ (L : Length) (calls : List (Bytes × Bytes)),
    (∀ c ∈ calls, Fits L c.1 c.2) → ∀ offer, Faithful L (.new ⟨stream L calls, offer, 0⟩) calls := by
  intro h
  have hf : ∀ c ∈ [(([1] : Bytes), (List.replicate 15 0 : Bytes)), ([2], List.replicate 7 0), ([3], List.replicate 5 0)],
      Fits .u32 c.1 c.2 := by
    simp only [List.forall_mem_cons, List.not_mem_nil, false_imp_iff, implies_true, and_true]
    exact ⟨⟨by decide, by decide, by decide⟩, ⟨by decide, by decide, by decide⟩, ⟨by decide, by decide, by decide⟩⟩
  obtain ⟨-, hnext⟩ := (faithful_of_held hf rfl).mp (h .u32 _ hf fun _ => 14)
  obtain ⟨hord, -⟩ := hnext ⟨[1, 0, 0, 0, 1, 1, 0, 0, 0, 2, 1, 0, 0, 0, 3], 4, 5⟩
    ⟨⟨[], fun _ => 14, 1⟩, [1, 0, 0, 0, 2, 1, 0, 0, 0, 3]⟩ rfl
  exact absurd hord (by decide)

end Metor.Proof.Framing
