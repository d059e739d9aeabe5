import Metor.Lib.Run
import Metor.Spec.Stellarator

/-!
# When the slices of a buffer stay within it

`start_eq`, `stop_eq`, `trySlice_eq` and `trySubSlice_eq` say what each call
comes to. `right_iff` is the condition for one call of a valid buffer: its
tests let a range through that starts within the buffer, wherever it ends, and
those of `try_set_range` are the wrong way round. While every call of a run
meets the condition, every slice is valid (`valid_of_run`, by `Run.invariant`).
-/

namespace Metor.Proof.IoBuf

open Metor.Lib Metor.Impl.IoBuf

/-! ## What the calls come to -/

theorem start_eq (b : RangeBound) : b.start = if b.first < 2 ^ 64 then .ok b.first else .error .overflow := by
  cases b with
  | included n => rw [if_pos (by exact n.toNat_lt)]; rfl
  | excluded n => rfl
  | unbounded => rfl

theorem stop_eq (b : RangeBound) {len : Nat} (h : len < 2 ^ 64) :
    b.stop len = if b.last len < 2 ^ 64 then .ok (b.last len) else .error .outOfRange := by
  cases b with
  | included n => rfl
  | excluded n => rw [if_pos (by exact n.toNat_lt)]; rfl
  | unbounded => rw [if_pos (by exact h)]; rfl

/-- A slice within a valid buffer is within an allocation. -/
theorem initLen_lt {buf : Buf} (h : buf.Valid) : buf.initLen < 2 ^ 63 := by
  induction buf with
  | vec bytes hlt => exact hlt
  | slice inner range ih =>
    have := ih h.1
    have := h.2.2
    show range.stop - range.start < 2 ^ 63
    omega

theorem deref_valid {buf : Buf} (h : buf.Valid) : ∃ bytes, buf.deref = some bytes ∧ bytes.length = buf.initLen := by
  induction buf with
  | vec bytes hlt => exact ⟨bytes, rfl, rfl⟩
  | slice inner range ih =>
    obtain ⟨bytes, hd, hl⟩ := ih h.1
    have hr : range.start ≤ range.stop ∧ range.stop ≤ bytes.length := hl ▸ h.2
    refine ⟨slice bytes range.start range.stop, ?_, length_slice hr.2⟩
    rw [Buf.deref, hd, Option.bind_some, if_pos hr]

/-- A slice of a valid buffer is valid just when its range is within the buffer. -/
theorem valid_slice_iff {buf : Buf} (h : buf.Valid) (range : Range) :
    (Buf.slice buf range).Valid ↔ range.Within buf.initLen := ⟨fun hv => hv.2, fun hr => ⟨h, hr⟩⟩

/-- What it derefs to then. -/
theorem deref_slice {buf : Buf} (h : buf.Valid) {range : Range} (hr : range.Within buf.initLen) :
    (Buf.slice buf range).deref = buf.deref.map (slice · range.start range.stop) := by
  obtain ⟨bytes, hd, hl⟩ := deref_valid h
  have hr : range.start ≤ range.stop ∧ range.stop ≤ bytes.length := hl ▸ hr
  rw [Buf.deref, hd, Option.bind_some, if_pos hr, Option.map_some]

/-- The last test of `try_slice` never fails. -/
theorem trySlice_eq {buf : Buf} (h : buf.Valid) (lo hi : RangeBound) :
    buf.trySlice lo hi =
      if 2 ^ 64 ≤ lo.first then .error .overflow
      else if lo.first > buf.initLen then .ok none
      else if 2 ^ 64 ≤ hi.last buf.initLen then .error .outOfRange
      else .ok (some (.slice buf ⟨lo.first, hi.last buf.initLen⟩)) := by
  have hlt := initLen_lt h
  rw [Buf.trySlice, start_eq, stop_eq hi (by omega)]
  by_cases h₁ : 2 ^ 64 ≤ lo.first
  · rw [if_pos h₁, if_neg (by omega)]
    rfl
  rw [if_neg h₁, if_pos (by omega)]
  show (if lo.first > buf.initLen then _ else _) = _
  by_cases h₂ : lo.first > buf.initLen
  · rw [if_pos h₂, if_pos h₂]
    rfl
  rw [if_neg h₂, if_neg h₂]
  by_cases h₃ : 2 ^ 64 ≤ hi.last buf.initLen
  · rw [if_pos h₃, if_neg (by omega)]
    rfl
  rw [if_neg h₃, if_pos (by omega)]
  show (if ¬ (hi.last buf.initLen ≤ buf.initLen ∨ lo.first ≤ buf.initLen) then _ else _) = _
  rw [if_neg (not_not.mpr (.inr (by omega)))]
  rfl

theorem checkedAdd_eq {a b : Nat} (h : a + b < 2 ^ 64) : ∃ n, checkedAdd a b = some n ∧ n.toNat = a + b :=
  ⟨_, if_pos h, UInt64.toNat_ofNat_of_lt' h⟩

/-- Its additions do not overflow. -/
theorem trySubSlice_eq {inner : Buf} {range : Range} (h : (Buf.slice inner range).Valid) (lo hi : RangeBound) :
    Slice.trySubSlice inner range lo hi =
      if 2 ^ 64 ≤ lo.first then .error .overflow
      else if lo.first > range.stop then .ok none
      else if 2 ^ 64 ≤ hi.last range.len then .error .outOfRange
      else if hi.last range.len > range.stop ∨ lo.first + range.start > inner.initLen then .ok none
      else .ok (some (.slice inner ⟨lo.first + range.start, hi.last range.len + range.start⟩)) := by
  have hlt := initLen_lt h.1
  have hle : range.start ≤ range.stop := h.2.1
  have hstop : range.stop ≤ inner.initLen := h.2.2
  have hlen : range.len ≤ range.stop := Nat.sub_le _ _
  rw [Slice.trySubSlice, start_eq, stop_eq hi (by omega)]
  by_cases h₁ : 2 ^ 64 ≤ lo.first
  · rw [if_pos h₁, if_neg (by omega)]
    rfl
  rw [if_neg h₁, if_pos (by omega)]
  show (if lo.first > range.stop then _ else _) = _
  by_cases h₂ : lo.first > range.stop
  · rw [if_pos h₂, if_pos h₂]
    rfl
  rw [if_neg h₂, if_neg h₂]
  by_cases h₃ : 2 ^ 64 ≤ hi.last range.len
  · rw [if_pos h₃, if_neg (by omega)]
    rfl
  rw [if_neg h₃, if_pos (by omega)]
  show (if hi.last range.len > range.stop then _ else _) = _
  by_cases h₄ : hi.last range.len > range.stop
  · rw [if_pos h₄, if_pos (.inl h₄)]
    rfl
  obtain ⟨n, hn, hna⟩ := @checkedAdd_eq lo.first range.start (by omega)
  obtain ⟨m, hm, hma⟩ := @checkedAdd_eq (hi.last range.len) range.start (by omega)
  rw [if_neg h₄, hn, hm]
  show inner.trySlice (.included n) (.excluded m) = _
  have hfirst : (RangeBound.included n).first = lo.first + range.start := hna
  have hlast : (RangeBound.excluded m).last inner.initLen = hi.last range.len + range.start := hma
  rw [trySlice_eq h.1, hfirst, hlast, if_neg (by omega)]
  by_cases h₅ : lo.first + range.start > inner.initLen
  · rw [if_pos h₅, if_pos (.inr h₅)]
  · rw [if_neg h₅, if_neg (by omega), if_neg (by omega)]

/-! ## One call -/

theorem refused_cases {buf : Buf} {a : Act} {r : Reply} (h : a.Refused buf r) :
    (∃ p, r = .panicked p) ∨ ∃ left, r = .refused left ∧ ∀ b ∈ left, b = buf := by
  cases a with
  | setRange start stop => exact .inl ⟨_, h⟩
  | _ => exact .inr h

theorem not_refused_granted {buf : Buf} (a : Act) (b : Buf) : ¬ a.Refused buf (.granted b) := by
  intro h
  obtain ⟨_, hr⟩ | ⟨_, hr, -⟩ := refused_cases h <;> cases hr

/-- A grant is right just when the request is within the target. -/
theorem right_granted_iff {buf target : Buf} {a : Act} {range : Range} {b : Buf} (ht : a.target buf = target)
    (ha : a.asked target.initLen = range) (hb : range.Within target.initLen → b.Valid)
    (hd : range.Within target.initLen → b.deref = target.deref.map (slice · range.start range.stop)) :
    Right buf a (.granted b) ↔ range.Within target.initLen := by
  subst ht ha
  rw [Right]
  split
  · rename_i hw
    exact ⟨fun _ => hw, fun _ => ⟨b, rfl, hb hw, hd hw⟩⟩
  · rename_i hw
    exact ⟨fun h => absurd h (not_refused_granted a b), fun h => absurd h hw⟩

/-- A refusal is right when the request is not. -/
theorem right_refused {buf : Buf} {a : Act} (hw : ¬ (a.asked (a.target buf).initLen).Within (a.target buf).initLen)
    (hs : ∀ start stop, a ≠ .setRange start stop) : Right buf a (.refused none) := by
  have hr : a.Refused buf (.refused none) := by
    cases a with
    | setRange start stop => exact absurd rfl (hs start stop)
    | _ => exact ⟨none, rfl, fun _ hb => nomatch hb⟩
  rw [Right]
  split
  · exact absurd ‹_› hw
  · exact hr

/-- A panic is right only of `set_range`. -/
theorem not_right_panicked {buf : Buf} {a : Act} {p : Panic} (hr : ¬ a.Refused buf (.panicked p)) :
    ¬ Right buf a (.panicked p) := by
  rw [Right]
  split
  · rintro ⟨b, h, -⟩
    cases h
  · exact hr

theorem right_trySlice_iff {buf : Buf} (h : buf.Valid) (lo hi : RangeBound) :
    Right buf (.trySlice lo hi) (.of (buf.trySlice lo hi)) ↔ Meets buf (.trySlice lo hi) := by
  have hlt := initLen_lt h
  show _ ↔ lo.first < 2 ^ 64 ∧ (lo.first > buf.initLen ∨ Range.Within ⟨lo.first, hi.last buf.initLen⟩ buf.initLen)
  rw [trySlice_eq h]
  by_cases h₁ : 2 ^ 64 ≤ lo.first
  · rw [if_pos h₁]
    refine iff_of_false (not_right_panicked ?_) fun hm => absurd hm.1 (by omega)
    rintro ⟨_, hr, -⟩
    cases hr
  rw [if_neg h₁]
  by_cases h₂ : lo.first > buf.initLen
  · rw [if_pos h₂]
    have hw : ¬ Range.Within ⟨lo.first, hi.last buf.initLen⟩ buf.initLen := fun hw => by
      have : lo.first ≤ hi.last buf.initLen ∧ hi.last buf.initLen ≤ buf.initLen := hw
      omega
    exact iff_of_true (right_refused hw fun _ _ hs => nomatch hs) ⟨by omega, .inl h₂⟩
  rw [if_neg h₂]
  have hm : lo.first < 2 ^ 64 ∧ (lo.first > buf.initLen ∨ Range.Within ⟨lo.first, hi.last buf.initLen⟩ buf.initLen) ↔
      Range.Within ⟨lo.first, hi.last buf.initLen⟩ buf.initLen :=
    ⟨fun hm => hm.2.resolve_left h₂, fun hw => ⟨by omega, .inr hw⟩⟩
  rw [hm]
  by_cases h₃ : 2 ^ 64 ≤ hi.last buf.initLen
  · rw [if_pos h₃]
    refine iff_of_false (not_right_panicked ?_) fun hw => ?_
    · rintro ⟨_, hr, -⟩
      cases hr
    · have : hi.last buf.initLen ≤ buf.initLen := hw.2
      omega
  rw [if_neg h₃]
  exact right_granted_iff rfl rfl (valid_slice_iff h _).mpr (deref_slice h)

/-- The bytes of a slice of a slice. -/
theorem deref_subSlice {inner : Buf} {range sub : Range} (h : (Buf.slice inner range).Valid) (hs : sub.Within range.len) :
    (Buf.slice inner ⟨sub.start + range.start, sub.stop + range.start⟩).deref =
      (Buf.slice inner range).deref.map (slice · sub.start sub.stop) := by
  have hle : range.start ≤ range.stop ∧ range.stop ≤ inner.initLen := h.2
  have hsub : sub.start ≤ sub.stop ∧ sub.stop ≤ range.stop - range.start := hs
  rw [deref_slice h.1 ⟨show sub.start + range.start ≤ sub.stop + range.start by omega,
    show sub.stop + range.start ≤ inner.initLen by omega⟩, deref_slice h.1 hle, Option.map_map]
  refine Option.map_congr fun bytes _ => ?_
  show slice bytes (sub.start + range.start) (sub.stop + range.start) = slice (slice bytes range.start range.stop) _ _
  rw [slice_slice, Nat.add_comm range.start, Nat.add_comm range.start, Nat.min_eq_left (by omega)]

theorem right_trySubSlice_iff {inner : Buf} {range : Range} (h : (Buf.slice inner range).Valid) (lo hi : RangeBound) :
    Right (.slice inner range) (.trySubSlice lo hi) (.of (Slice.trySubSlice inner range lo hi)) ↔
      Meets (.slice inner range) (.trySubSlice lo hi) := by
  have hlt := initLen_lt h.1
  have hle : range.start ≤ range.stop ∧ range.stop ≤ inner.initLen := h.2
  have hlen : range.len = range.stop - range.start := rfl
  show _ ↔ Range.Within ⟨lo.first, hi.last range.len⟩ range.len ∨
    lo.first < 2 ^ 64 ∧ (lo.first > range.stop ∨
      hi.last range.len < 2 ^ 64 ∧ (hi.last range.len > range.stop ∨ lo.first + range.start > inner.initLen))
  have hw : Range.Within ⟨lo.first, hi.last range.len⟩ range.len ↔
    lo.first ≤ hi.last range.len ∧ hi.last range.len ≤ range.stop - range.start := Iff.rfl
  have hrefused : ∀ hn : ¬ (lo.first ≤ hi.last range.len ∧ hi.last range.len ≤ range.stop - range.start),
      Right (.slice inner range) (.trySubSlice lo hi) (.of (.ok none)) := fun hn =>
    right_refused hn fun _ _ hs => nomatch hs
  have hpanicked : ∀ p, ¬ Right (.slice inner range) (.trySubSlice lo hi) (.of (.error p)) := fun p =>
    not_right_panicked fun ⟨_, hr, _⟩ => nomatch hr
  rw [trySubSlice_eq h, hw]
  by_cases h₁ : 2 ^ 64 ≤ lo.first
  · rw [if_pos h₁]
    exact iff_of_false (hpanicked _) (by omega)
  rw [if_neg h₁]
  by_cases h₂ : lo.first > range.stop
  · rw [if_pos h₂]
    exact iff_of_true (hrefused (by omega)) (by omega)
  rw [if_neg h₂]
  by_cases h₃ : 2 ^ 64 ≤ hi.last range.len
  · rw [if_pos h₃]
    exact iff_of_false (hpanicked _) (by omega)
  rw [if_neg h₃]
  by_cases h₄ : hi.last range.len > range.stop ∨ lo.first + range.start > inner.initLen
  · rw [if_pos h₄]
    exact iff_of_true (hrefused (by omega)) (by omega)
  rw [if_neg h₄]
  have hvalid : Range.Within ⟨lo.first, hi.last range.len⟩ range.len →
      (Buf.slice inner ⟨lo.first + range.start, hi.last range.len + range.start⟩).Valid := by
    intro hin
    have := hw.mp hin
    exact (valid_slice_iff h.1 _).mpr ⟨show lo.first + range.start ≤ hi.last range.len + range.start by omega,
      show hi.last range.len + range.start ≤ inner.initLen by omega⟩
  refine Iff.trans (@right_granted_iff _ _ _ ⟨lo.first, hi.last range.len⟩ _ rfl rfl hvalid (deref_subSlice h)) ?_
  refine hw.trans ?_
  omega

/-- A range that `try_set_range` takes is not within the buffer, since it starts and ends beyond it. -/
theorem not_right_moved {inner : Buf} {range moved : Range} {a : Act} (ht : a.target (.slice inner range) = inner)
    (ha : a.asked inner.initLen = moved) (hm : ¬ (moved.start ≤ inner.initLen ∨ moved.stop ≤ inner.initLen)) :
    ¬ Right (.slice inner range) a (.granted (.slice inner moved)) := by
  subst ha
  rw [Right, ht]
  split
  · rename_i hw
    exact absurd (Or.inr hw.2) hm
  · exact not_refused_granted a _

theorem right_trySetRange_iff {inner : Buf} {range : Range} (start stop : UInt64) {r : Reply}
    (hc : call (.slice inner range) (.trySetRange start stop) = some r) :
    Right (.slice inner range) (.trySetRange start stop) r ↔ Meets (.slice inner range) (.trySetRange start stop) := by
  show _ ↔ (start.toNat ≤ inner.initLen ∨ stop.toNat ≤ inner.initLen) ∧
    ¬ Range.Within ⟨start.toNat, stop.toNat⟩ inner.initLen
  simp only [call, Slice.trySetRange] at hc
  by_cases hl : start.toNat ≤ inner.initLen ∨ stop.toNat ≤ inner.initLen
  · rw [if_pos hl] at hc
    obtain rfl := Option.some.inj hc
    rw [and_iff_right hl, Right]
    show (if Range.Within ⟨start.toNat, stop.toNat⟩ inner.initLen then _ else _) ↔ _
    split
    · rename_i hw
      refine iff_of_false ?_ (not_not.mpr hw)
      rintro ⟨_, hr, -⟩
      cases hr
    · rename_i hw
      refine iff_of_true ⟨_, rfl, fun b hb => ?_⟩ hw
      exact (Option.some.inj hb).symm
  · rw [if_neg hl] at hc
    obtain rfl := Option.some.inj hc
    exact iff_of_false (not_right_moved rfl rfl hl) fun hm => hl hm.1

theorem right_setRange_iff {inner : Buf} {range : Range} (start stop : UInt64) {r : Reply}
    (hc : call (.slice inner range) (.setRange start stop) = some r) :
    Right (.slice inner range) (.setRange start stop) r ↔ Meets (.slice inner range) (.setRange start stop) := by
  show _ ↔ (start.toNat ≤ inner.initLen ∨ stop.toNat ≤ inner.initLen) ∧
    ¬ Range.Within ⟨start.toNat, stop.toNat⟩ inner.initLen
  simp only [call, Slice.setRange, Slice.trySetRange] at hc
  by_cases hl : start.toNat ≤ inner.initLen ∨ stop.toNat ≤ inner.initLen
  · rw [if_pos hl] at hc
    obtain rfl := Option.some.inj hc
    rw [and_iff_right hl, Right]
    show (if Range.Within ⟨start.toNat, stop.toNat⟩ inner.initLen then _ else _) ↔ _
    split
    · rename_i hw
      refine iff_of_false ?_ (not_not.mpr hw)
      rintro ⟨_, hr, -⟩
      cases hr
    · rename_i hw
      exact iff_of_true rfl hw
  · rw [if_neg hl] at hc
    obtain rfl := Option.some.inj hc
    exact iff_of_false (not_right_moved rfl rfl hl) fun hm => hl hm.1

theorem right_reset {inner : Buf} {range : Range} (h : inner.Valid) :
    Right (.slice inner range) .reset (.granted (.slice inner (Slice.reset inner))) :=
  have hw : Range.Within ⟨0, inner.initLen⟩ inner.initLen := ⟨Nat.zero_le _, Nat.le_refl _⟩
  (right_granted_iff rfl rfl (valid_slice_iff h _).mpr (deref_slice h)).mpr hw

/-- One call of a valid buffer. -/
theorem right_iff {buf : Buf} (h : buf.Valid) {a : Act} {r : Reply} (hc : call buf a = some r) :
    Right buf a r ↔ Meets buf a := by
  cases buf with
  | vec bytes hlt =>
    cases a with
    | trySlice lo hi =>
      obtain rfl := Option.some.inj hc
      exact right_trySlice_iff h lo hi
    | _ => cases hc
  | slice inner range =>
    cases a with
    | trySlice lo hi =>
      obtain rfl := Option.some.inj hc
      exact right_trySlice_iff h lo hi
    | trySubSlice lo hi =>
      obtain rfl := Option.some.inj hc
      exact right_trySubSlice_iff h lo hi
    | trySetRange start stop => exact right_trySetRange_iff start stop hc
    | setRange start stop => exact right_setRange_iff start stop hc
    | reset =>
      obtain rfl := Option.some.inj hc
      exact iff_of_true (right_reset h.1) trivial

/-! ## Every run -/

/-- The buffer after a right reply is valid. -/
theorem valid_step {buf next : Buf} {a : Act} (h : buf.Valid) (hm : Meets buf a) (hs : step buf a = some next) :
    next.Valid := by
  obtain ⟨r, hc, rfl⟩ := Option.map_eq_some_iff.mp hs
  have hr := (right_iff h hc).mpr hm
  rw [Right] at hr
  split at hr
  · obtain ⟨_, rfl, hv, -⟩ := hr
    exact hv
  · obtain ⟨_, rfl⟩ | ⟨left, rfl, hl⟩ := refused_cases hr
    · exact h
    · show (left.getD buf).Valid
      cases left with
      | none => exact h
      | some b =>
        obtain rfl := hl b rfl
        exact h

theorem slices_of_run {bytes : Bytes} {hlt : bytes.length < 2 ^ 63} {buf : Buf}
    (h : Run step Meets (.vec bytes hlt) buf) :
    buf.Valid ∧ ∀ a r, call buf a = some r → (Right buf a r ↔ Meets buf a) :=
  have hv : buf.Valid := h.invariant valid_step trivial
  ⟨hv, fun _ _ hc => right_iff hv hc⟩

/-- Four bytes. -/
def fourBytes : Buf := .vec [1, 2, 3, 4] (by decide)

/-- `1..` of them, then its `1..=2`. -/
theorem run_sub : Run step Meets fourBytes (.slice fourBytes ⟨2, 4⟩) := by
  have h₁ : Run step Meets fourBytes (.slice fourBytes ⟨1, 4⟩) :=
    Run.refl.snoc (a := .trySlice (.included 1) .unbounded) ⟨by decide, .inr ⟨by decide, by decide⟩⟩ (by decide)
  exact h₁.snoc (a := .trySubSlice (.included 1) (.included 2)) (.inl ⟨by decide, by decide⟩) (by decide)

/-- Then `3..` is refused. -/
theorem slices_of_run_sub : (Buf.slice fourBytes ⟨2, 4⟩).Valid ∧
    (Right (.slice fourBytes ⟨2, 4⟩) (.trySlice (.included 3) .unbounded) (.refused none) ↔
      Meets (.slice fourBytes ⟨2, 4⟩) (.trySlice (.included 3) .unbounded)) :=
  ⟨(slices_of_run run_sub).1, (slices_of_run run_sub).2 _ _ (by decide)⟩

/-- A slice of four bytes that goes on after them. -/
theorem beyond_end : ∃ b, step fourBytes (.trySlice (.included 0) (.excluded 8)) = some b ∧ ¬ b.Valid :=
  ⟨.slice fourBytes ⟨0, 8⟩, by decide, fun h => absurd h.2.2 (by decide)⟩

end Metor.Proof.IoBuf
