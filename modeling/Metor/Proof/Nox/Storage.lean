import Metor.Spec.Nox

/-!
# Storage and strides

A type without a `Dyn` has as many elements as its shape says
(`length_asBuf`), and what is written to the buffer is what it then holds
(`asBuf_withBuf`). `calculate_strides` gives the row-major strides, each
modulo 2^64 (`calculateStrides_eq`). But `DynArray::default` adds where it
should multiply, and the strides of three constants are those of another shape
unless the last two are equal (`sound_iff`).
-/

namespace Metor.Proof.Nox

open Metor.Lib Metor.Impl.Nox

variable {T : Type} {D : Dim} {shape : List Nat}

/-! ## Buffers -/

/-- A type without a `Dyn` has the shape it says. -/
theorem arrayShape_fixed (h : D.fixed = some shape) (b : D.Buf T) : D.arrayShape b = shape := by
  cases D <;> first | exact Option.some.inj h | cases h

/-- A type without a `Dyn` has the elements it says. -/
theorem length_fixed (h : D.fixed = some shape) (b : D.Buf T) : (D.asBuf b).length = shape.prod := by
  cases D with
  | dyn => cases h
  | _ =>
    obtain rfl := Option.some.inj h
    simp [Dim.asBuf, Nat.mul_assoc]

theorem arrayShape_withBuf (b : D.Buf T) (l : List T) : D.arrayShape (D.withBuf b l) = D.arrayShape b := by
  cases D <;> rfl

theorem strides_withBuf (b : D.Buf T) (l : List T) : D.strides (D.withBuf b l) = D.strides b := by
  cases D <;> rfl

theorem asBuf_withBuf {b : D.Buf T} {l : List T} (h : l.length = (D.asBuf b).length) : D.asBuf (D.withBuf b l) = l := by
  cases D with
  | dyn => rfl
  | scalar =>
    obtain ⟨x, rfl⟩ := List.length_eq_one_iff.mp h
    rfl
  | const1 d1 =>
    rw [Dim.asBuf, Vector.length_toList] at h
    refine List.ext_getElem (by simp [Dim.asBuf, h]) fun n hn hl => ?_
    simp [Dim.asBuf, Dim.withBuf, hl]
  | const2 d1 d2 =>
    rw [Dim.asBuf, Vector.length_toList] at h
    refine List.ext_getElem (by simp [Dim.asBuf, h]) fun n hn hl => ?_
    simp [Dim.asBuf, Dim.withBuf, Nat.div_add_mod', hl]
  | const3 d1 d2 d3 =>
    rw [Dim.asBuf, Vector.length_toList] at h
    refine List.ext_getElem (by simp [Dim.asBuf, h]) fun n hn hl => ?_
    simp [Dim.asBuf, Dim.withBuf, Nat.div_add_mod', hl]

/-- Some other elements in an array. -/
theorem laid_withBuf {a : D.Buf T} (ha : Laid D shape a) {l : List T} (hl : l.length = shape.prod) :
    Laid D shape (D.withBuf a l) ∧ D.asBuf (D.withBuf a l) = l := by
  have hbuf : D.asBuf (D.withBuf a l) = l := asBuf_withBuf (by rw [hl, ha.length])
  exact ⟨⟨(arrayShape_withBuf a l).trans ha.arrayShape, by rw [hbuf, hl], (strides_withBuf a l).trans ha.strides⟩, hbuf⟩

theorem arrayShape_zeroed [Inhabited T] (len : List Nat → Nat) (dims : List Nat) :
    D.arrayShape (zeroed len D dims : D.Buf T) = D.fixed.getD dims := by
  cases D <;> rfl

theorem length_zeroed [Inhabited T] {len : List Nat → Nat} {dims : List Nat} (h : ∀ s, D.fixed = some s → s = dims)
    (hlen : D = .dyn → len dims = dims.prod) : (D.asBuf (zeroed len D dims : D.Buf T)).length = dims.prod := by
  cases hD : D.fixed with
  | some s => rw [length_fixed hD, h s hD]
  | none =>
    cases D with
    | dyn => exact List.length_replicate.trans (hlen rfl)
    | _ => cases hD

/-! ## Strides -/

theorem calculateStrides_eq (shape : List Nat) : calculateStrides shape = (rowMajor shape).map (· % 2 ^ 64) := by
  have hscan : ∀ shape : List Nat, shape.reverse.foldl (fun (s : List Nat × Nat) x => (s.1 ++ [s.2], s.2 * x % 2 ^ 64))
      ([], 1) = (((rowMajor shape).map (· % 2 ^ 64)).reverse, shape.prod % 2 ^ 64) := by
    intro shape
    induction shape with
    | nil => rfl
    | cons d shape ih =>
      rw [List.reverse_cons, List.foldl_append, ih]
      simp [rowMajor, Nat.mul_comm]
  rw [calculateStrides, hscan, List.reverse_reverse]

/-- They are the row-major strides as long as none wraps. -/
theorem calculateStrides_eq_iff : calculateStrides shape = rowMajor shape ↔ StridesFit shape := by
  have hmod : ∀ s, s % 2 ^ 64 = s ↔ s < 2 ^ 64 := fun s => Nat.mod_eq_iff_lt (by decide)
  rw [calculateStrides_eq, StridesFit]
  constructor
  · intro h s hs
    rw [← h] at hs
    obtain ⟨x, -, rfl⟩ := List.mem_map.mp hs
    exact Nat.mod_lt x (by decide)
  · intro h
    exact (List.map_congr_left fun s hs => (hmod s).mpr (h s hs)).trans (List.map_id' _)

theorem storageLen_eq (dims : List Nat) : storageLen dims = dims.sum % 2 ^ 64 := by
  have hfold : ∀ (dims : List Nat) n, dims.foldl (fun n x => (n + x) % 2 ^ 64) (n % 2 ^ 64) = (n + dims.sum) % 2 ^ 64 := by
    intro dims
    induction dims with
    | nil => exact fun n => rfl
    | cons d dims ih =>
      intro n
      rw [List.foldl_cons, Nat.mod_add_mod, ih, List.sum_cons, Nat.add_assoc]
  simpa [storageLen] using hfold dims 0

theorem foldl_mul_eq (dims : List Nat) : dims.foldl (fun n x => n * x % 2 ^ 64) 1 = dims.prod % 2 ^ 64 := by
  have hfold : ∀ (dims : List Nat) n, dims.foldl (fun n x => n * x % 2 ^ 64) (n % 2 ^ 64) = n * dims.prod % 2 ^ 64 := by
    intro dims
    induction dims with
    | nil =>
      intro n
      rw [List.foldl_nil, List.prod_nil, Nat.mul_one]
    | cons d dims ih =>
      intro n
      rw [List.foldl_cons, Nat.mod_mul_mod, ih, List.prod_cons, Nat.mul_assoc]
  simpa using hfold dims 1

/-- Some array just if there are as many elements as the product, which may wrap. -/
theorem fromShapeVec_eq_some {storage : List T} {array : DynArray T}
    (h : DynArray.fromShapeVec shape storage = some array) :
    storage.length = shape.prod % 2 ^ 64 ∧ array = ⟨storage, shape, calculateStrides shape⟩ := by
  have hexpected : (if shape.isEmpty then 1 else shape.foldl (fun n x => n * x % 2 ^ 64) 1) = shape.prod % 2 ^ 64 := by
    cases shape with
    | nil => rfl
    | cons d shape => exact foldl_mul_eq _
  rw [DynArray.fromShapeVec, hexpected] at h
  split at h
  · cases h
  · exact ⟨(by omega), (Option.some.inj h).symm⟩

/-! ## Outputs -/

variable {Out : Dim} {o : List Nat}

theorem arrayShape_output [Inhabited T] (len : List Nat → Nat) (hOut : Out = .dyn ∨ Out.fixed = some o) :
    Out.arrayShape (zeroed len Out o : Out.Buf T) = o := by
  rw [arrayShape_zeroed]
  obtain rfl | hfixed := hOut
  · rfl
  · rw [hfixed]
    rfl

theorem fixed_ne_dyn (h : D.fixed = some shape) : D ≠ .dyn := by
  rintro rfl
  cases h

/-- An output has the length of its shape, except that a dynamic one adds its sizes. -/
theorem length_output_iff [Inhabited T] (hOut : Out = .dyn ∨ Out.fixed = some o) :
    (Out.asBuf (zeroed storageLen Out o : Out.Buf T)).length = o.prod ↔ (Out = .dyn → o.sum % 2 ^ 64 = o.prod) := by
  obtain rfl | hfixed := hOut
  · rw [zeroed, Dim.asBuf, DynArray.default, List.length_replicate, storageLen_eq]
    exact ⟨fun h _ => h, fun h => h rfl⟩
  · exact iff_of_true (length_fixed hfixed _) fun hdyn => absurd hdyn (fixed_ne_dyn hfixed)

theorem eq_default_of_mem_zeroed [Inhabited T] {len : List Nat → Nat} {x : T}
    (h : x ∈ Out.asBuf (zeroed len Out o : Out.Buf T)) : x = default := by
  cases Out with
  | scalar => exact List.mem_singleton.mp h
  | dyn => exact List.eq_of_mem_replicate h
  | _ =>
    simp only [Dim.asBuf, zeroed, Vector.flatten_replicate_replicate, Vector.toList_replicate] at h
    exact List.eq_of_mem_replicate h

/-! ## Arrays -/

/-- Row-major strides are sound. -/
theorem sound_iff_laid {b : D.Buf T} : Sound D shape b ↔ Laid D shape b := by
  refine ⟨Sound.toLaid, fun h => ⟨h, ?_⟩⟩
  rw [h.strides, h.length]
  exact bijOn_offset shape

theorem laid_fixed_iff (h : D.fixed = some shape) (b : D.Buf T) :
    Laid D shape b ↔ D.Square := by
  have hiff : Laid D shape b ↔ D.strides b = rowMajor shape :=
    ⟨Laid.strides, fun hs => ⟨arrayShape_fixed h b, length_fixed h b, hs⟩⟩
  rw [hiff]
  cases D with
  | dyn => cases h
  | const3 d1 d2 d3 =>
    obtain rfl := Option.some.inj h
    have hmod : d3 * d2 % 2 ^ 64 = d3 * d2 ↔ d3 * d2 < 2 ^ 64 := Nat.mod_eq_iff_lt (by decide)
    rw [Dim.Square, ← hmod]
    constructor
    · intro hs
      obtain ⟨hprod, heq⟩ : d3 * d2 % 2 ^ 64 = d2 * d3 ∧ d2 = d3 := by simpa [Dim.strides, rowMajor] using hs
      exact ⟨heq, hprod.trans (Nat.mul_comm d2 d3)⟩
    · rintro ⟨rfl, hprod⟩
      rw [Dim.strides, hprod]
      simp [rowMajor]
  | _ =>
    obtain rfl := Option.some.inj h
    simp [Dim.strides, rowMajor, Dim.Square]

/-- When storage matches the shape: the buffers of a type without a `Dyn`, those of `zeroed` with one, and those of
`from_shape_vec`. -/
theorem sound_iff [Inhabited T] :
    (∀ (D : Dim) (shape : List Nat) (b : D.Buf T), D.fixed = some shape →
      (Sound D shape b ↔ D.Square)) ∧
    (∀ dims : List Nat, Sound (T := T) .dyn dims (zeroed storageLen .dyn dims) ↔
      dims.sum % 2 ^ 64 = dims.prod ∧ StridesFit dims) ∧
    ∀ (shape : List Nat) (storage : List T) (array : DynArray T),
      DynArray.fromShapeVec shape storage = some array →
      (Sound (T := T) .dyn shape array ↔ shape.prod < 2 ^ 64 ∧ StridesFit shape) := by
  refine ⟨fun D shape b h => ?_, fun dims => ?_, fun shape storage array h => ?_⟩
  · rw [sound_iff_laid]
    exact laid_fixed_iff h b
  · rw [sound_iff_laid, ← storageLen_eq, ← calculateStrides_eq_iff]
    constructor
    · intro h
      exact ⟨by simpa [zeroed, Dim.asBuf, DynArray.default] using h.length, h.strides⟩
    · rintro ⟨hlen, hstrides⟩
      exact ⟨rfl, by simpa [zeroed, Dim.asBuf, DynArray.default] using hlen, hstrides⟩
  · obtain ⟨hlen, rfl⟩ := fromShapeVec_eq_some h
    rw [sound_iff_laid, ← calculateStrides_eq_iff, ← Nat.mod_eq_iff_lt (by decide), ← hlen]
    constructor
    · intro h
      exact ⟨h.length, h.strides⟩
    · rintro ⟨hlen, hstrides⟩
      exact ⟨rfl, hlen, hstrides⟩

theorem sound_iff_examples :
    (Sound (T := Int) (.const2 2 3) [2, 3] (zeroed storageLen (.const2 2 3) [2, 3]) ↔ (Dim.const2 2 3).Square) ∧
    (Sound (T := Int) .dyn [2, 2] (zeroed storageLen .dyn [2, 2]) ↔
      [2, 2].sum % 2 ^ 64 = [2, 2].prod ∧ StridesFit [2, 2]) ∧
    (Sound (T := Int) .dyn [2, 1] ⟨[5, 6], [2, 1], [1, 1]⟩ ↔ [2, 1].prod < 2 ^ 64 ∧ StridesFit [2, 1]) :=
  ⟨sound_iff.1 (.const2 2 3) [2, 3] _ rfl, sound_iff.2.1 [2, 2], sound_iff.2.2 [2, 1] [5, 6] _ (by decide)⟩

/-- The shape `[2, 3]` gets five elements. -/
theorem zeroed_dyn_not_sound : ¬ Sound (T := Int) .dyn [2, 3] (zeroed storageLen .dyn [2, 3]) := by
  intro h
  have hlen := h.length
  exact absurd hlen (by decide)

end Metor.Proof.Nox
