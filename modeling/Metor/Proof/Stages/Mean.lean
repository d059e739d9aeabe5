import Metor.Proof.View
import Metor.Spec.Stages

/-!
# The mean stage

On a field that can be read as elements of a type that can be divided, a
`MeanStage` adds the value to its accumulator, and at the end of its window
leaves the quotient in the field (`next_eq`). On any other field it panics
(`next_of_unaligned`), and on booleans at the end of its window
(`next_of_bool`).
-/

namespace Metor.Proof.Stages

open Metor.Lib Metor.Impl.Proto Metor.Impl.Stages

variable {fl : Floats} {ty : PrimType} {stage : MeanStage} {f : View}

/-! ## Elements -/

theorem size_pos (ty : PrimType) : 0 < ty.size := by cases ty <;> decide

theorem length_intBytes (width : Nat) (n : Int) : (intBytes width n).length = width := length_leBytes _ _

theorem length_addElem (fl : Floats) (ty : PrimType) (r val : Bytes) : (addElem fl ty r val).length = ty.size := by
  cases ty <;> simp [addElem, PrimType.size, fl.length_addF32, fl.length_addF64, length_intBytes]

theorem length_divElem (h : ty ≠ .bool) (r : Bytes) (count : Nat) : (divElem fl ty r count).length = ty.size := by
  cases ty <;> first | exact absurd rfl h | simp [divElem, PrimType.size, fl.length_divF32, fl.length_divF64, length_intBytes]

theorem length_elements (size : Nat) (bytes : Bytes) : (Impl.Proto.elements size bytes).length = bytes.length / size := by
  simp [Impl.Proto.elements]

theorem length_flatten_of_forall (size : Nat) {xs : List Bytes} (h : ∀ x ∈ xs, x.length = size) :
    xs.flatten.length = xs.length * size := by
  rw [List.length_flatten, List.map_congr_left h, List.map_const', List.sum_replicate_nat]

theorem length_addBytes {acc value : Bytes} (h : ty.size ∣ acc.length) (hl : value.length = acc.length) :
    (addBytes fl ty acc value).length = acc.length := by
  rw [addBytes, length_flatten_of_forall ty.size, List.length_zipWith, length_elements, length_elements, hl,
    Nat.min_self, Nat.div_mul_cancel h]
  intro x hx
  obtain ⟨i, hi, rfl⟩ := List.getElem_of_mem hx
  rw [List.getElem_zipWith]
  exact length_addElem ..

theorem length_divBytes {acc : Bytes} (hb : ty ≠ .bool) (h : ty.size ∣ acc.length) (count : Nat) :
    (divBytes fl ty acc count).length = acc.length := by
  rw [divBytes, length_flatten_of_forall ty.size, List.length_map, length_elements, Nat.div_mul_cancel h]
  intro x hx
  obtain ⟨r, -, rfl⟩ := List.mem_map.mp hx
  exact length_divElem hb r count

theorem addView_eq {acc value : Bytes} {shape : List Nat} (hl : value.length = acc.length) :
    ComponentValue.addView fl ⟨ty, acc⟩ ⟨ty, shape, value⟩ = some ⟨ty, addBytes fl ty acc value⟩ := by
  have hz : ((Impl.Proto.elements ty.size acc).mapIdx fun i r => ((Impl.Proto.elements ty.size value)[i]?).elim r (addElem fl ty r)) =
      List.zipWith (addElem fl ty) (Impl.Proto.elements ty.size acc) (Impl.Proto.elements ty.size value) := by
    refine List.ext_getElem (by simp [length_elements, hl]) fun i h₁ h₂ => ?_
    have hi : i < (Impl.Proto.elements ty.size value).length := (List.length_zipWith ▸ h₂).trans_le (Nat.min_le_right _ _)
    rw [List.getElem_mapIdx, List.getElem_zipWith, List.getElem?_eq_getElem hi, Option.elim_some]
  simp only [ComponentValue.addView, ne_eq, not_true_eq_false, if_false, hz, addBytes]

theorem addView_ty {v v' : ComponentValue} {view : ComponentView} (h : v.addView fl view = some v') : v'.ty = view.ty := by
  unfold ComponentValue.addView at h
  split at h
  · cases h
  · next hty =>
    cases h
    exact not_not.mp hty

/-! ## One step -/

/-- The bytes of the accumulator. -/
def accOf (len : Nat) (stage : MeanStage) : Bytes := (stage.acc.map (·.bytes)).getD (List.replicate len 0)

/-- What a stage of a field of `len` bytes keeps: an accumulator like the field, and a window that is not full. -/
structure MeanInv (ty : PrimType) (len : Nat) (stage : MeanStage) : Prop where
  acc : ∀ a ∈ stage.acc, a.ty = ty ∧ a.bytes.length = len
  count : stage.count < max stage.window.toNat 1

theorem meanInv_new (ty : PrimType) (len : Nat) (window : UInt16) : MeanInv ty len (.new window) where
  acc := by simp [MeanStage.new]
  count := by simp only [MeanStage.new]; omega

theorem length_accOf {len : Nat} (h : MeanInv ty len stage) : (accOf len stage).length = len := by
  unfold accOf
  cases ha : stage.acc with
  | none => exact List.length_replicate
  | some a => exact (h.acc a ha).2

/-- A field that can be read as elements which can be divided. -/
structure Readable (ty : PrimType) (f : View) : Prop where
  divides : ty.size ∣ f.bytes.length
  lt : f.bytes.length < 2 ^ 64
  aligned : f.addr % ty.size = 0
  ne_bool : ty ≠ .bool

theorem tryFromBytesShape_of_readable (h : Readable ty f) :
    ComponentView.tryFromBytesShape f [f.bytes.length / ty.size] ty =
      .ok ⟨ty, [f.bytes.length / ty.size], f.bytes⟩ := by
  have hmul : f.bytes.length / ty.size * ty.size = f.bytes.length := Nat.div_mul_cancel h.divides
  have hle : f.bytes.length / ty.size ≤ f.bytes.length := Nat.div_le_self _ _
  have hp : checkedProduct [f.bytes.length / ty.size] = .ok (f.bytes.length / ty.size) := by
    have := h.lt
    simp only [checkedProduct, List.foldlM_cons, List.foldlM_nil, Nat.one_mul]
    rw [if_pos (by omega)]
    rfl
  rw [ComponentView.tryFromBytesShape, hp, Eval.ok_bind, hmul, if_neg (Nat.not_le.mpr h.lt),
    if_neg (by simpa [PrimType.alignment] using h.aligned), if_neg (Nat.lt_irrefl _), List.take_length,
    if_neg (fun hb => h.ne_bool hb.1)]

/-- The stage at the end of its window, and before. -/
theorem next_eq (fl : Floats) (h : Readable ty f) (hs : MeanInv ty f.bytes.length stage) :
    stage.next fl f ty =
      if stage.window.toNat ≤ stage.count + 1 then
        some (true, ⟨stage.window, some ⟨ty, List.replicate f.bytes.length 0⟩, 0⟩,
          divBytes fl ty (addBytes fl ty (accOf f.bytes.length stage) f.bytes) (stage.count + 1))
      else
        some (false, ⟨stage.window, some ⟨ty, addBytes fl ty (accOf f.bytes.length stage) f.bytes⟩, stage.count + 1⟩,
          f.bytes) := by
  have hacc : stage.acc.getD (.zeros [f.bytes.length / ty.size] ty) = ⟨ty, accOf f.bytes.length stage⟩ := by
    unfold accOf
    cases ha : stage.acc with
    | none =>
      simp only [Option.getD_none, Option.map_none, ComponentValue.zeros, List.prod_cons, List.prod_nil, Nat.mul_one,
        Nat.div_mul_cancel h.divides]
    | some a =>
      obtain ⟨hty, -⟩ := hs.acc a ha
      simp only [Option.getD_some, Option.map_some, ← hty]
  have hl := length_accOf hs
  have hadd : (addBytes fl ty (accOf f.bytes.length stage) f.bytes).length = f.bytes.length := by
    rw [length_addBytes (by rw [hl]; exact h.divides) hl.symm, hl]
  have hdiv : (divBytes fl ty (addBytes fl ty (accOf f.bytes.length stage) f.bytes) (stage.count + 1)).length =
      f.bytes.length := by
    rw [length_divBytes h.ne_bool (by rw [hadd]; exact h.divides), hadd]
  -- the count is below the window, which is a `u16`
  have hcount : ¬ 2 ^ 16 ≤ stage.count + 1 := by
    have := hs.count
    have := stage.window.toNat_lt
    omega
  simp only [MeanStage.next, tryFromBytesShape_of_readable h, hacc, addView_eq hl.symm, Option.bind_eq_bind,
    Option.bind_some, if_neg hcount, ge_iff_le]
  by_cases hw : stage.window.toNat ≤ stage.count + 1
  · rw [if_pos hw, if_pos hw, ComponentValue.div, if_neg h.ne_bool]
    have hd : ((Impl.Proto.elements ty.size (addBytes fl ty (accOf f.bytes.length stage) f.bytes)).map fun r =>
        divElem fl ty r (stage.count + 1)).flatten =
        divBytes fl ty (addBytes fl ty (accOf f.bytes.length stage) f.bytes) (stage.count + 1) := rfl
    simp only [hd, Option.bind_some, hdiv, if_true, ComponentValue.fillZeros]
    rfl
  · rw [if_neg hw, if_neg hw]
    rfl

/-- A field that the stage cannot cast. -/
theorem next_of_unaligned (h : f.addr % ty.size ≠ 0) : stage.next fl f ty = none := by
  have hne : ∀ view, ComponentView.tryFromBytesShape f [f.bytes.length / ty.size] ty ≠ .ok view := by
    intro view hv
    obtain ⟨n, -, hv⟩ := Eval.bind_eq_ok.mp hv
    split at hv
    · simp at hv
    · rw [if_pos (by simpa [PrimType.alignment] using h)] at hv
      simp at hv
  rw [MeanStage.next]
  split
  · next view hv => exact absurd hv (hne view)
  · rfl

/-- Booleans cannot be divided: the stage only goes on within its window. -/
theorem next_of_bool {finished : Bool} {stage' : MeanStage} {bytes : Bytes}
    (h : stage.next fl f .bool = some (finished, stage', bytes)) :
    stage'.window = stage.window ∧ stage'.count = stage.count + 1 ∧ stage'.count < stage.window.toNat := by
  rw [MeanStage.next] at h
  split at h
  · next view hview =>
    obtain ⟨acc, hacc, h⟩ := Option.bind_eq_some_iff.mp h
    have hty : acc.ty = .bool := (addView_ty hacc).trans (View.tryFromBytesShape_eq hview).1
    simp only at h
    split at h
    · cases h
    · split at h
      · obtain ⟨acc', hd, -⟩ := Option.bind_eq_some_iff.mp h
        rw [ComponentValue.div, if_pos hty] at hd
        cases hd
      · next hlt =>
        cases h
        exact ⟨rfl, rfl, Nat.lt_of_not_le hlt⟩
  · cases h

end Metor.Proof.Stages
