import Metor.Impl.Proto

/-!
# Views

A shape is multiplied with overflow checks, so where
`ComponentView::try_from_bytes_shape` gives a view, it is as long as the shape
and the type say (`tryFromBytesShape_eq`). What is written as words is read
back (`words_flatMap`).
-/

namespace Metor.Proof.View

open Metor.Lib Metor.Impl.Proto

theorem checkedProduct_eq_ok {dim : List Nat} {n : Nat} (h : checkedProduct dim = .ok n) : n = dim.prod := by
  suffices ∀ (dim : List Nat) (x : Nat),
      dim.foldlM (fun x xs => if x * xs < 2 ^ 64 then Eval.ok (x * xs) else .err Error.offsetOverflow) x = .ok n →
        n = x * dim.prod by simpa using this dim 1 h
  intro dim
  induction dim with
  | nil => intro x h; cases h; exact (Nat.mul_one _).symm
  | cons d dim ih =>
    intro x h
    obtain ⟨y, hy, h⟩ := Eval.bind_eq_ok.mp h
    simp only at hy
    split at hy <;> cases hy
    rw [ih _ h, List.prod_cons, Nat.mul_assoc]

theorem checkedProduct_ne_running (shape : List Nat) : checkedProduct shape ≠ .running := by
  have (x : Nat) : shape.foldlM (fun x xs => if x * xs < 2 ^ 64 then Eval.ok (x * xs)
      else Eval.err Error.offsetOverflow) x ≠ .running := by
    induction shape generalizing x with
    | nil => simp
    | cons d shape ih =>
      rw [List.foldlM_cons]
      split
      · exact ih _
      · nofun
  exact this 1

theorem tryFromBytesShape_ne_running (buf : View) (shape : List Nat) (ty : PrimType) :
    ComponentView.tryFromBytesShape buf shape ty ≠ .running := by
  intro h
  rcases Eval.bind_eq_running.mp h with h | ⟨len, -, h⟩
  · exact checkedProduct_ne_running shape h
  · revert h
    repeat (split; · nofun)
    simp only
    split <;> nofun

/-- A view is as long as its shape needs, which is less than a `usize` can hold. -/
theorem tryFromBytesShape_eq {buf : View} {shape : List Nat} {ty : PrimType} {view : ComponentView}
    (h : ComponentView.tryFromBytesShape buf shape ty = .ok view) :
    view.ty = ty ∧ view.shape = shape ∧ view.bytes.length = shape.prod * ty.size ∧ shape.prod * ty.size < 2 ^ 64 := by
  obtain ⟨n, hn, h⟩ := Eval.bind_eq_ok.mp h
  obtain rfl := checkedProduct_eq_ok hn
  split at h
  · cases h
  next hlt =>
    split at h
    · cases h
    · split at h
      · cases h
      next hle =>
        dsimp only at h
        split at h
        · cases h
        · cases h
          refine ⟨rfl, rfl, ?_, Nat.lt_of_not_ge hlt⟩
          show (buf.bytes.take (shape.prod * ty.size)).length = _
          rw [List.length_take]
          omega

/-! ## Words -/

theorem words_append {bs rest : Bytes} (h : bs.length = 8) : View.words (bs ++ rest) = leNat bs :: View.words rest := by
  have e : (bs ++ rest).length / 8 = rest.length / 8 + 1 := by rw [List.length_append, h]; omega
  rw [View.words, e, List.range_succ_eq_map, List.map_cons, List.map_map]
  refine congrArg₂ _ ?_ (List.map_congr_left fun i _ => ?_)
  · rw [slice, List.take_append_of_le_length (by omega), List.take_of_length_le (by omega), Nat.zero_mul, List.drop_zero]
  · have e₁ : (i + 1) * 8 = bs.length + i * 8 := by omega
    have e₂ : (i + 1 + 1) * 8 - (i + 1) * 8 = (i + 1) * 8 - i * 8 := by omega
    simp only [Function.comp_apply, Nat.succ_eq_add_one, slice_eq_take_drop]
    rw [e₂, e₁, ← List.drop_drop, List.drop_left, ← e₁]

theorem words_flatMap {dim : List Nat} (h : ∀ d ∈ dim, d < 2 ^ 64) : View.words (dim.flatMap (leBytes 8)) = dim := by
  induction dim with
  | nil => rfl
  | cons d dim ih =>
    rw [List.flatMap_cons, words_append (length_leBytes 8 d), leNat_leBytes (h d List.mem_cons_self),
      ih fun d hd => h d (List.mem_cons_of_mem _ hd)]

theorem length_flatMap_leBytes (dim : List Nat) : (dim.flatMap (leBytes 8)).length = 8 * dim.length := by
  induction dim with
  | nil => rfl
  | cons d dim ih => rw [List.flatMap_cons, List.length_append, ih, length_leBytes, List.length_cons]; omega

theorem primTypeOfBytes_leBytes (ty : PrimType) : primTypeOfBytes (leBytes 8 ty.toNat) = some ty := by
  cases ty <;> decide

end Metor.Proof.View
