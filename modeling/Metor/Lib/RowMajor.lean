import Mathlib.Algebra.BigOperators.Group.List.Basic
import Mathlib.Data.List.Forall2
import Mathlib.Data.Set.Function
import Mathlib.Tactic.Ring

/-!
# Row-major order

`rowMajor shape` are the strides of an array of that shape, and
`offset strides idx` is where the element of index `idx` is stored. `allIndices`
lists the valid indices in row-major order: index number `n` is the one that is
stored at `n` (`getElem?_allIndices`), so `offset` is a bijection onto the
positions (`bijOn_offset`). `next` is the counter that steps through them, the
last axis first, with carry (`next_eq`). A window is a box inside of the shape,
and `shift` moves its allIndices there (`validIndex_shift`).
-/

namespace Metor.Lib

/-- The valid indices of a shape. -/
def ValidIndex (shape idx : List Nat) : Prop := List.Forall₂ (· < ·) idx shape

def rowMajor : List Nat → List Nat
  | [] => []
  | _ :: shape => shape.prod :: rowMajor shape

/-- `sum(idx[i] * strides[i])` -/
def offset (strides idx : List Nat) : Nat := (List.zipWith (· * ·) idx strides).sum

/-- The valid indices, in row-major order. -/
def allIndices : List Nat → List (List Nat)
  | [] => [[]]
  | d :: shape => (List.range d).flatMap fun i => (allIndices shape).map (i :: ·)

/-- The index in the array of an index in a window at these offsets. Missing ones are zero. -/
def shift : (offsets idx : List Nat) → List Nat
  | _, [] => []
  | offsets, i :: idx => (offsets.headD 0 + i) :: shift offsets.tail idx

/-- A window of these dims at these offsets lies in the shape. -/
def IsWindow : (shape dims offsets : List Nat) → Prop
  | [], [], _ => True
  | d :: shape, n :: dims, offsets => offsets.headD 0 + n ≤ d ∧ IsWindow shape dims offsets.tail
  | _, _, _ => False

variable {shape idx : List Nat}

/-! ## Offsets -/

@[simp] theorem offset_nil_left (idx : List Nat) : offset [] idx = 0 := by
  rw [offset, List.zipWith_nil_right]
  rfl

@[simp] theorem offset_nil_right (strides : List Nat) : offset strides [] = 0 := rfl

@[simp] theorem offset_cons (s i : Nat) (strides idx : List Nat) :
    offset (s :: strides) (i :: idx) = i * s + offset strides idx := rfl

@[simp] theorem offset_zeros (n : Nat) (idx : List Nat) : offset (List.replicate n 0) idx = 0 := by
  induction n generalizing idx with
  | zero => exact offset_nil_left idx
  | succ n ih =>
    cases idx with
    | nil => rfl
    | cons i idx => rw [List.replicate_succ, offset_cons, ih, Nat.mul_zero]

theorem offset_append {s₁ i₁ : List Nat} (h : i₁.length = s₁.length) (s₂ i₂ : List Nat) :
    offset (s₁ ++ s₂) (i₁ ++ i₂) = offset s₁ i₁ + offset s₂ i₂ := by
  rw [offset, List.zipWith_append h, List.sum_append]
  rfl

@[simp] theorem length_rowMajor (shape : List Nat) : (rowMajor shape).length = shape.length := by
  induction shape with
  | nil => rfl
  | cons d shape ih => rw [rowMajor, List.length_cons, ih, List.length_cons]

theorem ValidIndex.length_eq (h : ValidIndex shape idx) : idx.length = shape.length := List.Forall₂.length_eq h

theorem offset_rowMajor_lt (h : ValidIndex shape idx) : offset (rowMajor shape) idx < shape.prod := by
  induction shape generalizing idx with
  | nil =>
    obtain rfl := List.forall₂_nil_right_iff.mp h
    exact Nat.zero_lt_one
  | cons d shape ih =>
    obtain ⟨i, rest, hi, hrest, rfl⟩ := List.forall₂_cons_right_iff.mp h
    rw [rowMajor, offset_cons, List.prod_cons]
    calc i * shape.prod + offset (rowMajor shape) rest < i * shape.prod + shape.prod :=
          Nat.add_lt_add_left (ih hrest) _
      _ = (i + 1) * shape.prod := by ring
      _ ≤ d * shape.prod := Nat.mul_le_mul_right _ hi

theorem offset_rowMajor_append {s₁ i₁ : List Nat} (h : i₁.length = s₁.length) (s₂ i₂ : List Nat) :
    offset (rowMajor (s₁ ++ s₂)) (i₁ ++ i₂) = offset (rowMajor s₁) i₁ * s₂.prod + offset (rowMajor s₂) i₂ := by
  induction s₁ generalizing i₁ with
  | nil =>
    obtain rfl := List.length_eq_zero_iff.mp h
    rw [List.nil_append, List.nil_append, offset_nil_right, Nat.zero_mul, Nat.zero_add]
  | cons d s₁ ih =>
    obtain ⟨i, rest, rfl⟩ := List.exists_cons_of_length_eq_add_one h
    rw [List.cons_append, List.cons_append, rowMajor, offset_cons, ih (Nat.add_right_cancel h), rowMajor, offset_cons,
      List.prod_append]
    ring

/-- An index at one axis and around it. -/
theorem ValidIndex.append_cons_iff {s₁ s₂ : List Nat} {d : Nat} :
    ValidIndex (s₁ ++ d :: s₂) idx ↔
      ∃ pre i post, idx = pre ++ i :: post ∧ ValidIndex s₁ pre ∧ i < d ∧ ValidIndex s₂ post := by
  constructor
  · intro h
    have hpre : ValidIndex s₁ (idx.take s₁.length) := List.forall₂_take_append _ _ _ h
    have hpost : ValidIndex (d :: s₂) (idx.drop s₁.length) := List.forall₂_drop_append _ _ _ h
    obtain ⟨i, post, hi, hrest, heq⟩ := List.forall₂_cons_right_iff.mp hpost
    exact ⟨idx.take s₁.length, i, post, by rw [← heq, List.take_append_drop], hpre, hi, hrest⟩
  · rintro ⟨pre, i, post, rfl, hpre, hi, hpost⟩
    exact List.rel_append hpre (.cons hi hpost)

theorem offset_append_cons {s₁ s₂ pre post : List Nat} {d i : Nat} (h : ValidIndex s₁ pre) :
    offset (rowMajor (s₁ ++ d :: s₂)) (pre ++ i :: post) =
      (offset (rowMajor s₁) pre * d + i) * s₂.prod + offset (rowMajor s₂) post := by
  rw [offset_rowMajor_append h.length_eq, List.prod_cons, rowMajor, offset_cons]
  ring

theorem getD_rowMajor (s₁ s₂ : List Nat) (d : Nat) : (rowMajor (s₁ ++ d :: s₂)).getD s₁.length 0 = s₂.prod := by
  induction s₁ with
  | nil => rfl
  | cons e s₁ ih =>
    rw [List.cons_append, rowMajor, List.length_cons, List.getD_cons_succ]
    exact ih

/-! ## All indices -/

@[simp] theorem length_allIndices (shape : List Nat) : (allIndices shape).length = shape.prod := by
  induction shape with
  | nil => rfl
  | cons d shape ih => simp [allIndices, List.length_flatMap, ih]

theorem length_flatMap_range {α : Type*} {f : Nat → List α} {m d : Nat} (hf : ∀ i < d, (f i).length = m) :
    ((List.range d).flatMap f).length = d * m := by
  have hmap : (List.range d).map (fun i => (f i).length) = List.replicate d m := by
    rw [List.map_congr_left fun i hi => hf i (List.mem_range.mp hi), List.map_const', List.length_range]
  rw [List.length_flatMap, hmap, List.sum_replicate_nat]

/-- Row `i` of equal rows. -/
theorem getElem?_flatMap_range {α : Type*} {f : Nat → List α} {m d i r : Nat} (hf : ∀ i < d, (f i).length = m)
    (hi : i < d) (hr : r < m) : ((List.range d).flatMap f)[i * m + r]? = (f i)[r]? := by
  induction d with
  | zero => exact absurd hi (Nat.not_lt_zero i)
  | succ d ih =>
    have hf' : ∀ i < d, (f i).length = m := fun i hi => hf i (Nat.lt_succ_of_lt hi)
    have hlen := length_flatMap_range hf'
    rw [List.range_succ, List.flatMap_append]
    obtain hlt | rfl := Nat.lt_or_eq_of_le (Nat.le_of_lt_succ hi)
    · have hrow : i * m + r < d * m := by
        calc i * m + r < i * m + m := Nat.add_lt_add_left hr _
          _ = (i + 1) * m := by ring
          _ ≤ d * m := Nat.mul_le_mul_right _ hlt
      rw [List.getElem?_append_left (by rw [hlen]; exact hrow), ih hf' hlt]
    · rw [List.getElem?_append_right (by rw [hlen]; exact Nat.le_add_right _ _), hlen, Nat.add_sub_cancel_left,
        List.flatMap_singleton]

/-- Index number `n` is the one that is stored at `n`. -/
theorem getElem?_allIndices (h : ValidIndex shape idx) : (allIndices shape)[offset (rowMajor shape) idx]? = some idx := by
  induction shape generalizing idx with
  | nil =>
    obtain rfl := List.forall₂_nil_right_iff.mp h
    rfl
  | cons d shape ih =>
    obtain ⟨i, rest, hi, hrest, rfl⟩ := List.forall₂_cons_right_iff.mp h
    have hrows : ∀ i < d, ((allIndices shape).map (i :: ·)).length = shape.prod := fun i _ => by simp
    rw [allIndices, rowMajor, offset_cons, getElem?_flatMap_range hrows hi (offset_rowMajor_lt hrest), List.getElem?_map,
      ih hrest, Option.map_some]

/-- Every position is that of an index. -/
theorem exists_offset_eq {n : Nat} (h : n < shape.prod) : ∃ idx, ValidIndex shape idx ∧ offset (rowMajor shape) idx = n := by
  induction shape generalizing n with
  | nil => exact ⟨[], .nil, (Nat.lt_one_iff.mp h).symm⟩
  | cons d shape ih =>
    rw [List.prod_cons] at h
    have hpos : 0 < shape.prod := Nat.pos_of_ne_zero fun hz => by
      rw [hz, Nat.mul_zero] at h
      exact absurd h (Nat.not_lt_zero n)
    obtain ⟨rest, hrest, hoff⟩ := ih (Nat.mod_lt n hpos)
    refine ⟨n / shape.prod :: rest, .cons ((Nat.div_lt_iff_lt_mul hpos).mpr h) hrest, ?_⟩
    rw [rowMajor, offset_cons, hoff, Nat.mul_comm]
    exact Nat.div_add_mod n shape.prod

theorem getElem?_allIndices_iff {n : Nat} :
    (allIndices shape)[n]? = some idx ↔ ValidIndex shape idx ∧ offset (rowMajor shape) idx = n := by
  constructor
  · intro h
    have hn : n < shape.prod := by
      rw [← length_allIndices]
      exact (List.getElem?_eq_some_iff.mp h).1
    obtain ⟨idx', hidx', rfl⟩ := exists_offset_eq hn
    rw [getElem?_allIndices hidx'] at h
    obtain rfl := Option.some.inj h
    exact ⟨hidx', rfl⟩
  · rintro ⟨hidx, rfl⟩
    exact getElem?_allIndices hidx

theorem map_some_eq {α : Type*} (l : List α) : l.map some = (List.range l.length).map fun n => l[n]? := by
  refine List.ext_getElem (by simp) fun n hn hn' => ?_
  rw [List.getElem_map, List.getElem_map, List.getElem_range, List.getElem?_eq_getElem (by simpa using hn)]

/-- Something at each position is something at each index. -/
theorem map_range_eq_iff {α : Type*} {f : Nat → α} {g : List Nat → α} :
    (List.range shape.prod).map f = (allIndices shape).map g ↔ ∀ n idx, (allIndices shape)[n]? = some idx → f n = g idx := by
  constructor
  · intro h n idx hidx
    obtain ⟨hn, -⟩ := List.getElem?_eq_some_iff.mp hidx
    have hget := congrArg (fun l => l[n]?) h
    simp only [List.getElem?_map, hidx, Option.map_some] at hget
    rw [List.getElem?_range (by simpa using hn), Option.map_some] at hget
    exact Option.some.inj hget
  · intro h
    refine List.ext_getElem (by simp) fun n hn hn' => ?_
    rw [List.getElem_map, List.getElem_map, List.getElem_range]
    exact h n _ (List.getElem?_eq_getElem (by simpa using hn'))

theorem offset_inj {idx' : List Nat} (h : ValidIndex shape idx) (h' : ValidIndex shape idx')
    (he : offset (rowMajor shape) idx = offset (rowMajor shape) idx') : idx = idx' := by
  have hget := getElem?_allIndices h
  rw [he, getElem?_allIndices h'] at hget
  exact (Option.some.inj hget).symm

/-- Each index has a position of its own. -/
theorem bijOn_offset (shape : List Nat) :
    Set.BijOn (offset (rowMajor shape)) {idx | ValidIndex shape idx} (Set.Iio shape.prod) :=
  ⟨fun _ h => offset_rowMajor_lt h, fun _ h _ h' he => offset_inj h h' he, fun _ h => exists_offset_eq h⟩

/-! ## Counting -/

/-- One step of a counter: the digits are increased from the last one on, as long as there is a carry, and a digit that
reaches its bound returns to zero. -/
def next : (shape idx : List Nat) → List Nat × Bool
  | d :: shape, i :: idx =>
    let (rest, carry) := next shape idx
    let i := if carry then i + 1 else i
    if d ≤ i then (0 :: rest, true) else (i :: rest, false)
  | _, _ => ([], true)

/-- The zero index. -/
theorem validIndex_replicate (h : 0 < shape.prod) : ValidIndex shape (List.replicate shape.length 0) := by
  induction shape with
  | nil => exact .nil
  | cons d shape ih =>
    rw [List.prod_cons] at h
    exact .cons (Nat.pos_of_mul_pos_right h) (ih (Nat.pos_of_mul_pos_left h))

@[simp] theorem offset_replicate_zero (strides : List Nat) (n : Nat) : offset strides (List.replicate n 0) = 0 := by
  induction n generalizing strides with
  | zero => rfl
  | succ n ih =>
    cases strides with
    | nil => exact offset_nil_left _
    | cons s strides => rw [List.replicate_succ, offset_cons, ih, Nat.zero_mul]

/-- The index at the next position; after the last one, the first, with a carry. -/
theorem next_eq (h : ValidIndex shape idx) :
    offset (rowMajor shape) idx + 1 < shape.prod ∧ (next shape idx).2 = false ∧ ValidIndex shape (next shape idx).1 ∧
      offset (rowMajor shape) (next shape idx).1 = offset (rowMajor shape) idx + 1 ∨
    offset (rowMajor shape) idx + 1 = shape.prod ∧ next shape idx = (List.replicate shape.length 0, true) := by
  induction shape generalizing idx with
  | nil =>
    obtain rfl := List.forall₂_nil_right_iff.mp h
    exact .inr ⟨rfl, rfl⟩
  | cons d shape ih =>
    obtain ⟨i, rest, hi, hrest, rfl⟩ := List.forall₂_cons_right_iff.mp h
    have hd : d * shape.prod = (d - 1) * shape.prod + shape.prod := by
      obtain ⟨d, rfl⟩ := Nat.exists_eq_add_one_of_ne_zero (Nat.ne_of_gt (Nat.lt_of_le_of_lt (Nat.zero_le i) hi))
      rw [Nat.add_sub_cancel]
      ring
    have hle : i * shape.prod ≤ (d - 1) * shape.prod := Nat.mul_le_mul_right _ (by omega)
    rw [rowMajor, offset_cons, List.prod_cons, hd]
    obtain ⟨hlt, hcarry, hnext, hoff⟩ | ⟨hlast, hnext⟩ := ih hrest
    · left
      have hstep : next (d :: shape) (i :: rest) = (i :: (next shape rest).1, false) := by
        simp only [next, hcarry]
        exact if_neg (Nat.not_le.mpr hi)
      rw [hstep, offset_cons, hoff]
      exact ⟨by omega, rfl, .cons hi hnext, by omega⟩
    · by_cases hend : d ≤ i + 1
      · right
        have hstep : next (d :: shape) (i :: rest) = (0 :: List.replicate shape.length 0, true) := by
          simp only [next, hnext]
          exact if_pos hend
        obtain rfl : i = d - 1 := by omega
        exact ⟨by omega, hstep⟩
      · left
        have hstep : next (d :: shape) (i :: rest) = ((i + 1) :: List.replicate shape.length 0, false) := by
          simp only [next, hnext]
          exact if_neg hend
        have hmul : (i + 1) * shape.prod = i * shape.prod + shape.prod := by ring
        have hle : (i + 1) * shape.prod ≤ (d - 1) * shape.prod := Nat.mul_le_mul_right _ (by omega)
        have hpos : 0 < shape.prod := by omega
        rw [hstep, offset_cons, offset_replicate_zero]
        exact ⟨by omega, rfl, .cons (Nat.not_le.mp hend) (validIndex_replicate hpos), by omega⟩

/-- The counter after `n` steps from zero. -/
theorem next_iterate (h : 0 < shape.prod) (n : Nat) :
    ValidIndex shape ((fun idx => (next shape idx).1)^[n] (List.replicate shape.length 0)) ∧
      offset (rowMajor shape) ((fun idx => (next shape idx).1)^[n] (List.replicate shape.length 0)) = n % shape.prod := by
  induction n with
  | zero =>
    rw [Function.iterate_zero_apply, offset_replicate_zero, Nat.zero_mod]
    exact ⟨validIndex_replicate h, rfl⟩
  | succ n ih =>
    obtain ⟨hidx, hoff⟩ := ih
    rw [Function.iterate_succ_apply', ← Nat.mod_add_mod, ← hoff]
    obtain ⟨hlt, -, hnext, hstep⟩ | ⟨hlast, hnext⟩ := next_eq hidx
    · exact ⟨hnext, hstep.trans (Nat.mod_eq_of_lt hlt).symm⟩
    · rw [hnext, hlast, Nat.mod_self]
      exact ⟨validIndex_replicate h, offset_replicate_zero _ _⟩

theorem length_next (h : idx.length = shape.length) : (next shape idx).1.length = idx.length := by
  induction shape generalizing idx with
  | nil =>
    obtain rfl := List.length_eq_zero_iff.mp h
    rfl
  | cons d shape ih =>
    obtain ⟨i, rest, rfl⟩ := List.exists_cons_of_length_eq_add_one h
    rw [List.length_cons, List.length_cons, Nat.add_right_cancel_iff] at h
    simp only [next]
    split <;> split <;> rw [List.length_cons, ih h, List.length_cons]

/-! ## Windows -/

@[simp] theorem length_shift (offsets idx : List Nat) : (shift offsets idx).length = idx.length := by
  induction idx generalizing offsets with
  | nil => rfl
  | cons i idx ih => rw [shift, List.length_cons, ih, List.length_cons]

@[simp] theorem shift_nil_left (idx : List Nat) : shift [] idx = idx := by
  induction idx with
  | nil => rfl
  | cons i idx ih =>
    rw [shift, List.tail_nil, ih]
    simp

@[simp] theorem shift_replicate_zero (n : Nat) (idx : List Nat) : shift (List.replicate n 0) idx = idx := by
  induction idx generalizing n with
  | nil => rfl
  | cons i idx ih =>
    rw [shift, List.tail_replicate, ih]
    cases n with
    | zero => simp
    | succ n => rw [List.replicate_succ, List.headD_cons, Nat.zero_add]

theorem offset_shift {strides offsets : List Nat} (h : offsets.length = idx.length) :
    offset strides (shift offsets idx) = offset strides offsets + offset strides idx := by
  induction idx generalizing strides offsets with
  | nil =>
    obtain rfl := List.length_eq_zero_iff.mp h
    rfl
  | cons i idx ih =>
    obtain ⟨o, offsets, rfl⟩ := List.exists_cons_of_length_eq_add_one h
    cases strides with
    | nil => rw [offset_nil_left, offset_nil_left, offset_nil_left]
    | cons s strides =>
      rw [shift, List.headD_cons, List.tail_cons, offset_cons, ih (Nat.add_right_cancel h), offset_cons, offset_cons]
      ring

theorem shift_inj {offsets idx' : List Nat} (h : shift offsets idx = shift offsets idx') : idx = idx' := by
  induction idx generalizing offsets idx' with
  | nil =>
    have hlen := congrArg List.length h
    rw [length_shift, length_shift] at hlen
    exact (List.length_eq_zero_iff.mp hlen.symm).symm
  | cons i idx ih =>
    cases idx' with
    | nil => cases h
    | cons i' idx' =>
      obtain ⟨hi, hrest⟩ := List.cons.inj h
      rw [ih hrest, Nat.add_left_cancel hi]

theorem IsWindow.length_eq {dims offsets : List Nat} (h : IsWindow shape dims offsets) : dims.length = shape.length := by
  induction shape generalizing dims offsets with
  | nil =>
    cases dims with
    | nil => rfl
    | cons n dims => cases h
  | cons d shape ih =>
    cases dims with
    | nil => cases h
    | cons n dims => rw [List.length_cons, ih h.2, List.length_cons]

theorem validIndex_shift {dims offsets : List Nat} (hw : IsWindow shape dims offsets) (h : ValidIndex dims idx) :
    ValidIndex shape (shift offsets idx) := by
  induction shape generalizing dims offsets idx with
  | nil =>
    obtain rfl := List.length_eq_zero_iff.mp hw.length_eq
    obtain rfl := List.forall₂_nil_right_iff.mp h
    exact .nil
  | cons d shape ih =>
    cases dims with
    | nil => cases hw
    | cons n dims =>
      obtain ⟨i, rest, hi, hrest, rfl⟩ := List.forall₂_cons_right_iff.mp h
      exact .cons (Nat.lt_of_lt_of_le (Nat.add_lt_add_left hi _) hw.1) (ih hw.2 hrest)

end Metor.Lib
