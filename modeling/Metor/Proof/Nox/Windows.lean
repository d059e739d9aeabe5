import Metor.Proof.Nox.Strided

/-!
# Windows

The items of an `offset_iter` are the elements of the window just if every axis
without an offset has a single element (`items_iff`), as such axes do not
advance. So `copy_fixed_slice` copies the window then (`slices_iff`), and
`transpose`, which has an offset for each axis, always swaps the indices,
except that a dynamic output may be of a wrong length (`transposes_iff`).
-/

namespace Metor.Proof.Nox

open Metor.Lib Metor.Impl.Nox

variable {T : Type} {shape dims offsets : List Nat}

/-! ## Items -/

/-- The only index of a shape of one element. -/
theorem eq_replicate_of_prod {idx : List Nat} (h : ValidIndex shape idx) (hone : shape.prod = 1) :
    idx = List.replicate shape.length 0 := by
  have hlt := offset_rowMajor_lt h
  refine offset_inj h (validIndex_replicate (by omega)) ?_
  rw [offset_replicate_zero]
  omega

theorem take_prod_mul (dims : List Nat) (n : Nat) : (dims.take n).prod * (dims.drop n).prod = dims.prod := by
  rw [← List.prod_append, List.take_append_drop]

/-- The item that is read, where only the axes with an offset advance. -/
theorem position_window (hw : IsWindow shape dims offsets) {strides : List Nat} {n : Nat} {idx : List Nat}
    (h : (allIndices (dims.take offsets.length))[n % (dims.take offsets.length).prod]? = some idx) :
    StrideIterator.position { offsetIter shape strides offsets with dims := dims } n =
      offset strides (shift offsets (idx ++ List.replicate (dims.length - offsets.length) 0)) :=
  position_of_take (starts_offsetIter hw.length_eq) h

/-- The index of an item. -/
theorem validIndex_take_append {idx : List Nat} (hpos : 0 < dims.prod) (h : ValidIndex (dims.take offsets.length) idx) :
    ValidIndex dims (idx ++ List.replicate (dims.length - offsets.length) 0) := by
  rw [← take_prod_mul dims offsets.length] at hpos
  have hzero := validIndex_replicate (Nat.pos_of_mul_pos_left hpos)
  rw [List.length_drop] at hzero
  have happ : ValidIndex (dims.take offsets.length ++ dims.drop offsets.length) _ := List.rel_append h hzero
  rwa [List.take_append_drop] at happ

theorem offset_take_append {idx : List Nat} (h : ValidIndex (dims.take offsets.length) idx) :
    offset (rowMajor dims) (idx ++ List.replicate (dims.length - offsets.length) 0) =
      offset (rowMajor (dims.take offsets.length)) idx * (dims.drop offsets.length).prod := by
  have happ := offset_rowMajor_append h.length_eq (dims.drop offsets.length)
    (List.replicate (dims.length - offsets.length) 0)
  rwa [List.take_append_drop, offset_replicate_zero, Nat.add_zero] at happ

/-- The item with the index, where all axes advance that have to. -/
theorem position_of_covers (hw : IsWindow shape dims offsets) (h : Covers dims offsets) (strides : List Nat) {n : Nat}
    {idx : List Nat} (hn : (allIndices dims)[n]? = some idx) :
    StrideIterator.position { offsetIter shape strides offsets with dims := dims } n =
      offset strides (shift offsets idx) := by
  obtain ⟨hidx, rfl⟩ := getElem?_allIndices_iff.mp hn
  have hlt := offset_rowMajor_lt hidx
  have hone : (dims.drop offsets.length).prod = 1 := h.resolve_left (by omega)
  have hprod := take_prod_mul dims offsets.length
  rw [hone, Nat.mul_one] at hprod
  have hdrop : idx.drop offsets.length = List.replicate (dims.length - offsets.length) 0 := by
    rw [← List.length_drop]
    exact eq_replicate_of_prod (List.forall₂_drop _ hidx) hone
  have htake : ValidIndex (dims.take offsets.length) (idx.take offsets.length) := List.forall₂_take _ hidx
  have hsplit : idx.take offsets.length ++ List.replicate (dims.length - offsets.length) 0 = idx := by
    rw [← hdrop, List.take_append_drop]
  have hoff := offset_take_append htake
  rw [hsplit, hone, Nat.mul_one] at hoff
  have hget := getElem?_allIndices htake
  rw [← hoff, ← Nat.mod_eq_of_lt hlt, ← hprod] at hget
  rw [position_window hw hget, hsplit]

/-- Where an axis does not advance that has to, the second item is a wrong one. -/
theorem position_ne (hw : IsWindow shape dims offsets) (h : ¬ Covers dims offsets) {idx : List Nat}
    (hidx : (allIndices dims)[1]? = some idx) :
    StrideIterator.position { offsetIter shape (rowMajor shape) offsets with dims := dims } 1 ≠
      offset (rowMajor shape) (shift offsets idx) := by
  obtain ⟨hzero, hone⟩ := not_or.mp h
  have hpos : 0 < dims.prod := Nat.pos_of_ne_zero hzero
  have htake : 0 < (dims.take offsets.length).prod := by
    rw [← take_prod_mul dims offsets.length] at hpos
    exact Nat.pos_of_mul_pos_right hpos
  obtain ⟨first, hfirst, hoff⟩ := exists_offset_eq (Nat.mod_lt 1 htake)
  have hget := getElem?_allIndices hfirst
  rw [hoff] at hget
  rw [position_window hw hget]
  intro heq
  obtain ⟨hidx, hnum⟩ := getElem?_allIndices_iff.mp hidx
  have hindex := validIndex_take_append hpos hfirst
  obtain rfl := shift_inj (offset_inj (validIndex_shift hw hindex) (validIndex_shift hw hidx) heq)
  rw [offset_take_append hfirst] at hnum
  exact hone (Nat.dvd_one.mp (Dvd.intro_left _ hnum))

/-- The second index of a window where an axis does not advance that has to. -/
theorem exists_second (h : ¬ Covers dims offsets) : ∃ idx, (allIndices dims)[1]? = some idx := by
  obtain ⟨hzero, hone⟩ := not_or.mp h
  have hmul := take_prod_mul dims offsets.length
  have hlt : 1 < dims.prod := by
    by_contra hle
    have hprod : (dims.take offsets.length).prod * (dims.drop offsets.length).prod = 1 := by omega
    exact hone (Nat.dvd_one.mp (Dvd.intro_left _ hprod))
  exact ⟨_, List.getElem?_eq_getElem (by rw [length_allIndices]; exact hlt)⟩

/-- The items are those of the window just if all of its axes advance that have to. -/
theorem items_iff (hw : IsWindow shape dims offsets) :
    Items { offsetIter shape (rowMajor shape) offsets with dims := dims } shape dims offsets ↔ Covers dims offsets := by
  constructor
  · intro h
    by_contra hcov
    obtain ⟨idx, hidx⟩ := exists_second hcov
    exact position_ne hw hcov hidx (map_range_eq_iff.mp h.positions 1 idx hidx)
  · intro hcov
    refine ⟨map_range_eq_iff.mpr fun n idx hn => position_of_covers hw hcov _ hn, fun n hn => ?_⟩
    have hget : (allIndices dims)[n]? = some _ := List.getElem?_eq_getElem (by rw [length_allIndices]; exact hn)
    rw [position_of_covers hw hcov _ hget]
    exact offset_rowMajor_lt (validIndex_shift hw (getElem?_allIndices_iff.mp hget).1)

/-! ## Copies -/

/-- The check of bounds passes. -/
theorem any_of_isWindow (hw : IsWindow shape dims offsets) :
    (((dims.zip shape).zip offsets).any fun x => x.1.2 < x.2 + x.1.1) = false := by
  induction shape generalizing dims offsets with
  | nil => rw [List.zip_nil_right, List.zip_nil_left, List.any_nil]
  | cons d shape ih =>
    cases dims with
    | nil => cases hw
    | cons n dims =>
      cases offsets with
      | nil => rw [List.zip_nil_right, List.any_nil]
      | cons o offsets =>
        have hrest := ih hw.2
        rw [List.tail_cons] at hrest
        rw [List.zip_cons_cons, List.zip_cons_cons, List.any_cons, hrest, Bool.or_false, decide_eq_false_iff_not]
        exact Nat.not_lt.mpr hw.1

/-- All items are in the array. -/
theorem position_lt (hw : IsWindow shape dims offsets) (hpos : 0 < dims.prod) (n : Nat) :
    StrideIterator.position { offsetIter shape (rowMajor shape) offsets with dims := dims } n < shape.prod := by
  have htake : 0 < (dims.take offsets.length).prod := by
    rw [← take_prod_mul dims offsets.length] at hpos
    exact Nat.pos_of_mul_pos_right hpos
  obtain ⟨idx, hidx, hoff⟩ := exists_offset_eq (Nat.mod_lt n htake)
  have hget := getElem?_allIndices hidx
  rw [hoff] at hget
  rw [position_window hw hget]
  exact offset_rowMajor_lt (validIndex_shift hw (validIndex_take_append hpos hidx))

variable [Inhabited T] {D Out : Dim} {a : D.Buf T}

/-- What is copied: an element for each item. -/
theorem copyFixedSlice_eq (ha : Laid D shape a) (hw : IsWindow shape dims offsets) (hOut : Out.fixed = some dims) :
    ∃ out, copyFixedSlice storageLen Out dims a offsets = some out ∧ Out.arrayShape out = dims ∧
      (Out.asBuf out).map some = (List.range dims.prod).map fun n =>
        (D.asBuf a)[StrideIterator.position { offsetIter shape (rowMajor shape) offsets with dims := dims } n]? := by
  have hlen : (Out.asBuf (zeroed storageLen Out dims : Out.Buf T)).length = dims.prod := length_fixed hOut _
  have hcopy := @copyInto_eq T { offsetIter shape (rowMajor shape) offsets with dims := dims } (D.asBuf a)
    (Out.asBuf (zeroed storageLen Out dims : Out.Buf T)) fun n hn => by
      rw [ha.length]
      exact position_lt hw (by omega) n
  rw [hlen] at hcopy
  refine ⟨Out.withBuf (zeroed storageLen Out dims) (copyInto (D.asBuf a)
    { offsetIter shape (rowMajor shape) offsets with dims := dims } (Out.asBuf (zeroed storageLen Out dims))), ?_,
    arrayShape_fixed hOut _, ?_⟩
  · simp only [copyFixedSlice, ha.arrayShape, ha.strides, any_of_isWindow hw]
    rw [if_neg (fun hne => hne hw.length_eq.symm)]
    rfl
  · rw [asBuf_withBuf (length_copyInto _ _)]
    exact hcopy

/-- A window of constant dims is copied just if all of its axes advance that have to. -/
theorem slices_iff [Nontrivial T] (ha : Laid D shape a) (hw : IsWindow shape dims offsets)
    (hOut : Out.fixed = some dims) :
    SlicesAll T D Out shape dims offsets ↔ Covers dims offsets := by
  constructor
  · intro hall
    by_contra hcov
    obtain ⟨idx, hidx⟩ := exists_second hcov
    obtain ⟨x, y, hxy⟩ := exists_pair_ne T
    have hpos : 0 < dims.prod := Nat.pos_of_ne_zero (not_or.mp hcov).1
    have hne := position_ne hw hcov hidx
    have hlt := position_lt hw hpos 1
    have hlt' := offset_rowMajor_lt (validIndex_shift hw (getElem?_allIndices_iff.mp hidx).1)
    -- all elements are equal but the one that is wanted
    obtain ⟨ha', hbuf⟩ := laid_withBuf ha
      (l := (List.replicate shape.prod y).set (offset (rowMajor shape) (shift offsets idx)) x) (by simp)
    obtain ⟨out, heq, -, hmap⟩ := copyFixedSlice_eq ha' hw hOut
    obtain ⟨out', heq', hholds⟩ := hall _ ha'
    obtain rfl := Option.some.inj (heq.symm.trans heq')
    have hitem := map_range_eq_iff.mp (hmap.symm.trans hholds.elems) 1 idx hidx
    rw [Dim.get?, hbuf, ha'.arrayShape, List.getElem?_set_ne hne.symm, List.getElem?_set_self (by simpa using hlt'),
      List.getElem?_replicate_of_lt hlt] at hitem
    exact hxy (Option.some.inj hitem).symm
  · intro hcov a ha
    obtain ⟨out, heq, hshape, hmap⟩ := copyFixedSlice_eq ha hw hOut
    refine ⟨out, heq, hshape, hmap.trans (map_range_eq_iff.mpr fun n idx hn => ?_)⟩
    rw [position_of_covers hw hcov _ hn, Dim.get?, ha.arrayShape]

/-! ## Transposition -/

/-- An item of the transposed array is an element of the array. -/
theorem position_transpose {r c n : Nat} {idx : List Nat} (hn : (allIndices [c, r])[n]? = some idx) :
    (transposeIter [r, c] (rowMajor [r, c])).position n = offset (rowMajor [r, c]) idx.reverse ∧
      ValidIndex [r, c] idx.reverse := by
  obtain ⟨hidx, -⟩ := getElem?_allIndices_iff.mp hn
  have hrev : ValidIndex [r, c] idx.reverse := List.forall₂_reverse_iff.mpr hidx
  obtain ⟨j, rest, -, hrest, rfl⟩ := List.forall₂_cons_right_iff.mp hidx
  obtain ⟨i, rest, -, hnil, rfl⟩ := List.forall₂_cons_right_iff.mp hrest
  obtain rfl := List.forall₂_nil_right_iff.mp hnil
  refine ⟨?_, hrev⟩
  rw [position_of_index ⟨rfl, rfl⟩ (Nat.le_refl _) hn]
  show offset (rowMajor [r, c]).reverse (shift [0, 0] [j, i]) = offset (rowMajor [r, c]) [i, j]
  rw [show shift [0, 0] [j, i] = [j, i] from shift_replicate_zero 2 _]
  simp only [rowMajor, List.reverse_cons, List.reverse_nil, List.nil_append, List.cons_append, offset_cons,
    offset_nil_right]
  omega

/-- The indices of a matrix are swapped, but a dynamic output has as many elements as the sum of its dims. -/
theorem transposes_iff {r c : Nat} (ha : Laid D [r, c] a) (hOut : Out = .dyn ∨ Out.fixed = some [c, r]) :
    Transposes Out a (transpose storageLen Out a) ↔ Out ≠ .dyn ∨ (c + r) % 2 ^ 64 = c * r := by
  have heq : transpose storageLen Out a = some (Out.withBuf (zeroed storageLen Out [c, r])
      (copyInto (D.asBuf a) (transposeIter [r, c] (rowMajor [r, c])) (Out.asBuf (zeroed storageLen Out [c, r])))) := by
    simp only [transpose, ha.arrayShape, ha.strides]
  have hlen : (Out.asBuf (zeroed storageLen Out [c, r] : Out.Buf T)).length = [c, r].prod ↔
      Out ≠ .dyn ∨ (c + r) % 2 ^ 64 = c * r := by
    rw [length_output_iff hOut, imp_iff_not_or]
    simp
  rw [← hlen, Transposes, heq, ha.arrayShape]
  constructor
  · rintro ⟨out, hout, hholds⟩
    obtain rfl := Option.some.inj hout
    have hcount := congrArg List.length hholds.elems
    rw [asBuf_withBuf (length_copyInto _ _), List.length_map, length_copyInto, List.length_map, length_allIndices] at hcount
    exact hcount
  · intro hcount
    have hinside : ∀ n < (Out.asBuf (zeroed storageLen Out [c, r] : Out.Buf T)).length,
        (transposeIter [r, c] (rowMajor [r, c])).position n < (D.asBuf a).length := fun n hn => by
      have hget : (allIndices [c, r])[n]? = some _ :=
        List.getElem?_eq_getElem (by rw [length_allIndices, ← hcount]; exact hn)
      obtain ⟨hpos, hidx⟩ := position_transpose hget
      rw [hpos, ha.length]
      exact offset_rowMajor_lt hidx
    refine ⟨_, rfl, (arrayShape_withBuf _ _).trans (arrayShape_output _ hOut), ?_⟩
    rw [asBuf_withBuf (length_copyInto _ _), copyInto_eq hinside, hcount]
    exact map_range_eq_iff.mpr fun n idx hn => by rw [(position_transpose hn).1, Dim.get?, ha.arrayShape]

end Metor.Proof.Nox
