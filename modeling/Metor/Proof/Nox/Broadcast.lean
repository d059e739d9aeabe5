import Metor.Proof.Nox.Strided

/-!
# Broadcasting

`cobroadcast_dims` gives the common shape (`cobroadcastDims_eq`), and
`broadcast_iter` the strides at which an array is read as if it had that shape:
zero for axes that it has not, or of size 1 (`offset_pinned`). The output is
allocated before the common shape is known, of the shape of the right operand:
for constants that makes no difference, as the type has its shape, but a
dynamic output is right only if that is the common shape (`broadcasts_iff`).
-/

namespace Metor.Proof.Nox

open Metor.Lib Metor.Impl.Nox

variable {T : Type} {s1 s2 : List Nat}

/-! ## The common shape -/

theorem broadcastableRev_comm : BroadcastableRev s1 s2 ↔ BroadcastableRev s2 s1 := by
  induction s1 generalizing s2 with
  | nil => cases s2 <;> exact Iff.rfl
  | cons x s1 ih =>
    cases s2 with
    | nil => exact Iff.rfl
    | cons y s2 =>
      have hxy : (x = y ∨ x = 1 ∨ y = 1) ↔ (y = x ∨ y = 1 ∨ x = 1) := by omega
      exact and_congr hxy ih

theorem broadcastRev_comm (h : BroadcastableRev s1 s2) : broadcastRev s1 s2 = broadcastRev s2 s1 := by
  induction s1 generalizing s2 with
  | nil => cases s2 <;> rfl
  | cons x s1 ih =>
    cases s2 with
    | nil => rfl
    | cons y s2 =>
      have hxy : (if x = 1 then y else x) = if y = 1 then x else y := by
        have := h.1
        split <;> split <;> omega
      rw [broadcastRev, broadcastRev, hxy, ih h.2]

theorem broadcastShape_comm (h : Broadcastable s1 s2) : broadcastShape s1 s2 = broadcastShape s2 s1 := by
  rw [broadcastShape, broadcastRev_comm h]
  rfl

/-- The axis of an array that is read along an axis of the common shape: of its size, or of size 1. -/
def Reads (d n : Nat) : Prop := d = n ∨ d = 1

theorem exists_reads_rev (h : BroadcastableRev s1 s2) :
    ∃ post pre, broadcastRev s1 s2 = post ++ pre ∧ List.Forall₂ Reads s1 post := by
  induction s1 generalizing s2 with
  | nil => exact ⟨[], broadcastRev [] s2, rfl, .nil⟩
  | cons x s1 ih =>
    cases s2 with
    | nil => exact ⟨x :: s1, [], (List.append_nil _).symm, List.forall₂_same.mpr fun _ _ => .inl rfl⟩
    | cons y s2 =>
      obtain ⟨post, pre, heq, hpost⟩ := ih h.2
      refine ⟨(if x = 1 then y else x) :: post, pre, congrArg _ heq, .cons ?_ hpost⟩
      split
      · exact .inr ‹_›
      · exact .inl rfl

/-- The last axes of the common shape are read along those of the array. -/
theorem exists_reads (h : Broadcastable s1 s2) :
    ∃ pre post, broadcastShape s1 s2 = pre ++ post ∧ List.Forall₂ Reads s1 post := by
  obtain ⟨post, pre, heq, hpost⟩ := exists_reads_rev h
  refine ⟨pre.reverse, post.reverse, ?_, ?_⟩
  · rw [broadcastShape, heq, List.reverse_append]
  · rw [← List.forall₂_reverse_iff, List.reverse_reverse]
    exact hpost

theorem cobroadcastRev_eq (h : BroadcastableRev s1 s2) (hlen : s2.length ≤ s1.length) :
    cobroadcastRev s1 s2 = some (broadcastRev s1 s2) := by
  induction s1 generalizing s2 with
  | nil =>
    obtain rfl := List.length_eq_zero_iff.mp (Nat.le_zero.mp hlen)
    rfl
  | cons x s1 ih =>
    cases s2 with
    | nil => rfl
    | cons y s2 =>
      rw [cobroadcastRev, ih h.2 (Nat.le_of_succ_le_succ hlen), broadcastRev]
      have hxy := h.1
      split
      · have hx : (if x = 1 then y else x) = x := by split <;> omega
        rw [hx]
        rfl
      · have hx : x = 1 := by omega
        rw [if_pos hx, if_pos hx]
        rfl

theorem cobroadcastDims_eq (h : Broadcastable s1 s2) (hlen : s2.length ≤ s1.length) :
    cobroadcastDims s1 s2 = some (broadcastShape s1 s2) := by
  rw [cobroadcastDims, cobroadcastRev_eq h (by simpa using hlen)]
  rfl

/-! ## Strides -/

/-- The stride along an axis. -/
def pinned (axis : Nat × Nat) (n : Nat) : Nat := if axis.1 = n then axis.2 else 0

theorem newStridesRev_eq {dims strides post pre : List Nat} (h : List.Forall₂ Reads dims post)
    (hlen : strides.length = dims.length) :
    newStridesRev dims strides (post ++ pre) = some (List.zipWith pinned (dims.zip strides) post ++ pre) := by
  induction h generalizing strides with
  | nil =>
    obtain rfl := List.length_eq_zero_iff.mp hlen
    cases pre <;> rfl
  | @cons d n dims post hd _ ih =>
    obtain ⟨s, strides, rfl⟩ := List.exists_cons_of_length_eq_add_one hlen
    rw [List.cons_append, newStridesRev, List.tail_cons, ih (Nat.add_right_cancel hlen)]
    show (if d = n then _ else if d = 1 then _ else none) = some (pinned (d, s) n :: _)
    rw [pinned]
    split
    · rfl
    · rw [if_pos (hd.resolve_left ‹_›)]
      rfl

/-- An array is read as if it had the common shape. -/
theorem broadcastIter_eq {dims strides pre post : List Nat} (h : List.Forall₂ Reads dims post)
    (hlen : strides.length = dims.length) :
    broadcastIter dims strides (pre ++ post) = some
      { stride := List.replicate pre.length 0 ++ List.zipWith pinned (dims.zip strides) post
        indexes := (pre ++ post).map fun _ => 0
        dims := pre ++ post
        offsets := (pre ++ post).map fun _ => 0
        bumpIndex := false } := by
  have hpost : post.length = dims.length := h.length_eq.symm
  have hrev : newStridesRev dims.reverse strides.reverse (pre ++ post).reverse =
      some ((List.zipWith pinned (dims.zip strides) post).reverse ++ pre.reverse) := by
    rw [List.reverse_append, newStridesRev_eq (List.forall₂_reverse_iff.mpr h) (by simpa using hlen)]
    rw [List.reverse_zipWith (by simp [hlen, hpost]), List.zip_eq_zipWith, List.zip_eq_zipWith,
      List.reverse_zipWith hlen.symm]
  have hzeros : (pre ++ post).length - dims.length = pre.length := by
    rw [List.length_append, hpost, Nat.add_sub_cancel]
  rw [broadcastIter, hrev]
  simp only [Option.bind_eq_bind, Option.bind_some, hzeros]
  rw [if_neg (by rw [List.length_append]; omega)]
  simp

/-- At these strides, the index is pinned. -/
theorem offset_zipWith_pinned {dims strides post idx : List Nat} (h : List.Forall₂ Reads dims post)
    (hlen : strides.length = dims.length) (hidx : ValidIndex post idx) :
    offset (List.zipWith pinned (dims.zip strides) post) idx =
      offset strides (List.zipWith (fun d i => if d = 1 then 0 else i) dims idx) := by
  induction h generalizing strides idx with
  | nil => rw [List.zipWith_nil_right, offset_nil_left, List.zipWith_nil_left, offset_nil_right]
  | @cons d n dims post hd _ ih =>
    obtain ⟨s, strides, rfl⟩ := List.exists_cons_of_length_eq_add_one hlen
    obtain ⟨i, rest, hi, hrest, rfl⟩ := List.forall₂_cons_right_iff.mp hidx
    have haxis : i * pinned (d, s) n = (if d = 1 then 0 else i) * s := by
      rw [pinned]
      obtain rfl | rfl := hd
      · rw [if_pos rfl]
        split
        · rw [show i = 0 by omega, Nat.zero_mul]
        · rfl
      · rw [if_pos rfl, Nat.zero_mul]
        show i * (if 1 = n then s else 0) = 0
        split
        · rw [show i = 0 by omega, Nat.zero_mul]
        · exact Nat.mul_zero i
    rw [List.zip_cons_cons, List.zipWith_cons_cons, offset_cons, haxis, ih (Nat.add_right_cancel hlen) hrest]
    rfl

theorem validIndex_pinned {dims post idx : List Nat} (h : List.Forall₂ Reads dims post) (hidx : ValidIndex post idx) :
    ValidIndex dims (List.zipWith (fun d i => if d = 1 then 0 else i) dims idx) := by
  induction h generalizing idx with
  | nil => exact .nil
  | @cons d n dims post hd _ ih =>
    obtain ⟨i, rest, hi, hrest, rfl⟩ := List.forall₂_cons_right_iff.mp hidx
    refine .cons ?_ (ih hrest)
    show (if d = 1 then 0 else i) < d
    obtain rfl | rfl := hd
    · split
      · omega
      · exact hi
    · exact Nat.zero_lt_one

theorem pin_eq {s pre post idx : List Nat} (h : List.Forall₂ Reads s post) (hidx : ValidIndex (pre ++ post) idx) :
    pin s idx = List.zipWith (fun d i => if d = 1 then 0 else i) s (idx.drop pre.length) := by
  rw [pin, hidx.length_eq, List.length_append, ← h.length_eq, Nat.add_sub_cancel]

theorem offset_pinned {s strides pre post idx : List Nat} (h : List.Forall₂ Reads s post)
    (hlen : strides.length = s.length) (hidx : ValidIndex (pre ++ post) idx) :
    offset (List.replicate pre.length 0 ++ List.zipWith pinned (s.zip strides) post) idx = offset strides (pin s idx) := by
  have hdrop : ValidIndex post (idx.drop pre.length) := List.forall₂_drop_append _ _ _ hidx
  have htake : (idx.take pre.length).length = (List.replicate pre.length 0).length := by
    rw [List.length_take, hidx.length_eq, List.length_append, List.length_replicate]
    omega
  have hsplit := offset_append htake (List.zipWith pinned (s.zip strides) post) (idx.drop pre.length)
  rw [List.take_append_drop] at hsplit
  rw [hsplit, offset_zeros, Nat.zero_add, offset_zipWith_pinned h hlen hdrop, pin_eq h hidx]

/-- The items of an array that is read as if it had the common shape. -/
theorem exists_broadcastIter {D : Dim} {s c : List Nat} {a : D.Buf T} (ha : Laid D s a)
    (hc : ∃ pre post, c = pre ++ post ∧ List.Forall₂ Reads s post) :
    ∃ it, broadcastIter s (D.strides a) c = some it ∧ ∀ n idx, (allIndices c)[n]? = some idx →
      it.position n < (D.asBuf a).length ∧ (D.asBuf a)[it.position n]? = D.get? a (pin s idx) := by
  obtain ⟨pre, post, rfl, hpost⟩ := hc
  have hlen : (D.strides a).length = s.length := by rw [ha.strides, length_rowMajor]
  refine ⟨_, broadcastIter_eq hpost hlen, fun n idx h => ?_⟩
  obtain ⟨hidx, -⟩ := getElem?_allIndices_iff.mp h
  have hdrop : ValidIndex post (idx.drop pre.length) := List.forall₂_drop_append _ _ _ hidx
  rw [position_of_index ?_ ?_ h]
  · show offset _ (shift ((pre ++ post).map fun _ => 0) idx) < _ ∧ (D.asBuf a)[offset _ (shift ((pre ++ post).map fun _ => 0) idx)]? = _
    rw [List.map_const', shift_replicate_zero, offset_pinned hpost hlen hidx, ha.strides, ha.length, Dim.get?, ha.arrayShape, pin_eq hpost hidx]
    exact ⟨offset_rowMajor_lt (validIndex_pinned hpost hdrop), rfl⟩
  · refine ⟨rfl, ?_⟩
    show (pre ++ post).map (fun _ => 0) = shift ((pre ++ post).map fun _ => 0) (List.replicate (pre ++ post).length 0)
    rw [List.map_const', shift_replicate_zero]
  · show (pre ++ post).length ≤ ((pre ++ post).map fun _ => 0).length
    rw [List.length_map]

/-! ## Operators -/

/-- What is computed, given the items of both arrays. -/
theorem zipInto_allIndices {f : T → T → T} {bufA bufB out : List T} {itA itB : StrideIterator} {c : List Nat}
    {x y : List Nat → Option T} (hout : out.length = c.prod)
    (hA : ∀ n idx, (allIndices c)[n]? = some idx → itA.position n < bufA.length ∧ bufA[itA.position n]? = x idx)
    (hB : ∀ n idx, (allIndices c)[n]? = some idx → itB.position n < bufB.length ∧ bufB[itB.position n]? = y idx) :
    (zipInto f bufA bufB itA itB out).map some = (allIndices c).map fun idx => Option.map₂ f (x idx) (y idx) := by
  have hidx : ∀ n < out.length, ∃ idx, (allIndices c)[n]? = some idx := fun n hn =>
    ⟨_, List.getElem?_eq_getElem (by rw [length_allIndices, ← hout]; exact hn)⟩
  have hltA : ∀ n < out.length, itA.position n < bufA.length := fun n hn => by
    obtain ⟨idx, h⟩ := hidx n hn
    exact (hA n idx h).1
  have hltB : ∀ n < out.length, itB.position n < bufB.length := fun n hn => by
    obtain ⟨idx, h⟩ := hidx n hn
    exact (hB n idx h).1
  rw [zipInto_eq hltA hltB, hout]
  exact map_range_eq_iff.mpr fun n idx h => by rw [(hA n idx h).2, (hB n idx h).2]

variable [Inhabited T] {len : List Nat → Nat} {op : T → T → T} {D1 D2 Out : Dim} {a : D1.Buf T} {b : D2.Buf T}

variable (len op Out) in
/-- The values of an operator, in an output of the shape of the right operand. -/
theorem elementwise_eq (ha : Laid D1 s1 a) (hb : Laid D2 s2 b) (h : Broadcastable s1 s2) :
    ∃ values, elementwise len op Out a b = some (Out.withBuf (zeroed len Out s2) values) ∧
      ((Out.asBuf (zeroed len Out s2 : Out.Buf T)).length = (broadcastShape s1 s2).prod →
        values.map some = (allIndices (broadcastShape s1 s2)).map fun idx =>
          Option.map₂ op (D1.get? a (pin s1 idx)) (D2.get? b (pin s2 idx))) := by
  have hcomm : broadcastShape s2 s1 = broadcastShape s1 s2 := (broadcastShape_comm h).symm
  have h' : Broadcastable s2 s1 := broadcastableRev_comm.mp h
  obtain ⟨itA, hitA, hposA⟩ := exists_broadcastIter ha (exists_reads h)
  obtain ⟨itB, hitB, hposB⟩ := exists_broadcastIter hb (hcomm ▸ exists_reads h')
  simp only [elementwise, ha.arrayShape, hb.arrayShape]
  by_cases hlen : s1.length ≤ s2.length
  · rw [if_pos hlen, cobroadcastDims_eq h' hlen, hcomm]
    simp only [Option.bind_eq_bind, Option.bind_some, hitA, hitB]
    exact ⟨_, rfl, fun hout => zipInto_allIndices hout hposA hposB⟩
  · rw [if_neg hlen, cobroadcastDims_eq h (Nat.le_of_not_le hlen)]
    simp only [Option.bind_eq_bind, Option.bind_some, hitA, hitB]
    refine ⟨_, rfl, fun hout => (zipInto_allIndices hout hposB hposA).trans (List.map_congr_left fun idx _ => ?_)⟩
    exact Option.map₂_swap _ _ _

/-- When element-wise operators broadcast correctly: the output has a constant shape, or the common shape is that of
the right operand. -/
theorem broadcasts_iff (hlen : ∀ dims, len dims = dims.prod) (ha : Laid D1 s1 a) (hb : Laid D2 s2 b)
    (h : Broadcastable s1 s2) (hOut : Out = .dyn ∨ Out.fixed = some (broadcastShape s1 s2)) :
    Broadcasts op Out a b (elementwise len op Out a b) ↔ Out ≠ .dyn ∨ s2 = broadcastShape s1 s2 := by
  obtain ⟨values, heq, hvalues⟩ := elementwise_eq len op Out ha hb h
  rw [Broadcasts, heq, ha.arrayShape, hb.arrayShape]
  have hshape : Out.arrayShape (Out.withBuf (zeroed len Out s2) values) = Out.fixed.getD s2 := by
    rw [arrayShape_withBuf, arrayShape_zeroed]
  constructor
  · rintro ⟨out, hout, hholds⟩
    obtain rfl := Option.some.inj hout
    by_cases hdyn : Out = .dyn
    · subst hdyn
      exact .inr (hshape.symm.trans hholds.arrayShape)
    · exact .inl hdyn
  · intro hcond
    have hcommon : Out.fixed.getD s2 = broadcastShape s1 s2 := by
      obtain rfl | hfixed := hOut
      · exact hcond.resolve_left fun hne => hne rfl
      · rw [hfixed]
        rfl
    have hzeroed : (Out.asBuf (zeroed len Out s2 : Out.Buf T)).length = (broadcastShape s1 s2).prod := by
      obtain rfl | hfixed := hOut
      · rw [← hcommon]
        exact length_zeroed (by intro s hs; cases hs) fun _ => hlen s2
      · exact length_fixed hfixed _
    have hmap := hvalues hzeroed
    have hlength : values.length = (Out.asBuf (zeroed len Out s2 : Out.Buf T)).length := by
      have hcount := congrArg List.length hmap
      simpa [hzeroed] using hcount
    refine ⟨_, rfl, hshape.trans hcommon, ?_⟩
    rw [asBuf_withBuf hlength]
    exact hmap

/-- A column and a row, of two constants each. -/
theorem broadcasts_iff_column_row :
    @Broadcasts Int (· + ·) (.const2 2 1) (.const2 1 2) (.const2 2 2) #v[#v[1], #v[2]] #v[#v[10, 20]]
        (@elementwise Int _ List.prod (· + ·) (.const2 2 1) (.const2 1 2) (.const2 2 2) #v[#v[1], #v[2]] #v[#v[10, 20]]) ↔
      Dim.const2 2 2 ≠ .dyn ∨ [1, 2] = broadcastShape [2, 1] [1, 2] := by
  have ha : Laid (.const2 2 1) [2, 1] (#v[#v[1], #v[2]] : Vector (Vector Int 1) 2) :=
    (laid_fixed_iff rfl _).mpr trivial
  have hb : Laid (.const2 1 2) [1, 2] (#v[#v[10, 20]] : Vector (Vector Int 2) 1) :=
    (laid_fixed_iff rfl _).mpr trivial
  exact broadcasts_iff (fun _ => rfl) ha hb (by simp [Broadcastable, BroadcastableRev]) (.inr (by decide))

/-- A dynamic matrix and a vector: the result has the shape of the vector. -/
theorem elementwise_dyn_not_broadcasts :
    ¬ @Broadcasts Int (· + ·) .dyn .dyn .dyn ⟨[1, 2, 3, 4], [2, 2], [2, 1]⟩ ⟨[10, 20], [2], [1]⟩
      (@elementwise Int _ List.prod (· + ·) .dyn .dyn .dyn ⟨[1, 2, 3, 4], [2, 2], [2, 1]⟩ ⟨[10, 20], [2], [1]⟩) := by
  have heval : @elementwise Int _ List.prod (· + ·) .dyn .dyn .dyn ⟨[1, 2, 3, 4], [2, 2], [2, 1]⟩ ⟨[10, 20], [2], [1]⟩ =
      some ⟨[11, 22], [2], [1]⟩ := rfl
  rw [heval]
  rintro ⟨out, hout, hholds⟩
  obtain rfl := Option.some.inj hout
  have hshape : [2] = broadcastShape [2, 2] [2] := hholds.arrayShape
  exact absurd hshape (by decide)

end Metor.Proof.Nox
