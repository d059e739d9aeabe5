import Mathlib.Data.List.Chain
import Metor.Proof.Nox.Windows

/-!
# Concatenation

What `concat_many` writes is a window of the output for each argument
(`concatArgs_eq`), so the result is right if the windows are those of the
elements (`holds_of_positions`). Along an axis they always are, but a dynamic
output gets one more axis (`joins_iff`). In a stack along a new axis the other
axes are moved by one, since the sizes are padded in front, so the result is
right only if of any two neighbouring axes, up to the new one, one has size 1
(`stacks_iff`).
-/

namespace Metor.Proof.Nox

open Metor.Lib Metor.Impl.Nox

variable {T : Type}

/-! ## Several arguments -/

/-- The arguments are written one after the other. -/
def writeAll : (its : Nat → StrideIterator) → (args : List (List T)) → (out : List T) → List T
  | _, [], out => out
  | its, arg :: args, out => writeAll (fun i => its (i + 1)) args (scatter (its 0) arg out)

@[simp] theorem length_writeAll (its : Nat → StrideIterator) (args : List (List T)) (out : List T) :
    (writeAll its args out).length = out.length := by
  induction args generalizing its out with
  | nil => rfl
  | cons arg args ih => rw [writeAll, ih, length_scatter]

/-- What is there was there before, or written. -/
theorem writeAll_sound {its : Nat → StrideIterator} {args : List (List T)} {out : List T} {p : Nat} {x : T}
    (h : (writeAll its args out)[p]? = some x) :
    out[p]? = some x ∨ ∃ i n arg, args[i]? = some arg ∧ (its i).position n = p ∧ arg[n]? = some x := by
  induction args generalizing its out with
  | nil => exact .inl h
  | cons arg args ih =>
    obtain hbefore | ⟨i, n, arg', harg, hpos, hx⟩ := ih h
    · obtain hout | ⟨n, hpos, hx⟩ := scatter_sound hbefore
      · exact .inl hout
      · exact .inr ⟨0, n, arg, rfl, hpos, hx⟩
    · exact .inr ⟨i + 1, n, arg', harg, hpos, hx⟩

/-- What is not written stays. -/
theorem writeAll_frame {its : Nat → StrideIterator} {args : List (List T)} {out : List T} {p : Nat}
    (h : ∀ i arg, args[i]? = some arg → ∀ n < arg.length, (its i).position n ≠ p) :
    (writeAll its args out)[p]? = out[p]? := by
  induction args generalizing its out with
  | nil => rfl
  | cons arg args ih =>
    rw [writeAll, ih fun i arg' harg => h (i + 1) arg' harg, scatter_frame (h 0 arg rfl)]

/-- What is written to distinct positions is there. -/
theorem writeAll_complete {its : Nat → StrideIterator} {args : List (List T)} {out : List T}
    (hin : ∀ i arg, args[i]? = some arg → ∀ n < arg.length, (its i).position n < out.length)
    (hinj : ∀ i j arg arg', args[i]? = some arg → args[j]? = some arg' → ∀ n < arg.length, ∀ m < arg'.length,
      (its i).position n = (its j).position m → i = j ∧ n = m)
    {i n : Nat} {arg : List T} {x : T} (harg : args[i]? = some arg) (hx : arg[n]? = some x) :
    (writeAll its args out)[(its i).position n]? = some x := by
  induction args generalizing its out i with
  | nil => cases harg
  | cons first args ih =>
    have hn : n < arg.length := (List.getElem?_eq_some_iff.mp hx).1
    cases i with
    | zero =>
      obtain rfl := Option.some.inj harg
      have hlater : ∀ i arg', args[i]? = some arg' → ∀ m < arg'.length, (its (i + 1)).position m ≠ (its 0).position n := by
        intro i arg' harg' m hm heq
        cases (hinj (i + 1) 0 arg' first harg' rfl m hm n hn heq).1
      rw [writeAll, writeAll_frame hlater]
      exact scatter_complete (hin 0 first rfl) (fun n hn m hm heq => (hinj 0 0 first first rfl rfl n hn m hm heq).2) hx
    | succ i =>
      rw [writeAll]
      refine ih (fun i arg' harg' n hn => ?_) (fun i j a b ha hb n hn m hm heq => ?_) harg
      · rw [length_scatter]
        exact hin (i + 1) arg' harg' n hn
      · obtain ⟨hij, hnm⟩ := hinj (i + 1) (j + 1) a b ha hb n hn m hm heq
        exact ⟨Nat.succ.inj hij, hnm⟩

/-! ## The loop -/

/-- Where argument `i` goes. -/
def argIter (out strides elem : List Nat) (axis offset delta i : Nat) : StrideIterator :=
  { offsetIter out strides (out.mapIdx fun k _ => if k ≠ axis then 0 else offset + i * delta) with dims := elem }

variable {D Out : Dim} {s o : List Nat} {axis : Nat}

/-- The sizes of an argument, padded in front. -/
def padded (s o : List Nat) : List Nat := List.replicate (o.length - s.length) 1 ++ s

theorem concatArg_eq {arg : D.Buf T} (harg : D.arrayShape arg = s) {out : Out.Buf T} (hout : Out.arrayShape out = o)
    (hs : s.length ≤ o.length) {delta : Nat} (hdelta : (padded s o)[axis]? = some delta) (offset : Nat) :
    concatArg axis out offset arg = some (Out.withBuf out (scatter
      (argIter o (Out.strides out) (padded s o) axis offset delta 0) (D.asBuf arg) (Out.asBuf out)), offset + delta) := by
  rw [padded] at hdelta
  simp only [concatArg, harg, hout, argIter, padded, Nat.zero_mul, Nat.add_zero]
  rw [if_neg (Nat.not_lt.mpr hs), hdelta]
  rfl

/-- The arguments, one after the other, each at its offset. -/
theorem concatArgs_eq {args : List (D.Buf T)} (hargs : ∀ arg ∈ args, D.arrayShape arg = s) {out : Out.Buf T}
    (hout : Out.arrayShape out = o) (hs : s.length ≤ o.length) {delta : Nat}
    (hdelta : (padded s o)[axis]? = some delta) (offset : Nat) :
    ∃ out', concatArgs axis out offset args = some out' ∧ Out.arrayShape out' = o ∧ Out.asBuf out' =
      writeAll (argIter o (Out.strides out) (padded s o) axis offset delta) (args.map D.asBuf) (Out.asBuf out) := by
  induction args generalizing out offset with
  | nil => exact ⟨out, rfl, hout, rfl⟩
  | cons arg args ih =>
    have hnext : ∀ i, argIter o (Out.strides out) (padded s o) axis (offset + delta) delta i =
        argIter o (Out.strides out) (padded s o) axis offset delta (i + 1) := by
      intro i
      rw [argIter, argIter, show offset + delta + i * delta = offset + (i + 1) * delta by ring]
    obtain ⟨out', heq, hshape, hbuf⟩ := ih (fun arg h => hargs arg (List.mem_cons_of_mem _ h))
      ((arrayShape_withBuf out _).trans hout) (offset + delta)
    rw [asBuf_withBuf (length_scatter _ _), strides_withBuf, funext hnext] at hbuf
    refine ⟨out', ?_, hshape, hbuf⟩
    rw [concatArgs, concatArg_eq (hargs arg List.mem_cons_self) hout hs hdelta]
    exact heq

/-- An offset along one axis. -/
theorem offset_mapIdx {strides : List Nat} (v : Nat) (h : strides.length = o.length) :
    offset strides (o.mapIdx fun k _ => if k ≠ axis then 0 else v) = v * strides.getD axis 0 := by
  induction o generalizing strides axis with
  | nil =>
    obtain rfl := List.length_eq_zero_iff.mp h
    simp
  | cons d o ih =>
    obtain ⟨s, strides, rfl⟩ := List.exists_cons_of_length_eq_add_one h
    rw [List.mapIdx_cons, offset_cons]
    cases axis with
    | zero =>
      have hzero : (o.mapIdx fun k _ => if k + 1 ≠ 0 then 0 else v) = List.replicate o.length 0 := by
        refine List.eq_replicate_iff.mpr ⟨List.length_mapIdx, fun x hx => ?_⟩
        obtain ⟨k, hk, rfl⟩ := List.mem_mapIdx.mp hx
        exact if_pos (Nat.succ_ne_zero k)
      rw [hzero, offset_replicate_zero]
      simp
    | succ axis =>
      have hrest : offset strides (o.mapIdx fun k _ => if k ≠ axis then 0 else v) = v * strides.getD axis 0 :=
        ih (Nat.add_right_cancel h)
      simpa using hrest

/-- Where an element of argument `i` goes. -/
theorem position_argIter {delta i n : Nat} {idx : List Nat} {elem : List Nat} (hlen : elem.length = o.length)
    (h : (allIndices elem)[n]? = some idx) :
    (argIter o (rowMajor o) elem axis 0 delta i).position n =
      i * delta * (rowMajor o).getD axis 0 + offset (rowMajor o) idx := by
  have hidx : idx.length = o.length := ((getElem?_allIndices_iff.mp h).1.length_eq).trans hlen
  have hoffsets : (o.mapIdx fun k _ => if k ≠ axis then 0 else 0 + i * delta).length = o.length := List.length_mapIdx
  rw [argIter, position_of_index (starts_offsetIter hlen) (by rw [hlen]; exact Nat.le_of_eq hoffsets.symm) h]
  show offset (rowMajor o) (shift (o.mapIdx fun k _ => if k ≠ axis then 0 else 0 + i * delta) idx) = _
  rw [offset_shift (hoffsets.trans hidx.symm), offset_mapIdx _ (length_rowMajor o), Nat.zero_add]

/-- If each index has its element written to its position, the result has these elements. -/
theorem holds_of_positions {its : Nat → StrideIterator} {args : List (D.Buf T)} (hargs : ∀ arg ∈ args, Laid D s arg)
    {source : List Nat → Nat × List Nat} {out : List T} (hlen : out.length = o.prod)
    (hsource : ∀ idx, ValidIndex o idx → (source idx).1 < args.length ∧ ValidIndex s (source idx).2 ∧
      (its (source idx).1).position (offset (rowMajor s) (source idx).2) = offset (rowMajor o) idx)
    (hsurj : ∀ i < args.length, ∀ j, ValidIndex s j → ∃ idx, ValidIndex o idx ∧ source idx = (i, j)) :
    (writeAll its (args.map D.asBuf) out).map some =
      (allIndices o).map fun idx => args[(source idx).1]?.bind fun arg => D.get? arg (source idx).2 := by
  have hbuf : ∀ i buf, (args.map D.asBuf)[i]? = some buf → i < args.length ∧ buf.length = s.prod := by
    intro i buf h
    rw [List.getElem?_map, Option.map_eq_some_iff] at h
    obtain ⟨arg, harg, rfl⟩ := h
    exact ⟨(List.getElem?_eq_some_iff.mp harg).1, (hargs arg (List.mem_of_getElem? harg)).length⟩
  -- each element of an argument is that of an index
  have hfrom : ∀ i buf, (args.map D.asBuf)[i]? = some buf → ∀ n < buf.length, ∃ idx, ValidIndex o idx ∧
      (source idx).1 = i ∧ offset (rowMajor s) (source idx).2 = n ∧ (its i).position n = offset (rowMajor o) idx := by
    intro i buf h n hn
    obtain ⟨hi, hlength⟩ := hbuf i buf h
    rw [hlength] at hn
    obtain ⟨j, hj, rfl⟩ := exists_offset_eq hn
    obtain ⟨idx, hidx, hsrc⟩ := hsurj i hi j hj
    obtain ⟨-, -, hpos⟩ := hsource idx hidx
    rw [hsrc] at hpos
    exact ⟨idx, hidx, by rw [hsrc], by rw [hsrc], hpos⟩
  have hin : ∀ i buf, (args.map D.asBuf)[i]? = some buf → ∀ n < buf.length, (its i).position n < out.length := by
    intro i buf h n hn
    obtain ⟨idx, hidx, -, -, hpos⟩ := hfrom i buf h n hn
    rw [hpos, hlen]
    exact offset_rowMajor_lt hidx
  have hinj : ∀ i j buf buf', (args.map D.asBuf)[i]? = some buf → (args.map D.asBuf)[j]? = some buf' →
      ∀ n < buf.length, ∀ m < buf'.length, (its i).position n = (its j).position m → i = j ∧ n = m := by
    intro i j buf buf' h h' n hn m hm heq
    obtain ⟨idx, hidx, rfl, rfl, hpos⟩ := hfrom i buf h n hn
    obtain ⟨idx', hidx', rfl, rfl, hpos'⟩ := hfrom j buf' h' m hm
    obtain rfl := offset_inj hidx hidx' (hpos.symm.trans (heq.trans hpos'))
    exact ⟨rfl, rfl⟩
  rw [map_some_eq, length_writeAll, hlen]
  refine map_range_eq_iff.mpr fun n idx h => ?_
  obtain ⟨hidx, rfl⟩ := getElem?_allIndices_iff.mp h
  obtain ⟨hi, hj, hpos⟩ := hsource idx hidx
  have harg := hargs _ (List.getElem_mem hi)
  have hlt : offset (rowMajor s) (source idx).2 < (D.asBuf args[(source idx).1]).length := by
    rw [harg.length]
    exact offset_rowMajor_lt hj
  rw [← hpos, writeAll_complete hin hinj (by rw [List.getElem?_map, List.getElem?_eq_getElem hi]; rfl)
    (List.getElem?_eq_getElem hlt), List.getElem?_eq_getElem hi, Option.bind_some, Dim.get?, harg.arrayShape,
    List.getElem?_eq_getElem hlt]

/-! ## Along an axis -/

theorem modify_append_cons (pre post : List Nat) (x : Nat) (f : Nat → Nat) :
    (pre ++ x :: post).modify pre.length f = pre ++ f x :: post := by
  induction pre with
  | nil => rfl
  | cons y pre ih => rw [List.cons_append, List.length_cons, List.modify_succ_cons, ih, List.cons_append]

theorem insertIdx_append (pre post : List Nat) (x : Nat) : (pre ++ post).insertIdx pre.length x = pre ++ x :: post := by
  induction pre with
  | nil => rfl
  | cons y pre ih => rw [List.cons_append, List.length_cons, List.insertIdx_succ_cons, ih, List.cons_append]

theorem concatSource_eq {sp sq pre post : List Nat} {d x : Nat} (h : pre.length = sp.length) :
    concatSource (sp ++ d :: sq) sp.length (pre ++ x :: post) = (x / d, pre ++ x % d :: post) := by
  rw [concatSource, ← h, modify_append_cons]
  simp [h]

/-- Along an axis, each argument goes where its elements belong. -/
theorem concat_positions (sp sq : List Nat) (d count : Nat) :
    (∀ idx, ValidIndex (sp ++ d * count :: sq) idx →
      (concatSource (sp ++ d :: sq) sp.length idx).1 < count ∧
      ValidIndex (sp ++ d :: sq) (concatSource (sp ++ d :: sq) sp.length idx).2 ∧
      (argIter (sp ++ d * count :: sq) (rowMajor (sp ++ d * count :: sq)) (sp ++ d :: sq) sp.length 0 d
        (concatSource (sp ++ d :: sq) sp.length idx).1).position
          (offset (rowMajor (sp ++ d :: sq)) (concatSource (sp ++ d :: sq) sp.length idx).2) =
        offset (rowMajor (sp ++ d * count :: sq)) idx) ∧
    ∀ i < count, ∀ j, ValidIndex (sp ++ d :: sq) j →
      ∃ idx, ValidIndex (sp ++ d * count :: sq) idx ∧ concatSource (sp ++ d :: sq) sp.length idx = (i, j) := by
  constructor
  · intro idx hidx
    obtain ⟨pre, x, post, rfl, hpre, hx, hpost⟩ := ValidIndex.append_cons_iff.mp hidx
    have hd : 0 < d := Nat.pos_of_mul_pos_right (Nat.lt_of_le_of_lt (Nat.zero_le x) hx)
    rw [concatSource_eq hpre.length_eq]
    have hj : ValidIndex (sp ++ d :: sq) (pre ++ x % d :: post) :=
      ValidIndex.append_cons_iff.mpr ⟨pre, x % d, post, rfl, hpre, Nat.mod_lt x hd, hpost⟩
    refine ⟨Nat.div_lt_of_lt_mul hx, hj, ?_⟩
    have hlen : (sp ++ d :: sq).length = (sp ++ d * count :: sq).length := by simp
    rw [position_argIter hlen (getElem?_allIndices hj), getD_rowMajor, offset_append_cons hpre, offset_append_cons hpre]
    calc x / d * d * sq.prod + ((offset (rowMajor sp) pre * (d * count) + x % d) * sq.prod + offset (rowMajor sq) post)
        = (offset (rowMajor sp) pre * (d * count) + (d * (x / d) + x % d)) * sq.prod + offset (rowMajor sq) post := by
          ring
      _ = _ := by rw [Nat.div_add_mod]
  · intro i hi j hj
    obtain ⟨pre, y, post, rfl, hpre, hy, hpost⟩ := ValidIndex.append_cons_iff.mp hj
    have hd : 0 < d := Nat.lt_of_le_of_lt (Nat.zero_le y) hy
    refine ⟨pre ++ (d * i + y) :: post, ValidIndex.append_cons_iff.mpr ⟨pre, _, post, rfl, hpre, ?_, hpost⟩, ?_⟩
    · calc d * i + y < d * i + d := Nat.add_lt_add_left hy _
        _ = d * (i + 1) := by ring
        _ ≤ d * count := Nat.mul_le_mul_left d hi
    · rw [concatSource_eq hpre.length_eq, Nat.mul_add_div hd, Nat.div_eq_of_lt hy, Nat.mul_add_mod, Nat.mod_eq_of_lt hy,
        Nat.add_zero]

variable {a : D.Buf T} {count : Nat}

theorem ne_scalar (ha : Laid D s a) (hs : s ≠ []) : D ≠ .scalar := by
  rintro rfl
  exact hs ha.arrayShape.symm

theorem exists_append (h : axis ≤ s.length) : ∃ sp sq, s = sp ++ sq ∧ sp.length = axis :=
  ⟨s.take axis, s.drop axis, (List.take_append_drop axis s).symm, List.length_take_of_le h⟩

variable [Inhabited T]

theorem concatMany_eq {args : List (D.Buf T)} (hargs : ∀ arg ∈ args, Laid D s arg) (hne : args ≠ []) (hD : D ≠ .scalar)
    (hfrom : fromLenElem Out args.length axis s = some o) (hs : s.length ≤ o.length)
    (hOut : Out = .dyn ∨ Out.fixed = some o) {delta : Nat} (hdelta : (padded s o)[axis]? = some delta) :
    ∃ out', concatMany storageLen Out args axis = some out' ∧ Out.arrayShape out' = o ∧ Out.asBuf out' =
      writeAll (argIter o (Out.strides (zeroed storageLen Out o : Out.Buf T)) (padded s o) axis 0 delta)
        (args.map D.asBuf) (Out.asBuf (zeroed storageLen Out o)) := by
  obtain ⟨out', heq, hrest⟩ := concatArgs_eq (fun arg h => (hargs arg h).arrayShape)
    (arrayShape_output storageLen hOut) hs hdelta 0
  refine ⟨out', ?_, hrest⟩
  obtain ⟨arg, rest, rfl⟩ := List.exists_cons_of_ne_nil hne
  rw [concatMany, if_neg hD, ← heq]
  simp only [(hargs arg List.mem_cons_self).arrayShape, hfrom, Option.bind_eq_bind, Option.bind_some]

/-- The shape of a dynamic output has one axis more than the arguments. -/
theorem fromLenElem_dyn (h : axis ≤ s.length) : fromLenElem .dyn count axis s = some (s.insertIdx axis count) := by
  rw [fromLenElem]
  exact if_neg (Nat.not_lt.mpr h)

/-- Along an axis, arguments are joined in an output of constants, of which there is at least one. -/
theorem joins_iff (ha : Laid D s a) (haxis : axis < s.length)
    (hOut : Out = .dyn ∨ Out.fixed = some (s.modify axis (· * count)))
    (hstrides : Out.strides (zeroed storageLen Out (s.modify axis (· * count)) : Out.Buf T) =
      rowMajor (s.modify axis (· * count))) :
    JoinsAll T D Out s axis count (s.modify axis (· * count)) (concatSource s axis) ↔ 0 < count ∧ Out ≠ .dyn := by
  have hD : D ≠ .scalar := ne_scalar ha (List.ne_nil_of_length_pos (Nat.lt_of_le_of_lt (Nat.zero_le _) haxis))
  constructor
  · intro hall
    have hpos : 0 < count := by
      by_contra hzero
      obtain ⟨out, heq, -⟩ := hall [] (Nat.eq_zero_of_not_pos hzero).symm (by simp)
      rw [concatMany, if_neg hD] at heq
      cases heq
    refine ⟨hpos, ?_⟩
    rintro rfl
    have hargs : ∀ arg ∈ List.replicate count a, Laid D s arg := fun arg h => (List.eq_of_mem_replicate h) ▸ ha
    obtain ⟨out, heq, hholds⟩ := hall (List.replicate count a) List.length_replicate hargs
    obtain ⟨delta, hdelta⟩ : ∃ delta, (padded s (s.insertIdx axis count))[axis]? = some delta := by
      refine ⟨_, List.getElem?_eq_getElem ?_⟩
      rw [padded, List.length_append, List.length_replicate]
      omega
    have hshapes : Dim.dyn = .dyn ∨ Dim.dyn.fixed = some (s.insertIdx axis count) := .inl rfl
    obtain ⟨out', heq', hshape, -⟩ := concatMany_eq hargs (by simpa using Nat.ne_of_gt hpos) hD
      (by rw [List.length_replicate]; exact fromLenElem_dyn (Nat.le_of_lt haxis))
      (by rw [List.length_insertIdx]; split <;> omega) hshapes hdelta
    obtain rfl := Option.some.inj (heq.symm.trans heq')
    have hlen := congrArg List.length (hshape.symm.trans hholds.arrayShape)
    rw [List.length_insertIdx_of_le_length (Nat.le_of_lt haxis), List.length_modify] at hlen
    omega
  · rintro ⟨hpos, hdyn⟩ args rfl hargs
    have hfixed := hOut.resolve_left hdyn
    obtain ⟨sp, rest, rfl, rfl⟩ := exists_append (Nat.le_of_lt haxis)
    obtain ⟨d, sq, rfl⟩ : ∃ d sq, rest = d :: sq := List.exists_cons_of_ne_nil fun h => by simp [h] at haxis
    rw [modify_append_cons] at hfixed hstrides hOut ⊢
    have hfrom : fromLenElem Out args.length sp.length (sp ++ d :: sq) = some (sp ++ d * args.length :: sq) := by
      rw [fromLenElem, hfixed]
      simp only [List.length_append, List.length_cons, modify_append_cons]
      rw [if_neg (by omega), if_pos trivial]
    have hpadded : padded (sp ++ d :: sq) (sp ++ d * args.length :: sq) = sp ++ d :: sq := by simp [padded]
    obtain ⟨out, heq, hshape, hbuf⟩ := concatMany_eq hargs (List.length_pos_iff.mp hpos) hD hfrom (by simp) hOut
      (show _ = some d by rw [hpadded]; simp)
    obtain ⟨hsource, hsurj⟩ := concat_positions sp sq d args.length
    refine ⟨out, heq, hshape, ?_⟩
    rw [hbuf, hpadded, hstrides]
    exact holds_of_positions hargs (length_fixed hfixed _) hsource hsurj

/-! ## Along a new axis -/

theorem stackSource_eq {sp pre post : List Nat} {t : Nat} (h : pre.length = sp.length) :
    stackSource sp.length (pre ++ t :: post) = (t, pre ++ post) := by
  rw [stackSource, ← h, List.eraseIdx_append_of_length_le (Nat.le_refl _)]
  simp

/-- The first axis apart. -/
theorem offset_head {shape pre : List Nat} (h : shape ≠ []) (i : Nat) :
    offset (rowMajor shape) (i :: pre) = i * shape.tail.prod + offset (rowMajor shape) (0 :: pre) := by
  obtain ⟨d, shape, rfl⟩ := List.exists_cons_of_ne_nil h
  rw [rowMajor, offset_cons, offset_cons, Nat.zero_mul, Nat.zero_add, List.tail_cons]

/-- In a sparse shape, an index that is moved by one axis keeps its position. -/
theorem offset_moved {sp pre : List Nat} {t : Nat} (h : Sparse (sp ++ [count])) (hpre : ValidIndex sp pre) (ht : t < count) :
    offset (rowMajor (sp ++ [count])) (0 :: pre) + t * sp.getLastD 1 = offset (rowMajor sp) pre * count + t := by
  induction sp generalizing pre with
  | nil =>
    obtain rfl := List.forall₂_nil_right_iff.mp hpre
    simp [rowMajor]
  | cons d sp ih =>
    obtain ⟨i, rest, hi, hrest, rfl⟩ := List.forall₂_cons_right_iff.mp hpre
    rw [List.cons_append, rowMajor, offset_cons, Nat.zero_mul, Nat.zero_add, offset_head (by simp), rowMajor, offset_cons]
    cases sp with
    | nil =>
      obtain rfl := List.forall₂_nil_right_iff.mp hrest
      obtain hd | hcount : d = 1 ∨ count = 1 := by simpa [Sparse] using h
      · obtain rfl : i = 0 := by omega
        simp [rowMajor, hd]
      · obtain rfl : t = 0 := by omega
        simp [rowMajor, hcount]
    | cons e sp =>
      obtain ⟨hhead, htail⟩ : (d = 1 ∨ e = 1) ∧ Sparse (e :: sp ++ [count]) := by simpa [Sparse] using h
      have hmoved := ih htail hrest
      have hprod : i * (e :: sp ++ [count]).tail.prod = i * (e :: sp).prod * count := by
        obtain rfl | rfl := hhead
        · obtain rfl : i = 0 := by omega
          rw [Nat.zero_mul, Nat.zero_mul, Nat.zero_mul]
        · simp [Nat.mul_assoc]
      have hlast : (d :: e :: sp).getLastD 1 = (e :: sp).getLastD 1 := by simp [List.getLastD]
      rw [hprod, hlast, Nat.add_mul]
      omega

/-- In any other shape, some index does not. -/
theorem exists_moved {sp : List Nat} (h : ¬ Sparse (sp ++ [count])) (hpos : 0 < (sp ++ [count]).prod) :
    ∃ pre, ValidIndex sp pre ∧
      offset (rowMajor (sp ++ [count])) (0 :: pre) ≠ offset (rowMajor sp) pre * count := by
  induction sp with
  | nil => exact absurd (List.isChain_singleton _) h
  | cons d sp ih =>
    rw [List.cons_append, List.prod_cons] at hpos
    have hrest : 0 < (sp ++ [count]).prod := Nat.pos_of_mul_pos_left hpos
    have hd : 0 < d := Nat.pos_of_mul_pos_right hpos
    have hmove : ∀ i pre, offset (rowMajor (d :: sp ++ [count])) (0 :: i :: pre) =
        i * (sp ++ [count]).tail.prod + offset (rowMajor (sp ++ [count])) (0 :: pre) := by
      intro i pre
      rw [List.cons_append, rowMajor, offset_cons, Nat.zero_mul, Nat.zero_add, offset_head (by simp)]
    by_cases htail : Sparse (sp ++ [count])
    · -- the first two sizes are not 1
      have hsp : 0 < sp.prod := by
        rw [List.prod_append] at hrest
        exact Nat.pos_of_mul_pos_right hrest
      have hne : d ≠ 1 ∧ (sp ++ [count]).prod ≠ (sp ++ [count]).tail.prod := by
        obtain ⟨e, rest, heq⟩ := List.exists_cons_of_ne_nil (l := sp ++ [count]) (by simp)
        rw [List.cons_append, heq, Sparse, List.isChain_cons_cons] at h
        rw [heq] at htail hrest ⊢
        rw [List.prod_cons] at hrest ⊢
        obtain ⟨hd1, he⟩ := not_or.mp fun hor => h ⟨hor, htail⟩
        refine ⟨hd1, fun hprod => he ?_⟩
        exact Nat.eq_of_mul_eq_mul_right (Nat.pos_of_mul_pos_left hrest) (hprod.trans (Nat.one_mul _).symm)
      refine ⟨1 :: List.replicate sp.length 0, .cons (by omega) (validIndex_replicate hsp), ?_⟩
      rw [hmove, rowMajor, offset_cons, offset_replicate_zero, ← List.replicate_succ, offset_replicate_zero]
      intro heq
      rw [Nat.one_mul, Nat.add_zero, Nat.one_mul, Nat.add_zero] at heq
      refine hne.2 ?_
      rw [List.prod_append, List.prod_singleton]
      exact heq.symm
    · obtain ⟨pre, hpre, hne⟩ := ih htail hrest
      refine ⟨0 :: pre, .cons hd hpre, ?_⟩
      rw [hmove, rowMajor, offset_cons, Nat.zero_mul, Nat.zero_add, Nat.zero_mul, Nat.zero_add]
      exact hne

/-- An element of argument `t`, in the output that has an axis more in front. -/
theorem position_stack {sp sq pre post : List Nat} {t : Nat} (hpre : ValidIndex sp pre) (hpost : ValidIndex sq post) :
    (argIter (sp ++ count :: sq) (rowMajor (sp ++ count :: sq)) (1 :: (sp ++ sq)) sp.length 0 (sp.getLastD 1) t).position
        (offset (rowMajor (sp ++ sq)) (pre ++ post)) =
      (offset (rowMajor (sp ++ [count])) (0 :: pre) + t * sp.getLastD 1) * sq.prod + offset (rowMajor sq) post := by
  have hj : ValidIndex (1 :: (sp ++ sq)) (0 :: (pre ++ post)) := .cons Nat.zero_lt_one (List.rel_append hpre hpost)
  have hget := getElem?_allIndices hj
  rw [rowMajor, offset_cons, Nat.zero_mul, Nat.zero_add] at hget
  have hsplit := @offset_rowMajor_append (sp ++ [count]) (0 :: pre)
    (by rw [List.length_cons, hpre.length_eq, List.length_append, List.length_singleton]) sq post
  rw [List.append_assoc, List.singleton_append, List.cons_append] at hsplit
  rw [position_argIter (by simp [Nat.add_assoc]) hget, getD_rowMajor, hsplit]
  ring

/-- In a sparse shape, each argument goes where its elements belong. -/
theorem stack_positions {sp sq : List Nat} (h : (sp ++ sq).prod = 0 ∨ Sparse (sp ++ [count])) :
    (∀ idx, ValidIndex (sp ++ count :: sq) idx →
      (stackSource sp.length idx).1 < count ∧ ValidIndex (sp ++ sq) (stackSource sp.length idx).2 ∧
      (argIter (sp ++ count :: sq) (rowMajor (sp ++ count :: sq)) (1 :: (sp ++ sq)) sp.length 0 (sp.getLastD 1)
        (stackSource sp.length idx).1).position (offset (rowMajor (sp ++ sq)) (stackSource sp.length idx).2) =
        offset (rowMajor (sp ++ count :: sq)) idx) ∧
    ∀ t < count, ∀ j, ValidIndex (sp ++ sq) j →
      ∃ idx, ValidIndex (sp ++ count :: sq) idx ∧ stackSource sp.length idx = (t, j) := by
  constructor
  · intro idx hidx
    obtain ⟨pre, t, post, rfl, hpre, ht, hpost⟩ := ValidIndex.append_cons_iff.mp hidx
    have hj : ValidIndex (sp ++ sq) (pre ++ post) := List.rel_append hpre hpost
    have hsparse : Sparse (sp ++ [count]) := h.resolve_left fun hzero => by
      have hlt := offset_rowMajor_lt hj
      omega
    rw [stackSource_eq hpre.length_eq]
    refine ⟨ht, hj, ?_⟩
    rw [position_stack hpre hpost, offset_moved hsparse hpre ht, offset_append_cons hpre]
  · intro t ht j hj
    have hpre : ValidIndex sp (j.take sp.length) := List.forall₂_take_append _ _ _ hj
    have hpost : ValidIndex sq (j.drop sp.length) := List.forall₂_drop_append _ _ _ hj
    refine ⟨j.take sp.length ++ t :: j.drop sp.length,
      ValidIndex.append_cons_iff.mpr ⟨_, t, _, rfl, hpre, ht, hpost⟩, ?_⟩
    rw [stackSource_eq hpre.length_eq, List.take_append_drop]

theorem fromLenElem_insertIdx (hOut : Out = .dyn ∨ Out.fixed = some (s.insertIdx axis count)) (h : axis ≤ s.length) :
    fromLenElem Out count axis s = some (s.insertIdx axis count) := by
  obtain rfl | hfixed := hOut
  · exact fromLenElem_dyn h
  · rw [fromLenElem, hfixed]
    simp only [List.length_insertIdx_of_le_length h]
    rw [if_neg (by omega), if_neg (by omega), if_pos trivial]

/-- The stack of arguments that are not scalars. -/
theorem concatMany_stack {sp sq : List Nat} {args : List (D.Buf T)} (hargs : ∀ arg ∈ args, Laid D (sp ++ sq) arg)
    (hne : args ≠ []) (hD : D ≠ .scalar)
    (hOut : Out = .dyn ∨ Out.fixed = some (sp ++ args.length :: sq))
    (hstrides : Out.strides (zeroed storageLen Out (sp ++ args.length :: sq) : Out.Buf T) =
      rowMajor (sp ++ args.length :: sq)) :
    ∃ out, concatMany storageLen Out args sp.length = some out ∧ Out.arrayShape out = sp ++ args.length :: sq ∧
      Out.asBuf out = writeAll (argIter (sp ++ args.length :: sq) (rowMajor (sp ++ args.length :: sq))
        (1 :: (sp ++ sq)) sp.length 0 (sp.getLastD 1)) (args.map D.asBuf)
        (Out.asBuf (zeroed storageLen Out (sp ++ args.length :: sq))) := by
  have hinsert : (sp ++ sq).insertIdx sp.length args.length = sp ++ args.length :: sq := insertIdx_append sp sq _
  have hfrom := fromLenElem_insertIdx (by rw [hinsert]; exact hOut) (by simp)
  have hpadded : padded (sp ++ sq) (sp ++ args.length :: sq) = 1 :: (sp ++ sq) := by
    rw [padded, show (sp ++ args.length :: sq).length - (sp ++ sq).length = 1 by simp; omega]
    rfl
  have hdelta : (1 :: (sp ++ sq))[sp.length]? = some (sp.getLastD 1) := by
    obtain rfl | ⟨l, x, rfl⟩ := List.eq_nil_or_concat' sp
    · rfl
    · simp
  rw [hinsert] at hfrom
  have hrun := concatMany_eq hargs hne hD hfrom (by simp) hOut (by rw [hpadded]; exact hdelta)
  rwa [hpadded, hstrides] at hrun

/-- Scalars are written to the output as they are. -/
theorem stacks_scalar_iff {args : List (Dim.Buf T .scalar)} (hOut : Out = .dyn ∨ Out.fixed = some [args.length]) :
    Joins Out args [args.length] (stackSource 0) (concatMany storageLen Out args 0) ↔
      (Out.asBuf (zeroed storageLen Out [args.length] : Out.Buf T)).length = [args.length].prod := by
  have hvalues : args.flatMap (Dim.asBuf .scalar) = args := by
    show args.flatMap (fun x => [x]) = args
    exact List.flatMap_singleton' args
  have hcount : ∀ out : List T, (args.take out.length ++ out.drop args.length).length = out.length := fun out => by
    rw [List.length_append, List.length_take, List.length_drop]
    omega
  have heq : concatMany storageLen Out args 0 = some (Out.withBuf (zeroed storageLen Out [args.length])
      (args.take (Out.asBuf (zeroed storageLen Out [args.length] : Out.Buf T)).length ++
        (Out.asBuf (zeroed storageLen Out [args.length])).drop args.length)) := by
    rw [concatMany.eq_def, if_pos rfl, if_neg (fun hne => hne rfl), hvalues]
  rw [Joins, heq]
  constructor
  · rintro ⟨out, hout, hholds⟩
    obtain rfl := Option.some.inj hout
    have hlen := congrArg List.length hholds.elems
    rw [asBuf_withBuf (hcount _), List.length_map, hcount, List.length_map, length_allIndices] at hlen
    exact hlen
  · intro hlen
    refine ⟨_, rfl, (arrayShape_withBuf _ _).trans (arrayShape_output _ hOut), ?_⟩
    rw [List.prod_singleton] at hlen
    have hmap : (List.range [args.length].prod).map (fun n => args[n]?) = (allIndices [args.length]).map fun idx =>
        args[(stackSource 0 idx).1]?.bind fun arg => Dim.get? .scalar arg (stackSource 0 idx).2 := by
      refine map_range_eq_iff.mpr fun n idx h => ?_
      obtain ⟨hidx, rfl⟩ := getElem?_allIndices_iff.mp h
      obtain ⟨t, rest, ht, hrest, rfl⟩ := List.forall₂_cons_right_iff.mp hidx
      obtain rfl := List.forall₂_nil_right_iff.mp hrest
      have hoff : offset (rowMajor [args.length]) [t] = t := by simp [rowMajor]
      rw [hoff]
      show args[t]? = args[t]?.bind fun arg => [arg][offset [] []]?
      rw [List.getElem?_eq_getElem ht]
      rfl
    rw [List.prod_singleton] at hmap
    rw [asBuf_withBuf (hcount _), hlen, List.take_length, List.drop_eq_nil_of_le (Nat.le_of_eq hlen), List.append_nil,
      map_some_eq]
    exact hmap

/-- In any other shape, the elements of some arguments go where they do not belong. -/
theorem exists_not_joins [Nontrivial T] {sp sq : List Nat} (ha : Laid D (sp ++ sq) a) (hD : D ≠ .scalar) (hcount : 0 < count)
    (hOut : Out = .dyn ∨ Out.fixed = some (sp ++ count :: sq))
    (hstrides : Out.strides (zeroed storageLen Out (sp ++ count :: sq) : Out.Buf T) = rowMajor (sp ++ count :: sq))
    (hpos : (sp ++ sq).prod ≠ 0) (h : ¬ Sparse (sp ++ [count])) :
    ∃ args : List (D.Buf T), args.length = count ∧ (∀ arg ∈ args, Laid D (sp ++ sq) arg) ∧
      ¬ Joins Out args (sp ++ count :: sq) (stackSource sp.length) (concatMany storageLen Out args sp.length) := by
  obtain ⟨x, hx⟩ := exists_ne (default : T)
  rw [List.prod_append] at hpos
  have hsq : 0 < sq.prod := Nat.pos_of_ne_zero (right_ne_zero_of_mul hpos)
  obtain ⟨pre, hpre, hne⟩ := exists_moved h (by
    rw [List.prod_append, List.prod_singleton]
    exact Nat.mul_pos (Nat.pos_of_ne_zero (left_ne_zero_of_mul hpos)) hcount)
  -- all elements are the default but one, in the first argument
  have hpost := validIndex_replicate hsq
  have hj : ValidIndex (sp ++ sq) (pre ++ List.replicate sq.length 0) := List.rel_append hpre hpost
  have hlt := offset_rowMajor_lt hj
  obtain ⟨first, hfirst, hbuf⟩ : ∃ first : D.Buf T, Laid D (sp ++ sq) first ∧
      D.asBuf first = (List.replicate (sp ++ sq).prod default).set
        (offset (rowMajor (sp ++ sq)) (pre ++ List.replicate sq.length 0)) x := ⟨_, laid_withBuf ha (by simp)⟩
  obtain ⟨other, hother, hbuf'⟩ : ∃ other : D.Buf T, Laid D (sp ++ sq) other ∧
      D.asBuf other = List.replicate (sp ++ sq).prod default := ⟨_, laid_withBuf ha List.length_replicate⟩
  obtain ⟨others, rfl⟩ := Nat.exists_eq_add_one_of_ne_zero (Nat.ne_of_gt hcount)
  have hlen : (first :: List.replicate others other).length = others + 1 := by simp
  have hargs : ∀ arg ∈ first :: List.replicate others other, Laid D (sp ++ sq) arg := by
    intro arg harg
    obtain rfl | harg := List.mem_cons.mp harg
    · exact hfirst
    · exact (List.eq_of_mem_replicate harg) ▸ hother
  refine ⟨first :: List.replicate others other, hlen, hargs, ?_⟩
  rintro ⟨out, heq, hholds⟩
  rw [← hlen] at hOut hstrides hholds
  obtain ⟨out', heq', -, hout⟩ := concatMany_stack hargs (by simp) hD hOut hstrides
  obtain rfl := Option.some.inj (heq.symm.trans heq')
  rw [hlen] at hholds hout
  -- the element is wanted where its index says
  have hidx : ValidIndex (sp ++ (others + 1) :: sq) (pre ++ 0 :: List.replicate sq.length 0) :=
    ValidIndex.append_cons_iff.mpr ⟨pre, 0, _, rfl, hpre, Nat.succ_pos others, hpost⟩
  have hwant := congrArg (fun l => l[offset (rowMajor (sp ++ (others + 1) :: sq)) (pre ++ 0 :: List.replicate sq.length 0)]?)
    hholds.elems
  simp only [List.getElem?_map, getElem?_allIndices hidx, stackSource_eq hpre.length_eq, Option.map_some,
    List.getElem?_cons_zero, Option.bind_some, Dim.get?, hfirst.arrayShape, hbuf,
    List.getElem?_set_self (hlt.trans_eq List.length_replicate.symm)] at hwant
  obtain ⟨y, hy, hyx⟩ := Option.map_eq_some_iff.mp hwant
  obtain rfl := Option.some.inj hyx
  rw [hout] at hy
  -- it is where it was written
  obtain hbefore | ⟨i, n, buf, harg, hposition, hvalue⟩ := writeAll_sound hy
  · exact hx (eq_default_of_mem_zeroed (List.mem_of_getElem? hbefore))
  · cases i with
    | zero =>
      obtain rfl := Option.some.inj harg
      rw [hbuf] at hvalue
      by_cases hn : offset (rowMajor (sp ++ sq)) (pre ++ List.replicate sq.length 0) = n
      · subst hn
        rw [position_stack hpre hpost, offset_append_cons hpre, Nat.zero_mul, Nat.add_zero, Nat.add_zero,
          Nat.add_right_cancel_iff] at hposition
        exact hne (Nat.eq_of_mul_eq_mul_right hsq hposition)
      · rw [List.getElem?_set_ne hn] at hvalue
        exact hx (List.eq_of_mem_replicate (List.mem_of_getElem? hvalue))
    | succ i =>
      rw [List.map_cons, List.getElem?_cons_succ, List.map_replicate, hbuf'] at harg
      obtain rfl := List.eq_of_mem_replicate (List.mem_of_getElem? harg)
      exact hx (List.eq_of_mem_replicate (List.mem_of_getElem? hvalue))

/-- When a stack is right: of any two neighbouring sizes up to the new axis one is 1, there is an argument, and a
dynamic output has as many elements as its shape. -/
theorem stacks_iff [Nontrivial T] (ha : Laid D s a) (haxis : axis ≤ s.length)
    (hOut : Out = .dyn ∨ Out.fixed = some (s.insertIdx axis count))
    (hstrides : Out.strides (zeroed storageLen Out (s.insertIdx axis count) : Out.Buf T) =
      rowMajor (s.insertIdx axis count)) :
    JoinsAll T D Out s axis count (s.insertIdx axis count) (stackSource axis) ↔
      (D = .scalar ∨ 0 < count) ∧
      (Out = .dyn → (s.insertIdx axis count).sum % 2 ^ 64 = (s.insertIdx axis count).prod) ∧
      (s.prod = 0 ∨ Sparse (s.take axis ++ [count])) := by
  rw [← length_output_iff (T := T) hOut]
  by_cases hD : D = .scalar
  · subst hD
    obtain rfl : s = [] := ha.arrayShape.symm
    obtain rfl : axis = 0 := Nat.le_zero.mp haxis
    have hsparse : Sparse [count] := List.isChain_singleton _
    constructor
    · intro hall
      have hscalars := hall (List.replicate count a) List.length_replicate fun arg h => (List.eq_of_mem_replicate h) ▸ ha
      refine ⟨.inl rfl, ?_, .inr hsparse⟩
      have hlen : (List.replicate count a).length = count := List.length_replicate
      show (Out.asBuf (zeroed storageLen Out [count] : Out.Buf T)).length = [count].prod
      rw [← hlen]
      refine stacks_scalar_iff (by rw [hlen]; exact hOut) |>.mp ?_
      rw [hlen]
      exact hscalars
    · rintro ⟨-, hlen, -⟩ args rfl -
      exact (stacks_scalar_iff hOut).mpr hlen
  obtain ⟨sp, sq, rfl, rfl⟩ := exists_append haxis
  rw [insertIdx_append] at hOut hstrides ⊢
  rw [List.take_left]
  constructor
  · intro hall
    have hpos : 0 < count := by
      by_contra hzero
      obtain ⟨out, heq, -⟩ := hall [] (Nat.eq_zero_of_not_pos hzero).symm (by simp)
      rw [concatMany, if_neg hD] at heq
      cases heq
    have hargs : ∀ arg ∈ List.replicate count a, Laid D (sp ++ sq) arg := fun arg h =>
      (List.eq_of_mem_replicate h) ▸ ha
    refine ⟨.inr hpos, ?_, ?_⟩
    · obtain ⟨out, heq, hholds⟩ := hall (List.replicate count a) List.length_replicate hargs
      have hlen : (List.replicate count a).length = count := List.length_replicate
      obtain ⟨out', heq', -, hout⟩ := concatMany_stack hargs (by simpa using Nat.ne_of_gt hpos) hD
        (by rw [hlen]; exact hOut) (by rw [hlen]; exact hstrides)
      obtain rfl := Option.some.inj (heq.symm.trans heq')
      have hcount := congrArg List.length hholds.elems
      rw [hout, List.length_map, length_writeAll, List.length_map, length_allIndices, hlen] at hcount
      exact hcount
    · by_contra hbad
      obtain ⟨hprod, hsparse⟩ := not_or.mp hbad
      obtain ⟨args, hlen, hargs, hnot⟩ := exists_not_joins ha hD hpos hOut hstrides hprod hsparse
      exact hnot (hall args hlen hargs)
  · rintro ⟨hpos, hlen, hsparse⟩ args rfl hargs
    have hne : args ≠ [] := List.length_pos_iff.mp (hpos.resolve_left hD)
    obtain ⟨out, heq, hshape, hout⟩ := concatMany_stack hargs hne hD hOut hstrides
    obtain ⟨hsource, hsurj⟩ := stack_positions hsparse
    refine ⟨out, heq, hshape, ?_⟩
    rw [hout]
    exact holds_of_positions hargs hlen hsource hsurj

/-! ## All operations -/

/-- When windowed operations copy the right elements: iterators and `copy_fixed_slice`, `transpose`, and `concat_many`
along an axis and along a new one. -/
theorem windowed_iff [Nontrivial T] :
    (∀ shape dims offsets, IsWindow shape dims offsets →
      (Items { offsetIter shape (rowMajor shape) offsets with dims := dims } shape dims offsets ↔ Covers dims offsets)) ∧
    (∀ (D Out : Dim) (a : D.Buf T) (shape dims offsets : List Nat), Laid D shape a → IsWindow shape dims offsets →
      Out.fixed = some dims → (SlicesAll T D Out shape dims offsets ↔ Covers dims offsets)) ∧
    (∀ (D Out : Dim) (a : D.Buf T) (r c : Nat), Laid D [r, c] a → Out = .dyn ∨ Out.fixed = some [c, r] →
      (Transposes Out a (transpose storageLen Out a) ↔ Out ≠ .dyn ∨ (c + r) % 2 ^ 64 = c * r)) ∧
    (∀ (D Out : Dim) (a : D.Buf T) (s : List Nat) (axis count : Nat), Laid D s a → axis < s.length →
      Out = .dyn ∨ Out.fixed = some (s.modify axis (· * count)) →
      Out.strides (zeroed storageLen Out (s.modify axis (· * count)) : Out.Buf T) =
        rowMajor (s.modify axis (· * count)) →
      (JoinsAll T D Out s axis count (s.modify axis (· * count)) (concatSource s axis) ↔ 0 < count ∧ Out ≠ .dyn)) ∧
    ∀ (D Out : Dim) (a : D.Buf T) (s : List Nat) (axis count : Nat), Laid D s a → axis ≤ s.length →
      Out = .dyn ∨ Out.fixed = some (s.insertIdx axis count) →
      Out.strides (zeroed storageLen Out (s.insertIdx axis count) : Out.Buf T) = rowMajor (s.insertIdx axis count) →
      (JoinsAll T D Out s axis count (s.insertIdx axis count) (stackSource axis) ↔
        (D = .scalar ∨ 0 < count) ∧
        (Out = .dyn → (s.insertIdx axis count).sum % 2 ^ 64 = (s.insertIdx axis count).prod) ∧
        (s.prod = 0 ∨ Sparse (s.take axis ++ [count]))) :=
  ⟨fun _ _ _ hw => items_iff hw, fun _ _ _ _ _ _ ha hw hOut => slices_iff ha hw hOut,
    fun _ _ _ _ _ ha hOut => transposes_iff ha hOut,
    fun _ _ _ _ _ _ ha haxis hOut hstrides => joins_iff ha haxis hOut hstrides,
    fun _ _ _ _ _ _ ha haxis hOut hstrides => stacks_iff ha haxis hOut hstrides⟩

/-- A window of a matrix, its transposed, and two vectors joined and stacked. -/
theorem windowed_iff_matrix :
    (Items { offsetIter [2, 3] (rowMajor [2, 3]) [1, 1] with dims := [1, 2] } [2, 3] [1, 2] [1, 1] ↔
      Covers [1, 2] [1, 1]) ∧
    (SlicesAll Int .dyn (.const2 1 2) [2, 3] [1, 2] [1, 1] ↔ Covers [1, 2] [1, 1]) ∧
    (@Transposes Int .dyn (.const2 3 2) ⟨[1, 2, 3, 4, 5, 6], [2, 3], [3, 1]⟩
        (@transpose Int _ storageLen .dyn (.const2 3 2) ⟨[1, 2, 3, 4, 5, 6], [2, 3], [3, 1]⟩) ↔
      Dim.const2 3 2 ≠ .dyn ∨ (3 + 2) % 2 ^ 64 = 3 * 2) ∧
    (JoinsAll Int .dyn (.const1 4) [2] 0 2 [4] (concatSource [2] 0) ↔ 0 < 2 ∧ Dim.const1 4 ≠ .dyn) ∧
    (JoinsAll Int .dyn .dyn [2] 0 2 [2, 2] (stackSource 0) ↔
      (Dim.dyn = .scalar ∨ 0 < 2) ∧ (Dim.dyn = .dyn → [2, 2].sum % 2 ^ 64 = [2, 2].prod) ∧
        ([2].prod = 0 ∨ Sparse [2])) := by
  have hmatrix : Laid (T := Int) .dyn [2, 3] ⟨[1, 2, 3, 4, 5, 6], [2, 3], [3, 1]⟩ := ⟨rfl, rfl, rfl⟩
  have hvector : Laid (T := Int) .dyn [2] ⟨[1, 2], [2], [1]⟩ := ⟨rfl, rfl, rfl⟩
  have hwindow : IsWindow [2, 3] [1, 2] [1, 1] := by simp [IsWindow]
  obtain ⟨hitems, hslices, htransposes, hjoins, hstacks⟩ := windowed_iff (T := Int)
  exact ⟨hitems _ _ _ hwindow, hslices .dyn (.const2 1 2) _ _ _ _ hmatrix hwindow rfl,
    htransposes .dyn (.const2 3 2) _ 2 3 hmatrix (.inr rfl),
    hjoins .dyn (.const1 4) _ [2] 0 2 hvector (by decide) (.inr rfl) rfl,
    hstacks .dyn .dyn _ [2] 0 2 hvector (by decide) (.inl rfl) (by decide)⟩

/-- Two vectors stacked along the second axis: `[1, 2]` and `[3, 4]` give the rows `[1, 2]` and `[3, 4]`. -/
theorem concatMany_not_joins :
    ¬ @Joins Int .dyn .dyn [⟨[1, 2], [2], [1]⟩, ⟨[3, 4], [2], [1]⟩] [2, 2] (stackSource 1)
      (@concatMany Int _ storageLen .dyn .dyn [⟨[1, 2], [2], [1]⟩, ⟨[3, 4], [2], [1]⟩] 1) := by
  have heval : @concatMany Int _ storageLen .dyn .dyn [⟨[1, 2], [2], [1]⟩, ⟨[3, 4], [2], [1]⟩] 1 =
      some ⟨[1, 2, 3, 4], [2, 2], [2, 1]⟩ := rfl
  rw [heval]
  rintro ⟨out, hout, hholds⟩
  obtain rfl := Option.some.inj hout
  have helems := hholds.elems
  exact absurd helems (by decide)

end Metor.Proof.Nox
