import Metor.Proof.Stages.Run
import Metor.Spec.Pipeline

/-!
# When a mean stage gives means

A stage gives the windows of its input, one after the other (`run_eq`), each the
sum of its values that saturates in the type's range, divided (`ints_meanOf`).
`means_iff` is when these are the means, and which types can be summed and
divided at all.
-/

namespace Metor.Proof.Stages

open Metor.Lib Metor.Impl.Proto Metor.Impl.Stages

variable {fl : Floats} {ty : PrimType} {addr len : Nat}

/-! ## Elements -/

theorem length_of_mem_elements {size : Nat} {bytes r : Bytes} (h : r ∈ Impl.Proto.elements size bytes) : r.length = size := by
  obtain ⟨i, hi, rfl⟩ := List.mem_map.mp h
  have hi := List.mem_range.mp hi
  have hle : (i + 1) * size ≤ bytes.length := Nat.le_trans (Nat.mul_le_mul_right _ hi) (Nat.div_mul_le_self _ _)
  rw [length_slice hle, Nat.add_mul, Nat.one_mul, Nat.add_sub_cancel_left]

theorem elements_flatten {size : Nat} (hs : 0 < size) {xs : List Bytes} (h : ∀ x ∈ xs, x.length = size) :
    Impl.Proto.elements size xs.flatten = xs := by
  have hlen := length_flatten_of_forall size h
  refine List.ext_getElem ?_ fun i h₁ h₂ => ?_
  · rw [length_elements, hlen, Nat.mul_div_cancel _ hs]
  · have hslice := @slice_flatMap _ _ id size xs h i h₂
    rw [List.flatMap_id] at hslice
    simp only [Impl.Proto.elements, List.getElem_map, List.getElem_range]
    exact hslice

theorem lowest_le (ty : PrimType) : lowest ty ≤ 0 ∧ 0 ≤ highest ty := by cases ty <;> decide

theorem intOf_mem (h : IsInt ty) {r : Bytes} (hr : r.length = ty.size) : lowest ty ≤ intOf ty r ∧ intOf ty r ≤ highest ty := by
  have hlt := leNat_lt r
  rw [hr] at hlt
  obtain ⟨h₁, h₂, h₃⟩ := h
  cases ty <;>
    first
    | contradiction
    | (simp only [PrimType.size] at hr hlt
       simp only [intOf, lowest, highest, signedOf, hr]
       norm_num at hlt ⊢
       try split
       all_goals omega)

/-- Two's complement. -/
theorem intOf_intBytes (h : IsInt ty) {n : Int} (hn : lowest ty ≤ n ∧ n ≤ highest ty) :
    intOf ty (intBytes ty.size n) = n := by
  obtain ⟨h₁, h₂, h₃⟩ := h
  have hle : ∀ w, leNat (intBytes w n) = (n % 2 ^ (8 * w)).toNat := fun w => by
    refine leNat_leBytes ?_
    have hp : (0 : Int) < 2 ^ (8 * w) := pow_pos (by norm_num) _
    have hlt := Int.emod_lt_of_pos n hp
    have : ((n % 2 ^ (8 * w)).toNat : Int) < (256 ^ w : Nat) := by
      rw [Int.toNat_of_nonneg (Int.emod_nonneg n hp.ne')]
      push_cast
      rwa [show (256 : Int) = 2 ^ 8 by norm_num, ← pow_mul]
    exact_mod_cast this
  cases ty <;>
    first
    | contradiction
    | (simp only [lowest, highest] at hn
       simp only [intOf, lowest, signedOf, hle, PrimType.size, length_intBytes]
       norm_num at hn ⊢
       try split
       all_goals omega)

/-- An unsigned number as an integer. -/
theorem leBytes_eq_intBytes {width : Nat} {n : Nat} {m : Int} (h : (n : Int) = m % 2 ^ (8 * width)) :
    leBytes width n = intBytes width m := by
  rw [intBytes, ← h, Int.toNat_natCast]

/-- `saturating_add` -/
theorem intOf_addElem (h : IsInt ty) (fl : Floats) (r val : Bytes) :
    intOf ty (addElem fl ty r val) = clampTo (lowest ty) (highest ty) (intOf ty r + intOf ty val) := by
  have hc := clampTo_mem (show lowest ty ≤ highest ty by have := lowest_le ty; omega) (intOf ty r + intOf ty val)
  have he : addElem fl ty r val = intBytes ty.size (clampTo (lowest ty) (highest ty) (intOf ty r + intOf ty val)) := by
    obtain ⟨h₁, h₂, h₃⟩ := h
    cases ty <;>
      first
      | contradiction
      | rfl
      | (refine leBytes_eq_intBytes ?_
         simp only [clampTo, lowest, highest, intOf]
         norm_num
         omega)
  rw [he, intOf_intBytes h hc]

/-- A quotient is no further from zero. -/
theorem tdiv_mem {lo hi a : Int} {count : Nat} (hlo : lo ≤ 0) (hhi : 0 ≤ hi) (ha : lo ≤ a ∧ a ≤ hi) :
    lo ≤ a.tdiv count ∧ a.tdiv count ≤ hi := by
  have hle : ∀ b : Int, 0 ≤ b → 0 ≤ b / count ∧ b / count ≤ b := fun b hb =>
    ⟨Int.ediv_nonneg hb (Int.natCast_nonneg _), Int.ediv_le_self _ hb⟩
  rcases Int.le_total 0 a with h | h
  · rw [Int.tdiv_eq_ediv_of_nonneg h]
    have := hle a h
    omega
  · have hneg : a.tdiv count = -(-a / count) := by
      rw [← Int.tdiv_eq_ediv_of_nonneg (show 0 ≤ -a by omega), Int.neg_tdiv, Int.neg_neg]
    have := hle (-a) (by omega)
    omega

/-- `as f64`, the division, and the cast back. -/
theorem intOf_divElem (h : IsInt ty) (hd : DividesExactly fl) {r : Bytes} (hr : r.length = ty.size)
    (hlt : (intOf ty r).natAbs < 2 ^ 53) {count : Nat} (hc : 0 < count) :
    intOf ty (divElem fl ty r count) = (intOf ty r).tdiv count := by
  have hmem := intOf_mem h hr
  have he : divElem fl ty r count = intBytes ty.size (fl.divInt ty (intOf ty r) count) := by
    obtain ⟨h₁, h₂, h₃⟩ := h
    cases ty <;> first | contradiction | rfl
  have hz := lowest_le ty
  rw [he, hd ty _ count hlt hc, intOf_intBytes h (tdiv_mem hz.1 hz.2 hmem)]

/-! ## Values -/

theorem length_ints (ty : PrimType) (value : Bytes) : (ints ty value).length = value.length / ty.size := by
  rw [ints, List.length_map, length_elements]

theorem ints_flatten {xs : List Bytes} (h : ∀ x ∈ xs, x.length = ty.size) : ints ty xs.flatten = xs.map (intOf ty) := by
  rw [ints, elements_flatten (size_pos ty) h]

theorem ints_zeros (ty : PrimType) (len : Nat) : ints ty (List.replicate len 0) = List.replicate (len / ty.size) 0 := by
  have hzero : ∀ k, leNat (List.replicate k 0) = 0 := by
    intro k
    induction k with
    | zero => rfl
    | succ k ih =>
      rw [List.replicate_succ, leNat, ih]
      rfl
  refine List.eq_replicate_iff.mpr ⟨by rw [length_ints, List.length_replicate], fun n hn => ?_⟩
  obtain ⟨r, hr, rfl⟩ := List.mem_map.mp hn
  obtain ⟨i, -, rfl⟩ := List.mem_map.mp hr
  rw [slice, List.take_replicate, List.drop_replicate, intOf, signedOf, hzero]
  split
  · rw [if_pos (Nat.two_pow_pos _)]
    rfl
  · rfl

theorem ints_addBytes (h : IsInt ty) (fl : Floats) (acc value : Bytes) :
    ints ty (addBytes fl ty acc value) =
      List.zipWith (fun a x => clampTo (lowest ty) (highest ty) (a + x)) (ints ty acc) (ints ty value) := by
  rw [addBytes, ints_flatten]
  · rw [List.map_zipWith, ints, ints, List.zipWith_map]
    simp only [intOf_addElem h]
  · intro x hx
    obtain ⟨i, hi, rfl⟩ := List.getElem_of_mem hx
    rw [List.getElem_zipWith]
    exact length_addElem ..

theorem ints_foldl (h : IsInt ty) (fl : Floats) (acc : Bytes) (window : List Bytes) :
    ints ty (window.foldl (addBytes fl ty) acc) =
      (window.map (ints ty)).foldl (List.zipWith fun a x => clampTo (lowest ty) (highest ty) (a + x)) (ints ty acc) := by
  induction window generalizing acc with
  | nil => rfl
  | cons value window ih => rw [List.foldl_cons, ih, ints_addBytes h, List.map_cons, List.foldl_cons]

theorem ints_divBytes (h : IsInt ty) (hd : DividesExactly fl) {acc : Bytes} (hlt : ∀ a ∈ ints ty acc, a.natAbs < 2 ^ 53)
    {count : Nat} (hc : 0 < count) : ints ty (divBytes fl ty acc count) = (ints ty acc).map (·.tdiv count) := by
  rw [divBytes, ints_flatten]
  · rw [List.map_map, ints, List.map_map]
    refine List.map_congr_left fun r hr => ?_
    exact intOf_divElem h hd (length_of_mem_elements hr) (hlt _ (List.mem_map_of_mem hr)) hc
  · intro x hx
    obtain ⟨r, -, rfl⟩ := List.mem_map.mp hx
    exact length_divElem h.1 r count

/-- The sum of a column in the accumulator. -/
theorem getElem?_sums (h : IsInt ty) (fl : Floats) {window : List Bytes} (hw : ∀ v ∈ window, v.length = len) {i : Nat}
    (hi : i < len / ty.size) : (ints ty (window.foldl (addBytes fl ty) (List.replicate len 0)))[i]? =
      some (satSum (lowest ty) (highest ty) (column (window.map (ints ty)) i)) := by
  rw [ints_foldl h, ints_zeros, getElem?_foldl_zipWith]
  · rw [List.getElem_replicate]
    rfl
  · intro row hrow
    obtain ⟨v, hv, rfl⟩ := List.mem_map.mp hrow
    rw [length_ints, hw v hv, List.length_replicate]
  · rw [List.length_replicate]
    exact hi

theorem length_sums (hsize : ty.size ∣ len) (fl : Floats) {window : List Bytes} (hw : ∀ v ∈ window, v.length = len) :
    (window.foldl (addBytes fl ty) (List.replicate len 0)).length = len := by
  have hfold : ∀ acc : Bytes, acc.length = len → (window.foldl (addBytes fl ty) acc).length = len := by
    induction window with
    | nil => exact fun acc h => h
    | cons v window ih =>
      obtain ⟨hv, hw⟩ := List.forall_mem_cons.mp hw
      exact fun acc h => ih hw _ ((length_addBytes (by rw [h]; exact hsize) (hv.trans h.symm)).trans h)
  exact hfold _ List.length_replicate

/-- Each element of a mean is the quotient of the sum that saturates. -/
theorem ints_meanOf (h : IsInt ty) (hd : DividesExactly fl) (hsize : ty.size ∣ len) {window : List Bytes} (hne : window ≠ [])
    (hw : ∀ v ∈ window, v.length = len)
    (hlt : ∀ i < len / ty.size, (satSum (lowest ty) (highest ty) (column (window.map (ints ty)) i)).natAbs < 2 ^ 53) :
    ints ty (meanOf fl ty len window) = (List.range (len / ty.size)).map fun i =>
      (satSum (lowest ty) (highest ty) (column (window.map (ints ty)) i)).tdiv window.length := by
  have hlen : (ints ty (window.foldl (addBytes fl ty) (List.replicate len 0))).length = len / ty.size := by
    rw [length_ints, length_sums hsize fl hw]
  have hall : ∀ a ∈ ints ty (window.foldl (addBytes fl ty) (List.replicate len 0)), a.natAbs < 2 ^ 53 := by
    intro a ha
    obtain ⟨i, hi, rfl⟩ := List.getElem_of_mem ha
    have hsum := getElem?_sums h fl hw (hlen ▸ hi)
    rw [List.getElem?_eq_getElem hi] at hsum
    rw [Option.some.inj hsum]
    exact hlt i (hlen ▸ hi)
  rw [meanOf, ints_divBytes h hd hall (List.length_pos_iff.mpr hne)]
  refine List.ext_getElem? fun i => ?_
  rw [List.getElem?_map, List.getElem?_map]
  rcases Nat.lt_or_ge i (len / ty.size) with hi | hi
  · rw [getElem?_sums h fl hw hi, List.getElem?_range hi]
    rfl
  · rw [List.getElem?_eq_none (by rw [hlen]; exact hi), List.getElem?_eq_none (by rw [List.length_range]; exact hi)]
    rfl

/-! ## Runs -/

theorem run_refines_window (hread : ∀ v : Bytes, v.length = len → Readable ty ⟨addr, v⟩) {values : List Bytes}
    (hv : ∀ v ∈ values, v.length = len) {stage : MeanStage} {w : Window Bytes} (hs : Refines fl ty len stage w) :
    ∃ stage' pending, stage.run fl addr ty values = some (outputs (meanOf fl ty len) [w] values, stage') ∧
      Refines fl ty len stage' ⟨w.size, pending⟩ ∧ pending.length = (w.pending.length + values.length) % w.size := by
  induction values generalizing stage w with
  | nil =>
    have hlt : w.pending.length < w.size := by
      have := hs.inv.count
      have := hs.window
      have := hs.count
      unfold windowSize at *
      omega
    exact ⟨stage, w.pending, rfl, hs, (Nat.mod_eq_of_lt hlt).symm⟩
  | cons v values ih =>
    obtain ⟨hlen, hv⟩ := List.forall_mem_cons.mp hv
    obtain ⟨stage₁, hnext, hs₁, -⟩ := next_refines (hread v hlen) (hlen.symm ▸ hs)
    simp only [hlen] at hnext hs₁
    obtain ⟨stage', pending, hrun, hs', hp⟩ := ih hv hs₁
    have hlt : w.pending.length < w.size := by
      have := hs.inv.count
      have := hs.window
      have := hs.count
      unfold windowSize at *
      omega
    have hwsize : (w.feed (meanOf fl ty len) v).2.1.size = w.size ∧
        ((w.feed (meanOf fl ty len) v).2.1.pending.length + values.length) % w.size =
          (w.pending.length + (values.length + 1)) % w.size := by
      unfold Window.feed
      split
      · refine ⟨rfl, ?_⟩
        have he : w.pending.length + (values.length + 1) = values.length + w.size := by omega
        rw [he, Nat.add_mod_right]
        exact congrArg (· % w.size) (Nat.zero_add _)
      · refine ⟨rfl, ?_⟩
        rw [List.length_append, List.length_singleton]
        congr 1
        omega
    refine ⟨stage', pending, ?_, hwsize.1 ▸ hs', ?_⟩
    · simp only [MeanStage.run, hnext, hrun, Option.bind_eq_bind, Option.bind_some, outputs_cons, pipe, Bool.and_true]
      rfl
    · rw [hp, hwsize.1, hwsize.2, List.length_cons]

/-- The stage gives its windows, and starts each with an empty sum. -/
theorem run_eq (fl : Floats) (hread : ∀ v : Bytes, v.length = len → Readable ty ⟨addr, v⟩) {values : List Bytes}
    (hv : ∀ v ∈ values, v.length = len) (window : UInt16) :
    ∃ stage, (MeanStage.new window).run fl addr ty values =
        some (windowed (meanOf fl ty len) (windowSize window) values, stage) ∧
      stage.count = values.length % windowSize window ∧
      (values.length % windowSize window = 0 → ∀ acc ∈ stage.acc, acc.bytes = List.replicate len 0) := by
  obtain ⟨stage, pending, hrun, hs, hp⟩ := run_refines_window hread hv (refines_new fl ty len window)
  have hpos : 0 < windowSize window := Nat.lt_of_lt_of_le Nat.zero_lt_one (Nat.le_max_right _ _)
  have hout := @outputs_eq _ (meanOf fl ty len) (windowSize window) values [] [] hpos (by simp) (by simp) []
    (by rw [List.length_nil]; exact hpos)
  simp only [started, List.map_nil, List.nil_append, List.length_nil, Function.iterate_zero, List.map_id] at hout
  have hp : pending.length = values.length % windowSize window := by
    rw [hp]
    exact congrArg (· % windowSize window) (Nat.zero_add _)
  refine ⟨stage, by rw [hrun, hout], hs.count.trans hp, fun hzero acc hacc => ?_⟩
  have hnil : pending = [] := List.length_eq_zero_iff.mp (hp.trans hzero)
  have hsum := hs.acc
  rw [hnil, accOf, Option.mem_def.mp hacc] at hsum
  exact hsum

/-! ## Quotients -/

theorem tdiv_le_tdiv {a b : Int} {count : Nat} (h : a ≤ b) : a.tdiv count ≤ b.tdiv count := by
  rcases Nat.eq_zero_or_pos count with rfl | hc
  · rw [Int.natCast_zero, Int.tdiv_zero, Int.tdiv_zero]
  have hc : (0 : Int) < count := by omega
  have hneg : ∀ x : Int, x ≤ 0 → x.tdiv count = -(-x / count) := fun x hx => by
    rw [← Int.tdiv_eq_ediv_of_nonneg (show 0 ≤ -x by omega), Int.neg_tdiv, Int.neg_neg]
  rcases Int.le_total 0 a with ha | ha
  · rw [Int.tdiv_eq_ediv_of_nonneg ha, Int.tdiv_eq_ediv_of_nonneg (Int.le_trans ha h)]
    exact Int.ediv_le_ediv hc h
  · rw [hneg a ha]
    have ha' : 0 ≤ -a / count := Int.ediv_nonneg (by omega) hc.le
    rcases Int.le_total 0 b with hb | hb
    · rw [Int.tdiv_eq_ediv_of_nonneg hb]
      have := Int.ediv_nonneg hb hc.le
      omega
    · rw [hneg b hb]
      have := Int.ediv_le_ediv hc (show -b ≤ -a by omega)
      omega

/-- A mean is within what it is the mean of. -/
theorem mean_mem {xs : List Int} (hne : xs ≠ []) {lo hi : Int} (h : ∀ x ∈ xs, lo ≤ x ∧ x ≤ hi) :
    lo ≤ xs.sum.tdiv xs.length ∧ xs.sum.tdiv xs.length ≤ hi := by
  have hc : (xs.length : Int) ≠ 0 := by
    have := List.length_pos_iff.mpr hne
    omega
  have hsum : lo * xs.length ≤ xs.sum ∧ xs.sum ≤ hi * xs.length := by
    clear hne hc
    induction xs with
    | nil => simp
    | cons x xs ih =>
      obtain ⟨hx, hxs⟩ := List.forall_mem_cons.mp h
      have := ih hxs
      rw [List.sum_cons, List.length_cons]
      push_cast
      rw [Int.mul_add, Int.mul_add, Int.mul_one, Int.mul_one]
      omega
  have hlo := @tdiv_le_tdiv _ _ xs.length hsum.1
  have hhi := @tdiv_le_tdiv _ _ xs.length hsum.2
  rw [Int.mul_tdiv_cancel _ hc] at hlo hhi
  exact ⟨hlo, hhi⟩

/-- When the sum that saturates has the quotient of the sum. -/
theorem tdiv_satSum_of_sumsUp {xs : List Int} (h : SumsUp ty xs) :
    (satSum (lowest ty) (highest ty) xs).tdiv xs.length = xs.sum.tdiv xs.length := by
  obtain ⟨hlo, hhi⟩ := lowest_le ty
  rcases h with h | ⟨hs, hl, hh⟩
  · rw [satSum_eq_sum h]
  · rw [satSum_of_oneSigned hlo hhi hs, clampTo]
    rcases Int.le_total (lowest ty) xs.sum with h₁ | h₁
    · rcases Int.le_total xs.sum (highest ty) with h₂ | h₂
      · rw [min_eq_right h₂, max_eq_right h₁]
      · rw [min_eq_left h₂, max_eq_right (Int.le_trans hlo hhi)]
        exact Int.le_antisymm (tdiv_le_tdiv h₂) hh
    · rw [min_eq_right (by omega), max_eq_left h₁]
      exact Int.le_antisymm hl (tdiv_le_tdiv h₁)

theorem sumsUp_of_tdiv {xs : List Int} (hs : OneSigned xs)
    (h : (satSum (lowest ty) (highest ty) xs).tdiv xs.length = xs.sum.tdiv xs.length) : SumsUp ty xs := by
  obtain ⟨hlo, hhi⟩ := lowest_le ty
  have hmem := satSum_mem hlo hhi xs
  exact .inr ⟨hs, h ▸ tdiv_le_tdiv hmem.1, h ▸ tdiv_le_tdiv hmem.2⟩

/-- The accumulated sum is no larger than the sum. -/
theorem natAbs_satSum {xs : List Int} (h : SumsUp ty xs ∨ OneSigned xs) (hlt : xs.sum.natAbs < 2 ^ 53) :
    (satSum (lowest ty) (highest ty) xs).natAbs < 2 ^ 53 := by
  obtain ⟨hlo, hhi⟩ := lowest_le ty
  have hsigned : OneSigned xs → (satSum (lowest ty) (highest ty) xs).natAbs < 2 ^ 53 := by
    intro hs
    rw [satSum_of_oneSigned hlo hhi hs, clampTo]
    omega
  rcases h with (h | ⟨hs, -⟩) | hs
  · rw [satSum_eq_sum h]
    exact hlt
  · exact hsigned hs
  · exact hsigned hs

/-! ## Means -/

/-- What the stage gives are the means just when every sum that saturates has the quotient of the sum. -/
theorem areMeans_iff (h : IsInt ty) (hd : DividesExactly fl) (hsize : ty.size ∣ len) {w : Nat} (hw : 0 < w) {values : List Bytes}
    (hv : ∀ v ∈ values, v.length = len)
    (hlt : EachColumn w (len / ty.size) (values.map (ints ty)) fun xs => (satSum (lowest ty) (highest ty) xs).natAbs < 2 ^ 53) :
    AreMeans w (len / ty.size) (values.map (ints ty)) ((windowed (meanOf fl ty len) w values).map (ints ty)) ↔
      EachColumn w (len / ty.size) (values.map (ints ty)) fun xs =>
        (satSum (lowest ty) (highest ty) xs).tdiv xs.length = xs.sum.tdiv xs.length := by
  have hlength : (values.map (ints ty)).length = values.length := List.length_map _
  have hwindow : ∀ k, windowAt w (values.map (ints ty)) k = ((values.drop (k * w)).take w).map (ints ty) := fun k => by
    rw [windowAt, List.map_take, List.map_drop]
  have hcount : ∀ k, (k + 1) * w ≤ values.length → ((values.drop (k * w)).take w).length = w := fun k hk => by
    rw [Nat.add_mul, Nat.one_mul] at hk
    rw [List.length_take, List.length_drop]
    omega
  have hints : ∀ k, (k + 1) * w ≤ values.length → ints ty (meanOf fl ty len ((values.drop (k * w)).take w)) =
      (List.range (len / ty.size)).map fun i =>
        (satSum (lowest ty) (highest ty) (column (windowAt w (values.map (ints ty)) k) i)).tdiv w := fun k hk => by
    have hne : (values.drop (k * w)).take w ≠ [] := List.ne_nil_of_length_pos (by rw [hcount k hk]; exact hw)
    rw [ints_meanOf h hd hsize hne (fun v hv' => hv v (List.mem_of_mem_drop (List.mem_of_mem_take hv'))), hcount k hk, hwindow]
    intro i hi
    rw [← hwindow]
    exact hlt k (by rw [hlength]; exact hk) i hi
  have hcolumn : ∀ k, (k + 1) * w ≤ values.length → ∀ i, (column (windowAt w (values.map (ints ty)) k) i).length = w :=
    fun k hk i => by rw [column, List.length_map, hwindow, List.length_map, hcount k hk]
  have hexact : ∀ k, (k + 1) * w ≤ values.length → exactMean (len / ty.size) (windowAt w (values.map (ints ty)) k) =
      (List.range (len / ty.size)).map fun i => (column (windowAt w (values.map (ints ty)) k) i).sum.tdiv w := fun k hk => by
    rw [exactMean, show (windowAt w (values.map (ints ty)) k).length = w by rw [hwindow, List.length_map, hcount k hk]]
  constructor
  · intro hm k hk i hi
    rw [hlength] at hk
    have hat := congrArg (·[k]?) hm.exact
    simp only [List.getElem?_map, getElem?_windowed hw, hlength, if_pos hk, Option.map_some] at hat
    have hat := Option.some.inj hat
    rw [hints k hk] at hat
    have hat := List.map_inj_left.mp (hat.trans (hexact k hk)) i (List.mem_range.mpr hi)
    rw [hcolumn k hk i]
    exact hat
  · intro hc
    have hmean : ∀ k, (k + 1) * w ≤ values.length → ints ty (meanOf fl ty len ((values.drop (k * w)).take w)) =
        exactMean (len / ty.size) (windowAt w (values.map (ints ty)) k) := fun k hk => by
      rw [hints k hk, hexact k hk]
      refine List.map_congr_left fun i hi => ?_
      have hq := hc k (by rw [hlength]; exact hk) i (List.mem_range.mp hi)
      simp only [hcolumn k hk i] at hq
      exact hq
    refine ⟨List.ext_getElem? fun k => ?_, fun k mean hat i hi lo hi' hb => ?_⟩
    · rw [List.getElem?_map, getElem?_windowed hw, getElem?_windowed hw, hlength]
      by_cases hk : (k + 1) * w ≤ values.length
      · rw [if_pos hk, if_pos hk, Option.map_some, hmean k hk]
        rfl
      · rw [if_neg hk, if_neg hk]
        rfl
    · rw [List.getElem?_map, getElem?_windowed hw] at hat
      by_cases hk : (k + 1) * w ≤ values.length
      · rw [if_pos hk, Option.map_some, hmean k hk, hexact k hk] at hat
        obtain rfl := Option.some.inj hat
        have hne : column (windowAt w (values.map (ints ty)) k) i ≠ [] :=
          List.ne_nil_of_length_pos (by rw [hcolumn k hk i]; exact hw)
        have hmem := mean_mem hne hb
        rw [hcolumn k hk i] at hmem
        rw [List.getD_eq_getElem?_getD, List.getElem?_map, List.getElem?_range hi]
        exact hmem
      · rw [if_neg hk] at hat
        cases hat

/-! ## Panics -/

/-- Booleans are only counted, up to the end of the window. -/
theorem run_bool {values means : List Bytes} {stage stage' : MeanStage}
    (h : stage.run fl addr .bool values = some (means, stage')) (hne : values ≠ []) :
    stage.count + values.length < stage.window.toNat := by
  induction values generalizing stage means stage' with
  | nil => exact absurd rfl hne
  | cons v values ih =>
    obtain ⟨⟨finished, stage₁, bytes⟩, hnext, h⟩ := Option.bind_eq_some_iff.mp h
    obtain ⟨⟨means₁, stage₂⟩, hrun, -⟩ := Option.bind_eq_some_iff.mp h
    obtain ⟨hwindow, hcount, hlt⟩ := next_of_bool hnext
    rw [List.length_cons]
    by_cases hnil : values = []
    · subst hnil
      rw [List.length_nil]
      omega
    · have := ih hrun hnil
      rw [hwindow, hcount] at this
      omega

/-- A stage never panics exactly if its type can be divided and its field is aligned. -/
theorem run_ne_none_iff (fl : Floats) (window : UInt16) (hsize : ty.size ∣ len) (hlt : len < 2 ^ 64) :
    (∀ values : List Bytes, (∀ v ∈ values, v.length = len) → (MeanStage.new window).run fl addr ty values ≠ none) ↔
      ty ≠ .bool ∧ addr % ty.size = 0 := by
  constructor
  · intro h
    constructor
    · rintro rfl
      have hzeros := h (List.replicate (window.toNat + 1) (List.replicate len 0)) fun v hv => by
        rw [List.eq_of_mem_replicate hv, List.length_replicate]
      obtain ⟨⟨means, stage⟩, hrun⟩ := Option.ne_none_iff_exists'.mp hzeros
      have := run_bool hrun (by simp)
      rw [List.length_replicate] at this
      simp only [MeanStage.new] at this
      omega
    · by_contra ha
      have hone := h [List.replicate len 0] fun v hv => by rw [List.mem_singleton.mp hv, List.length_replicate]
      refine hone ?_
      have hnext : (MeanStage.new window).next fl ⟨addr, List.replicate len 0⟩ ty = none := next_of_unaligned ha
      simp only [MeanStage.run, hnext]
      rfl
  · rintro ⟨hb, ha⟩ values hv
    obtain ⟨stage, hrun, -⟩ := run_eq fl (fun v hl => ⟨hl ▸ hsize, hl ▸ hlt, ha, hb⟩) hv window
    rw [hrun]
    exact Option.some_ne_none _

/-- A mean stage of integers gives the means of its windows if every column of a window sums up, and with columns of one
sign only then; it starts each window with an empty sum. It never panics exactly if the type is not `bool` and the field
is aligned. -/
theorem means_iff (hd : DividesExactly fl) {window : UInt16} (hw : 1 ≤ window.toNat) (hsize : ty.size ∣ len)
    (hlt : len < 2 ^ 64) :
    ((∀ values : List Bytes, (∀ v ∈ values, v.length = len) → (MeanStage.new window).run fl addr ty values ≠ none) ↔
      ty ≠ .bool ∧ addr % ty.size = 0) ∧
    ∀ values : List Bytes, (∀ v ∈ values, v.length = len) → IsInt ty → addr % ty.size = 0 →
      EachColumn window.toNat (len / ty.size) (values.map (ints ty)) (fun xs => xs.sum.natAbs < 2 ^ 53) →
      ∃ means stage, (MeanStage.new window).run fl addr ty values = some (means, stage) ∧
        stage.count = values.length % window.toNat ∧
        (values.length % window.toNat = 0 → ∀ acc ∈ stage.acc, acc.bytes = List.replicate len 0) ∧
        (EachColumn window.toNat (len / ty.size) (values.map (ints ty)) (SumsUp ty) →
          AreMeans window.toNat (len / ty.size) (values.map (ints ty)) (means.map (ints ty))) ∧
        (EachColumn window.toNat (len / ty.size) (values.map (ints ty)) OneSigned →
          AreMeans window.toNat (len / ty.size) (values.map (ints ty)) (means.map (ints ty)) →
            EachColumn window.toNat (len / ty.size) (values.map (ints ty)) (SumsUp ty)) := by
  refine ⟨run_ne_none_iff fl window hsize hlt, fun values hv hint ha hsmall => ?_⟩
  have hwindow : windowSize window = window.toNat := Nat.max_eq_left hw
  obtain ⟨stage, hrun, hcount, hacc⟩ := run_eq fl (fun v hl => ⟨hl ▸ hsize, hl ▸ hlt, ha, hint.1⟩) hv window
  rw [hwindow] at hrun hcount hacc
  refine ⟨_, stage, hrun, hcount, hacc, fun hsum => ?_, fun hone hm => ?_⟩
  · refine (areMeans_iff hint hd hsize hw hv fun k hk i hi => ?_).mpr fun k hk i hi => ?_
    · exact natAbs_satSum (.inl (hsum k hk i hi)) (hsmall k hk i hi)
    · exact tdiv_satSum_of_sumsUp (hsum k hk i hi)
  · have hq := (areMeans_iff hint hd hsize hw hv fun k hk i hi =>
      natAbs_satSum (.inr (hone k hk i hi)) (hsmall k hk i hi)).mp hm
    exact fun k hk i hi => sumsUp_of_tdiv (hone k hk i hi) (hq k hk i hi)

theorem smallInts_exact : DividesExactly smallInts := fun _ _ _ _ _ => rfl

/-- Two signed bytes, and two more. -/
theorem means_of_bytes : ∃ means stage, (MeanStage.new 2).run smallInts 0 .i8 [[3], [252], [100], [27]] = some (means, stage) ∧
    stage.count = 0 ∧ AreMeans 2 1 [[3], [-4], [100], [27]] (means.map (ints .i8)) := by
  have each : ∀ p : List Int → Prop, p [3, -4] → p [100, 27] → EachColumn 2 1 [[3], [-4], [100], [27]] p := by
    intro p h₀ h₁ k hk i hi
    obtain rfl : i = 0 := by omega
    have hk : (k + 1) * 2 ≤ 4 := hk
    obtain rfl | rfl : k = 0 ∨ k = 1 := by omega
    · exact h₀
    · exact h₁
  have hints : [[3], [252], [100], [27]].map (ints .i8) = [[3], [-4], [100], [27]] := by decide
  obtain ⟨means, stage, hrun, hcount, -, hmeans, -⟩ := (@means_iff smallInts .i8 0 1 smallInts_exact 2 (by decide)
    (by decide) (by decide)).2 [[3], [252], [100], [27]] (by decide) (by decide) (by decide)
    (hints ▸ each _ (by decide) (by decide))
  rw [hints] at hmeans
  exact ⟨means, stage, hrun, hcount, hmeans (each _ (.inl (by decide)) (.inl (by decide)))⟩

/-- The mean of 200 and 100 is half of 255. -/
theorem mean_saturates : (MeanStage.new 2).run smallInts 0 .u8 [[200], [100]] = some ([[127]], ⟨2, some ⟨.u8, [0]⟩, 0⟩) ∧
    (MeanStage.new 1).run smallInts 0 .bool [[1]] = none ∧ ¬ AreMeans 2 1 [[200], [100]] [[127]] := by
  refine ⟨rfl, rfl, fun h => ?_⟩
  have hat := congrArg (·[0]?) h.exact
  rw [getElem?_windowed (by decide)] at hat
  exact absurd hat (by decide)

end Metor.Proof.Stages
