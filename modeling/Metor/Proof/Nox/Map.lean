import Metor.Proof.Nox.Storage

/-!
# Rows

`map` writes what the function gives for each row behind that of the row before
(`mapRows_eq`). The output has as many rows as the input has columns, so a
dynamic one is right only for square matrices (`maps_iff`).
-/

namespace Metor.Proof.Nox

open Metor.Lib Metor.Impl.Nox

variable {T T2 : Type}

theorem chunksExact_eq {r c : Nat} (hc : 0 < c) {buf : List T} (h : buf.length = r * c) :
    chunksExact c buf = (List.range r).map fun i => (buf.drop (i * c)).take c := by
  rw [chunksExact, h, Nat.mul_div_cancel r hc]

theorem length_chunk {r c i : Nat} {buf : List T} (h : buf.length = r * c) (hi : i < r) :
    ((buf.drop (i * c)).take c).length = c := by
  have hle : (i + 1) * c ≤ r * c := Nat.mul_le_mul_right c hi
  rw [Nat.add_mul, Nat.one_mul] at hle
  rw [List.length_take, List.length_drop, h]
  omega

variable [Inhabited T] [Inhabited T2] {len : List Nat → Nat} {D E D2 Out : Dim} {r c m n : Nat}
  {func : E.Buf T → D2.Buf T2} {a : D.Buf T}

/-- The row of a chunk. -/
def rowOf (len : List Nat → Nat) (E : Dim) (c : Nat) (chunk : List T) : E.Buf T := E.withBuf (zeroed len E [c]) chunk

theorem laid_zeroed_vector (hlen : ∀ dims, len dims = dims.prod) (hE : E = .dyn ∨ E.fixed = some [c]) :
    Laid E [c] (zeroed len E [c] : E.Buf T) := by
  obtain rfl | hfixed := hE
  · exact ⟨rfl, List.length_replicate.trans (hlen [c]), rfl⟩
  · refine (laid_fixed_iff hfixed _).mpr ?_
    cases E with
    | const3 d1 d2 d3 => cases hfixed
    | _ => exact trivial

theorem laid_rowOf (hlen : ∀ dims, len dims = dims.prod) (hE : E = .dyn ∨ E.fixed = some [c]) {chunk : List T}
    (hchunk : chunk.length = c) : Laid E [c] (rowOf len E c chunk) ∧ E.asBuf (rowOf len E c chunk) = chunk :=
  laid_withBuf (laid_zeroed_vector hlen hE) (hchunk.trans List.prod_singleton.symm)

theorem storageLen_singleton (hm : m < 2 ^ 64) : storageLen [m] = m := by
  rw [storageLen_eq, List.sum_singleton, Nat.mod_eq_of_lt hm]

/-- One row: it is written behind the rows before. -/
theorem mapRows_cons (hlen : ∀ dims, len dims = dims.prod) (hE : E = .dyn ∨ E.fixed = some [c]) (hm : m < 2 ^ 64)
    (hfunc : ∀ row, Laid E [c] row → Laid D2 [m] (func row)) {i : Nat} {arr : Out.Buf T2} {chunk : List T}
    {chunks : List (List T)} (hchunk : chunk.length = c) (hfit : (i + 1) * m ≤ (Out.asBuf arr).length) :
    mapRows len Out n [c] func i (some ([m], arr)) (chunk :: chunks) =
      mapRows len Out n [c] func (i + 1) (some ([m], Out.withBuf arr ((Out.asBuf arr).take (i * m) ++
        D2.asBuf (func (rowOf len E c chunk)) ++ (Out.asBuf arr).drop ((i + 1) * m)))) chunks := by
  have hnew := hfunc _ (laid_rowOf hlen hE hchunk).1
  have hlength : (D2.asBuf (func (rowOf len E c chunk))).length = m := hnew.length.trans List.prod_singleton
  have helem : (E.asBuf (zeroed len E [c] : E.Buf T)).length = chunk.length := by
    rw [(laid_zeroed_vector hlen hE).length, List.prod_singleton, hchunk]
  rw [mapRows]
  simp only [Option.bind_eq_bind, Option.bind_some]
  rw [if_neg (fun hne => hne helem), show E.withBuf (zeroed len E [c]) chunk = rowOf len E c chunk from rfl, hnew.arrayShape,
    if_neg (fun hne => hne rfl), storageLen_singleton hm, if_neg (by rw [hlength]; omega)]

/-- The first row allocates the output. -/
theorem mapRows_none (hlen : ∀ dims, len dims = dims.prod) (hE : E = .dyn ∨ E.fixed = some [c])
    (hfunc : ∀ row, Laid E [c] row → Laid D2 [m] (func row)) {i : Nat} {chunk : List T} {chunks : List (List T)}
    (hchunk : chunk.length = c) {dims : List Nat} (hfrom : fromLenElem Out n 0 [m] = some dims) :
    mapRows len Out n [c] func i none (chunk :: chunks) =
      mapRows len Out n [c] func i (some ([m], (zeroed len Out dims : Out.Buf T2))) (chunk :: chunks) := by
  have hnew := hfunc _ (laid_rowOf hlen hE hchunk).1
  rw [mapRows, mapRows]
  simp only [Option.bind_eq_bind, Option.bind_some]
  rw [show E.withBuf (zeroed len E [c]) chunk = rowOf len E c chunk from rfl, hnew.arrayShape, hfrom]
  rfl

/-- The shape of the output stays. -/
theorem mapRows_shape {elemDim : List Nat} {i : Nat} {state : List Nat × Out.Buf T2} {chunks : List (List T)}
    {result : Option (List Nat × Out.Buf T2)} (h : mapRows len Out n elemDim func i (some state) chunks = some result) :
    ∃ state', result = some state' ∧ Out.arrayShape state'.2 = Out.arrayShape state.2 := by
  induction chunks generalizing i state with
  | nil => exact ⟨state, (Option.some.inj h).symm, rfl⟩
  | cons chunk chunks ih =>
    rw [mapRows] at h
    simp only [Option.bind_eq_bind, Option.bind_some] at h
    split at h
    · cases h
    split at h
    · cases h
    split at h
    · cases h
    obtain ⟨state', hresult, hshape⟩ := ih h
    exact ⟨state', hresult, hshape.trans (arrayShape_withBuf _ _)⟩

/-- All rows, one after the other. -/
theorem mapRows_eq (hlen : ∀ dims, len dims = dims.prod) (hE : E = .dyn ∨ E.fixed = some [c]) (hm : m < 2 ^ 64)
    (hfunc : ∀ row, Laid E [c] row → Laid D2 [m] (func row)) {i : Nat} {arr : Out.Buf T2} {chunks : List (List T)}
    (hchunks : ∀ chunk ∈ chunks, chunk.length = c) (hfit : (i + chunks.length) * m ≤ (Out.asBuf arr).length) :
    ∃ arr', mapRows len Out n [c] func i (some ([m], arr)) chunks = some (some ([m], arr')) ∧
      Out.asBuf arr' = (Out.asBuf arr).take (i * m) ++
        (chunks.flatMap fun chunk => D2.asBuf (func (rowOf len E c chunk))) ++
        (Out.asBuf arr).drop ((i + chunks.length) * m) := by
  induction chunks generalizing i arr with
  | nil => exact ⟨arr, rfl, by simp⟩
  | cons chunk chunks ih =>
    have hchunk : chunk.length = c := hchunks chunk List.mem_cons_self
    rw [List.length_cons] at hfit ⊢
    have hstep : (i + 1) * m ≤ (i + (chunks.length + 1)) * m := Nat.mul_le_mul_right m (by omega)
    have hlength : (D2.asBuf (func (rowOf len E c chunk))).length = m :=
      (hfunc _ (laid_rowOf hlen hE hchunk).1).length.trans List.prod_singleton
    have hi : (i + 1) * m = i * m + m := by ring
    have hnew : ((Out.asBuf arr).take (i * m) ++ D2.asBuf (func (rowOf len E c chunk)) ++
        (Out.asBuf arr).drop ((i + 1) * m)).length = (Out.asBuf arr).length := by
      rw [List.length_append, List.length_append, List.length_take, List.length_drop, hlength]
      omega
    have hrest : i + (chunks.length + 1) = i + 1 + chunks.length := by omega
    rw [mapRows_cons hlen hE hm hfunc hchunk (hstep.trans hfit)]
    have hfit' : (i + 1 + chunks.length) * m ≤ (Out.asBuf (Out.withBuf arr ((Out.asBuf arr).take (i * m) ++
        D2.asBuf (func (rowOf len E c chunk)) ++ (Out.asBuf arr).drop ((i + 1) * m)))).length := by
      rw [asBuf_withBuf hnew, hnew, ← hrest]
      exact hfit
    obtain ⟨arr', heq, hbuf⟩ := ih (fun chunk h => hchunks chunk (List.mem_cons_of_mem _ h)) hfit'
    refine ⟨arr', heq, ?_⟩
    have hpre : ((Out.asBuf arr).take (i * m) ++ D2.asBuf (func (rowOf len E c chunk))).length = (i + 1) * m := by
      rw [List.length_append, List.length_take, hlength]
      omega
    have hmul : (i + 1 + chunks.length) * m = (i + 1) * m + chunks.length * m := Nat.add_mul _ _ _
    rw [hbuf, asBuf_withBuf hnew, List.flatMap_cons, hrest, List.take_left' hpre, List.drop_append, hpre,
      List.drop_eq_nil_of_le (by omega), List.nil_append, List.drop_drop, hmul, Nat.add_sub_cancel_left,
      List.append_assoc, List.append_assoc, List.append_assoc, List.append_assoc]

theorem fromLenElem_map (hOut : Out = .dyn ∨ Out.fixed = some [r, m]) : fromLenElem Out c 0 [m] = some [c, m] := by
  obtain rfl | hfixed := hOut
  · rfl
  · rw [fromLenElem, hfixed]
    rfl

/-- The loop over all rows, into an output that has as many rows as there are columns. -/
theorem map_eq (hlen : ∀ dims, len dims = dims.prod) (hr : 0 < r) (hc : 0 < c) (hc' : c < 2 ^ 64) (ha : Laid D [r, c] a)
    (hE : E = .dyn ∨ E.fixed = some [c]) (hfunc : ∀ row, Laid E [c] row → Laid D2 [m] (func row))
    (hOut : Out = .dyn ∨ Out.fixed = some [r, m]) :
    map len Out func a = (mapRows len Out c [c] func 0 (some ([m], (zeroed len Out [c, m] : Out.Buf T2)))
      ((List.range r).map fun i => ((D.asBuf a).drop (i * c)).take c)).bind fun out => out.map Prod.snd := by
  have hbuf : (D.asBuf a).length = r * c := by rw [ha.length, List.prod_cons, List.prod_singleton]
  obtain ⟨rows, rfl⟩ := Nat.exists_eq_add_one_of_ne_zero (Nat.ne_of_gt hr)
  rw [map, ha.arrayShape]
  simp only [List.drop_succ_cons, List.drop_zero, List.getElem?_cons_succ, List.getElem?_cons_zero, Option.bind_eq_bind,
    Option.bind_some, storageLen_singleton hc', chunksExact_eq hc hbuf]
  rw [if_neg (Nat.ne_of_gt hc), List.range_succ_eq_map, List.map_cons,
    mapRows_none hlen hE hfunc (length_chunk hbuf hr) (fromLenElem_map hOut)]
  refine congrArg _ (funext fun out => ?_)
  cases out <;> rfl

/-- When each row is mapped to its row: the output is of constants, or the matrix is square. -/
theorem maps_iff (hlen : ∀ dims, len dims = dims.prod) (hr : 0 < r) (hc : 0 < c) (hc' : c < 2 ^ 64) (hm : m < 2 ^ 64)
    (ha : Laid D [r, c] a) (hE : E = .dyn ∨ E.fixed = some [c])
    (hfunc : ∀ row, Laid E [c] row → Laid D2 [m] (func row)) (hOut : Out = .dyn ∨ Out.fixed = some [r, m]) :
    Maps Out r c m func a (map len Out func a) ↔ Out ≠ .dyn ∨ r = c := by
  have hbuf : (D.asBuf a).length = r * c := by rw [ha.length, List.prod_cons, List.prod_singleton]
  have hshape : Out.arrayShape (zeroed len Out [c, m] : Out.Buf T2) = [r, m] ↔ Out ≠ .dyn ∨ r = c := by
    rw [arrayShape_zeroed]
    obtain rfl | hfixed := hOut
    · constructor
      · intro h
        exact .inr (List.cons.inj h).1.symm
      · intro h
        rw [h.resolve_left fun hne => hne rfl]
        rfl
    · rw [hfixed]
      exact iff_of_true rfl (.inl (fixed_ne_dyn hfixed))
  rw [map_eq hlen hr hc hc' ha hE hfunc hOut, ← hshape]
  constructor
  · rintro ⟨out, heq, rows, -, hholds⟩
    obtain ⟨result, hrun, hresult⟩ := Option.bind_eq_some_iff.mp heq
    obtain ⟨state, rfl, hstate⟩ := mapRows_shape hrun
    obtain rfl := Option.some.inj hresult
    exact hstate.symm.trans hholds.arrayShape
  · intro hsame
    have hzeroed : (Out.asBuf (zeroed len Out [c, m] : Out.Buf T2)).length = r * m := by
      obtain rfl | hfixed := hOut
      · obtain rfl : c = r := (List.cons.inj hsame).1
        exact List.length_replicate.trans ((hlen _).trans (by simp))
      · rw [length_fixed hfixed, List.prod_cons, List.prod_singleton]
    have hchunks : ∀ chunk ∈ (List.range r).map fun i => ((D.asBuf a).drop (i * c)).take c, chunk.length = c := by
      intro chunk h
      obtain ⟨i, hi, rfl⟩ := List.mem_map.mp h
      exact length_chunk hbuf (List.mem_range.mp hi)
    have hfit : (0 + ((List.range r).map fun i => ((D.asBuf a).drop (i * c)).take c).length) * m ≤
        (Out.asBuf (zeroed len Out [c, m] : Out.Buf T2)).length := by
      rw [hzeroed, List.length_map, List.length_range, Nat.zero_add]
    obtain ⟨arr, hrun, harr⟩ := mapRows_eq (n := c) hlen hE hm hfunc hchunks hfit
    obtain ⟨state, hstate, hsameShape⟩ := mapRows_shape hrun
    obtain rfl := Option.some.inj hstate
    rw [hrun]
    refine ⟨arr, rfl, fun i => rowOf len E c (((D.asBuf a).drop (i * c)).take c), fun i hi => ?_, hsameShape.trans hsame, ?_⟩
    · obtain ⟨hlaid, helems⟩ := laid_rowOf (E := E) hlen hE (length_chunk hbuf hi)
      refine ⟨hlaid, fun k hk => ?_⟩
      rw [Dim.get?, Dim.get?, helems, hlaid.arrayShape, ha.arrayShape]
      simp [rowMajor, hk]
    · have hrow : ∀ i < r, (D2.asBuf (func (rowOf len E c (((D.asBuf a).drop (i * c)).take c)))).length = m :=
        fun i hi => (hfunc _ (laid_rowOf hlen hE (length_chunk hbuf hi)).1).length.trans List.prod_singleton
      have hvalues : Out.asBuf arr = (List.range r).flatMap fun i =>
          D2.asBuf (func (rowOf len E c (((D.asBuf a).drop (i * c)).take c))) := by
        rw [harr, List.length_map, List.length_range, Nat.zero_add, Nat.zero_mul, List.take_zero, List.nil_append,
          List.drop_eq_nil_of_le (Nat.le_of_eq hzeroed), List.append_nil, List.flatMap_map]
      have hprod : [r, m].prod = r * m := by rw [List.prod_cons, List.prod_singleton]
      rw [hvalues, map_some_eq, length_flatMap_range hrow, ← hprod]
      refine map_range_eq_iff.mpr fun n idx h => ?_
      obtain ⟨hidx, rfl⟩ := getElem?_allIndices_iff.mp h
      obtain ⟨i, rest, hi, hrest, rfl⟩ := List.forall₂_cons_right_iff.mp hidx
      obtain ⟨j, rest, hj, hnil, rfl⟩ := List.forall₂_cons_right_iff.mp hrest
      obtain rfl := List.forall₂_nil_right_iff.mp hnil
      have hoff : offset (rowMajor [r, m]) [i, j] = i * m + j := by simp [rowMajor]
      have hnew := (hfunc _ (laid_rowOf (E := E) hlen hE (length_chunk hbuf hi)).1).arrayShape
      rw [hoff, getElem?_flatMap_range hrow hi hj, Dim.get?]
      simp only [List.getD_cons_zero, List.drop_succ_cons, List.drop_zero, hnew]
      simp [rowMajor]

/-- A square matrix, each row mapped to itself. -/
theorem maps_iff_square :
    @Maps Int Int .dyn .dyn .dyn .dyn 2 2 2 id ⟨[1, 2, 3, 4], [2, 2], [2, 1]⟩
        (@map Int Int _ _ List.prod .dyn .dyn .dyn .dyn id ⟨[1, 2, 3, 4], [2, 2], [2, 1]⟩) ↔ Dim.dyn ≠ .dyn ∨ 2 = 2 :=
  maps_iff (fun _ => rfl) (by decide) (by decide) (by decide) (by decide) ⟨rfl, rfl, rfl⟩ (.inl rfl) (fun _ h => h)
    (.inl rfl)

/-- Two rows of one element: the output has one row, and the second does not fit. -/
theorem map_dyn_not_maps :
    ¬ @Maps Int Int .dyn .dyn .dyn .dyn 2 1 1 id ⟨[1, 2], [2, 1], [1, 1]⟩
      (@map Int Int _ _ List.prod .dyn .dyn .dyn .dyn id ⟨[1, 2], [2, 1], [1, 1]⟩) := by
  have heval : @map Int Int _ _ List.prod .dyn .dyn .dyn .dyn id ⟨[1, 2], [2, 1], [1, 1]⟩ = none := rfl
  rw [heval]
  rintro ⟨out, hout, -⟩
  cases hout

end Metor.Proof.Nox
