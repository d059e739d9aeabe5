import Metor.Proof.Nox.Storage

/-!
# Strided iteration

The items of an iterator are those of a counter over its dims, moved by its
offsets (`position_eq`); but axes that have no offset stay where they are. What
loops over items leave is one element for each item (`copyInto_eq`,
`zipInto_eq`), as long as all are in the buffer.
-/

namespace Metor.Proof.Nox

open Metor.Lib Metor.Impl.Nox

variable {T : Type} {it : StrideIterator}

/-! ## Items -/

/-- One step of the counter, where there is an offset. -/
theorem bump_shift {dims offsets idx tail : List Nat} (h : idx.length = (dims.take offsets.length).length) :
    bump dims (shift offsets (idx ++ tail)) offsets =
      (shift offsets ((next (dims.take offsets.length) idx).1 ++ tail), (next (dims.take offsets.length) idx).2) := by
  induction dims generalizing offsets idx with
  | nil =>
    obtain rfl := List.length_eq_zero_iff.mp (h.trans (by simp))
    rw [List.take_nil, bump.eq_2 _ _ _ (by simp)]
    rfl
  | cons d dims ih =>
    cases offsets with
    | nil =>
      obtain rfl := List.length_eq_zero_iff.mp h
      rw [bump.eq_2 _ _ _ (by simp)]
      rfl
    | cons o offsets =>
      obtain ⟨i, rest, rfl⟩ := List.exists_cons_of_length_eq_add_one h
      have hrest : rest.length = (dims.take offsets.length).length := Nat.add_right_cancel h
      have hadd : (if (next (dims.take offsets.length) rest).2 then o + i + 1 else o + i) =
          o + if (next (dims.take offsets.length) rest).2 then i + 1 else i := by
        split <;> rfl
      have hle : ∀ j, decide (d + o ≤ o + j) = decide (d ≤ j) := fun j => by
        rw [decide_eq_decide]
        omega
      have hdigit : ∀ (j : Nat) (rest : List Nat), ((if d ≤ j then o else o + j) :: shift offsets (rest ++ tail), decide (d ≤ j)) =
          (shift (o :: offsets) ((if d ≤ j then (0 :: rest, true) else (j :: rest, false)).1 ++ tail),
            (if d ≤ j then (0 :: rest, true) else (j :: rest, false)).2) := by
        intro j rest
        by_cases hend : d ≤ j
        · rw [if_pos hend, if_pos hend, decide_eq_true hend]
          rfl
        · rw [if_neg hend, if_neg hend, decide_eq_false hend]
          rfl
      simp only [List.cons_append, shift, List.headD_cons, List.tail_cons, bump, ih hrest, List.length_cons,
        List.take_succ_cons, next, hadd, hle, decide_eq_true_eq]
      exact hdigit _ _

/-- The axes of a counter that have an offset, and it. -/
theorem iterate_next {idx tail : List Nat} (hi : it.indexes = shift it.offsets (idx ++ tail)) (hb : it.bumpIndex = false)
    (hlen : idx.length = (it.dims.take it.offsets.length).length) (n : Nat) :
    ((fun it : StrideIterator => it.next.2)^[n + 1] it) = { it with
      indexes := shift it.offsets ((fun idx => (next (it.dims.take it.offsets.length) idx).1)^[n] idx ++ tail)
      bumpIndex := true } := by
  have hlens : ∀ n, ((fun idx => (next (it.dims.take it.offsets.length) idx).1)^[n] idx).length = idx.length := by
    intro n
    induction n with
    | zero => rfl
    | succ n ih =>
      rw [Function.iterate_succ_apply', length_next (ih.trans hlen)]
      exact ih
  induction n with
  | zero =>
    rw [Function.iterate_one, StrideIterator.next, hb, Function.iterate_zero_apply, ← hi]
    rfl
  | succ n ih =>
    rw [Function.iterate_succ_apply', ih, StrideIterator.next, Function.iterate_succ_apply']
    simp only [if_true, bump_shift ((hlens n).trans hlen)]

/-- The position of item `n`: the counter after `n` steps, moved by the offsets. -/
theorem position_eq {idx tail : List Nat} (hi : it.indexes = shift it.offsets (idx ++ tail)) (hb : it.bumpIndex = false)
    (hlen : idx.length = (it.dims.take it.offsets.length).length) (n : Nat) :
    it.position n = offset it.stride
      (shift it.offsets ((fun idx => (next (it.dims.take it.offsets.length) idx).1)^[n] idx ++ tail)) := by
  cases n with
  | zero => rw [StrideIterator.position, Function.iterate_zero_apply, StrideIterator.next, hb, hi]; rfl
  | succ n =>
    have hnext := congrArg StrideIterator.indexes (iterate_next hi hb hlen (n + 1))
    rw [Function.iterate_succ_apply'] at hnext
    rw [StrideIterator.position, iterate_next hi hb hlen, StrideIterator.next]
    rw [iterate_next hi hb hlen] at hnext
    exact congrArg (offset it.stride) hnext

/-- An iterator that starts at its offsets. -/
structure Starts (it : StrideIterator) : Prop where
  bumpIndex : it.bumpIndex = false
  indexes : it.indexes = shift it.offsets (List.replicate it.dims.length 0)

theorem starts_offsetIter {shape strides dims offsets : List Nat} (h : dims.length = shape.length) :
    Starts { offsetIter shape strides offsets with dims := dims } where
  bumpIndex := rfl
  indexes := by
    have hzip : ∀ (shape offsets : List Nat) n, shape.length ≤ n →
        List.zipWith (fun offset _ => offset) (offsets ++ List.replicate n 0) shape =
          shift offsets (List.replicate shape.length 0) := by
      intro shape
      induction shape with
      | nil => exact fun offsets n _ => List.zipWith_nil_right
      | cons d shape ih =>
        intro offsets n hn
        cases offsets with
        | nil =>
          obtain ⟨n, rfl⟩ := Nat.exists_eq_add_one_of_ne_zero (Nat.ne_of_gt (Nat.lt_of_lt_of_le (Nat.succ_pos _) hn))
          have hrest := ih [] n (Nat.le_of_succ_le_succ hn)
          simpa [List.replicate_succ, shift] using hrest
        | cons o offsets =>
          have hrest := ih offsets n (Nat.le_of_succ_le hn)
          simpa [List.replicate_succ, shift] using hrest
    show List.zipWith _ _ shape = shift offsets (List.replicate dims.length 0)
    rw [h]
    exact hzip shape offsets shape.length (Nat.le_refl _)

/-- An item, where only the axes with an offset advance. -/
theorem position_of_take (hs : Starts it) {n : Nat} {idx : List Nat}
    (h : (allIndices (it.dims.take it.offsets.length))[n % (it.dims.take it.offsets.length).prod]? = some idx) :
    it.position n =
      offset it.stride (shift it.offsets (idx ++ List.replicate (it.dims.length - it.offsets.length) 0)) := by
  have hsplit : List.replicate it.dims.length 0 = List.replicate (it.dims.take it.offsets.length).length 0 ++
      List.replicate (it.dims.length - it.offsets.length) 0 := by
    rw [← List.replicate_add, List.length_take]
    exact congrArg (List.replicate · 0) (by omega)
  have hpos : 0 < (it.dims.take it.offsets.length).prod := by
    by_contra hzero
    have hnone : (allIndices (it.dims.take it.offsets.length)) = [] :=
      List.length_eq_zero_iff.mp ((length_allIndices _).trans (by omega))
    rw [hnone] at h
    cases h
  rw [position_eq (hs.indexes.trans (congrArg _ hsplit)) hs.bumpIndex List.length_replicate]
  obtain ⟨hidx, hoff⟩ := next_iterate hpos n
  obtain ⟨hidx', hoff'⟩ := getElem?_allIndices_iff.mp h
  rw [offset_inj hidx hidx' (hoff.trans hoff'.symm)]

/-- An item of a window, where all axes have an offset. -/
theorem position_of_index (hs : Starts it) (hlen : it.dims.length ≤ it.offsets.length) {n : Nat} {idx : List Nat}
    (h : (allIndices it.dims)[n]? = some idx) : it.position n = offset it.stride (shift it.offsets idx) := by
  have hn : n < it.dims.prod := (length_allIndices _) ▸ (List.getElem?_eq_some_iff.mp h).1
  have htake : it.dims.take it.offsets.length = it.dims := List.take_of_length_le hlen
  have htaken : (allIndices (it.dims.take it.offsets.length))[n % (it.dims.take it.offsets.length).prod]? = some idx := by
    rw [htake, Nat.mod_eq_of_lt hn, h]
  rw [position_of_take hs htaken, Nat.sub_eq_zero_of_le hlen,
    List.replicate_zero, List.append_nil]

/-! ## Loops -/

theorem position_succ (it : StrideIterator) (n : Nat) : it.position (n + 1) = it.next.2.position n := by
  rw [StrideIterator.position, Function.iterate_succ_apply]
  rfl

@[simp] theorem length_copyInto (buf out : List T) : (copyInto buf it out).length = out.length := by
  induction out generalizing it with
  | nil => rfl
  | cons o out ih =>
    rw [copyInto]
    split
    · rfl
    · rw [List.length_cons, ih, List.length_cons]

/-- What is copied. -/
theorem copyInto_eq {buf out : List T} (h : ∀ n < out.length, it.position n < buf.length) :
    (copyInto buf it out).map some = (List.range out.length).map fun n => buf[it.position n]? := by
  induction out generalizing it with
  | nil => rfl
  | cons o out ih =>
    have hfirst : it.next.1 < buf.length := h 0 (Nat.succ_pos _)
    have hrest : ∀ n < out.length, it.next.2.position n < buf.length := fun n hn => by
      rw [← position_succ]
      exact h (n + 1) (Nat.succ_lt_succ hn)
    simp only [copyInto, List.getElem?_eq_getElem hfirst, List.map_cons, ih hrest, List.length_cons,
      List.range_succ_eq_map, List.map_map]
    refine congrArg₂ _ (List.getElem?_eq_getElem hfirst).symm (List.map_congr_left fun n _ => ?_)
    rw [Function.comp_apply, position_succ]

/-- What is computed from two arrays. -/
theorem zipInto_eq {f : T → T → T} {bufA bufB out : List T} {itA itB : StrideIterator}
    (hA : ∀ n < out.length, itA.position n < bufA.length) (hB : ∀ n < out.length, itB.position n < bufB.length) :
    (zipInto f bufA bufB itA itB out).map some =
      (List.range out.length).map fun n => Option.map₂ f bufA[itA.position n]? bufB[itB.position n]? := by
  induction out generalizing itA itB with
  | nil => rfl
  | cons o out ih =>
    have hfirstA : itA.next.1 < bufA.length := hA 0 (Nat.succ_pos _)
    have hfirstB : itB.next.1 < bufB.length := hB 0 (Nat.succ_pos _)
    have hrestA : ∀ n < out.length, itA.next.2.position n < bufA.length := fun n hn => by
      rw [← position_succ]
      exact hA (n + 1) (Nat.succ_lt_succ hn)
    have hrestB : ∀ n < out.length, itB.next.2.position n < bufB.length := fun n hn => by
      rw [← position_succ]
      exact hB (n + 1) (Nat.succ_lt_succ hn)
    simp only [zipInto, List.getElem?_eq_getElem hfirstA, List.getElem?_eq_getElem hfirstB, List.map_cons,
      ih hrestA hrestB, List.length_cons, List.range_succ_eq_map, List.map_map]
    refine congrArg₂ _ ?_ (List.map_congr_left fun n _ => ?_)
    · show _ = Option.map₂ f bufA[itA.next.1]? bufB[itB.next.1]?
      rw [List.getElem?_eq_getElem hfirstA, List.getElem?_eq_getElem hfirstB]
      rfl
    · rw [Function.comp_apply, position_succ, position_succ]

@[simp] theorem length_scatter (args out : List T) : (scatter it args out).length = out.length := by
  induction args generalizing it out with
  | nil => rfl
  | cons b args ih =>
    rw [scatter]
    split
    · rw [ih, List.length_set]
    · rfl

/-- What is there was there before, or written. -/
theorem scatter_sound {args out : List T} {p : Nat} {x : T} (h : (scatter it args out)[p]? = some x) :
    out[p]? = some x ∨ ∃ n, it.position n = p ∧ args[n]? = some x := by
  induction args generalizing it out with
  | nil => exact .inl h
  | cons b args ih =>
    rw [scatter] at h
    split at h
    · obtain hbefore | ⟨n, hn, hx⟩ := ih h
      · by_cases hp : it.next.1 = p
        · subst hp
          rw [List.getElem?_set_self ‹_›] at hbefore
          exact .inr ⟨0, rfl, hbefore⟩
        · rw [List.getElem?_set_ne hp] at hbefore
          exact .inl hbefore
      · exact .inr ⟨n + 1, (position_succ it n).trans hn, hx⟩
    · exact .inl h

/-- What is not written stays. -/
theorem scatter_frame {args out : List T} {p : Nat} (h : ∀ n < args.length, it.position n ≠ p) :
    (scatter it args out)[p]? = out[p]? := by
  induction args generalizing it out with
  | nil => rfl
  | cons b args ih =>
    have hrest : ∀ n < args.length, it.next.2.position n ≠ p := fun n hn => by
      rw [← position_succ]
      exact h (n + 1) (Nat.succ_lt_succ hn)
    rw [scatter]
    split
    · have hfirst : it.next.1 ≠ p := h 0 (Nat.succ_pos _)
      rw [ih hrest, List.getElem?_set_ne hfirst]
    · rfl

/-- What is written to distinct positions is there. -/
theorem scatter_complete {args out : List T} (hin : ∀ n < args.length, it.position n < out.length)
    (hinj : ∀ n < args.length, ∀ m < args.length, it.position n = it.position m → n = m) {n : Nat} {x : T}
    (hx : args[n]? = some x) : (scatter it args out)[it.position n]? = some x := by
  induction args generalizing it out n with
  | nil => cases hx
  | cons b args ih =>
    have hfirst : it.next.1 < out.length := hin 0 (Nat.succ_pos _)
    rw [scatter, if_pos hfirst]
    cases n with
    | zero =>
      have hlater : ∀ m < args.length, it.next.2.position m ≠ it.position 0 := fun m hm heq => by
        rw [← position_succ] at heq
        cases hinj (m + 1) (Nat.succ_lt_succ hm) 0 (Nat.succ_pos _) heq
      rw [scatter_frame hlater, StrideIterator.position, Function.iterate_zero_apply, List.getElem?_set_self hfirst]
      exact hx
    | succ n =>
      have hin' : ∀ n < args.length, it.next.2.position n < (out.set it.next.1 b).length := fun n hn => by
        rw [← position_succ, List.length_set]
        exact hin (n + 1) (Nat.succ_lt_succ hn)
      have hinj' : ∀ n < args.length, ∀ m < args.length, it.next.2.position n = it.next.2.position m → n = m := by
        intro n hn m hm heq
        rw [← position_succ, ← position_succ] at heq
        exact Nat.succ.inj (hinj _ (Nat.succ_lt_succ hn) _ (Nat.succ_lt_succ hm) heq)
      rw [position_succ]
      exact ih hin' hinj' hx

end Metor.Proof.Nox
