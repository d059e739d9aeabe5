import Metor.Proof.Plot.Shards
import Metor.Spec.Plot

/-!
# What a line shows

An insert shows the samples of the chunk in its interval and leaves the rest as
it was (`count_shown_insert`). The values of an element are a column of a page
(`stepBy_flatMap`), so a page that is processed is what each line shows between
its first and its last time (`processTimeSeries_eq`).
-/

namespace Metor.Proof.Plot

open Metor.Impl.Plot

/-! ## An insert -/

variable {tree : List (Interval × Chunk)} {range : Interval} {c : Chunk} {x : Int × F32}

theorem count_filter_ite {α : Type} [BEq α] [LawfulBEq α] (p : α → Bool) (l : List α) (x : α) :
    (l.filter p).count x = if p x then l.count x else 0 := by
  split
  · exact List.count_filter ‹_›
  · rename_i hp
    exact List.count_eq_zero.mpr fun hx => hp (List.mem_filter.mp hx).2

theorem shown_append (tree tree' : List (Interval × Chunk)) : shown (tree ++ tree') = shown tree ++ shown tree' :=
  List.flatMap_append

theorem shown_cons (e : Interval × Chunk) (tree : List (Interval × Chunk)) : shown (e :: tree) = shownBy e ++ shown tree :=
  List.flatMap_cons

/-- What is left before an interval shows what was shown there. -/
theorem count_shown_before (tree : List (Interval × Chunk)) (range : Interval) (x : Int × F32) :
    (shown (tree.flatMap (LineTree.before range))).count x = if x.1 < range.start then (shown tree).count x else 0 := by
  induction tree with
  | nil => simp [shown]
  | cons e tree ih =>
    have hentry : (shown (LineTree.before range e)).count x = if x.1 < range.start then (shownBy e).count x else 0 := by
      rw [LineTree.before, shownBy, count_filter_ite]
      split
      · rw [shown_cons, shown, List.flatMap_nil, List.append_nil, shownBy, count_filter_ite]
        by_cases hx : x.1 < range.start
        · have hle : x.1 ≤ range.start - 1 := by omega
          simp [hx, hle]
        · have hle : ¬ x.1 ≤ range.start - 1 := by omega
          simp [hx, hle]
      · have hend : x.1 < range.start → ¬ e.1.start ≤ x.1 := by omega
        by_cases hx : x.1 < range.start
        · simp [hx, hend hx, shown]
        · simp [hx, shown]
    rw [List.flatMap_cons, shown_append, List.count_append, ih, hentry, shown_cons, List.count_append]
    split <;> rfl

theorem count_shown_after (tree : List (Interval × Chunk)) (range : Interval) (x : Int × F32) :
    (shown (tree.flatMap (LineTree.after range))).count x = if range.stop < x.1 then (shown tree).count x else 0 := by
  induction tree with
  | nil => simp [shown]
  | cons e tree ih =>
    have hentry : (shown (LineTree.after range e)).count x = if range.stop < x.1 then (shownBy e).count x else 0 := by
      rw [LineTree.after, shownBy, count_filter_ite]
      split
      · rw [shown_cons, shown, List.flatMap_nil, List.append_nil, shownBy, count_filter_ite]
        by_cases hx : range.stop < x.1
        · have hle : range.stop + 1 ≤ x.1 := by omega
          simp [hx, hle]
        · have hle : ¬ range.stop + 1 ≤ x.1 := by omega
          simp [hx, hle]
      · have hend : range.stop < x.1 → ¬ x.1 ≤ e.1.stop := by omega
        by_cases hx : range.stop < x.1
        · simp [hx, hend hx, shown]
        · simp [hx, shown]
    rw [List.flatMap_cons, shown_append, List.count_append, ih, hentry, shown_cons, List.count_append]
    split <;> rfl

/-- A chunk that is inserted is shown in its interval, and what was shown outside of it stays. -/
theorem count_shown_insert (tree : List (Interval × Chunk)) {range : Interval} (hrange : range.start ≤ range.stop) (c : Chunk)
    (x : Int × F32) : (shown (LineTree.insertOverwrite tree range c)).count x =
      if range.start ≤ x.1 ∧ x.1 ≤ range.stop then (c.timestamps.zip c.data).count x else (shown tree).count x := by
  rw [LineTree.insertOverwrite, shown_append, shown_cons, List.count_append, List.count_append, count_shown_before,
    count_shown_after, shownBy, count_filter_ite]
  by_cases hbefore : x.1 < range.start
  · have hnot : ¬ range.start ≤ x.1 := by omega
    have hafter : ¬ range.stop < x.1 := by omega
    simp [hbefore, hnot, hafter]
  · by_cases hafter : range.stop < x.1
    · have hnot : ¬ x.1 ≤ range.stop := by omega
      simp [hbefore, hafter, hnot]
    · have hin : range.start ≤ x.1 ∧ x.1 ≤ range.stop := by omega
      simp [hbefore, hafter, hin]

/-! ## Columns -/

theorem stepBy_nil {α : Type} (step : Nat) : stepBy step ([] : List α) = [] := by simp [stepBy]

/-- Steps take the first, and then those of what is left after a step. -/
theorem stepBy_cons {α : Type} {step : Nat} (hstep : 1 ≤ step) (x : α) (l : List α) :
    stepBy step (x :: l) = x :: stepBy step ((x :: l).drop step) := by
  have hcount : ((x :: l).length + step - 1) / step = (((x :: l).drop step).length + step - 1) / step + 1 := by
    rw [List.length_drop, List.length_cons]
    by_cases hle : step ≤ l.length + 1
    · have hsum : l.length + 1 + step - 1 = (l.length + 1 - step + step - 1) + step := by omega
      rw [hsum, Nat.add_div_right _ hstep]
    · have hleft : l.length + 1 + step - 1 = l.length + step := by omega
      have hright : l.length + 1 - step + step - 1 = step - 1 := by omega
      rw [hleft, hright, Nat.add_div_right _ hstep, Nat.div_eq_of_lt (by omega), Nat.div_eq_of_lt (by omega)]
  rw [stepBy, hcount, List.range_succ_eq_map, List.filterMap_cons, List.filterMap_map, Nat.zero_mul, List.getElem?_cons_zero]
  refine congrArg (x :: ·) (List.filterMap_congr fun k _ => ?_)
  rw [List.getElem?_drop]
  exact congrArg ((x :: l)[·]?) (by rw [Nat.succ_eq_add_one, Nat.add_mul]; omega)

/-- The values of an element of a page, which has them sample by sample, are its column. -/
theorem stepBy_flatMap {T : Type} {len : Nat} (i : Fin len) (page : List (Int × Vector T len)) :
    stepBy len ((page.flatMap (·.2.toList)).drop i) = page.map (·.2.get i) := by
  have hlen : 1 ≤ len := i.pos
  induction page with
  | nil => rw [List.flatMap_nil, List.drop_nil, stepBy_nil, List.map_nil]
  | cons s page ih =>
    have hlength : s.2.toList.length = len := s.2.length_toList
    have hlt : i.val < s.2.toList.length := hlength.symm ▸ i.isLt
    have hdrop : (s.2.toList ++ page.flatMap (·.2.toList)).drop i =
        s.2.get i :: (s.2.toList ++ page.flatMap (·.2.toList)).drop (i + 1) := by
      rw [List.drop_eq_getElem_cons (by rw [List.length_append]; omega), List.getElem_append_left hlt]
      rfl
    have hnext : ((s.2.toList ++ page.flatMap (·.2.toList)).drop i).drop len = (page.flatMap (·.2.toList)).drop i := by
      rw [List.drop_drop, Nat.add_comm, ← List.drop_drop, List.drop_left' hlength]
    rw [List.flatMap_cons, List.map_cons, ← ih, ← hnext, hdrop, stepBy_cons hlen]

/-! ## A page -/

variable {T : Type} {len : Nat} {asF32 : T → F32}

/-- Setting a line changes the tree of its element only. -/
theorem tree_setLine {plot : PlotDataComponent} {i : Nat} (hi : i ≤ plot.lines.length) (line : LineTree) (j : Nat) :
    PlotDataComponent.tree { plot with
      lines := if i < plot.lines.length then plot.lines.set i line else plot.lines ++ [line] } j =
        if j = i then line.tree else plot.tree j := by
  simp only [PlotDataComponent.tree, List.getD_eq_getElem?_getD]
  by_cases hlt : i < plot.lines.length
  · rw [if_pos hlt, List.getElem?_set]
    by_cases hj : i = j
    · subst hj
      rw [if_pos rfl, if_pos hlt, if_pos rfl]
      rfl
    · rw [if_neg hj, if_neg fun h => hj h.symm]
  · obtain rfl : i = plot.lines.length := by omega
    rw [if_neg hlt]
    by_cases hj : j = plot.lines.length
    · subst hj
      rw [if_pos rfl, List.getElem?_concat_length]
      rfl
    · rw [if_neg hj]
      by_cases hjlt : j < plot.lines.length
      · rw [List.getElem?_append_left hjlt]
      · rw [List.getElem?_eq_none (by rw [List.length_append, List.length_singleton]; omega),
          List.getElem?_eq_none (Nat.le_of_not_lt hjlt)]

/-- What is done for each element, once for each. -/
theorem foldlM_elements {f : PlotDataComponent → Nat → Option PlotDataComponent}
    {R : Nat → List (Interval × Chunk) → List (Interval × Chunk) → Prop} {n : Nat}
    (hf : ∀ (plot : PlotDataComponent) (i : Nat), i < n → i ≤ plot.lines.length → ∃ plot', f plot i = some plot' ∧
      plot'.lines.length = max plot.lines.length (i + 1) ∧ R i (plot.tree i) (plot'.tree i) ∧
      ∀ j, j ≠ i → plot'.tree j = plot.tree j)
    (plot : PlotDataComponent) : ∃ plot', (List.range n).foldlM f plot = some plot' ∧
      plot'.lines.length = max plot.lines.length n ∧ (∀ i, i < n → R i (plot.tree i) (plot'.tree i)) ∧
      ∀ i, n ≤ i → plot'.tree i = plot.tree i := by
  induction n with
  | zero => exact ⟨plot, rfl, (Nat.max_eq_left (Nat.zero_le _)).symm, fun i hi => absurd hi (Nat.not_lt_zero i), fun _ _ => rfl⟩
  | succ n ih =>
    obtain ⟨plot₁, hfold, hlen, hR, hrest⟩ := ih fun plot i hi => hf plot i (Nat.lt_succ_of_lt hi)
    obtain ⟨plot₂, hlast, hlen', hR', hrest'⟩ := hf plot₁ n (Nat.lt_succ_self n) (by omega)
    refine ⟨plot₂, ?_, by omega, fun i hi => ?_, fun i hi => ?_⟩
    · rw [List.range_succ, List.foldlM_append, hfold]
      show ([n].foldlM f plot₁ : Option PlotDataComponent) = some plot₂
      rw [List.foldlM_cons, hlast]
      rfl
    · obtain hi | rfl := Nat.lt_succ_iff_lt_or_eq.mp hi
      · rw [hrest' i (Nat.ne_of_lt hi)]
        exact hR i hi
      · rw [← hrest i (Nat.le_refl i)]
        exact hR'
    · rw [hrest' i (by omega), hrest i (by omega)]

/-- The page of samples, as it is answered -/
def seriesOf (page : List (Int × Vector T len)) : TimeSeries T := ⟨page.map (·.1), page.flatMap (·.2.toList)⟩

/-- The tree of an element after a page: a chunk of its column is inserted. -/
def Paged (asF32 : T → F32) (page : List (Int × Vector T len)) (first last : Int) (i : Fin len)
    (tree tree' : List (Interval × Chunk)) : Prop :=
  ∃ c : Chunk, tree' = LineTree.insertOverwrite tree ⟨first, last⟩ c ∧ c.timestamps = page.map (·.1) ∧
    c.data = page.map (fun s => asF32 (s.2.get i)) ∧ c.summary.startTimestamp = first ∧ c.summary.endTimestamp = last

theorem processElement_nil (plot : PlotDataComponent) (i : Nat) (hi : i ≤ plot.lines.length) :
    ∃ plot', processElement asF32 (seriesOf ([] : List (Int × Vector T len))) len plot i = some plot' ∧
      plot'.lines.length = max plot.lines.length (i + 1) ∧ plot'.tree i = plot.tree i ∧
      ∀ j, j ≠ i → plot'.tree j = plot.tree j := by
  refine ⟨_, rfl, ?_, ?_, fun j hj => ?_⟩
  · show (if i < plot.lines.length then _ else _ : List LineTree).length = _
    split
    · rw [List.length_set]
      omega
    · rw [List.length_append, List.length_singleton]
      omega
  · rw [tree_setLine hi, if_pos rfl]
    rfl
  · rw [tree_setLine hi, if_neg hj]

theorem processElement_eq {page : List (Int × Vector T len)} {first last : Int} (hfirst : (page.map (·.1)).head? = some first)
    (hlast : (page.map (·.1)).getLast? = some last) (hle : first ≤ last) (plot : PlotDataComponent) (i : Fin len)
    (hi : i.val ≤ plot.lines.length) :
    ∃ plot', processElement asF32 (seriesOf page) len plot i = some plot' ∧
      plot'.lines.length = max plot.lines.length (i + 1) ∧ Paged asF32 page first last i (plot.tree i) (plot'.tree i) ∧
      ∀ j, j ≠ i.val → plot'.tree j = plot.tree j := by
  have hvalues : (stepBy len ((seriesOf page).data.drop i)).map asF32 = page.map fun s => asF32 (s.2.get i) := by
    rw [seriesOf, stepBy_flatMap, List.map_map]
    rfl
  have hrange : Interval.ii first last = some ⟨first, last⟩ := if_pos hle
  rw [processElement, hvalues]
  simp only [seriesOf, LineTree.fromIter, hfirst, hlast, Option.bind_eq_bind, Option.bind_some, Option.pure_def,
    LineTree.insert, hrange]
  let c : Chunk := ⟨page.map (·.1), page.map fun s => asF32 (s.2.get i), ⟨(page.map (·.1)).length, first, last⟩,
    (plot.lines.getD i .default).arcs.length⟩
  refine ⟨_, rfl, ?_, ⟨c, ?_, rfl, rfl, rfl, rfl⟩, fun j hj => ?_⟩
  · show (if i.val < plot.lines.length then _ else _ : List LineTree).length = _
    split
    · rw [List.length_set]
      omega
    · rw [List.length_append, List.length_singleton]
      omega
  · rw [tree_setLine hi, if_pos rfl]
    rfl
  · rw [tree_setLine hi, if_neg hj]

theorem processTimeSeries_nil (plot : PlotDataComponent) :
    ∃ plot', processTimeSeries asF32 (seriesOf ([] : List (Int × Vector T len))) len plot = some plot' ∧
      plot'.lines.length = max plot.lines.length len ∧ ∀ i : Fin len, plot'.tree i = plot.tree i := by
  obtain ⟨plot', hplot, hlen, hsame, -⟩ := foldlM_elements (R := fun _ tree tree' => tree' = tree)
    (fun plot i _ hi => processElement_nil plot i hi) plot
  exact ⟨plot', hplot, hlen, fun i => hsame i i.isLt⟩

/-- A page is inserted into the lines of all elements. -/
theorem processTimeSeries_eq {page : List (Int × Vector T len)} {first last : Int} (hfirst : (page.map (·.1)).head? = some first)
    (hlast : (page.map (·.1)).getLast? = some last) (hle : first ≤ last) (plot : PlotDataComponent) :
    ∃ plot', processTimeSeries asF32 (seriesOf page) len plot = some plot' ∧
      plot'.lines.length = max plot.lines.length len ∧
      ∀ i : Fin len, Paged asF32 page first last i (plot.tree i) (plot'.tree i) := by
  obtain ⟨plot', hplot, hlen, hpaged, -⟩ := foldlM_elements
    (R := fun i tree tree' => ∀ h : i < len, Paged asF32 page first last ⟨i, h⟩ tree tree')
    (fun plot i hlt hi => by
      obtain ⟨plot', hplot, hlen, hpaged, hrest⟩ := processElement_eq hfirst hlast hle plot ⟨i, hlt⟩ hi
      exact ⟨plot', hplot, hlen, fun _ => hpaged, hrest⟩) plot
  exact ⟨plot', hplot, hlen, fun i => hpaged i i.isLt i.isLt⟩

end Metor.Proof.Plot
