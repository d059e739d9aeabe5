import Metor.Lib.Sorted
import Metor.Proof.Plot.Shown

/-!
# The download of a history

A page begins at the last time of the one before (`handleTimeSeries_eq`): the
range that is requested next does not depend on what was there, since the chunk
that is inserted is the first one that it meets (`nextRange_eq`). So a
download ends exactly where no time has a full page of samples, and is complete
where the last page has room for the samples of the end (`downloads_all_iff`).
-/

namespace Metor.Proof.Plot

open Metor.Impl.Plot

open Metor.Lib

variable {T : Type} {len : Nat} {asF32 : T → F32} {samples : List (Int × Vector T len)} {start stop first last : Int}
  {plot plot' : PlotDataComponent}

/-! ## A page -/

/-- What a line shows after a page. -/
theorem count_paged {page : List (Int × Vector T len)} {i : Fin len} {tree tree' : List (Interval × Chunk)}
    (h : Paged asF32 page first last i tree tree') (hle : first ≤ last) (x : Int × F32) :
    (shown tree').count x =
      if first ≤ x.1 ∧ x.1 ≤ last then (column asF32 i page).count x else (shown tree).count x := by
  obtain ⟨c, rfl, htimestamps, hdata, -, -⟩ := h
  rw [count_shown_insert tree hle, htimestamps, hdata, List.zip_map']
  rfl

/-- The chunk of the page is the first one that what follows it meets. -/
theorem nextRange_eq {page : List (Int × Vector T len)} {trees : Nat → List (Interval × Chunk)}
    (hpaged : ∀ i : Fin len, Paged asF32 page first last i (trees i) (plot.tree i)) (hlines : len = 0 → plot.lines = [])
    (hle : first ≤ last) (hstop : last ≤ stop) : nextRange last stop plot = some (last, stop) := by
  rw [nextRange]
  split
  · rfl
  · rename_i line hhead
    have hpos : 0 < len := by
      refine Nat.pos_of_ne_zero fun hzero => ?_
      rw [hlines hzero] at hhead
      cases hhead
    obtain ⟨c, htree, -, -, hfirst, hlast⟩ := hpaged ⟨0, hpos⟩
    have hline : line.tree = plot.tree 0 := by
      rw [PlotDataComponent.tree, List.getD_eq_getElem?_getD, ← List.head?_eq_getElem?, hhead]
      rfl
    have hrange : Interval.ii last stop = some ⟨last, stop⟩ := if_pos hstop
    have hbefore : ((trees 0).flatMap (LineTree.before ⟨first, last⟩)).filter (fun e => e.1.overlaps ⟨last, stop⟩) = [] := by
      refine List.filter_eq_nil_iff.mpr fun e he => ?_
      obtain ⟨e', -, he⟩ := List.mem_flatMap.mp he
      rw [LineTree.before] at he
      split at he
      · rw [List.mem_singleton.mp he]
        simp only [Interval.overlaps, Bool.and_eq_true, decide_eq_true_eq]
        omega
      · cases he
    have hoverlap : (⟨first, last⟩ : Interval).overlaps ⟨last, stop⟩ := by
      simp only [Interval.overlaps, Bool.and_eq_true, decide_eq_true_eq]
      omega
    have hfound : (line.overlapping ⟨last, stop⟩).head? = some (⟨first, last⟩, c) := by
      rw [LineTree.overlapping, hline, htree, LineTree.insertOverwrite, List.filter_append, hbefore, List.nil_append]
      exact congrArg List.head? (List.filter_cons_of_pos (p := fun e : Interval × Chunk => e.1.overlaps ⟨last, stop⟩) hoverlap)
    simp only [hrange, Option.bind_eq_bind, Option.bind_some, hfound, hfirst, hlast, if_pos hle, Option.pure_def]

/-- The page that a request of a range is answered with -/
def pageOf (samples : List (Int × Vector T len)) (start stop : Int) : List (Int × Vector T len) :=
  (inRange samples start stop).take chunkLen

theorem respond_eq (samples : List (Int × Vector T len)) (start stop : Int) :
    respond samples start stop chunkLen = seriesOf (pageOf samples start stop) := rfl

/-- A component without elements gets no lines. -/
theorem lines_eq_nil {m n : Nat} (hm : n = 0 → m = 0) (hlen : plot'.lines.length = max m n) : n = 0 → plot'.lines = [] :=
  fun hzero => List.length_eq_zero_iff.mp (by rw [hlen, hm hzero, hzero, Nat.max_self])

theorem handleTimeSeries_nil (hpage : pageOf samples start stop = []) (hlines : len = 0 → plot.lines = []) :
    ∃ plot', handleTimeSeries asF32 len (respond samples start stop chunkLen) start stop plot = some (plot', none) ∧
      (len = 0 → plot'.lines = []) ∧ ∀ i : Fin len, plot'.tree i = plot.tree i := by
  rw [respond_eq, hpage, handleTimeSeries]
  obtain ⟨plot', hplot, hlen, htree⟩ := @processTimeSeries_nil T len asF32 { plot with
    requestStates := fun key => if key = start then some ⟨0, none⟩ else plot.requestStates key }
  refine ⟨plot', ?_, lines_eq_nil (fun hzero => List.length_eq_zero_iff.mpr (hlines hzero)) hlen, htree⟩
  exact (congrArg (Option.bind · _) hplot).trans rfl

/-- A page is inserted into the lines, and followed by a request from its last
time on unless that is the end of the range or the page is not full. -/
theorem handleTimeSeries_eq (hfirst : ((pageOf samples start stop).map (·.1)).head? = some first)
    (hlast : ((pageOf samples start stop).map (·.1)).getLast? = some last) (hle : first ≤ last)
    (hlines : len = 0 → plot.lines = []) :
    ∃ plot', handleTimeSeries asF32 len (respond samples start stop chunkLen) start stop plot =
        some (plot', if stop ≤ last ∨ (pageOf samples start stop).length < chunkLen then none else some (last, stop)) ∧
      (len = 0 → plot'.lines = []) ∧
      ∀ i : Fin len, Paged asF32 (pageOf samples start stop) first last i (plot.tree i) (plot'.tree i) := by
  obtain ⟨plot', hplot, hlen, hpaged⟩ := @processTimeSeries_eq T len asF32 _ _ _ hfirst hlast hle { plot with
    requestStates := fun key => if key = start then some ⟨((pageOf samples start stop).map (·.1)).length, some last⟩
      else plot.requestStates key }
  have hlen' : len = 0 → plot'.lines = [] :=
    lines_eq_nil (fun hzero => List.length_eq_zero_iff.mpr (hlines hzero)) hlen
  refine ⟨plot', ?_, hlen', hpaged⟩
  have hcount : (seriesOf (pageOf samples start stop)).timestamps.length = (pageOf samples start stop).length := List.length_map _
  have hget : (seriesOf (pageOf samples start stop)).timestamps.getLast? = some last := hlast
  rw [respond_eq, handleTimeSeries, hget]
  refine (congrArg (Option.bind · _) hplot).trans ?_
  show (if stop ≤ last then some (plot', none)
    else if stop ≤ last ∨ (seriesOf (pageOf samples start stop)).timestamps.length < chunkLen then some (plot', none)
      else (nextRange last stop plot').bind fun range => some (plot', some range)) = _
  rw [hcount]
  by_cases hend : stop ≤ last
  · rw [if_pos hend, if_pos (.inl hend)]
  · rw [if_neg hend]
    by_cases hfull : (pageOf samples start stop).length < chunkLen
    · rw [if_pos (.inr hfull), if_pos (.inr hfull)]
    · have hnot : ¬ (stop ≤ last ∨ (pageOf samples start stop).length < chunkLen) := by
        rintro (h | h)
        · exact hend h
        · exact hfull h
      rw [if_neg hnot, if_neg hnot, nextRange_eq hpaged hlen' hle (by omega)]
      rfl

/-! ## The times of a range -/

/-- The times of all samples -/
def times (samples : List (Int × Vector T len)) : List Int := samples.map (·.1)

/-- The times of a range, both ends included -/
def timesIn (samples : List (Int × Vector T len)) (start stop : Int) : List Int :=
  (times samples).filter fun t => start ≤ t && t ≤ stop

/-- The times of a range before its end -/
def timesBefore (samples : List (Int × Vector T len)) (start stop : Int) : List Int :=
  (times samples).filter fun t => start ≤ t && t < stop

theorem map_inRange (samples : List (Int × Vector T len)) (start stop : Int) :
    (inRange samples start stop).map (·.1) = timesIn samples start stop := by
  rw [inRange, timesIn, times, List.filter_map]
  rfl

theorem length_timesIn (samples : List (Int × Vector T len)) (start stop : Int) :
    (timesIn samples start stop).length = (inRange samples start stop).length := by
  rw [← map_inRange, List.length_map]

theorem filter_timesIn (h : start ≤ last) :
    (timesIn samples start stop).filter (fun t => decide (last ≤ t)) = timesIn samples last stop := by
  rw [timesIn, timesIn, List.filter_filter]
  refine List.filter_congr fun t _ => ?_
  rw [Bool.eq_iff_iff]
  simp only [Bool.and_eq_true, decide_eq_true_eq]
  omega

theorem filter_timesBefore (h : start ≤ last) :
    (timesBefore samples start stop).filter (fun t => decide (last ≤ t)) = timesBefore samples last stop := by
  rw [timesBefore, timesBefore, List.filter_filter]
  refine List.filter_congr fun t _ => ?_
  rw [Bool.eq_iff_iff]
  simp only [Bool.and_eq_true, decide_eq_true_eq]
  omega

theorem timesIn_filter_lt (samples : List (Int × Vector T len)) (start stop : Int) :
    (timesIn samples start stop).filter (fun t => decide (t < stop)) = timesBefore samples start stop := by
  rw [timesIn, timesBefore, List.filter_filter]
  refine List.filter_congr fun t _ => ?_
  rw [Bool.eq_iff_iff]
  simp only [Bool.and_eq_true, decide_eq_true_eq]
  omega

/-- The times of a range are those before its end, and its end. -/
theorem length_timesBefore (h : start ≤ stop) :
    (timesBefore samples start stop).length + (times samples).count stop = (timesIn samples start stop).length := by
  rw [timesBefore, timesIn]
  induction times samples with
  | nil => rfl
  | cons t l ih =>
    rw [List.filter_cons, List.filter_cons, List.count_cons]
    by_cases hin : start ≤ t ∧ t < stop
    · have hle : t ≤ stop := by omega
      have hne : ¬ t = stop := by omega
      simp only [hin.1, hin.2, hle, hne, decide_true, Bool.and_self, if_true, List.length_cons, beq_iff_eq, if_false]
      omega
    · by_cases heq : t = stop
      · subst heq
        simp only [h, Int.lt_irrefl, Int.le_refl, decide_true, decide_false, Bool.and_self, Bool.and_false, if_true,
          List.length_cons, beq_self_eq_true, Bool.false_eq_true, if_false]
        omega
      · have hbefore : (decide (start ≤ t) && decide (t < stop)) = false := by simpa using hin
        have hupto : (decide (start ≤ t) && decide (t ≤ stop)) = false := by
          rw [Bool.and_eq_false_iff, decide_eq_false_iff_not, decide_eq_false_iff_not]
          omega
        simp only [hbefore, hupto, beq_iff_eq, heq, if_false, Bool.false_eq_true]
        omega

section
variable (hsorted : (times samples).Pairwise (· ≤ ·))
include hsorted

theorem sorted_timesIn : (timesIn samples start stop).Pairwise (· ≤ ·) := hsorted.filter _

theorem sorted_timesBefore : (timesBefore samples start stop).Pairwise (· ≤ ·) := hsorted.filter _

/-- A place of the times of a range is before its end, or not, with its time. -/
theorem getElem?_timesIn {n : Nat} {t : Int} (ht : (timesIn samples start stop)[n]? = some t) :
    t < stop ∧ (timesBefore samples start stop)[n]? = some t ∨ stop ≤ t ∧ (timesBefore samples start stop).length ≤ n := by
  have hsplit := filter_append_filter (show (timesIn samples start stop).Pairwise (· ≤ ·) from sorted_timesIn hsorted) stop
  rw [timesIn_filter_lt] at hsplit
  rw [← hsplit] at ht
  by_cases hn : n < (timesBefore samples start stop).length
  · rw [List.getElem?_append_left hn] at ht
    have hmem := List.mem_of_getElem? ht
    rw [timesBefore, List.mem_filter, Bool.and_eq_true, decide_eq_true_eq, decide_eq_true_eq] at hmem
    exact .inl ⟨hmem.2.2, ht⟩
  · rw [List.getElem?_append_right (Nat.le_of_not_lt hn)] at ht
    have hmem := (List.mem_filter.mp (List.mem_of_getElem? ht)).2
    exact .inr ⟨of_decide_eq_true hmem, Nat.le_of_not_lt hn⟩

end

/-! ## The last page -/

theorem lastPage_of_length_lt {l : List Int} (h : l.length < chunkLen) : lastPage l = l := by
  rw [lastPage, List.getElem?_eq_none (by have hpos : 0 < chunkLen := by decide
                                          omega)]

theorem lastPage_of_getElem? {l : List Int} {t : Int} (ht : l[chunkLen - 1]? = some t)
    (hlt : (l.dropWhile (· < t)).length < l.length) : lastPage l = lastPage (l.dropWhile (· < t)) := by
  rw [lastPage.eq_def l, ht]
  exact if_pos hlt

theorem length_lastPage_le (l : List Int) : (lastPage l).length ≤ l.length := by
  induction l using lastPage.induct with
  | case1 l hnone =>
    rw [lastPage, hnone]
  | case2 l t ht hlt ih =>
    rw [lastPage_of_getElem? ht hlt]
    exact Nat.le_of_lt (Nat.lt_of_le_of_lt ih hlt)
  | case3 l t ht hlt =>
    rw [lastPage.eq_def l, ht]
    simp only [if_neg hlt, Nat.le_refl]

/-- A range with no more samples than a page has room for those of its end. -/
theorem endFits_of_length_le (h : (inRange samples start stop).length ≤ chunkLen) : EndFits (times samples) start stop := by
  intro hle
  have hsum : (timesBefore samples start stop).length + (times samples).count stop = _ := length_timesBefore hle
  have hpage := length_lastPage_le (timesBefore samples start stop)
  rw [length_timesIn] at hsum
  show (lastPage (timesBefore samples start stop)).length + _ ≤ _
  omega

/-! ## What a page has -/

/-- The first and the last time of a page, and what of the range it has -/
structure Page (samples : List (Int × Vector T len)) (start stop first last : Int) : Prop where
  head : ((pageOf samples start stop).map (·.1)).head? = some first
  getLast : ((pageOf samples start stop).map (·.1)).getLast? = some last
  le : first ≤ last
  start_le : start ≤ first
  le_stop : last ≤ stop
  first_le : ∀ s ∈ inRange samples start stop, first ≤ s.1
  le_last : ∀ s ∈ pageOf samples start stop, s.1 ≤ last
  last_le : ∀ s ∈ (inRange samples start stop).drop chunkLen, last ≤ s.1

theorem sorted_inRange (h : (times samples).Pairwise (· ≤ ·)) :
    (inRange samples start stop).Pairwise fun s s' => s.1 ≤ s'.1 :=
  (List.pairwise_map.mp h).filter _

theorem mem_inRange {s : Int × Vector T len} (h : s ∈ inRange samples start stop) : start ≤ s.1 ∧ s.1 ≤ stop := by
  have hin := (List.mem_filter.mp h).2
  rwa [Bool.and_eq_true, decide_eq_true_eq, decide_eq_true_eq] at hin

/-- A range with a sample has a page. -/
theorem exists_page (h : (times samples).Pairwise (· ≤ ·)) (hne : inRange samples start stop ≠ []) :
    ∃ first last, Page samples start stop first last := by
  have hpage : pageOf samples start stop ≠ [] := by
    rw [pageOf, Ne, List.take_eq_nil_iff]
    rintro (hzero | hnil)
    · exact absurd hzero (by decide)
    · exact hne hnil
  have hmem : ∀ s ∈ pageOf samples start stop, s ∈ inRange samples start stop := fun s hs => List.mem_of_mem_take hs
  have hsorted : (inRange samples start stop).Pairwise fun s s' => s.1 ≤ s'.1 := sorted_inRange h
  have hsplit : pageOf samples start stop ++ (inRange samples start stop).drop chunkLen = inRange samples start stop :=
    List.take_append_drop _ _
  have hsortedPage : (pageOf samples start stop).Pairwise fun s s' => s.1 ≤ s'.1 := hsorted.sublist (List.take_sublist _ _)
  obtain ⟨a, page, hcons⟩ := List.exists_cons_of_ne_nil hpage
  obtain ⟨page', b, hsnoc⟩ := List.eq_nil_or_concat' (pageOf samples start stop) |>.resolve_left hpage
  have hb : b ∈ pageOf samples start stop := by
    rw [hsnoc]
    exact List.mem_append_right _ (List.mem_singleton_self b)
  have ha : a ∈ pageOf samples start stop := by
    rw [hcons]
    exact List.mem_cons_self
  have hfirst : ∀ s ∈ inRange samples start stop, a.1 ≤ s.1 := by
    rw [← hsplit, hcons, List.cons_append] at hsorted ⊢
    intro s hs
    obtain rfl | hs := List.mem_cons.mp hs
    · exact Int.le_refl _
    · exact (List.pairwise_cons.mp hsorted).1 s hs
  refine ⟨a.1, b.1, ?_, ?_, hfirst b (hmem b hb), (mem_inRange (hmem a ha)).1, (mem_inRange (hmem b hb)).2, hfirst, ?_, ?_⟩
  · rw [hcons]
    rfl
  · rw [hsnoc, List.map_append]
    exact List.getLast?_concat
  · intro s hs
    rw [hsnoc] at hs hsortedPage
    obtain hs | hs := List.mem_append.mp hs
    · exact (List.pairwise_append.mp hsortedPage).2.2 s hs b (List.mem_singleton_self b)
    · rw [List.mem_singleton.mp hs]
  · intro s hs
    rw [← hsplit] at hsorted
    exact (List.pairwise_append.mp hsorted).2.2 b hb s hs

theorem pageOf_of_length_le (h : (inRange samples start stop).length ≤ chunkLen) :
    pageOf samples start stop = inRange samples start stop := List.take_of_length_le h

/-- The last time of a full page is at the last place of a page. -/
theorem getElem?_of_full (h : Page samples start stop first last) (hfull : ¬ (pageOf samples start stop).length < chunkLen) :
    (timesIn samples start stop)[chunkLen - 1]? = some last := by
  have hlen : (pageOf samples start stop).length = chunkLen :=
    Nat.le_antisymm (List.length_take_le _ _) (Nat.le_of_not_lt hfull)
  have hlast := h.getLast
  rw [List.getLast?_eq_getElem?, List.length_map, hlen, pageOf, List.map_take, map_inRange, List.getElem?_take] at hlast
  rwa [if_pos (by decide)] at hlast

/-- A column of a range has the samples of the element in the range. -/
theorem count_column_inRange (i : Fin len) (x : Int × F32) :
    (column asF32 i (inRange samples start stop)).count x =
      if start ≤ x.1 ∧ x.1 ≤ stop then (column asF32 i samples).count x else 0 := by
  have hfilter : column asF32 i (inRange samples start stop) =
      (column asF32 i samples).filter fun y => start ≤ y.1 && y.1 ≤ stop := by
    rw [column, column, List.filter_map]
    rfl
  rw [hfilter, count_filter_ite]
  simp only [Bool.and_eq_true, decide_eq_true_eq]

theorem count_column_eq_zero {page : List (Int × Vector T len)} {x : Int × F32} {i : Fin len} (h : ∀ s ∈ page, s.1 ≠ x.1) :
    (column asF32 i page).count x = 0 := by
  refine List.count_eq_zero.mpr fun hx => ?_
  obtain ⟨s, hs, rfl⟩ := List.mem_map.mp hx
  exact h s hs rfl

/-- What a range has before the last time of a page is on the page. -/
theorem count_column_page (h : Page samples start stop first last) {x : Int × F32} (hx : x.1 < last) (i : Fin len) :
    (column asF32 i (inRange samples start stop)).count x = (column asF32 i (pageOf samples start stop)).count x := by
  have hdrop : (column asF32 i ((inRange samples start stop).drop chunkLen)).count x = 0 :=
    count_column_eq_zero fun s hs heq => absurd (h.last_le s hs) (by omega)
  have hsplit : column asF32 i (pageOf samples start stop) ++ column asF32 i ((inRange samples start stop).drop chunkLen) =
      column asF32 i (inRange samples start stop) := by
    rw [column, column, ← List.map_append, pageOf, List.take_append_drop]
    rfl
  rw [← hsplit, List.count_append, hdrop, Nat.add_zero]

/-! ## The chain of requests -/

section
variable (hsorted : (times samples).Pairwise (· ≤ ·))
include hsorted

/-- After a full page that no time fills there is less to come. -/
theorem length_inRange_lt (h : Page samples start stop first last) (hfull : ¬ (pageOf samples start stop).length < chunkLen)
    (hlast : last < stop) (hnone : NoneFull (times samples) start stop) :
    (inRange samples last stop).length < (inRange samples start stop).length := by
  have hle : start ≤ last := Int.le_trans h.start_le h.le
  have hget := getElem?_of_full h hfull
  have hcount : (timesIn samples start stop).count last < chunkLen - 1 + 1 :=
    Nat.lt_of_le_of_lt (List.filter_sublist.count_le last) (hnone last hle hlast)
  obtain ⟨a, ha, halt⟩ := exists_lt_of_count (sorted_timesIn hsorted) hget hcount
  rw [← length_timesIn, ← length_timesIn, ← filter_timesIn hle]
  refine Nat.lt_of_le_of_ne (List.length_filter_le _ _) fun heq => ?_
  have hall := List.length_filter_eq_length_iff.mp heq a ha
  rw [decide_eq_true_eq] at hall
  omega

/-- The samples of the end are on the same page whether pages are counted from a page or from the next one. -/
theorem endFits_next (h : Page samples start stop first last) (hfull : ¬ (pageOf samples start stop).length < chunkLen)
    (hlast : last < stop) (hnone : NoneFull (times samples) start stop) :
    EndFits (times samples) start stop ↔ EndFits (times samples) last stop := by
  have hle : start ≤ last := Int.le_trans h.start_le h.le
  obtain ⟨-, hget⟩ | ⟨hstop, -⟩ := getElem?_timesIn hsorted (getElem?_of_full h hfull)
  · have hcount : (timesBefore samples start stop).count last < chunkLen - 1 + 1 :=
      Nat.lt_of_le_of_lt (List.filter_sublist.count_le last) (hnone last hle hlast)
    obtain ⟨a, ha, halt⟩ := exists_lt_of_count (sorted_timesBefore hsorted) hget hcount
    have hdrop : (timesBefore samples start stop).dropWhile (· < last) = timesBefore samples last stop := by
      rw [dropWhile_lt_eq_filter (sorted_timesBefore hsorted), filter_timesBefore hle]
    have hlt : ((timesBefore samples start stop).dropWhile (· < last)).length < (timesBefore samples start stop).length := by
      rw [dropWhile_lt_eq_filter (sorted_timesBefore hsorted)]
      refine Nat.lt_of_le_of_ne (List.length_filter_le _ _) fun heq => ?_
      have hall := List.length_filter_eq_length_iff.mp heq a ha
      rw [decide_eq_true_eq] at hall
      omega
    have hpage : lastPage (timesBefore samples start stop) = lastPage (timesBefore samples last stop) := by
      rw [lastPage_of_getElem? hget hlt, hdrop]
    show (start ≤ stop → (lastPage (timesBefore samples start stop)).length + _ ≤ _) ↔
      (last ≤ stop → (lastPage (timesBefore samples last stop)).length + _ ≤ _)
    rw [hpage]
    exact ⟨fun hfits _ => hfits (by omega), fun hfits _ => hfits (by omega)⟩
  · omega

/-- A full page that ends with the range has all of it where the samples of the end fit. -/
theorem length_le_of_endFits (h : Page samples start stop first stop) (hfull : ¬ (pageOf samples start stop).length < chunkLen)
    (hfits : EndFits (times samples) start stop) : (inRange samples start stop).length ≤ chunkLen := by
  have hle : start ≤ stop := Int.le_trans h.start_le h.le
  obtain ⟨hlt, -⟩ | ⟨-, hlen⟩ := getElem?_timesIn hsorted (getElem?_of_full h hfull)
  · exact absurd hlt (Int.lt_irrefl stop)
  · have hpos : 0 < chunkLen := by decide
    have hsum : (timesBefore samples start stop).length + (times samples).count stop = _ := length_timesBefore hle
    have hroom : (lastPage (timesBefore samples start stop)).length + (times samples).count stop ≤ chunkLen := hfits hle
    rw [lastPage_of_length_lt (by omega)] at hroom
    rw [length_timesIn] at hsum
    omega

omit hsorted in
/-- A page that has all of the range shows all of it. -/
theorem complete_of_page (h : Page samples start stop first last) (hall : 0 < len → pageOf samples start stop = inRange samples start stop)
    (hpaged : ∀ i : Fin len, Paged asF32 (pageOf samples start stop) first last i (plot.tree i) (plot'.tree i)) :
    Complete asF32 samples start stop plot' := by
  intro i x
  rw [count_paged (hpaged i) h.le, ← hall i.pos]
  split
  · exact Nat.le_refl _
  · rename_i hout
    refine Nat.le_trans (Nat.le_of_eq (count_column_eq_zero fun s hs heq => hout ?_)) (Nat.zero_le _)
    exact ⟨heq ▸ h.first_le s (List.mem_of_mem_take hs), heq ▸ h.le_last s hs⟩

omit hsorted in
/-- What comes after a page completes it. -/
theorem complete_of_next {plot₁ : PlotDataComponent} (h : Page samples start stop first last)
    (hpaged : ∀ i : Fin len, Paged asF32 (pageOf samples start stop) first last i (plot.tree i) (plot₁.tree i))
    (hkept : ∀ (i : Fin len) (x : Int × F32), x.1 < last → (shown (plot'.tree i)).count x = (shown (plot₁.tree i)).count x)
    (hcomplete : Complete asF32 samples last stop plot') : Complete asF32 samples start stop plot' := by
  intro i x
  by_cases hx : x.1 < last
  · rw [count_column_page h hx, hkept i x hx, count_paged (hpaged i) h.le]
    split
    · exact Nat.le_refl _
    · rename_i hout
      refine Nat.le_trans (Nat.le_of_eq (count_column_eq_zero fun s hs heq => hout ?_)) (Nat.zero_le _)
      exact ⟨heq ▸ h.first_le s (List.mem_of_mem_take hs), heq ▸ h.le_last s hs⟩
  · have hle := hcomplete i x
    have hstart := Int.le_trans h.start_le h.le
    rw [count_column_inRange] at hle ⊢
    by_cases hin : start ≤ x.1 ∧ x.1 ≤ stop
    · have hin' : last ≤ x.1 ∧ x.1 ≤ stop := by omega
      rwa [if_pos hin, ← if_pos (α := Nat) (t := (column asF32 i samples).count x) (e := 0) hin']
    · rw [if_neg hin]
      exact Nat.zero_le _

omit hsorted in
theorem pageOf_eq_inRange (h : (pageOf samples start stop).length < chunkLen) :
    pageOf samples start stop = inRange samples start stop := by
  apply pageOf_of_length_le
  rw [pageOf, List.length_take] at h
  omega

/-- A download of a range in which no time has a full page of samples ends, and
where those of its end fit it shows all, and leaves what is before the range. -/
theorem exists_downloads (n : Nat) : ∀ (start : Int) (plot : PlotDataComponent), (inRange samples start stop).length < n →
    (len = 0 → plot.lines = []) → NoneFull (times samples) start stop → (len = 0 ∨ EndFits (times samples) start stop) →
    ∃ plot', Downloads asF32 samples start stop plot plot' ∧ Complete asF32 samples start stop plot' ∧
      ∀ (i : Fin len) (x : Int × F32), x.1 < start → (shown (plot'.tree i)).count x = (shown (plot.tree i)).count x := by
  induction n with
  | zero =>
    intro start plot hn
    exact absurd hn (Nat.not_lt_zero _)
  | succ n ih =>
    intro start plot hn hlines hnone hfits
    by_cases hnil : inRange samples start stop = []
    · obtain ⟨plot', hhandle, -, htree⟩ := @handleTimeSeries_nil T len asF32 samples start stop plot
        (by rw [pageOf, hnil, List.take_nil]) hlines
      refine ⟨plot', .done hhandle, fun i x => ?_, fun i x _ => by rw [htree i]⟩
      rw [hnil]
      exact Nat.zero_le _
    · obtain ⟨first, last, hpage⟩ := exists_page hsorted hnil
      obtain ⟨plot₁, hhandle, hlines₁, hpaged⟩ :=
        @handleTimeSeries_eq T len asF32 samples start stop first last plot hpage.head hpage.getLast hpage.le hlines
      have hkept : ∀ (i : Fin len) (x : Int × F32), x.1 < start →
          (shown (plot₁.tree i)).count x = (shown (plot.tree i)).count x := by
        intro i x hx
        have hstart := hpage.start_le
        rw [count_paged (hpaged i) hpage.le, if_neg (by omega)]
      by_cases hend : stop ≤ last ∨ (pageOf samples start stop).length < chunkLen
      · rw [if_pos hend] at hhandle
        refine ⟨plot₁, .done hhandle, complete_of_page hpage (fun hpos => ?_) hpaged, hkept⟩
        by_cases hfull : (pageOf samples start stop).length < chunkLen
        · exact pageOf_eq_inRange hfull
        · obtain rfl : last = stop := Int.le_antisymm hpage.le_stop (hend.resolve_right hfull)
          exact pageOf_of_length_le (length_le_of_endFits hsorted hpage hfull (hfits.resolve_left (Nat.ne_of_gt hpos)))
      · rw [if_neg hend] at hhandle
        obtain ⟨hlast, hfull⟩ := not_or.mp hend
        have hlast : last < stop := by omega
        have hstart := Int.le_trans hpage.start_le hpage.le
        have hless := length_inRange_lt hsorted hpage hfull hlast hnone
        obtain ⟨plot', hdownloads, hcomplete, hkept'⟩ := ih last plot₁ (by omega) hlines₁
          (fun t ht ht' => hnone t (Int.le_trans hstart ht) ht')
          (hfits.imp_right (endFits_next hsorted hpage hfull hlast hnone).mp)
        refine ⟨plot', .more hhandle hdownloads, complete_of_next hpage hpaged hkept' hcomplete, fun i x hx => ?_⟩
        rw [hkept' i x (Int.lt_of_lt_of_le hx hstart), hkept i x hx]

omit hsorted in
theorem count_timesIn {t : Int} (ht : start ≤ t) (ht' : t ≤ stop) : (timesIn samples start stop).count t = (times samples).count t :=
  List.count_filter (by simp [ht, ht'])

/-- A download that ends has had no time with a full page of samples, and room
for those of the end if it shows all. -/
theorem of_downloads (h : Downloads asF32 samples start stop plot plot') (hlines : len = 0 → plot.lines = []) :
    NoneFull (times samples) start stop ∧
      (Complete asF32 samples start stop plot' → len = 0 ∨ EndFits (times samples) start stop) := by
  have hshort : ∀ {start stop : Int}, (inRange samples start stop).length < chunkLen →
      NoneFull (times samples) start stop ∧ EndFits (times samples) start stop := by
    intro start stop hlen
    refine ⟨fun t ht ht' => ?_, endFits_of_length_le (Nat.le_of_lt hlen)⟩
    rw [← count_timesIn ht (Int.le_of_lt ht')]
    exact Nat.lt_of_le_of_lt List.count_le_length (by rwa [length_timesIn])
  induction h with
  | @done start stop plot plot' hhandle =>
    by_cases hnil : inRange samples start stop = []
    · obtain ⟨hnone, hfits⟩ := @hshort start stop (by rw [hnil, List.length_nil]; decide)
      exact ⟨hnone, fun _ => .inr hfits⟩
    · obtain ⟨first, last, hpage⟩ := exists_page hsorted hnil
      obtain ⟨plot₁, hhandle₁, -, hpaged⟩ :=
        @handleTimeSeries_eq T len asF32 samples start stop first last plot hpage.head hpage.getLast hpage.le hlines
      obtain ⟨rfl, hnext⟩ := Prod.mk.inj (Option.some.inj (hhandle₁.symm.trans hhandle))
      by_cases hfull : (pageOf samples start stop).length < chunkLen
      · obtain ⟨hnone, hfits⟩ := hshort (pageOf_eq_inRange hfull ▸ hfull)
        exact ⟨hnone, fun _ => .inr hfits⟩
      · have hstop : stop ≤ last := by
          by_contra hstop
          rw [if_neg (not_or.mpr ⟨hstop, hfull⟩)] at hnext
          cases hnext
        obtain rfl : last = stop := Int.le_antisymm hpage.le_stop hstop
        refine ⟨fun t ht ht' => ?_, fun hcomplete => ?_⟩
        · rw [← count_timesIn ht (Int.le_of_lt ht')]
          exact count_lt_of_lt (sorted_timesIn hsorted) (getElem?_of_full hpage hfull) ht'
        · refine (Nat.eq_zero_or_pos len).imp_right fun hpos => endFits_of_length_le ?_
          have hsub : (column asF32 ⟨0, hpos⟩ (inRange samples start last)).Subperm
              (column asF32 ⟨0, hpos⟩ (pageOf samples start last)) := by
            refine List.subperm_ext_iff.mpr fun x hx => ?_
            obtain ⟨s, hs, rfl⟩ := List.mem_map.mp hx
            have hle := hcomplete ⟨0, hpos⟩ (s.1, asF32 (s.2.get ⟨0, hpos⟩))
            rwa [count_paged (hpaged ⟨0, hpos⟩) hpage.le, if_pos ⟨hpage.first_le s hs, (mem_inRange hs).2⟩] at hle
          have hlen := hsub.length_le
          rw [column, column, List.length_map, List.length_map] at hlen
          exact Nat.le_trans hlen (List.length_take_le _ _)
  | @more start stop start' stop' plot plot₁ plot' hhandle _ ih =>
    by_cases hnil : inRange samples start stop = []
    · obtain ⟨_, hhandle₁, -, -⟩ := @handleTimeSeries_nil T len asF32 samples start stop plot
        (by rw [pageOf, hnil, List.take_nil]) hlines
      cases hhandle₁.symm.trans hhandle
    · obtain ⟨first, last, hpage⟩ := exists_page hsorted hnil
      obtain ⟨plot₂, hhandle₁, hlines₁, -⟩ :=
        @handleTimeSeries_eq T len asF32 samples start stop first last plot hpage.head hpage.getLast hpage.le hlines
      obtain ⟨rfl, hnext⟩ := Prod.mk.inj (Option.some.inj (hhandle₁.symm.trans hhandle))
      by_cases hend : stop ≤ last ∨ (pageOf samples start stop).length < chunkLen
      · rw [if_pos hend] at hnext
        cases hnext
      · rw [if_neg hend] at hnext
        obtain ⟨rfl, rfl⟩ := Prod.mk.inj (Option.some.inj hnext)
        obtain ⟨hlast, hfull⟩ := not_or.mp hend
        have hlast : last < stop := by omega
        have hstart := Int.le_trans hpage.start_le hpage.le
        obtain ⟨hnone', hfits⟩ := ih hlines₁
        have hnone : NoneFull (times samples) start stop := by
          intro t ht ht'
          by_cases hlt : t < last
          · rw [← count_timesIn ht (Int.le_of_lt ht')]
            exact count_lt_of_lt (sorted_timesIn hsorted) (getElem?_of_full hpage hfull) hlt
          · exact hnone' t (Int.not_lt.mp hlt) ht'
        refine ⟨hnone, fun hcomplete => (hfits fun i x => ?_).imp_right (endFits_next hsorted hpage hfull hlast hnone).mpr⟩
        refine Nat.le_trans ?_ (hcomplete i x)
        rw [count_column_inRange, count_column_inRange]
        by_cases hin : last ≤ x.1 ∧ x.1 ≤ stop
        · rw [if_pos hin, if_pos (by omega)]
        · rw [if_neg hin]
          exact Nat.zero_le _

end

/-- A download ends and is complete exactly where no time of the range before its
end has a page of samples, and the samples of its end fit on their page. -/
theorem downloads_all_iff (asF32 : T → F32) (samples : List (Int × Vector T len))
    (hsorted : samples.Pairwise fun s s' => s.1 ≤ s'.1) (plot : PlotDataComponent) (hlines : len = 0 → plot.lines = [])
    (start stop : Int) :
    DownloadsAll asF32 samples start stop plot ↔
      NoneFull (samples.map (·.1)) start stop ∧ (len = 0 ∨ EndFits (samples.map (·.1)) start stop) := by
  have htimes : (times samples).Pairwise (· ≤ ·) := List.pairwise_map.mpr hsorted
  constructor
  · rintro ⟨plot', hdownloads, hcomplete⟩
    obtain ⟨hnone, hfits⟩ := of_downloads htimes hdownloads hlines
    exact ⟨hnone, hfits hcomplete⟩
  · rintro ⟨hnone, hfits⟩
    obtain ⟨plot', hdownloads, hcomplete, -⟩ := exists_downloads htimes _ start plot (Nat.lt_succ_self _) hlines hnone hfits
    exact ⟨plot', hdownloads, hcomplete⟩

/-- Samples of a scalar, more than a page of them -/
def pagedSamples : List (Int × Vector F32 1) := (List.range (chunkLen + 2)).map fun (i : Nat) => ((i : Int), #v[1])

theorem times_pagedSamples : times pagedSamples = (List.range (chunkLen + 2)).map fun (i : Nat) => (i : Int) := by
  rw [times, pagedSamples, List.map_map]
  rfl

theorem sorted_pagedSamples : pagedSamples.Pairwise fun s s' => s.1 ≤ s'.1 := by
  refine List.pairwise_map.mpr (List.pairwise_lt_range.imp fun hlt => ?_)
  exact Int.ofNat_le.mpr (Nat.le_of_lt hlt)

theorem count_pagedSamples (t : Int) : (times pagedSamples).count t ≤ 1 := by
  refine List.nodup_iff_count_le_one.mp ?_ t
  rw [times_pagedSamples]
  exact List.Nodup.map (fun _ _ h => Int.ofNat_inj.mp h) List.nodup_range

theorem endFits_pagedSamples : EndFits (times pagedSamples) 0 (chunkLen + 1) := by
  intro _
  have hget : ((times pagedSamples).filter fun t => 0 ≤ t && t < (chunkLen : Int) + 1)[chunkLen - 1]? = some
    ((chunkLen : Int) - 1) := by
    decide +kernel
  have hdrop : (((times pagedSamples).filter fun t => 0 ≤ t && t < (chunkLen : Int) + 1).dropWhile
    (· < (chunkLen : Int) - 1)).length = 2 := by
    decide +kernel
  have hlength : ((times pagedSamples).filter fun t => 0 ≤ t && t < (chunkLen : Int) + 1).length = chunkLen + 1 := by
    decide +kernel
  rw [lastPage_of_getElem? hget (by rw [hdrop, hlength]; decide), lastPage_of_length_lt (by rw [hdrop]; decide), hdrop]
  have hcount := count_pagedSamples (chunkLen + 1)
  have hpage : 3 ≤ chunkLen := by decide
  omega

/-- They are downloaded in two pages. -/
theorem pagedSamples_downloaded : chunkLen < pagedSamples.length ∧
    DownloadsAll id pagedSamples 0 (chunkLen + 1) ⟨[], fun _ => none⟩ := by
  refine ⟨by rw [pagedSamples, List.length_map, List.length_range]; omega, ?_⟩
  refine (downloads_all_iff id _ sorted_pagedSamples _ (fun h => absurd h (by decide)) 0 _).mpr
    ⟨fun t _ _ => ?_, .inr ?_⟩
  · exact Nat.lt_of_le_of_lt (count_pagedSamples t) (by decide)
  · exact endFits_pagedSamples

/-- A page of samples of one time is requested again and again. -/
theorem full_time_not_downloaded : ¬ ∀ (len : Nat) (samples : List (Int × Vector F32 len)),
    (samples.Pairwise fun s s' => s.1 ≤ s'.1) → ∀ (plot : PlotDataComponent), (len = 0 → plot.lines = []) →
      ∀ start stop, DownloadsAll id samples start stop plot := by
  intro h
  let samples : List (Int × Vector F32 1) := List.replicate chunkLen (0, #v[1])
  have hsorted : samples.Pairwise fun s s' => s.1 ≤ s'.1 := List.pairwise_replicate.mpr (.inr (Int.le_refl _))
  obtain ⟨plot', hdownloads, -⟩ := h 1 samples hsorted ⟨[], fun _ => none⟩ (fun h => absurd h (by decide)) 0 1
  have hnone := (of_downloads (List.pairwise_map.mpr hsorted) hdownloads fun h => absurd h (by decide)).1 0 (by decide) (by decide)
  have hcount : (times samples).count 0 = chunkLen := by
    rw [times, List.map_replicate]
    exact List.count_replicate_self
  omega

end Metor.Proof.Plot
