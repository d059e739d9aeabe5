import Metor.Proof.TimeSeries.Range
import Metor.Spec.Series

/-!
# The sample nearest to a time

`binary_search_nearest` stops at the newest node that starts at or before the
time. Within that node it finds the right sample (`nearest_within`). Past the
node's end it gives the last sample the first one's timestamp, or goes back to
the node after it, and before all nodes it gives the first sample the last
one's timestamp: so these branches are right only where the two timestamps
agree (`nearest_iff`). A message log is searched as the series of its
timestamps is (`searchNodes_asSeries`).
-/

namespace Metor.Proof.TimeSeries

open Metor.Lib Metor.Impl

section
variable {list newer older : TimeSeries} {k : TimeSeriesNode} {t : Int}

/-- A sample of a valid node, and where its value lies. -/
theorem samples_getElem? (hk : k.Valid) {i : Nat} (hi : i < k.timestamps.length) (older : TimeSeries) (timestamp : Int) :
    ∃ value, k.samples[i]? = some (k.timestamps[i], value) ∧ (TimestampRef.mk ⟨k, older⟩ timestamp i).data = some value := by
  have hle : (i + 1) * k.elementSize ≤ k.data.data.length := by
    rw [hk.data]; exact Nat.mul_le_mul_right _ hi
  refine ⟨slice k.data.data (i * k.elementSize) ((i + 1) * k.elementSize), ?_, if_pos hle⟩
  rw [TimeSeriesNode.samples, samplesOf, List.getElem?_zip_eq_some]
  exact ⟨List.getElem?_eq_getElem hi, by rw [getElem?_elements, if_pos hi]⟩

/-- The last sample up to `t` of the newest node that starts at or before `t`, with some timestamp. -/
theorem isNearest_iff (hv : ∀ p ∈ newer, p.Valid) (hnew : ∀ p ∈ newer, t < p.first) (hk : k.Valid) {i : Nat}
    (hi : i + 1 = upTo k.timestamps t) (timestamp : Int) :
    IsNearest TimeSeriesNode.timestamps (newer ++ k :: older) t ⟨k, older⟩ timestamp i ↔
      k.timestamps[i]? = some timestamp := by
  have hle := upTo_le k.timestamps t
  constructor
  · rintro ⟨_, -, h, -⟩
    exact h
  · intro h
    refine ⟨newer, rfl, h, .inl ⟨?_, fun x hx => ?_, fun n hn x hx => ?_⟩⟩
    · obtain ⟨hlt, rfl⟩ := List.getElem?_eq_some_iff.mp h
      exact (getElem_le_iff hk.sorted t hlt).mpr (by omega)
    · obtain ⟨j, hj, rfl⟩ := List.mem_drop_iff_getElem.mp hx
      dsimp only at hj
      have := mt (getElem_le_iff hk.sorted t (show i + 1 + j < k.timestamps.length by omega)).mp (by omega)
      exact not_le.mp this
    · exact (hnew n hn).trans_le (first_le (hv n hn) hx)

theorem mem_of_isNearest {n : AtomicNode TimeSeriesNode} {timestamp : Int} {i : Nat}
    (h : IsNearest TimeSeriesNode.timestamps list t n timestamp i) : n.value ∈ list := by
  obtain ⟨newer, rfl, -⟩ := h
  exact List.mem_append_right _ List.mem_cons_self

/-- The value that goes with a sample found is its own. -/
theorem nearestCorrect_of_some (hv : list.Valid) {r : TimestampRef} (h : list.binarySearchNearest t true = some r) :
    list.NearestCorrect t ↔ IsNearest TimeSeriesNode.timestamps list t r.node r.timestamp r.index := by
  rw [TimeSeries.NearestCorrect, h]
  refine ⟨And.left, fun hr => ⟨hr, ?_⟩⟩
  have hk := hv.node _ (mem_of_isNearest hr)
  obtain ⟨_, -, hget, -⟩ := hr
  obtain ⟨hlt, e⟩ := List.getElem?_eq_some_iff.mp hget
  obtain ⟨value, hs, hd⟩ := samples_getElem? hk hlt r.node.prev r.timestamp
  exact ⟨value, by rw [hs, e], hd⟩

/-! ## Where the search ends -/

/-- Before all nodes. -/
theorem nearest_before (hv : list.Valid) (h : ∀ p ∈ list, t < p.first) :
    list.NearestCorrect t ↔ ∀ k ∈ list.getLast?, k.first = k.last := by
  have hsearch : list.binarySearchNearest t true = (list.getLast?.map fun p => ⟨⟨p, []⟩, p.last, 0⟩).or none := by
    have := @searchNodes_append t true none list hv.node h []
    rwa [List.append_nil] at this
  rw [Option.or_none] at hsearch
  cases hl : list.getLast? with
  | none =>
    rw [hl] at hsearch
    rw [List.getLast?_eq_none_iff.mp hl] at hsearch ⊢
    exact iff_of_true rfl nofun
  | some k =>
    rw [hl, Option.map_some] at hsearch
    obtain ⟨newer, rfl⟩ := List.getLast?_eq_some_iff.mp hl
    have hk := hv.node k (by simp)
    rw [nearestCorrect_of_some hv hsearch]
    have hfirst : k.timestamps[0]? = some k.first := by rw [← List.head?_eq_getElem?, head?_timestamps hk]
    simp only [Option.mem_def, Option.some.injEq, forall_eq']
    constructor
    · rintro ⟨_, -, hget, -⟩
      exact Option.some.inj (hfirst.symm.trans hget)
    · intro e
      refine ⟨newer, rfl, e ▸ hfirst, .inr ⟨rfl, rfl, fun n hn x hx => ?_⟩⟩
      exact (h n hn).trans_le (first_le (hv.node n hn) hx)

/-- In a node that spans `t`. -/
theorem nearest_within (hv : TimeSeries.Valid (newer ++ k :: older)) (h : ∀ p ∈ newer, t < p.first) (h₁ : k.first ≤ t)
    (h₂ : t ≤ k.last) : TimeSeries.NearestCorrect (newer ++ k :: older) t := by
  have hvn := fun p hp => hv.node p (List.mem_append_left _ hp)
  have hk := hv.node k (by simp)
  have hpos := upTo_pos hk h₁
  have hle := upTo_le k.timestamps t
  have hindex : indexIn k.timestamps t true = upTo k.timestamps t - 1 := if_pos (.inl rfl)
  have hsearch := (searchNodes_append hvn h (k :: older)).trans
    (searchNodes_within true ((newer.getLast?.map fun p => ⟨⟨p, k :: older⟩, p.last, 0⟩).or none) older hk h₁ h₂)
  rw [nearestCorrect_of_some hv hsearch]
  refine (isNearest_iff hvn h hk (show indexIn k.timestamps t true + 1 = _ by omega) _).mpr ?_
  rw [List.getD_eq_getElem?_getD, hindex, List.getElem?_eq_getElem (show upTo k.timestamps t - 1 < k.timestamps.length by omega),
    Option.getD_some]

/-- Past the end of a node. -/
theorem nearest_past (hv : TimeSeries.Valid (newer ++ k :: older)) (h : ∀ p ∈ newer, t < p.first) (h₁ : k.first ≤ t)
    (h₂ : k.last < t) : TimeSeries.NearestCorrect (newer ++ k :: older) t ↔
      k.first = k.last ∧ ∀ p ∈ newer.getLast?, (k.first - t).natAbs ≤ (p.last - t).natAbs := by
  have hvn := fun p hp => hv.node p (List.mem_append_left _ hp)
  have hk := hv.node k (by simp)
  have hpos := length_pos hk
  have hsearch : TimeSeries.binarySearchNearest (newer ++ k :: older) t true = _ :=
    (searchNodes_append hvn h (k :: older)).trans (searchNodes_past hk h₂)
  rw [Option.or_none] at hsearch
  by_cases hgap : ∃ p ∈ newer.getLast?, (p.last - t).natAbs < (k.first - t).natAbs
  · -- The search goes back to the node after `k`, whose samples are all after `t`.
    obtain ⟨p, hp, hlt⟩ := hgap
    refine iff_of_false (fun hc => ?_) fun hc => absurd hlt (not_lt.mpr (hc.2 p hp))
    rw [Option.mem_def] at hp
    rw [hp, Option.map_some, if_pos ⟨_, rfl, hlt⟩] at hsearch
    have hpv := hvn p (List.mem_of_getLast? hp)
    obtain ⟨_, -, -, hcase⟩ := (nearestCorrect_of_some hv hsearch).mp hc
    have hp₁ := h p (List.mem_of_getLast? hp)
    have hp₂ := first_le hpv (last_mem hpv)
    rcases hcase with ⟨hle, -⟩ | ⟨-, -, hall⟩
    · dsimp only at hle
      omega
    · have := hall k (by simp) k.first (first_mem hk)
      omega
  · rw [if_neg] at hsearch
    · rw [nearestCorrect_of_some hv hsearch]
      have hlast : k.timestamps[k.timestamps.length - 1]? = some k.last := by
        rw [← List.getLast?_eq_getElem?, getLast?_timestamps hk]
      have hup : k.timestamps.length - true.toNat + 1 = upTo k.timestamps t := by
        rw [upTo_of_last_le hk h₂.le]
        exact Nat.sub_add_cancel hpos
      rw [isNearest_iff hvn h hk hup]
      constructor
      · intro e
        refine ⟨Option.some.inj (e.symm.trans hlast), fun p hp => not_lt.mp fun hlt => hgap ⟨p, hp, hlt⟩⟩
      · rintro ⟨e, -⟩
        rw [e]
        exact hlast
    · rintro ⟨r, hr, hlt⟩
      rw [Option.mem_def, Option.map_eq_some_iff] at hr
      obtain ⟨p, hp, rfl⟩ := hr
      exact hgap ⟨p, hp, hlt⟩

/-- The search is right just when the branch it ends in has the right timestamp. -/
theorem nearestCorrect_iff (hv : list.Valid) (t : Int) :
    list.NearestCorrect t ↔ Consistent TimeSeriesNode.first TimeSeriesNode.last list t := by
  have hsplit : list.takeWhile (fun n => decide (t < n.first)) ++ list.dropWhile (fun n => decide (t < n.first)) = list :=
    List.takeWhile_append_dropWhile
  have hnew : ∀ p ∈ list.takeWhile fun n => decide (t < n.first), t < p.first :=
    fun p hp => of_decide_eq_true (List.all_eq_true.mp List.all_takeWhile p hp)
  rw [Consistent]
  cases hd : list.dropWhile fun n => decide (t < n.first) with
  | nil =>
    rw [hd, List.append_nil] at hsplit
    rw [hsplit] at hnew
    exact nearest_before hv hnew
  | cons k older =>
    have h₁ : k.first ≤ t := by
      have := List.head?_dropWhile_not (fun n : TimeSeriesNode => decide (t < n.first)) list
      rw [hd] at this
      exact not_lt.mp (of_decide_eq_false this)
    rw [hd] at hsplit
    dsimp only
    generalize list.takeWhile (fun n => decide (t < n.first)) = newer at *
    subst hsplit
    rcases le_or_gt t k.last with h₂ | h₂
    · exact iff_of_true (nearest_within hv hnew h₁ h₂) (.inl h₂)
    · rw [nearest_past hv hnew h₁ h₂, or_iff_right (not_le.mpr h₂)]

end

/-! ## Message logs -/

section
open Msg

/-- A node's timestamps, as a node of a series. -/
def asSeries (n : MsgLogNode) : TimeSeriesNode := ⟨n.path, ⟨0, 0, n.timestamps⟩, ⟨0, 0, []⟩⟩

def asRef (r : MsgRef) : TimestampRef := ⟨⟨asSeries r.node.value, r.node.prev.map asSeries⟩, r.timestamp, r.index⟩

variable {list : MsgLog} {t : Int}

theorem searchNodes_asSeries (inclusive : Bool) (prevNode : Option MsgRef) (list : MsgLog) :
    TimeSeries.searchNodes t inclusive (prevNode.map asRef) (list.map asSeries) =
      (MsgLog.searchNodes t inclusive prevNode list).map asRef := by
  induction list generalizing prevNode with
  | nil => rfl
  | cons n older ih =>
    rw [List.map_cons, TimeSeries.searchNodes, MsgLog.searchNodes, show (asSeries n).timestamps = n.timestamps from rfl]
    cases n.timestamps.head? with
    | none => rfl
    | some start =>
      cases n.timestamps.getLast? with
      | none => rfl
      | some stop =>
        dsimp only
        by_cases h₁ : t > stop
        · rw [if_pos h₁, if_pos h₁]
          cases prevNode with
          | none => rfl
          | some p =>
            show (if (p.timestamp - t).natAbs < (start - t).natAbs then _ else _) = _
            dsimp only
            split <;> rfl
        · rw [if_neg h₁, if_neg h₁]
          by_cases h₂ : t < start
          · rw [if_pos h₂, if_pos h₂]
            exact ih (some ⟨⟨n, older⟩, stop, 0⟩)
          · rw [if_neg h₂, if_neg h₂]
            rfl

/-- What is found is a node of the list, with the nodes below it. -/
theorem searchNodes_suffix {inclusive : Bool} {prevNode : Option MsgRef} {full : MsgLog} (hl : list <:+ full)
    (hp : ∀ p ∈ prevNode, p.node.chain <:+ full) :
    ∀ r ∈ MsgLog.searchNodes t inclusive prevNode list, r.node.chain <:+ full := by
  induction list generalizing prevNode with
  | nil => exact hp
  | cons n older ih =>
    rw [MsgLog.searchNodes]
    have hn : AtomicNode.chain ⟨n, older⟩ <:+ full := hl
    split
    · split
      · split
        · split
          · exact hp
          · rintro _ ⟨⟩
            exact hn
        · rintro _ ⟨⟩
          exact hn
      · split
        · refine ih ((List.suffix_cons n older).trans hl) ?_
          rintro _ ⟨⟩
          exact hn
        · rintro _ ⟨⟩
          exact hn
    · nofun

theorem valid_asSeries (h : list.Valid) : TimeSeries.Valid (list.map asSeries) := by
  refine ⟨fun n hn => ?_, List.pairwise_map.mpr h.across⟩
  obtain ⟨m, hm, rfl⟩ := List.mem_map.mp hn
  exact ⟨(h.node m hm).ne_nil, (Nat.mul_zero _).symm, (h.node m hm).sorted⟩

theorem consistent_asSeries : Consistent TimeSeriesNode.first TimeSeriesNode.last (list.map asSeries) t ↔
    Consistent MsgLogNode.first MsgLogNode.last list t := by
  have hlast (nodes : MsgLog) (P : TimeSeriesNode → Prop) :
      (∀ k ∈ (nodes.map asSeries).getLast?, P k) ↔ ∀ k ∈ nodes.getLast?, P (asSeries k) := by
    rw [List.getLast?_map]
    cases nodes.getLast? with
    | none => exact ⟨fun _ => nofun, fun _ => nofun⟩
    | some k =>
      simp only [Option.map_some, Option.mem_def, Option.some.injEq, forall_eq']
  have hp : (fun n : TimeSeriesNode => decide (t < n.first)) ∘ asSeries = fun n => decide (t < n.first) := rfl
  rw [Consistent, Consistent, List.dropWhile_map, List.takeWhile_map, hp]
  cases list.dropWhile fun n => decide (t < MsgLogNode.first n) with
  | nil => exact hlast list _
  | cons k older => exact or_congr Iff.rfl (and_congr Iff.rfl (hlast _ _))

theorem isNearest_asSeries {r : MsgRef} (hr : r.node.chain <:+ list) :
    IsNearest TimeSeriesNode.timestamps (list.map asSeries) t (asRef r).node r.timestamp r.index ↔
      IsNearest MsgLogNode.timestamps list t r.node r.timestamp r.index := by
  obtain ⟨newer, rfl⟩ := hr
  have hchain : (asRef r).node.chain = r.node.chain.map asSeries := rfl
  have hnil : (asRef r).node.prev = [] ↔ r.node.prev = [] := List.map_eq_nil_iff
  constructor
  · rintro ⟨newer', e, hget, hcase⟩
    rw [hchain, List.map_append, List.append_left_inj] at e
    subst e
    rw [hnil, List.forall_mem_map, List.forall_mem_map] at hcase
    exact ⟨newer, rfl, hget, hcase⟩
  · rintro ⟨newer', e, hget, hcase⟩
    rw [List.append_left_inj] at e
    subst e
    refine ⟨newer.map asSeries, by rw [hchain, List.map_append], hget, ?_⟩
    rw [hnil, List.forall_mem_map, List.forall_mem_map]
    exact hcase

/-- The search in a message log is right under the same condition. -/
theorem msg_nearestCorrect_iff (hv : list.Valid) (t : Int) :
    list.NearestCorrect t ↔ Consistent MsgLogNode.first MsgLogNode.last list t := by
  rw [← consistent_asSeries, ← nearestCorrect_iff (valid_asSeries hv) t]
  have hsearch : TimeSeries.binarySearchNearest (list.map asSeries) t true = (list.getNearest t).map asRef :=
    searchNodes_asSeries true none list
  cases h : list.getNearest t with
  | none =>
    rw [h, Option.map_none] at hsearch
    rw [MsgLog.NearestCorrect, h, TimeSeries.NearestCorrect, hsearch]
    dsimp only
    rw [TimeSeries.samples, List.flatMap_eq_nil_iff, List.forall_mem_map]
    refine forall₂_congr fun n _ => ?_
    rw [← List.map_eq_nil_iff (f := Prod.fst), map_fst_samples]
    rfl
  | some r =>
    rw [h, Option.map_some] at hsearch
    rw [nearestCorrect_of_some (valid_asSeries hv) hsearch, MsgLog.NearestCorrect, h]
    have hr : r.node.chain <:+ list := searchNodes_suffix (List.suffix_refl list) (fun p hp => by cases hp) r h
    refine Iff.trans ⟨And.left, fun hn => ⟨hn, ?_⟩⟩ (isNearest_asSeries hr).symm
    obtain ⟨_, -, hget, -⟩ := hn
    obtain ⟨hlt, -⟩ := List.getElem?_eq_some_iff.mp hget
    have hk := hv.node r.node.value (hr.subset List.mem_cons_self)
    obtain ⟨msg, hmsg⟩ := Option.isSome_iff_exists.mp (hk.stored r.index hlt)
    exact ⟨msg, hmsg, hmsg⟩

end

/-- A search by time is right just when the branch it ends in has the right timestamp, for series and for message
logs. -/
theorem nearest_iff {series : TimeSeries} {log : Msg.MsgLog} (hs : series.Valid) (hl : log.Valid) (t : Int) :
    (series.NearestCorrect t ↔ Consistent TimeSeriesNode.first TimeSeriesNode.last series t) ∧
      (log.NearestCorrect t ↔ Consistent Msg.MsgLogNode.first Msg.MsgLogNode.last log t) :=
  ⟨nearestCorrect_iff hs t, msg_nearestCorrect_iff hl t⟩

/-! ## Three samples -/

/-- A node with the timestamps 1, 2 and 3, and one-byte values. -/
def threeSamples : TimeSeriesNode := ⟨"1", ⟨1, 100, [1, 2, 3]⟩, ⟨1, 100, [7, 8, 9]⟩⟩

/-- A log of three messages with these timestamps. -/
def threeMessages : Msg.MsgLog :=
  [(1, [7]), (2, [8]), (3, [9])].foldl (fun list r => (list.persistMsg r.1 r.2).2) []

theorem valid_threeSamples : TimeSeries.Valid [threeSamples] :=
  ⟨List.forall_mem_singleton.mpr ⟨by decide, by decide, by decide⟩, List.pairwise_singleton _ _⟩

theorem valid_threeMessages : threeMessages.Valid :=
  ⟨List.forall_mem_singleton.mpr ⟨by decide, by decide, by decide⟩, List.pairwise_singleton _ _⟩

/-- Within the node. -/
theorem nearest_three : TimeSeries.NearestCorrect [threeSamples] 2 ∧ threeMessages.NearestCorrect 2 := by
  have h := nearest_iff valid_threeSamples valid_threeMessages 2
  exact ⟨h.1.mpr (.inl (show (2 : Int) ≤ 3 by decide)), h.2.mpr (.inl (show (2 : Int) ≤ 3 by decide))⟩

/-- Past the node's end the value 9 of time 3 is found with timestamp 1. -/
theorem past_end_not_nearest : ¬ ((∀ (list : TimeSeries) (t : Int), list.Valid → list.NearestCorrect t) ∧
    ∀ (list : Msg.MsgLog) (t : Int), list.Valid → list.NearestCorrect t) := by
  intro h
  obtain ⟨-, value, hsample, -⟩ := h.1 [threeSamples] 5 valid_threeSamples
  have e : threeSamples.samples[2]? = some (3, [9]) := by decide
  have := congrArg Prod.fst (Option.some.inj (e.symm.trans hsample))
  exact absurd (show (3 : Int) = 1 from this) (by decide)

end Metor.Proof.TimeSeries
