import Mathlib.Data.List.Sort
import Metor.Proof.MsgLog.Range

/-!
# `GetMsgs`: the requests that are answered

Messages of a log are answered in the order of time if their timestamps are
the first of those wanted (`answersGetMsgs_iff`). If `a` was stored once, the slice of
the start's node is what the node has in the range, and the older messages
that follow are before it (`clean_iff`). If it was stored more often, the
slice begins with the last of them, and only more of them may follow
(`ties_iff`).
-/

namespace Metor.Proof.MsgLog

open Metor.Lib Metor.Impl Metor.Impl.Msg Metor.Proof.TimeSeries

/-! ## Limits -/

section
variable {α β : Type} {limit : Option Nat} {xs ys zs : List α}

theorem map_upToLimit (f : α → β) (limit : Option Nat) (xs : List α) :
    (upToLimit limit xs).map f = upToLimit limit (xs.map f) := by
  cases limit with
  | none => rfl
  | some n => exact List.map_take

theorem upToLimit_zero (xs : List α) : upToLimit (some 0) xs = [] := xs.take_zero

theorem upToLimit_isPrefix (limit : Option Nat) (xs : List α) : upToLimit limit xs <+: xs := by
  cases limit with
  | none => exact List.prefix_refl _
  | some n => exact List.take_prefix n xs

theorem upToLimit_cons (h : limit ≠ some 0) (x : α) (xs : List α) :
    upToLimit limit (x :: xs) = x :: upToLimit (limit.map (· - 1)) xs := by
  cases limit with
  | none => rfl
  | some n =>
    cases n with
    | zero => exact absurd rfl h
    | succ n => rfl

theorem upToLimit_eq_nil_iff (h : limit ≠ some 0) : upToLimit limit xs = [] ↔ xs = [] := by
  cases xs with
  | nil => exact iff_of_true (List.prefix_nil.mp (upToLimit_isPrefix limit [])) rfl
  | cons x xs => exact iff_of_false (by rw [upToLimit_cons h]; exact List.cons_ne_nil _ _) (List.cons_ne_nil _ _)

/-- Lists that go on differently are the same up to a limit if it is reached before. -/
theorem upToLimit_append_eq_iff (hne : ∀ y ∈ ys, y ∉ zs) :
    upToLimit limit (xs ++ ys) = upToLimit limit (xs ++ zs) ↔ (∃ n ∈ limit, n ≤ xs.length) ∨ ys = [] ∧ zs = [] := by
  have hnil : ∀ {us vs : List α}, us <+: ys → vs <+: zs → us = vs → us = [] := by
    rintro us _ hu hv rfl
    refine List.eq_nil_iff_forall_not_mem.mpr fun x hx => ?_
    exact hne x (hu.subset hx) (hv.subset hx)
  cases limit with
  | none =>
    simp only [upToLimit, Option.elim_none, List.append_cancel_left_eq, Option.mem_def, reduceCtorEq, false_and,
      exists_false, false_or]
    constructor
    · intro e
      have hy := hnil (List.prefix_refl _) (List.prefix_refl _) e
      exact ⟨hy, e ▸ hy⟩
    · rintro ⟨rfl, rfl⟩
      rfl
  | some n =>
    simp only [upToLimit, Option.elim_some, Option.mem_def, Option.some.injEq, exists_eq_left']
    rcases le_or_gt n xs.length with h | h
    · rw [List.take_append_of_le_length h, List.take_append_of_le_length h]
      exact iff_of_true rfl (.inl h)
    · rw [or_iff_right (not_le.mpr h), List.take_append, List.take_append, List.append_cancel_left_eq]
      constructor
      · intro e
        have hy := hnil (List.take_prefix _ _) (List.take_prefix _ _) e
        have hz := e ▸ hy
        exact ⟨(List.take_eq_nil_iff.mp hy).resolve_left (by omega), (List.take_eq_nil_iff.mp hz).resolve_left (by omega)⟩
      · rintro ⟨rfl, rfl⟩
        rfl

end

/-! ## Answers by their timestamps -/

section
variable {list : MsgLog} {a b : Int} {limit : Option Nat} {batch : List (Int × Bytes)}

/-- The timestamps of a log, in the order they were stored in. -/
def storedTimes (list : MsgLog) : List Int := list.reverse.flatMap MsgLogNode.timestamps

theorem map_fst_flatMap {nodes : MsgLog} (h : ∀ n ∈ nodes, Full n) :
    (nodes.flatMap MsgLogNode.messages).map Prod.fst = nodes.flatMap MsgLogNode.timestamps := by
  rw [List.map_flatMap]
  exact List.flatMap_congr fun n hn => map_fst_messages (h n hn)

theorem map_fst_log (h : ∀ n ∈ list, Full n) : list.messages.map Prod.fst = storedTimes list :=
  map_fst_flatMap fun n hn => h n (List.mem_reverse.mp hn)

/-- The timestamps of a range. -/
def inTime (a b t : Int) : Bool := decide (a ≤ t ∧ t ≤ b)

theorem map_fst_wanted (h : ∀ n ∈ list, Full n) (a b : Int) :
    (list.wanted a b).map Prod.fst = (storedTimes list).filter (inTime a b) := by
  rw [← map_fst_log h, List.filter_map]
  rfl

theorem sorted_storedTimes (h : list.Ordered) : (storedTimes list).Pairwise (· ≤ ·) := by
  unfold storedTimes
  rw [List.pairwise_flatMap]
  refine ⟨fun n hn => h.sorted n (List.mem_reverse.mp hn), List.pairwise_reverse.mpr h.across⟩

/-- Messages of the log are an answer if their timestamps are the first of those wanted. -/
theorem answersGetMsgs_iff (h : list.Ordered) (hsub : batch.Subperm list.messages) :
    AnswersGetMsgs list a b limit batch ↔
      batch.map Prod.fst = upToLimit limit ((storedTimes list).filter (inTime a b)) := by
  have hsorted := (sorted_storedTimes h).filter (inTime a b)
  have hwanted := map_fst_wanted h.stored a b
  constructor
  · rintro ⟨all, hperm, hall, rfl⟩
    rw [map_upToLimit]
    have hfst := (hperm.map Prod.fst).eq_of_pairwise' (List.pairwise_map.mpr hall) (hwanted ▸ hsorted)
    rw [hfst, hwanted]
  · intro e
    -- the batch is a part of what is wanted; the rest follows it in the order of time
    have hpre := upToLimit_isPrefix limit ((storedTimes list).filter (inTime a b))
    have hin : ∀ m ∈ batch, inTime a b m.1 = true := fun m hm =>
      (List.mem_filter.mp (hpre.subset (e ▸ List.mem_map_of_mem (f := Prod.fst) hm))).2
    have hsub' : batch.Subperm (list.wanted a b) := by
      have := hsub.filter fun m => inTime a b m.1
      rwa [List.filter_eq_self.mpr hin] at this
    obtain ⟨part, hpart, hsubl⟩ := hsub'
    obtain ⟨rest, hrest⟩ := hsubl.exists_perm_append
    have hperm : (batch ++ rest.mergeSort fun x y => decide (x.1 ≤ y.1)).Perm (list.wanted a b) :=
      (hpart.symm.append (List.mergeSort_perm rest _)).trans hrest.symm
    have hmerge : (rest.mergeSort fun x y => decide (x.1 ≤ y.1)).Pairwise fun x y => x.1 ≤ y.1 := by
      have := @List.pairwise_mergeSort (Int × Bytes) (fun x y => decide (x.1 ≤ y.1))
        (by simp only [decide_eq_true_eq]; exact fun _ _ _ => le_trans)
        (by simp only [Bool.or_eq_true, decide_eq_true_eq]; exact fun x y => le_total x.1 y.1) rest
      simpa only [decide_eq_true_eq] using this
    generalize rest.mergeSort (fun x y => decide (x.1 ≤ y.1)) = rest' at hperm hmerge
    obtain ⟨later, hlater⟩ := hpre
    have hfst := hperm.map Prod.fst
    rw [hwanted, ← hlater, List.map_append, e, List.perm_append_left_iff] at hfst
    rw [← hlater] at hsorted
    have hrest' : rest'.map Prod.fst = later :=
      hfst.eq_of_pairwise' (List.pairwise_map.mpr hmerge) (List.pairwise_append.mp hsorted).2.1
    have hall : (batch ++ rest').map Prod.fst = (storedTimes list).filter (inTime a b) := by
      rw [List.map_append, e, hrest', hlater]
    refine ⟨batch ++ rest', hperm, ?_, ?_⟩
    · rw [← List.pairwise_map (f := Prod.fst) (R := (· ≤ ·)), hall, ← hlater]
      exact hsorted
    · have hlen : batch.length = (upToLimit limit (batch ++ rest')).length := by
        rw [← List.length_map (f := Prod.fst), e, ← hall, ← map_upToLimit, List.length_map]
      exact (List.prefix_of_prefix_length_le (List.prefix_append batch rest') (upToLimit_isPrefix limit _)
        hlen.le).eq_of_length hlen

end

/-! ## Sorted timestamps -/

section
variable {xs : List Int} {a b : Int}

/-- In a sorted list, the items of a range are those at its start and those after it. -/
theorem filter_inTime (hs : xs.Pairwise (· ≤ ·)) (hab : a ≤ b) :
    xs.filter (inTime a b) = List.replicate (xs.count a) a ++ xs.filter (inTime (a + 1) b) := by
  induction xs with
  | nil => rfl
  | cons x xs ih =>
    obtain ⟨hx, hs⟩ := List.pairwise_cons.mp hs
    have ih := ih hs
    rcases lt_trichotomy x a with h | rfl | h
    · have h₁ : inTime a b x = false := decide_eq_false (by omega)
      have h₂ : inTime (a + 1) b x = false := decide_eq_false (by omega)
      rw [List.filter_cons_of_neg (by simp [h₁]), List.filter_cons_of_neg (by simp [h₂]), List.count_cons_of_ne h.ne, ih]
    · have h₁ : inTime x b x = true := decide_eq_true ⟨le_refl _, hab⟩
      have h₂ : inTime (x + 1) b x = false := decide_eq_false (by omega)
      rw [List.filter_cons_of_pos h₁, List.filter_cons_of_neg (by simp [h₂]), List.count_cons_self, ih]
      rfl
    · have hcount : (x :: xs).count a = 0 := by
        rw [List.count_eq_zero]
        intro hm
        rcases List.mem_cons.mp hm with rfl | hm
        · exact lt_irrefl _ h
        · exact absurd (hx a hm) (not_le.mpr h)
      rw [hcount, List.replicate_zero, List.nil_append]
      refine List.filter_congr fun y hy => ?_
      have hy : x ≤ y := by
        rcases List.mem_cons.mp hy with rfl | hy
        · exact le_refl _
        · exact hx y hy
      exact decide_eq_decide.mpr (by omega)

/-- From the last item at `a` on. -/
theorem slice_of_mem (hs : xs.Pairwise (· ≤ ·)) (hab : a ≤ b) (ha : a ∈ xs) :
    slice xs (indexIn xs a false) (upTo xs b) = a :: xs.filter (inTime (a + 1) b) := by
  have hpos : 0 < upTo xs a := List.countP_pos_iff.mpr ⟨a, ha, decide_eq_true (le_refl a)⟩
  have hmono := upTo_mono xs hab
  have hget := getElem?_upTo hs ha
  have hlt : upTo xs a - 1 < xs.length := by
    have := upTo_le xs a
    omega
  have hrest : slice xs (upTo xs a) (upTo xs b) = xs.filter (inTime (a + 1) b) := by
    rcases le_or_gt (a + 1) b with h | h
    · have hup : upTo xs a = xs.countP fun t => decide (t < a + 1) :=
        List.countP_congr fun t _ => by simp only [decide_eq_true_eq]; omega
      rw [hup]
      exact (filter_range_eq_slice id hs h).symm
    · obtain rfl : a = b := by omega
      rw [slice_of_le _ (le_refl _), eq_comm, List.filter_eq_nil_iff]
      intro t _
      simp only [inTime, decide_eq_true_eq]
      omega
  have hhead : slice xs (upTo xs a - 1) (upTo xs a) = [a] := by
    rw [List.getElem?_eq_getElem hlt, Option.some.injEq] at hget
    rw [slice_eq_take_drop, List.drop_eq_getElem_cons hlt, hget, show upTo xs a - (upTo xs a - 1) = 1 by omega]
    rfl
  rw [indexIn, if_pos (.inr ha), ← slice_append xs (Nat.sub_le (upTo xs a) 1) hmono, hrest, hhead]
  rfl

theorem slice_of_not_mem (hs : xs.Pairwise (· ≤ ·)) (hab : a ≤ b) (ha : a ∉ xs) :
    slice xs (indexIn xs a false) (upTo xs b) = xs.filter (inTime a b) := by
  have hup : upTo xs a = below xs a := by rw [upTo_eq, List.count_eq_zero_of_not_mem ha, Nat.add_zero]
  rw [indexIn, if_neg (by simp [ha]), hup]
  exact (filter_range_eq_slice id hs hab).symm

end

/-! ## The node of the start -/

section
variable {newer older : MsgLog} {k : MsgLogNode} {a b t : Int} {limit : Option Nat}

theorem storedTimes_split (newer : MsgLog) (k : MsgLogNode) (older : MsgLog) :
    storedTimes (newer ++ k :: older) = storedTimes older ++ (k.timestamps ++ storedTimes newer) := by
  simp [storedTimes]

theorem mem_storedTimes {nodes : MsgLog} : t ∈ storedTimes nodes ↔ ∃ n ∈ nodes, t ∈ n.timestamps := by
  simp [storedTimes]

/-- The answer from `k`, by the timestamps of the batch. -/
theorem Reaches.answered_iff (hr : Reaches newer k older t) (hk : k.first ≤ b) {i : Nat} {ts : Int}
    (h₀ : MsgLog.binarySearchNearest (newer ++ k :: older) a false = some ⟨⟨k, older⟩, ts, i⟩) :
    AnswersGetMsgs (newer ++ k :: older) a b limit (MsgLog.batch (newer ++ k :: older) a b limit) ↔
      (if limit = some 0 then (slice k.timestamps i (upTo k.timestamps b)).take 1
        else upToLimit limit (slice k.timestamps i (upTo k.timestamps b) ++ older.flatMap MsgLogNode.timestamps)) =
      upToLimit limit ((storedTimes (newer ++ k :: older)).filter (inTime a b)) := by
  have hslice : (slice k.messages i (upTo k.timestamps b)).map Prod.fst = slice k.timestamps i (upTo k.timestamps b) := by
    rw [slice, slice, List.map_drop, List.map_take, map_fst_messages (hr.full k (by simp))]
  have hold : (older.flatMap MsgLogNode.messages).map Prod.fst = older.flatMap MsgLogNode.timestamps :=
    map_fst_flatMap fun n hn => hr.full n (by simp [hn])
  have hsubl : (slice k.messages i (upTo k.timestamps b) ++ older.flatMap MsgLogNode.messages).Sublist
      ((newer ++ k :: older).flatMap MsgLogNode.messages) := by
    rw [List.flatMap_append, List.flatMap_cons]
    exact ((slice_sublist _ _ _).append_right _).trans (List.sublist_append_right _ _)
  have hperm : ((newer ++ k :: older).flatMap MsgLogNode.messages).Perm (newer ++ k :: older).messages :=
    ((List.reverse_perm _).flatMap_right _).symm
  have hsub : (MsgLog.batch (newer ++ k :: older) a b limit).Subperm (newer ++ k :: older).messages := by
    rw [hr.batch_eq hk limit h₀]
    refine List.Subperm.trans (List.Sublist.subperm ?_) hperm.subperm
    split
    · exact ((List.take_sublist _ _).trans (List.sublist_append_left _ _)).trans hsubl
    · exact (upToLimit_isPrefix limit _).sublist.trans hsubl
  rw [answersGetMsgs_iff hr.ordered hsub, hr.batch_eq hk limit h₀]
  split
  · rw [List.map_take, hslice]
  · rw [map_upToLimit, List.map_append, hslice, hold]

theorem Reaches.first_le (hr : Reaches newer k older a) {x : Int} (hx : x ∈ k.timestamps) : k.first ≤ x :=
  TimeSeries.first_le hr.valid hx

/-- The newer messages are after `a`. -/
theorem Reaches.newer_after (hr : Reaches newer k older a) {x : Int} (hx : x ∈ storedTimes newer) : a < x := by
  obtain ⟨p, hp, hx⟩ := mem_storedTimes.mp hx
  exact (hr.newer p hp).2.trans_le (TimeSeries.first_le (hr.valid_newer _ (List.mem_map_of_mem hp)) hx)

/-- The older messages are at most as late as those of `k`. -/
theorem Reaches.older_le (hr : Reaches newer k older a) {x y : Int} (hx : x ∈ storedTimes older)
    (hy : y ∈ k.timestamps) : x ≤ y := by
  obtain ⟨n, hn, hx⟩ := mem_storedTimes.mp hx
  exact (List.pairwise_cons.mp (List.pairwise_append.mp hr.ordered.across).2.1).1 n hn x hx y hy

theorem mem_flatMap_iff {nodes : MsgLog} : t ∈ nodes.flatMap MsgLogNode.timestamps ↔ t ∈ storedTimes nodes := by
  rw [mem_storedTimes, List.mem_flatMap]

/-- If the slice is what `k` has in the range and the older messages are before it. -/
theorem Reaches.clean_iff (hr : Reaches newer k older a) (hold : ∀ x ∈ storedTimes older, x < a) :
    upToLimit limit (k.within a b ++ older.flatMap MsgLogNode.timestamps) =
        upToLimit limit ((storedTimes (newer ++ k :: older)).filter (inTime a b)) ↔
      Enough newer k older a b limit := by
  have hnone : (storedTimes older).filter (inTime a b) = [] := by
    rw [List.filter_eq_nil_iff]
    intro x hx
    have := hold x hx
    simp only [inTime, decide_eq_true_eq]
    omega
  rw [storedTimes_split, List.filter_append, hnone, List.nil_append, List.filter_append]
  have hdisj : ∀ y ∈ older.flatMap MsgLogNode.timestamps, y ∉ (storedTimes newer).filter (inTime a b) := by
    intro y hy hy'
    have h₁ := hold y (mem_flatMap_iff.mp hy)
    have h₂ := of_decide_eq_true (List.mem_filter.mp hy').2
    omega
  refine (upToLimit_append_eq_iff hdisj).trans (or_congr Iff.rfl (and_congr List.flatMap_eq_nil_iff ?_))
  rw [List.filter_eq_nil_iff]
  constructor
  · intro h p hp
    have hmem : p.first ∈ p.timestamps := first_mem (hr.valid_newer _ (List.mem_map_of_mem hp))
    have := h p.first (mem_storedTimes.mpr ⟨p, hp, hmem⟩)
    have hlt := (hr.newer p hp).2
    simp only [inTime, decide_eq_true_eq] at this
    omega
  · intro h x hx
    obtain ⟨p, hp, hx⟩ := mem_storedTimes.mp hx
    have h₁ := h p hp
    have h₂ : p.first ≤ x := TimeSeries.first_le (hr.valid_newer _ (List.mem_map_of_mem hp)) hx
    simp only [inTime, decide_eq_true_eq]
    omega

/-- Of the messages wanted, those at the start of the range come first. -/
theorem Reaches.wanted_eq (hr : Reaches newer k older a) (hab : a ≤ b) :
    (storedTimes (newer ++ k :: older)).filter (inTime a b) =
      List.replicate ((storedTimes (newer ++ k :: older)).count a) a ++
        (storedTimes (newer ++ k :: older)).filter (inTime (a + 1) b) :=
  filter_inTime (sorted_storedTimes hr.ordered) hab

theorem count_storedTimes (list : MsgLog) (a : Int) :
    (storedTimes list).count a = (list.flatMap MsgLogNode.timestamps).count a :=
  ((List.reverse_perm list).flatMap_right _).count_eq a

/-- How often a time was stored, in `k` and in the older nodes. -/
theorem Reaches.le_count (_hr : Reaches newer k older a) :
    k.timestamps.count a + (older.flatMap MsgLogNode.timestamps).count a ≤ (storedTimes (newer ++ k :: older)).count a := by
  rw [count_storedTimes, List.flatMap_append, List.flatMap_cons, List.count_append, List.count_append]
  exact Nat.le_add_left _ _

theorem length_wanted (h : ∀ n ∈ newer ++ k :: older, Full n) :
    (upToLimit limit (MsgLog.wanted (newer ++ k :: older) a b)).length =
      (upToLimit limit ((storedTimes (newer ++ k :: older)).filter (inTime a b))).length := by
  rw [← map_fst_wanted h, ← map_upToLimit, List.length_map]

theorem within_eq_nil (h : ∀ t ∈ k.within a b, t = a) : k.within (a + 1) b = [] := by
  refine List.eq_nil_iff_forall_not_mem.mpr fun t ht => ?_
  obtain ⟨hmem, hle⟩ := List.mem_filter.mp ht
  have hle := of_decide_eq_true hle
  have := h t (List.mem_filter.mpr ⟨hmem, decide_eq_true (by omega)⟩)
  omega

/-- Ties are answered. -/
theorem Reaches.of_ties (hr : Reaches newer k older a) (hab : a ≤ b) (hl : limit ≠ some 0)
    (h : Ties (newer ++ k :: older) k older a b limit) :
    upToLimit limit (a :: k.within (a + 1) b ++ older.flatMap MsgLogNode.timestamps) =
      upToLimit limit ((storedTimes (newer ++ k :: older)).filter (inTime a b)) := by
  obtain ⟨ha, h⟩ := h
  have hcount := List.count_pos_iff.mpr ha
  have hle := hr.le_count
  rw [length_wanted hr.full] at h
  rw [hr.wanted_eq hab] at h ⊢
  generalize (storedTimes (newer ++ k :: older)).count a = count at hle h ⊢
  generalize (storedTimes (newer ++ k :: older)).filter (inTime (a + 1) b) = later at h ⊢
  rcases h with rfl | ⟨hall, h⟩
  · obtain ⟨n, rfl⟩ : ∃ n, count = n + 1 := ⟨count - 1, by omega⟩
    rw [List.replicate_succ]
    rfl
  · -- as many are sent as are wanted, and no more than were stored
    rw [within_eq_nil hall, List.cons_append, List.nil_append, upToLimit_cons hl, h]
    have hpre := List.prefix_iff_eq_take.mp (upToLimit_isPrefix limit (List.replicate count a ++ later))
    have hsent := (upToLimit_isPrefix (limit.map (· - 1)) (older.flatMap MsgLogNode.timestamps)).sublist.count_le a
    rw [h, List.count_replicate_self] at hsent
    have hne : upToLimit limit (List.replicate count a ++ later) ≠ [] := by
      rw [Ne, upToLimit_eq_nil_iff hl, List.append_eq_nil_iff, List.replicate_eq_nil_iff]
      omega
    have hpos := List.length_pos_iff.mpr hne
    generalize (upToLimit limit (List.replicate count a ++ later)).length = m at hpre hsent hpos ⊢
    rw [hpre, List.take_append_of_le_length (by rw [List.length_replicate]; omega), List.take_replicate,
      Nat.min_eq_left (by omega), ← List.replicate_succ, Nat.sub_add_cancel hpos]

/-- If `a` was stored more than once, only ties are answered. -/
theorem Reaches.ties_of (hr : Reaches newer k older a) (hab : a ≤ b) (hk : k.first ≤ a) (ha : a ∈ k.timestamps)
    (hl : limit ≠ some 0) (hcount : 1 < (storedTimes (newer ++ k :: older)).count a)
    (h : upToLimit limit (a :: k.within (a + 1) b ++ older.flatMap MsgLogNode.timestamps) =
      upToLimit limit ((storedTimes (newer ++ k :: older)).filter (inTime a b))) :
    Ties (newer ++ k :: older) k older a b limit := by
  refine ⟨ha, or_iff_not_imp_left.mpr fun h₁ => ?_⟩
  have hmin : ∀ t ∈ (storedTimes (newer ++ k :: older)).filter (inTime a b), a ≤ t := fun t ht =>
    (of_decide_eq_true (List.mem_filter.mp ht).2).1
  rw [length_wanted hr.full]
  rw [hr.wanted_eq hab] at h hmin ⊢
  obtain ⟨n, hn⟩ : ∃ n, (storedTimes (newer ++ k :: older)).count a = n + 2 := ⟨_, (Nat.sub_add_cancel hcount).symm⟩
  rw [hn, List.replicate_succ, List.cons_append] at h hmin ⊢
  rw [List.cons_append, upToLimit_cons hl, upToLimit_cons hl, List.cons.injEq] at h
  rw [upToLimit_cons hl, List.length_cons, Nat.add_sub_cancel]
  have hl' : limit.map (· - 1) ≠ some 0 := by
    cases limit with
    | none => exact nofun
    | some m =>
      intro e
      have hm : m - 1 = 0 := Option.some.inj e
      exact h₁ (congrArg some (by have : m ≠ 0 := fun e => hl (congrArg some e); omega))
  have h := h.2
  generalize limit.map (· - 1) = limit' at h hl' ⊢
  have hnil : k.within (a + 1) b = [] := by
    cases hw : k.within (a + 1) b with
    | nil => rfl
    | cons x xs =>
      rw [hw, List.replicate_succ, List.cons_append, List.cons_append, upToLimit_cons hl', upToLimit_cons hl',
        List.cons.injEq] at h
      have hx : x ∈ k.within (a + 1) b := hw ▸ List.mem_cons_self
      have := of_decide_eq_true (List.mem_filter.mp hx).2
      omega
  refine ⟨fun t ht => ?_, ?_⟩
  · obtain ⟨hmem, hle⟩ := List.mem_filter.mp ht
    have hle := of_decide_eq_true hle
    by_contra hne
    have : t ∈ k.within (a + 1) b := List.mem_filter.mpr ⟨hmem, decide_eq_true (by omega)⟩
    rw [hnil] at this
    cases this
  · rw [hnil, List.nil_append] at h
    rw [h]
    refine List.eq_replicate_of_mem fun t ht => ?_
    have h₁ : t ∈ older.flatMap MsgLogNode.timestamps := (upToLimit_isPrefix _ _).subset (h ▸ ht)
    have h₂ := hr.older_le (mem_flatMap_iff.mp h₁) (first_mem hr.valid)
    have h₃ := hmin t (List.mem_cons_of_mem _ ((upToLimit_isPrefix _ _).subset ht))
    have h₄ : (asSeries k).first = k.first := rfl
    omega

/-- The slice of the start's node, if `a` was stored once. -/
theorem Reaches.slice_eq_within (hr : Reaches newer k older a) (hab : a ≤ b) (hcount : k.timestamps.count a ≤ 1) :
    slice k.timestamps (indexIn k.timestamps a false) (upTo k.timestamps b) = k.within a b := by
  have hs : k.timestamps.Pairwise (· ≤ ·) := hr.valid.sorted
  by_cases ha : a ∈ k.timestamps
  · have hpos := List.count_pos_iff.mpr ha
    have hone : k.timestamps.count a = 1 := by omega
    have hwithin := filter_inTime hs hab
    rw [hone] at hwithin
    rw [slice_of_mem hs hab ha]
    exact hwithin.symm
  · exact slice_of_not_mem hs hab ha

/-- If `a` was stored in an older node too, it is the start of `k`. -/
theorem Reaches.mem_of_older (hr : Reaches newer k older a) (hk : k.first ≤ a) (ha : a ∈ storedTimes older) :
    a ∈ k.timestamps := by
  have hfirst : k.first ∈ k.timestamps := first_mem hr.valid
  have := hr.older_le ha hfirst
  rwa [show a = k.first by omega]

/-- The answers from the newest node that starts at or before `a`. -/
theorem Reaches.within_iff (hr : Reaches newer k older a) (hab : a ≤ b) (hk : k.first ≤ a) (hgap : ¬ Nearer newer k a) :
    AnswersGetMsgs (newer ++ k :: older) a b limit (MsgLog.batch (newer ++ k :: older) a b limit) ↔
      AnsweredWithin newer k older a b limit := by
  obtain ⟨ts, h₀⟩ := hr.start (.inl hk) hgap
  have hs : k.timestamps.Pairwise (· ≤ ·) := hr.valid.sorted
  have hle := hr.le_count
  have htotal := count_storedTimes (newer ++ k :: older) a
  rw [hr.answered_iff (hk.trans hab) h₀, AnsweredWithin, and_iff_right hgap, ← htotal]
  by_cases hl : limit = some 0
  · -- nothing is to be sent
    subst hl
    rw [if_pos rfl, if_pos rfl]
    rw [upToLimit_zero, List.take_eq_nil_iff, or_iff_right Nat.one_ne_zero]
    by_cases ha : a ∈ k.timestamps
    · have hmem : a ∈ k.within a b := List.mem_filter.mpr ⟨ha, decide_eq_true ⟨le_refl a, hab⟩⟩
      rw [slice_of_mem hs hab ha]
      exact iff_of_false (List.cons_ne_nil _ _) (List.ne_nil_of_mem hmem)
    · rw [slice_of_not_mem hs hab ha]
      rfl
  rw [if_neg hl, if_neg hl]
  by_cases hcount : (storedTimes (newer ++ k :: older)).count a ≤ 1
  · -- `a` was stored once at most
    have hold : ∀ x ∈ storedTimes older, x < a := by
      intro x hx
      have hfirst : k.first ∈ k.timestamps := first_mem hr.valid
      have hxk := hr.older_le hx hfirst
      by_contra hlt
      obtain rfl : x = a := by omega
      have h₁ := List.count_pos_iff.mpr (hr.mem_of_older hk hx)
      have h₂ := List.count_pos_iff.mpr (mem_flatMap_iff.mpr hx)
      omega
    rw [hr.slice_eq_within hab (by omega), hr.clean_iff hold]
    refine ⟨fun h => .inl ⟨hcount, h⟩, ?_⟩
    rintro (⟨-, h⟩ | h)
    · exact h
    · have hties := hr.of_ties hab hl h
      have hwithin : _ = a :: k.within (a + 1) b := slice_of_mem hs hab h.1
      rw [hr.slice_eq_within hab (by omega)] at hwithin
      rw [← hwithin] at hties
      exact (hr.clean_iff hold).mp hties
  · have ha : a ∈ k.timestamps := by
      have hmem : a ∈ storedTimes (newer ++ k :: older) := List.count_pos_iff.mp (by omega)
      rw [storedTimes_split] at hmem
      rcases List.mem_append.mp hmem with hmem | hmem
      · exact hr.mem_of_older hk hmem
      rcases List.mem_append.mp hmem with hmem | hmem
      · exact hmem
      · exact absurd (hr.newer_after hmem) (lt_irrefl a)
    rw [slice_of_mem hs hab ha]
    constructor
    · intro h
      exact .inr (hr.ties_of hab hk ha hl (not_le.mp hcount) h)
    · rintro (⟨h, -⟩ | h)
      · exact absurd h hcount
      · exact hr.of_ties hab hl h

/-- The answers from a node that starts after `a`, with the older ones before `a`. -/
theorem Reaches.after_iff (hr : Reaches newer k older a) (hab : a ≤ b) (hk : a < k.first)
    (hold : ∀ x ∈ storedTimes older, x < a) {ts : Int} {r : MsgRef}
    (h₀ : MsgLog.binarySearchNearest (newer ++ k :: older) a false = some ⟨⟨k, older⟩, ts, 0⟩)
    (h : MsgLog.binarySearchNearest (newer ++ k :: older) b true = some r) :
    AnswersGetMsgs (newer ++ k :: older) a b limit (MsgLog.batch (newer ++ k :: older) a b limit) ↔
      k.first ≤ b ∧ limit ≠ some 0 ∧ Enough newer k older a b limit := by
  have hs : k.timestamps.Pairwise (· ≤ ·) := hr.valid.sorted
  have hfirst : k.first ∈ k.timestamps := first_mem hr.valid
  have hne := batch_ne_nil hr.ne_nil (hr.full k (by simp)) limit h₀ h
  rcases le_or_gt k.first b with hkb | hkb
  · rw [and_iff_right hkb]
    by_cases hl : limit = some 0
    · -- a message is sent that was not asked for
      refine iff_of_false ?_ fun h => h.1 hl
      rintro ⟨all, -, -, e⟩
      rw [e, hl] at hne
      exact hne (upToLimit_zero all)
    · have ha : a ∉ k.timestamps := fun ha => absurd (hr.first_le ha) (not_le.mpr hk)
      have hindex : indexIn k.timestamps a false = 0 := by
        rw [indexIn, if_neg (by simp [ha])]
        exact upTo_of_lt_first hr.valid hk
      have hslice := slice_of_not_mem hs hab ha
      rw [hindex] at hslice
      rw [hr.answered_iff hkb h₀, if_neg hl, hslice, and_iff_right hl]
      exact hr.clean_iff hold
  · -- a message after the range is sent
    refine iff_of_false ?_ fun h => absurd h.1 (not_le.mpr hkb)
    rintro ⟨all, hperm, -, e⟩
    have hwanted : MsgLog.wanted (newer ++ k :: older) a b = [] := by
      rw [← List.map_eq_nil_iff (f := Prod.fst), map_fst_wanted hr.full, List.filter_eq_nil_iff]
      intro x hx
      rw [inTime, decide_eq_true_eq]
      rw [storedTimes_split] at hx
      rcases List.mem_append.mp hx with hx | hx
      · have := hold x hx
        omega
      rcases List.mem_append.mp hx with hx | hx
      · have := hr.first_le hx
        omega
      · obtain ⟨p, hp, hx⟩ := mem_storedTimes.mp hx
        have := (List.pairwise_append.mp hr.ordered.across).2.2 p hp k List.mem_cons_self _ hfirst x hx
        omega
    rw [hwanted] at hperm
    rw [hperm.eq_nil] at e
    exact hne (e.trans (List.prefix_nil.mp (upToLimit_isPrefix limit [])))

/-- A search that comes to an empty node finds nothing. -/
theorem empty_iff (h : MsgLog.Ordered (newer ++ k :: older)) (hnew : ∀ p ∈ newer, p.timestamps ≠ [] ∧ a < p.first)
    (hk : k.timestamps = []) :
    AnswersGetMsgs (newer ++ k :: older) a b limit (MsgLog.batch (newer ++ k :: older) a b limit) ↔
      limit = some 0 ∨ MsgLog.wanted (newer ++ k :: older) a b = [] := by
  have hvn : ∀ n ∈ newer.map asSeries, n.Valid :=
    valid_map_asSeries (fun n hn => (hnew n hn).1) fun n hn => h.sorted n (by simp [hn])
  have hsearch : MsgLog.binarySearchNearest (newer ++ k :: older) a false = none := by
    have hs := series_search (newer ++ k :: older) a false
    have hts : (asSeries k).timestamps = [] := hk
    rw [List.map_append, List.map_cons, TimeSeries.binarySearchNearest,
      searchNodes_append hvn (List.forall_mem_map.mpr fun p hp => (hnew p hp).2), TimeSeries.searchNodes, hts] at hs
    exact Option.map_eq_none_iff.mp hs.symm
  have hbatch : MsgLog.batch (newer ++ k :: older) a b limit = [] := by
    rw [MsgLog.batch, MsgLog.getRange, hsearch]
    rfl
  rw [hbatch, answersGetMsgs_iff h List.nil_subperm, ← map_fst_wanted h.stored, List.map_nil, eq_comm]
  by_cases hl : limit = some 0
  · rw [hl]
    exact iff_of_true (upToLimit_zero _) (.inl rfl)
  · rw [upToLimit_eq_nil_iff hl, List.map_eq_nil_iff, or_iff_right hl]

end

/-! ## Every request -/

section
variable {list : MsgLog} {a b : Int} {limit : Option Nat}

/-- Where the search for `a` comes to. -/
theorem exists_reached (h : list ≠ []) (a : Int) : ∃ newer k older, list = newer ++ k :: older ∧
    (∀ p ∈ newer, p.timestamps ≠ [] ∧ a < p.first) ∧ (k.timestamps = [] ∨ k.first ≤ a ∨ older = []) := by
  induction list with
  | nil => exact absurd rfl h
  | cons n rest ih =>
    by_cases hn : n.timestamps = []
    · exact ⟨[], n, rest, rfl, nofun, .inl hn⟩
    rcases le_or_gt n.first a with hle | hlt
    · exact ⟨[], n, rest, rfl, nofun, .inr (.inl hle)⟩
    by_cases hrest : rest = []
    · exact ⟨[], n, rest, rfl, nofun, .inr (.inr hrest)⟩
    · obtain ⟨newer, k, older, rfl, hnew, hk⟩ := ih hrest
      exact ⟨n :: newer, k, older, rfl, List.forall_mem_cons.mpr ⟨⟨hn, hlt⟩, hnew⟩, hk⟩

/-- The answers from the oldest node, if it starts after `a`. -/
theorem oldest_iff {newer : MsgLog} {k : MsgLogNode} (hr : Reaches newer k [] a) (hab : a ≤ b) (hk : a < k.first) :
    AnswersGetMsgs (newer ++ [k]) a b limit (MsgLog.batch (newer ++ [k]) a b limit) ↔
      k.first ≤ b ∧ limit ≠ some 0 ∧ Enough newer k [] a b limit := by
  have hgap : ¬ Nearer newer k a := by
    rintro ⟨hlast, -⟩
    have hmem : k.last ∈ k.timestamps := last_mem hr.valid
    have := hr.first_le hmem
    omega
  obtain ⟨ts, h₀⟩ := hr.start (.inr rfl) hgap
  have hindex : indexIn k.timestamps a false = 0 := by
    have ha : a ∉ k.timestamps := fun ha => absurd (hr.first_le ha) (not_le.mpr hk)
    rw [indexIn, if_neg (by simp [ha])]
    exact upTo_of_lt_first hr.valid hk
  rw [hindex] at h₀
  obtain ⟨r, h⟩ := hr.stop (b := b) (.inr rfl)
  exact hr.after_iff hab hk (fun _ hx => absurd hx List.not_mem_nil) h₀ h

/-- The answers from the node after the one that starts at or before `a`, if it is nearer. -/
theorem nearer_iff {newer older : MsgLog} {k j : MsgLogNode} (hr : Reaches (newer ++ [k]) j older a) (hab : a ≤ b)
    (hj : j.first ≤ a) (hgap : Nearer (newer ++ [k]) j a) :
    AnswersGetMsgs (newer ++ k :: j :: older) a b limit (MsgLog.batch (newer ++ k :: j :: older) a b limit) ↔
      k.first ≤ b ∧ limit ≠ some 0 ∧ Enough newer k (j :: older) a b limit := by
  obtain ⟨ts, h₀⟩ := hr.start_gap hgap
  obtain ⟨r, h⟩ := hr.stop (b := b) (.inl (hj.trans hab))
  have hassoc : newer ++ [k] ++ j :: older = newer ++ k :: j :: older := by rw [List.append_assoc]; rfl
  have hk := hr.newer k (by simp)
  have hr' : Reaches newer k (j :: older) a := ⟨hassoc ▸ hr.ordered, fun p hp => hr.newer p (by simp [hp]), hk.1⟩
  rw [hassoc] at h
  refine hr'.after_iff hab hk.2 ?_ h₀ h
  intro x hx
  have hlast : j.last ∈ j.timestamps := last_mem hr.valid
  obtain ⟨n, hn, hxn⟩ := mem_storedTimes.mp hx
  rcases List.mem_cons.mp hn with rfl | hn
  · exact (TimeSeries.le_last hr.valid hxn).trans_lt hgap.1
  · exact (hr.older_le (mem_storedTimes.mpr ⟨n, hn, hxn⟩) hlast).trans_lt hgap.1

/-- `GetMsgs` is answered with the first messages of the range, in the order of time, for just these requests. -/
theorem getMsgs_answers_iff (h : list.Ordered) (hab : a ≤ b) (limit : Option Nat) :
    AnswersGetMsgs list a b limit (list.batch a b limit) ↔ Answerable list a b limit := by
  constructor
  · intro hans
    refine or_iff_not_imp_left.mpr fun hne => ?_
    obtain ⟨newer, k, older, rfl, hnew, hk⟩ := exists_reached hne a
    by_cases hts : k.timestamps = []
    · refine ⟨newer, k, older, rfl, hnew, ?_⟩
      rw [if_pos hts]
      exact (empty_iff h hnew hts).mp hans
    have hr : Reaches newer k older a := ⟨h, hnew, hts⟩
    by_cases hka : k.first ≤ a
    · by_cases hgap : Nearer newer k a
      · have hlast := hgap.2
        obtain ⟨p, hp, -⟩ := hlast
        obtain ⟨newer, rfl⟩ := List.getLast?_eq_some_iff.mp hp
        have hp := hnew p (by simp)
        rw [List.append_assoc] at hans ⊢
        refine ⟨newer, p, k :: older, rfl, fun q hq => hnew q (by simp [hq]), ?_⟩
        rw [if_neg hp.1, if_neg (not_le.mpr hp.2)]
        exact ⟨.inr ⟨k, rfl, hts, hgap⟩, (nearer_iff hr hab hka hgap).mp hans⟩
      · refine ⟨newer, k, older, rfl, hnew, ?_⟩
        rw [if_neg hts, if_pos hka]
        exact (hr.within_iff hab hka hgap).mp hans
    · obtain rfl := (hk.resolve_left hts).resolve_left hka
      refine ⟨newer, k, [], rfl, hnew, ?_⟩
      rw [if_neg hts, if_neg hka]
      exact ⟨.inl rfl, (oldest_iff hr hab (not_le.mp hka)).mp hans⟩
  · rintro (rfl | ⟨newer, k, older, rfl, hnew, hcase⟩)
    · exact ⟨[], .nil, .nil, (List.prefix_nil.mp (upToLimit_isPrefix limit [])).symm⟩
    by_cases hts : k.timestamps = []
    · rw [if_pos hts] at hcase
      exact (empty_iff h hnew hts).mpr hcase
    have hr : Reaches newer k older a := ⟨h, hnew, hts⟩
    rw [if_neg hts] at hcase
    by_cases hka : k.first ≤ a
    · rw [if_pos hka] at hcase
      exact (hr.within_iff hab hka hcase.1).mpr hcase
    · rw [if_neg hka] at hcase
      obtain ⟨rfl | ⟨j, hj, hjts, hgap⟩, hcase⟩ := hcase
      · exact (oldest_iff hr hab (not_le.mp hka)).mpr hcase
      · obtain ⟨older, rfl⟩ := List.head?_eq_some_iff.mp hj
        have hassoc : newer ++ [k] ++ j :: older = newer ++ k :: j :: older := by rw [List.append_assoc]; rfl
        have hr' : Reaches (newer ++ [k]) j older a := by
          refine ⟨hassoc ▸ h, fun p hp => ?_, hjts⟩
          rcases List.mem_append.mp hp with hp | hp
          · exact hnew p hp
          · rw [List.mem_singleton.mp hp]
            exact ⟨hts, not_le.mp hka⟩
        have hlast : j.last ∈ j.timestamps := last_mem hr'.valid
        have hja := hr'.first_le hlast
        have hjl := hgap.1
        exact (nearer_iff hr' hab (by omega) hgap).mpr hcase

end

/-! ## Two nodes -/

/-- A node of messages of one byte. -/
def byteMessages (timestamps : List Int) (data : List UInt8) : MsgLogNode :=
  ⟨"0", ⟨(), MsgLogNode.fileSize + 1, timestamps⟩,
    ⟨⟨(), MsgLogNode.fileSize + 1, data.map fun byte => .inline [byte] (Nat.le_add_left 1 11)⟩,
      ⟨(), MsgLogNode.fileSize + 1, []⟩⟩⟩

theorem byteMessages_ordered :
    MsgLog.Ordered [byteMessages [9] [4], byteMessages [1, 2, 3] [1, 2, 3]] :=
  ⟨by decide, by decide, by decide⟩

/-- The last two of three messages in one node, under a newer one. -/
theorem getMsgs_answers_two :
    MsgLog.batch [byteMessages [9] [4], byteMessages [1, 2, 3] [1, 2, 3]] 2 5 none = [(2, [2]), (3, [3])] ∧
      AnswersGetMsgs [byteMessages [9] [4], byteMessages [1, 2, 3] [1, 2, 3]] 2 5 none
        (MsgLog.batch [byteMessages [9] [4], byteMessages [1, 2, 3] [1, 2, 3]] 2 5 none) := by
  have hgap : ¬ Nearer [byteMessages [9] [4]] (byteMessages [1, 2, 3] [1, 2, 3]) 2 := fun h => absurd h.1 (by decide)
  have hwithin : AnsweredWithin [byteMessages [9] [4]] (byteMessages [1, 2, 3] [1, 2, 3]) [] 2 5 none :=
    ⟨hgap, .inl ⟨by decide, .inr ⟨nofun, by decide⟩⟩⟩
  refine ⟨by decide, (getMsgs_answers_iff byteMessages_ordered (by decide) none).mpr (.inr ?_)⟩
  refine ⟨[byteMessages [9] [4]], byteMessages [1, 2, 3] [1, 2, 3], [], rfl, by decide, ?_⟩
  rw [if_neg (by decide), if_pos (by decide)]
  exact hwithin

/-- A message is sent where none is asked for. -/
theorem getMsgs_not_answered :
    ¬ ∀ (list : MsgLog) (a b : Int) (limit : Option Nat), list.Ordered → a ≤ b →
      AnswersGetMsgs list a b limit (list.batch a b limit) := by
  intro h
  obtain ⟨all, -, -, e⟩ := h _ 2 5 (some 0) byteMessages_ordered (by decide)
  have hbatch : MsgLog.batch [byteMessages [9] [4], byteMessages [1, 2, 3] [1, 2, 3]] 2 5 (some 0) = [(2, [2])] := by decide
  rw [hbatch, upToLimit_zero] at e
  cases e

end Metor.Proof.MsgLog
