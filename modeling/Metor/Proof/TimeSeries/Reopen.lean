import Mathlib
import Metor.Spec.Series

/-!
# Closing and reopening a time series

`push_buf` appends its timestamp, and adds at most one node, whose directory
is new (`pushBuf_spec`). So the nodes of a series that was written in time
order start later and later (`pushAll_inv`), and their directories are named
by these starts. `TimeSeries::open` pushes them in the order they are listed
in: it restores the series just when that is the order of their names as
numbers (`reopen_iff`).
-/

namespace Metor.Proof.TimeSeries

open Metor.Lib Metor.Impl

/-- The timestamps of a series, oldest first. -/
def timestamps (list : TimeSeries) : List Int := list.reverse.flatMap TimeSeriesNode.timestamps

theorem timestamps_cons (n : TimeSeriesNode) (list : TimeSeries) :
    timestamps (n :: list) = timestamps list ++ n.timestamps := by simp [timestamps]

/-- A node's directory and the timestamp in the header of its index. -/
def name (n : TimeSeriesNode) : String × Int := (n.path, n.index.extra)

/-! ## `push_buf` -/

theorem write_ok {E α : Type} {log log' : AppendLog E α} {width : Nat} {buf : List α}
    (h : log.write width buf = .ok log') : log' = { log with data := log.data ++ buf } := by
  simp only [AppendLog.write] at h
  split at h
  · cases h
  · cases h; rfl

theorem write_of_le {E α : Type} {log : AppendLog E α} {width : Nat} {buf : List α}
    (h : AppendLog.headerSize + log.data.length * width + buf.length * width ≤ log.mapLen) :
    log.write width buf = .ok { log with data := log.data ++ buf } := if_neg (Nat.not_lt.mpr h)

theorem write_of_lt {E α : Type} {log : AppendLog E α} {width : Nat} {buf : List α}
    (h : log.mapLen < AppendLog.headerSize + log.data.length * width + buf.length * width) :
    log.write width buf = .error .mapOverflow := if_pos h

/-- One try writes nothing, or changes only the logs of the head. -/
theorem tryPushBuf_spec {list list' : TimeSeries} {t : Int} {buf : Bytes} {res : Except Error Bool}
    (h : list.tryPushBuf t buf = (res, list')) : (res = .ok false ∧ list' = list) ∨
      (res ≠ .ok false ∧ list'.map name = list.map name ∧
        timestamps list' = timestamps list ++ if res = .ok true then [t] else []) := by
  cases list with
  | nil => cases h; exact .inl ⟨rfl, rfl⟩
  | cons head prev =>
    simp only [TimeSeries.tryPushBuf] at h
    split at h
    · cases h; exact .inl ⟨rfl, rfl⟩
    · cases h; exact .inr ⟨nofun, rfl, (List.append_nil _).symm⟩
    · next data hd =>
      split at h
      · cases h
        exact .inr ⟨nofun, rfl, by simp [timestamps_cons, TimeSeriesNode.timestamps]⟩
      · next index hx =>
        cases h
        obtain rfl := write_ok hx
        refine .inr ⟨nofun, rfl, ?_⟩
        simp [timestamps_cons, TimeSeriesNode.timestamps]

/-- The directory of a new node is not among those of the series. -/
theorem createNode_spec {list : TimeSeries} {path : String} {t : Int} {es : Nat} {node : TimeSeriesNode}
    (h : list.createNode path t es = .ok node) :
    path ∉ list.map (·.path) ∧ name node = (path, t) ∧ node.timestamps = [] := by
  simp only [TimeSeries.createNode] at h
  split at h
  · cases h
  · cases h; exact ⟨by assumption, rfl, rfl⟩

/-- `push_buf` keeps the nodes, but for one it may add, and appends its timestamp if it succeeds. -/
theorem pushBuf_spec (list : TimeSeries) (t : Int) (buf : Bytes) :
    let (res, list') := list.pushBuf t buf
    (list'.map name = list.map name ∨
      (toString t ∉ list.map (·.path) ∧ list'.map name = (toString t, t) :: list.map name)) ∧
    timestamps list' = timestamps list ++ if res = .ok () then [t] else [] := by
  fun_induction TimeSeries.pushBuf list t buf with
  | case1 list e list' h =>
    obtain ⟨h, -⟩ | ⟨-, hn, ht⟩ := tryPushBuf_spec h
    · cases h
    · exact ⟨.inl hn, ht⟩
  | case2 list list' h =>
    obtain ⟨h, -⟩ | ⟨-, hn, ht⟩ := tryPushBuf_spec h
    · cases h
    · exact ⟨.inl hn, ht⟩
  | case3 list list' h e hc => exact ⟨.inl rfl, (List.append_nil _).symm⟩
  | case4 list list' h node hc ih =>
    obtain ⟨hfresh, hname, hts⟩ := createNode_spec hc
    obtain ⟨hn, ht⟩ := ih
    rw [timestamps_cons, hts, List.append_nil] at ht
    refine ⟨.inr ⟨hfresh, ?_⟩, ht⟩
    -- The second round finds the directory it has just created.
    rcases hn with hn | ⟨hn, -⟩
    · rw [hn, List.map_cons, hname]
    · have : node.path = toString t := congrArg Prod.fst hname
      simp [this] at hn

theorem pushBuf_of_try {list list' : TimeSeries} {t : Int} {buf : Bytes} (h : list.tryPushBuf t buf = (.ok true, list')) :
    list.pushBuf t buf = (.ok (), list') := by
  rw [TimeSeries.pushBuf, h]

/-- The node a push creates, with its one sample. -/
def firstNode (t : Int) (buf : Bytes) : TimeSeriesNode :=
  ⟨toString t, ⟨t, TimeSeriesNode.nodeSize + 1, [t]⟩, ⟨buf.length, TimeSeriesNode.nodeSize + 1, buf⟩⟩

/-- A push that the head has no room for starts a new node. -/
theorem pushBuf_new {list : TimeSeries} {t : Int} {buf : Bytes} (h : list.tryPushBuf t buf = (.ok false, list))
    (hf : toString t ∉ list.map (·.path)) (hb : AppendLog.headerSize + buf.length ≤ TimeSeriesNode.nodeSize + 1) :
    list.pushBuf t buf = (.ok (), firstNode t buf :: list) := by
  have hc : list.createNode (toString t) t buf.length = .ok (.new (toString t) t buf.length) := if_neg hf
  have hw : TimeSeries.tryPushBuf (.new (toString t) t buf.length :: list) t buf =
      (.ok true, firstNode t buf :: list) := by
    have hd : (TimeSeriesNode.new (toString t) t buf.length).data.write 1 buf =
        .ok ⟨buf.length, TimeSeriesNode.nodeSize + 1, buf⟩ := write_of_le (by
      simp only [TimeSeriesNode.new, AppendLog.withSize, List.length_nil]; omega)
    have hx : (TimeSeriesNode.new (toString t) t buf.length).index.write 8 [t] =
        .ok ⟨t, TimeSeriesNode.nodeSize + 1, [t]⟩ :=
      write_of_le (show AppendLog.headerSize + 0 * 8 + 1 * 8 ≤ TimeSeriesNode.nodeSize + 1 by decide)
    simp only [TimeSeries.tryPushBuf, hd, hx]
    rfl
  rw [TimeSeries.pushBuf, h]
  simp only
  split
  · next e he => rw [hc] at he; cases he
  · next node he =>
    rw [hc] at he
    cases he
    exact pushBuf_of_try hw

/-! ## A series written in time order -/

/-- The series after a sequence of `push_buf` calls, whatever they return. -/
def pushAll (list : TimeSeries) (pushes : List (Int × Bytes)) : TimeSeries :=
  pushes.foldl (fun list p => (list.pushBuf p.1 p.2).2) list

/-- The directories are named by the nodes' starts, which are distinct and grow, up to `now`. -/
structure Chron (list : TimeSeries) (now : Int) : Prop where
  path : ∀ n ∈ list.map name, n.1 = toString n.2
  start : (list.map name).Pairwise fun new old => old.2 < new.2
  le : ∀ n ∈ list.map name, n.2 ≤ now

theorem pushBuf_chron {list : TimeSeries} {now t : Int} (hl : Chron list now) (ht : now ≤ t) (buf : Bytes) :
    Chron (list.pushBuf t buf).2 t := by
  have hle : ∀ n ∈ list.map name, n.2 ≤ t := fun n hn => (hl.le n hn).trans ht
  obtain ⟨h | ⟨hfresh, h⟩, -⟩ := pushBuf_spec list t buf
  · exact ⟨h ▸ hl.path, h ▸ hl.start, h ▸ hle⟩
  have hlt : ∀ n ∈ list.map name, n.2 < t := fun n hn => by
    refine (hle n hn).lt_of_ne fun e => hfresh ?_
    rw [← e, ← hl.path n hn]
    obtain ⟨m, hm, rfl⟩ := List.mem_map.mp hn
    exact List.mem_map_of_mem hm
  refine ⟨h ▸ List.forall_mem_cons.mpr ⟨rfl, hl.path⟩, h ▸ List.pairwise_cons.mpr ⟨hlt, hl.start⟩,
    h ▸ List.forall_mem_cons.mpr ⟨Int.le_refl t, hle⟩⟩

theorem pushAll_chron {pushes : List (Int × Bytes)} {list : TimeSeries} {now : Int} (hl : Chron list now)
    (hnow : ∀ p ∈ pushes, now ≤ p.1) (hp : (pushes.map Prod.fst).Pairwise (· ≤ ·)) :
    ∃ now', Chron (pushAll list pushes) now' := by
  induction pushes generalizing list now with
  | nil => exact ⟨now, hl⟩
  | cons p pushes ih =>
    rw [List.map_cons, List.pairwise_cons] at hp
    refine ih (pushBuf_chron hl (hnow p List.mem_cons_self) p.2) (fun q hq => ?_) hp.2
    exact hp.1 _ (List.mem_map_of_mem hq)

theorem pushAll_nil_chron {pushes : List (Int × Bytes)} (hp : (pushes.map Prod.fst).Pairwise (· ≤ ·)) :
    ∃ now, Chron (pushAll [] pushes) now := by
  cases pushes with
  | nil => exact ⟨0, nofun, .nil, nofun⟩
  | cons p pushes =>
    have hempty : Chron [] p.1 := ⟨nofun, .nil, nofun⟩
    refine pushAll_chron hempty (List.forall_mem_cons.mpr ⟨Int.le_refl _, fun q hq => ?_⟩) hp
    rw [List.map_cons, List.pairwise_cons] at hp
    exact hp.1 _ (List.mem_map_of_mem hq)

/-! ## Opening -/

theorem open_eq_reverse (entries : List TimeSeriesNode) : TimeSeries.open entries = entries.reverse := by
  have (entries acc : List TimeSeriesNode) :
      entries.foldl (fun list node => node :: list) acc = entries.reverse ++ acc := by
    induction entries generalizing acc with
    | nil => rfl
    | cons n entries ih => rw [List.foldl_cons, ih, List.reverse_cons, List.append_assoc]; rfl
  rw [TimeSeries.open, this, List.append_nil]

/-- What a reopened series `s'` owes to the series `s` that was closed. -/
structure Reopened (s s' : TimeSeries) : Prop where
  list : s' = s
  latest : s'.latest = s.latest
  start : s'.startTimestamp = s.startTimestamp
  range : ∀ a b, s'.getRange a b = s.getRange a b
  nearest : ∀ t inclusive, s'.binarySearchNearest t inclusive = s.binarySearchNearest t inclusive
  /-- A further sample comes after all those of `s`. -/
  push : ∀ t buf s'', s'.pushBuf t buf = (.ok (), s'') → timestamps s'' = timestamps s ++ [t]

/-- The listing is in the order of the directories' names as numbers. -/
def Ascending (entries : List TimeSeriesNode) : Prop :=
  ∃ ts : List Int, ts.Pairwise (· < ·) ∧ entries.map (·.path) = ts.map toString

/-- The nodes of a series written in time order, listed in any order: opening
them restores the series just when they are listed oldest first. -/
theorem reopen_iff {pushes : List (Int × Bytes)} (hp : (pushes.map Prod.fst).Pairwise (· ≤ ·))
    {entries : List TimeSeriesNode} (he : entries.Perm (pushAll [] pushes)) :
    Reopened (pushAll [] pushes) (TimeSeries.open entries) ↔ Ascending entries := by
  obtain ⟨now, hl⟩ := pushAll_nil_chron hp
  generalize pushAll [] pushes = list at he hl
  have hpath : ∀ n ∈ list, n.path = toString n.index.extra := fun n hn => hl.path _ (List.mem_map_of_mem hn)
  have hstart : list.reverse.Pairwise fun old new => old.index.extra < new.index.extra :=
    List.pairwise_reverse.mpr (List.pairwise_map.mp hl.start)
  rw [open_eq_reverse]
  constructor
  · intro h
    have hrev : entries = list.reverse := by rw [← h.list, List.reverse_reverse]
    refine ⟨entries.map (·.index.extra), ?_, ?_⟩
    · rw [hrev]; exact List.pairwise_map.mpr hstart
    · rw [List.map_map]
      exact List.map_congr_left fun n hn => hpath n (he.mem_iff.mp hn)
  · rintro ⟨ts, hts, hnames⟩
    have hextra : entries.map (·.index.extra) = ts := by
      refine (List.map_injective_iff.mpr fun a b h => Int.repr_injective h : (List.map (toString (α := Int))).Injective) ?_
      rw [← hnames, List.map_map]
      exact List.map_congr_left fun n hn => (hpath n (he.mem_iff.mp hn)).symm
    have hasc : entries.Pairwise fun old new => old.index.extra < new.index.extra := by
      rw [← List.pairwise_map (f := fun n : TimeSeriesNode => n.index.extra), hextra]; exact hts
    have hrev : entries = list.reverse := by
      refine List.Perm.eq_of_pairwise (fun a b _ _ h₁ h₂ => absurd h₁ (Int.not_lt.mpr (Int.le_of_lt h₂))) hasc hstart ?_
      exact he.trans (List.reverse_perm list).symm
    rw [hrev, List.reverse_reverse]
    refine ⟨rfl, rfl, rfl, fun _ _ => rfl, fun _ _ => rfl, fun t buf s'' h => ?_⟩
    have := (pushBuf_spec list t buf).2
    rw [h] at this
    exact this

/-- A buffer that fills the data log of a node. -/
def Fills (buf : Bytes) : Prop := AppendLog.headerSize + buf.length = TimeSeriesNode.nodeSize + 1

theorem exists_fills : ∃ buf, Fills buf :=
  ⟨List.replicate (TimeSeriesNode.nodeSize + 1 - AppendLog.headerSize) 0, by
    rw [Fills, List.length_replicate, Nat.add_sub_cancel' (by decide)]⟩

/-- After a buffer that fills the first node, the next one starts a second. -/
theorem pushAll_two_nodes {buf : Bytes} (h : Fills buf) :
    pushAll [] [(1, buf), (2, [9])] = [firstNode 2 [9], firstNode 1 buf] := by
  have h₁ : TimeSeries.pushBuf [] 1 buf = (.ok (), [firstNode 1 buf]) :=
    pushBuf_new rfl List.not_mem_nil (Nat.le_of_eq h)
  have hw : (firstNode 1 buf).data.write 1 [9] = .error .mapOverflow :=
    write_of_lt (by simp only [Fills] at h; simp only [firstNode, List.length_singleton]; omega)
  have h₂ : TimeSeries.pushBuf [firstNode 1 buf] 2 [9] = (.ok (), [firstNode 2 [9], firstNode 1 buf]) := by
    refine pushBuf_new ?_ ?_ (by decide)
    · simp only [TimeSeries.tryPushBuf, hw]
    · simp only [List.map_cons, List.map_nil, firstNode]
      decide
  simp only [pushAll, List.foldl_cons, List.foldl_nil, h₁, h₂]

/-- Two nodes listed oldest first. -/
theorem reopen_two_nodes : ∃ buf, Fills buf ∧ Reopened (pushAll [] [(1, buf), (2, [9])])
    (TimeSeries.open [firstNode 1 buf, firstNode 2 [9]]) := by
  obtain ⟨buf, hbuf⟩ := exists_fills
  refine ⟨buf, hbuf, (reopen_iff (by simp) ?_).mpr ⟨[1, 2], by decide, rfl⟩⟩
  rw [pushAll_two_nodes hbuf]
  exact List.Perm.swap _ _ _

/-- The same two nodes, listed newest first: the series comes back upside down. -/
theorem listed_newest_first_not_reopened : ¬ ∀ (pushes : List (Int × Bytes)) (entries : List TimeSeriesNode),
    (pushes.map Prod.fst).Pairwise (· ≤ ·) → entries.Perm (pushAll [] pushes) →
    Reopened (pushAll [] pushes) (TimeSeries.open entries) := by
  intro h
  obtain ⟨buf, hbuf⟩ := exists_fills
  have := (h [(1, buf), (2, [9])] _ (by simp) (List.Perm.refl _)).list
  rw [pushAll_two_nodes hbuf, open_eq_reverse] at this
  have := congrArg (List.map fun n : TimeSeriesNode => n.index.extra) this
  revert this
  simp [firstNode]

end Metor.Proof.TimeSeries
