import Metor.Proof.TimeSeries.Range
import Metor.Proof.TimeSeries.Reopen

/-!
# Pushing samples of a fixed size

A node's two logs have room for as many bytes, the index in records of 8. Only
a full data log starts a new node. So with elements of at least 8 bytes the
index always has room for what the data log had room for (`pushBuf_push`), and
with smaller ones it is the index that fills first: the push that overflows it
fails, and leaves its element in the data (`pushBuf_stranded`, `pushed_iff`).
-/

namespace Metor.Proof.TimeSeries

open Metor.Lib Metor.Impl

/-! ## What a push should do -/

/-- The samples of a series, oldest first. -/
def pushedSamples (list : TimeSeries) : List (Int × Bytes) := list.reverse.flatMap TimeSeriesNode.samples

/-- One element of `e` bytes for each timestamp. -/
def EachAligned (e : Nat) (list : TimeSeries) : Prop := ∀ n ∈ list, n.data.data.length = n.timestamps.length * e

/-- After `done` was pushed, each further push succeeds, keeps the nodes aligned and adds its sample; if one fails,
it leaves the series as it was. -/
def Pushed (e : Nat) : TimeSeries → (done pushes : List (Int × Bytes)) → Prop
  | _, _, [] => True
  | list, done, (t, buf) :: pushes =>
    let (res, list') := list.pushBuf t buf
    res = .ok () ∧ (res ≠ .ok () → list' = list) ∧ EachAligned e list' ∧ pushedSamples list' = done ++ [(t, buf)] ∧
      Pushed e list' (done ++ [(t, buf)]) pushes

/-- Elements of `e` bytes, with increasing timestamps. -/
structure Elements (e : Nat) (pushes : List (Int × Bytes)) : Prop where
  pos : 1 ≤ e
  /-- A node has room for one element. -/
  fits : AppendLog.headerSize + e ≤ TimeSeriesNode.nodeSize + 1
  size : ∀ p ∈ pushes, p.2.length = e
  increasing : (pushes.map Prod.fst).Pairwise (· < ·)

/-- The timestamps that the index of a node has room for. -/
def indexRoom : Nat := (TimeSeriesNode.nodeSize + 1 - AppendLog.headerSize) / 8

theorem indexRoom_pos : 0 < indexRoom := by
  simp only [indexRoom, TimeSeriesNode.nodeSize, AppendLog.headerSize]
  omega

/-! ## Samples -/

theorem elements_append {e n : Nat} {data buf : Bytes} (hd : data.length = n * e) (hb : buf.length = e) :
    elements e (n + 1) (data ++ buf) = elements e n data ++ [buf] := by
  rw [elements, List.range_succ, List.map_append, List.map_singleton]
  refine congrArg₂ _ (List.map_congr_left fun i hi => ?_) ?_
  · have hi := List.mem_range.mp hi
    have : (i + 1) * e ≤ data.length := by rw [hd]; exact Nat.mul_le_mul_right _ hi
    rw [slice, slice, List.take_append_of_le_length this]
  · rw [slice, ← hd, List.take_of_length_le (by rw [List.length_append, hb, hd, Nat.add_mul]; omega), List.drop_left]

theorem samplesOf_append {e : Nat} {ts : List Int} {data buf : Bytes} (hd : data.length = ts.length * e)
    (hb : buf.length = e) (t : Int) : samplesOf e (ts ++ [t]) (data ++ buf) = samplesOf e ts data ++ [(t, buf)] := by
  rw [samplesOf, List.length_append, List.length_singleton, elements_append hd hb,
    List.zip_append (by rw [length_elements]), samplesOf]
  rfl

/-! ## One push -/

/-- A node that is fed elements of `e` bytes. -/
structure Filling (e : Nat) (n : TimeSeriesNode) : Prop where
  elementSize : n.elementSize = e
  aligned : n.data.data.length = n.timestamps.length * e
  indexLen : n.index.mapLen = TimeSeriesNode.nodeSize + 1
  dataLen : n.data.mapLen = TimeSeriesNode.nodeSize + 1

/-- A series after `done` was pushed. -/
structure Holding (e : Nat) (list : TimeSeries) (done : List (Int × Bytes)) : Prop where
  node : ∀ n ∈ list, Filling e n
  samples : pushedSamples list = done
  chron : ∀ t, (∀ p ∈ done, p.1 < t) → ∃ now < t, Chron list now

section
variable {e : Nat} {list : TimeSeries} {done : List (Int × Bytes)} {t : Int} {buf : Bytes}

theorem pushedSamples_cons (n : TimeSeriesNode) (list : TimeSeries) :
    pushedSamples (n :: list) = pushedSamples list ++ n.samples := by simp [pushedSamples]

theorem holding_nil (e : Nat) : Holding e [] [] :=
  ⟨nofun, rfl, fun t _ => ⟨t - 1, by omega, fun _ h => (List.not_mem_nil h).elim, .nil, fun _ h => (List.not_mem_nil h).elim⟩⟩

theorem head_count (h : Holding e list done) : ∀ n ∈ list.head?, n.timestamps.length ≤ done.length := by
  intro n hn
  obtain ⟨prev, rfl⟩ := List.head?_eq_some_iff.mp hn
  rw [← h.samples, pushedSamples_cons, List.length_append, length_samples]
  exact Nat.le_add_left _ _

theorem fresh_of_chron {now : Int} (h : Chron list now) (ht : now < t) : toString t ∉ list.map (·.path) := by
  intro hm
  obtain ⟨n, hn, e⟩ := List.mem_map.mp hm
  have hpath := h.path _ (List.mem_map_of_mem (f := name) hn)
  have hle := h.le _ (List.mem_map_of_mem (f := name) hn)
  have : t = n.index.extra := Int.repr_injective (e.symm.trans hpath)
  have : n.index.extra ≤ now := hle
  omega

/-- The series after a push that adds its sample. -/
theorem holding_push (h : Holding e list done) (ht : ∀ p ∈ done, p.1 < t) {list' : TimeSeries}
    (hpush : list.pushBuf t buf = (.ok (), list')) (hnode : ∀ n ∈ list', Filling e n)
    (hsamples : pushedSamples list' = pushedSamples list ++ [(t, buf)]) : Holding e list' (done ++ [(t, buf)]) := by
  refine ⟨hnode, by rw [hsamples, h.samples], fun u hu => ?_⟩
  obtain ⟨now, hnow, hchron⟩ := h.chron t ht
  have hchron' := pushBuf_chron hchron hnow.le buf
  rw [hpush] at hchron'
  exact ⟨t, hu (t, buf) (by simp), hchron'⟩

/-- A push that the head has no room for. -/
theorem pushBuf_rollover (h : Holding e list done) (ht : ∀ p ∈ done, p.1 < t) (hb : buf.length = e)
    (hfits : AppendLog.headerSize + e ≤ TimeSeriesNode.nodeSize + 1)
    (htry : list.tryPushBuf t buf = (.ok false, list)) :
    list.pushBuf t buf = (.ok (), firstNode t buf :: list) ∧ Holding e (firstNode t buf :: list) (done ++ [(t, buf)]) := by
  obtain ⟨now, hnow, hchron⟩ := h.chron t ht
  have hpush := pushBuf_new htry (fresh_of_chron hchron hnow) (by rw [hb]; exact hfits)
  refine ⟨hpush, holding_push h ht hpush (List.forall_mem_cons.mpr ⟨⟨hb, ?_, rfl, rfl⟩, h.node⟩) ?_⟩
  · show buf.length = 1 * e
    rw [hb, Nat.one_mul]
  · rw [pushedSamples_cons]
    have := @samplesOf_append buf.length [] [] buf (Nat.zero_mul _).symm rfl t
    exact congrArg _ this

/-- The head after a push that it has room for. -/
def pushHead (head : TimeSeriesNode) (t : Int) (buf : Bytes) : TimeSeriesNode :=
  { head with
    index := { head.index with data := head.index.data ++ [t] }
    data := { head.data with data := head.data.data ++ buf } }

/-- A push that both logs of the head have room for. -/
theorem pushBuf_within {head : TimeSeriesNode} {prev : TimeSeries} (h : Holding e (head :: prev) done)
    (ht : ∀ p ∈ done, p.1 < t) (hb : buf.length = e)
    (hdata : AppendLog.headerSize + head.data.data.length * 1 + buf.length * 1 ≤ head.data.mapLen)
    (hindex : AppendLog.headerSize + head.timestamps.length * 8 + 1 * 8 ≤ head.index.mapLen) :
    TimeSeries.pushBuf (head :: prev) t buf = (.ok (), pushHead head t buf :: prev) ∧
      Holding e (pushHead head t buf :: prev) (done ++ [(t, buf)]) := by
  have hhead := h.node head List.mem_cons_self
  have htry : TimeSeries.tryPushBuf (head :: prev) t buf = (.ok true, pushHead head t buf :: prev) := by
    have hx : head.index.write 8 [t] = .ok { head.index with data := head.index.data ++ [t] } := write_of_le hindex
    simp only [TimeSeries.tryPushBuf, write_of_le hdata, hx]
    rfl
  have hpush := pushBuf_of_try htry
  refine ⟨hpush, holding_push h ht hpush (List.forall_mem_cons.mpr ⟨⟨hhead.elementSize, ?_, hhead.indexLen, hhead.dataLen⟩,
    fun n hn => h.node n (List.mem_cons_of_mem _ hn)⟩) ?_⟩
  · show (head.data.data ++ buf).length = (head.timestamps ++ [t]).length * e
    rw [List.length_append, List.length_append, hhead.aligned, hb, List.length_singleton, Nat.add_mul, Nat.one_mul]
  · have := samplesOf_append (hhead.elementSize ▸ hhead.aligned) (hhead.elementSize ▸ hb) t
    rw [pushedSamples_cons, pushedSamples_cons, List.append_assoc]
    exact congrArg _ this

/-- A push succeeds if the index has room wherever the data has. -/
theorem pushBuf_push (h : Holding e list done) (ht : ∀ p ∈ done, p.1 < t) (hb : buf.length = e)
    (hfits : AppendLog.headerSize + e ≤ TimeSeriesNode.nodeSize + 1)
    (hroom : ∀ n ∈ list.head?, 8 ≤ e ∨ n.timestamps.length < indexRoom) :
    ∃ list', list.pushBuf t buf = (.ok (), list') ∧ Holding e list' (done ++ [(t, buf)]) := by
  cases list with
  | nil => exact ⟨_, pushBuf_rollover h ht hb hfits rfl⟩
  | cons head prev =>
    have hhead := h.node head List.mem_cons_self
    have hdl := hhead.dataLen
    have hxl := hhead.indexLen
    have hal := hhead.aligned
    by_cases hdata : AppendLog.headerSize + head.data.data.length * 1 + buf.length * 1 ≤ head.data.mapLen
    · refine ⟨_, pushBuf_within h ht hb hdata ?_⟩
      rcases hroom head rfl with he | hlt
      · have := Nat.mul_le_mul_left head.timestamps.length he
        omega
      · rw [indexRoom] at hlt
        omega
    · refine ⟨_, pushBuf_rollover h ht hb hfits ?_⟩
      simp only [TimeSeries.tryPushBuf, write_of_lt (Nat.lt_of_not_le hdata)]

/-- With small elements, the push that overflows the index fails. -/
theorem pushBuf_stranded {head : TimeSeriesNode} (prev : TimeSeries) (t : Int) (hhead : Filling e head) (he : e < 8)
    (hb : buf.length = e) (hfull : head.timestamps.length = indexRoom) :
    (TimeSeries.pushBuf (head :: prev) t buf).1 = .error .mapOverflow := by
  have hdl := hhead.dataLen
  have hxl := hhead.indexLen
  have hal := hhead.aligned
  have hmul := Nat.mul_le_mul_left head.timestamps.length (Nat.le_of_lt_succ he)
  have hroom : indexRoom = (TimeSeriesNode.nodeSize + 1 - AppendLog.headerSize) / 8 := rfl
  have hd : head.data.write 1 buf = .ok { head.data with data := head.data.data ++ buf } := write_of_le (by
    simp only [TimeSeriesNode.nodeSize, AppendLog.headerSize] at *
    omega)
  have hx : head.index.write 8 [t] = .error .mapOverflow := write_of_lt (by
    show head.index.mapLen < AppendLog.headerSize + head.timestamps.length * 8 + 1 * 8
    omega)
  rw [TimeSeries.pushBuf]
  simp only [TimeSeries.tryPushBuf, hd, hx]

/-- With small elements, a first node that the index has room in takes the push. -/
theorem pushBuf_small (h : Holding e list done) (hone : list.length ≤ 1) (ht : ∀ p ∈ done, p.1 < t) (he : e < 8)
    (hb : buf.length = e) (hlt : done.length < indexRoom) :
    ∃ list', list'.length ≤ 1 ∧ list.pushBuf t buf = (.ok (), list') ∧ Holding e list' (done ++ [(t, buf)]) := by
  have hroom : indexRoom = (TimeSeriesNode.nodeSize + 1 - AppendLog.headerSize) / 8 := rfl
  cases list with
  | nil =>
    have hfits : AppendLog.headerSize + e ≤ TimeSeriesNode.nodeSize + 1 := by
      simp only [TimeSeriesNode.nodeSize, AppendLog.headerSize]
      omega
    exact ⟨[firstNode t buf], le_rfl, pushBuf_rollover h ht hb hfits rfl⟩
  | cons head prev =>
    have hhead := h.node head List.mem_cons_self
    have hdl := hhead.dataLen
    have hxl := hhead.indexLen
    have hal := hhead.aligned
    have hcount := head_count h head rfl
    have hmul := Nat.mul_le_mul_left head.timestamps.length (Nat.le_of_lt_succ he)
    refine ⟨pushHead head t buf :: prev, hone, pushBuf_within h ht hb ?_ (by omega)⟩
    simp only [TimeSeriesNode.nodeSize, AppendLog.headerSize] at *
    omega

/-! ## Any number of pushes -/

theorem eachAligned (h : Holding e list done) : EachAligned e list := fun n hn => (h.node n hn).aligned

/-- What was pushed is older than what comes next. -/
theorem Elements.older {p : Int × Bytes} {pushes : List (Int × Bytes)} (h : Elements e (done ++ p :: pushes)) :
    ∀ q ∈ done, q.1 < p.1 := by
  have hp := List.pairwise_append.mp (List.pairwise_map.mp h.increasing)
  exact fun q hq => hp.2.2 q hq p List.mem_cons_self

theorem Elements.cons_length {p : Int × Bytes} {pushes : List (Int × Bytes)} (h : Elements e (done ++ p :: pushes)) :
    p.2.length = e := h.size p (List.mem_append_right _ List.mem_cons_self)

/-- While the index has room, or if the data fills first, every push succeeds. -/
theorem pushed_of_room {pushes : List (Int × Bytes)} (h : Holding e list done) (helem : Elements e (done ++ pushes))
    (hroom : 8 ≤ e ∨ (done ++ pushes).length ≤ indexRoom) : Pushed e list done pushes := by
  induction pushes generalizing list done with
  | nil => exact trivial
  | cons p pushes ih =>
    obtain ⟨t, buf⟩ := p
    have hassoc := List.append_cons done (t, buf) pushes
    have hhead : ∀ n ∈ list.head?, 8 ≤ e ∨ n.timestamps.length < indexRoom := fun n hn => by
      have := head_count h n hn
      rw [List.length_append, List.length_cons] at hroom
      omega
    obtain ⟨list', hpush, hlist'⟩ := pushBuf_push h helem.older helem.cons_length helem.fits hhead
    show (list.pushBuf t buf).1 = .ok () ∧ _
    rw [hpush]
    refine ⟨rfl, fun hne => (hne rfl).elim, eachAligned hlist', hlist'.samples, ?_⟩
    exact ih hlist' (hassoc ▸ helem) (hassoc ▸ hroom)

/-- With small elements, some push fails once the index is full. -/
theorem not_pushed_of_full {pushes : List (Int × Bytes)} (h : Holding e list done) (hone : list.length ≤ 1)
    (helem : Elements e (done ++ pushes)) (he : e < 8) (hle : done.length ≤ indexRoom)
    (hfull : indexRoom < (done ++ pushes).length) : ¬Pushed e list done pushes := by
  induction pushes generalizing list done with
  | nil =>
    rw [List.append_nil] at hfull
    omega
  | cons p pushes ih =>
    obtain ⟨t, buf⟩ := p
    have hassoc := List.append_cons done (t, buf) pushes
    intro hpushed
    rcases Nat.lt_or_eq_of_le hle with hlt | heq
    · obtain ⟨list', hone', hpush, hlist'⟩ := pushBuf_small h hone helem.older he helem.cons_length hlt
      have hlen : (done ++ [(t, buf)]).length ≤ indexRoom := by simpa using hlt
      refine ih hlist' hone' (hassoc ▸ helem) hlen (hassoc ▸ hfull) ?_
      obtain ⟨-, -, -, -, hrest⟩ := hpushed
      rwa [hpush] at hrest
    · obtain ⟨head, rfl⟩ : ∃ head, list = [head] := by
        rcases list with _ | ⟨head, _ | ⟨n, list⟩⟩
        · have : done = [] := h.samples.symm
          rw [this, List.length_nil] at heq
          exact absurd heq.symm indexRoom_pos.ne'
        · exact ⟨head, rfl⟩
        · simp at hone
      have hcount : head.timestamps.length = indexRoom := by
        have := congrArg List.length h.samples
        rw [pushedSamples_cons, List.length_append, length_samples] at this
        exact heq ▸ (Nat.zero_add _).symm.trans this
      have hbad := pushBuf_stranded [] t (h.node head List.mem_cons_self) he helem.cons_length hcount
      exact absurd (hbad.symm.trans hpushed.1) (by decide)

end

/-- More small elements than the index has room for. -/
theorem not_pushed {e : Nat} {pushes : List (Int × Bytes)} (h : Elements e pushes) (he : e < 8)
    (hfull : indexRoom < pushes.length) : ¬Pushed e [] [] pushes :=
  not_pushed_of_full (holding_nil e) (Nat.zero_le _) h he (Nat.zero_le _) hfull

/-- From an empty series, pushes of elements of `e` bytes all succeed, and keep the series aligned and complete,
exactly if the data fills before the index, or the pushes fit one index. -/
theorem pushed_iff {e : Nat} {pushes : List (Int × Bytes)} (h : Elements e pushes) :
    Pushed e [] [] pushes ↔ 8 ≤ e ∨ pushes.length ≤ indexRoom := by
  refine ⟨fun hp => ?_, pushed_of_room (holding_nil e) h⟩
  by_contra hn
  push Not at hn
  exact not_pushed h hn.1 hn.2 hp

theorem pushed_two_eights :
    Pushed 8 [] [] [(1, [1, 2, 3, 4, 5, 6, 7, 8]), (2, [9, 9, 9, 9, 9, 9, 9, 9])] :=
  (pushed_iff (e := 8) ⟨by decide, by decide, by decide, by decide⟩).mpr (.inl le_rfl)

/-- One byte at each of the times 0, 1, 2 and so on. -/
def bytePushes (count : Nat) : List (Int × Bytes) := (List.range count).map fun i => (Int.ofNat i, [0])

theorem bytePushes_elements (count : Nat) : Elements 1 (bytePushes count) := by
  refine ⟨by decide, by decide, fun p hp => ?_, ?_⟩
  · obtain ⟨i, -, rfl⟩ := List.mem_map.mp hp
    rfl
  · rw [bytePushes, List.map_map, List.pairwise_map]
    exact List.pairwise_lt_range.imp fun hlt => Int.ofNat_lt.mpr hlt

theorem length_bytePushes (count : Nat) : (bytePushes count).length = count := by
  rw [bytePushes, List.length_map, List.length_range]

theorem byte_pushes_not_pushed :
    ¬∀ (e : Nat) (pushes : List (Int × Bytes)), Elements e pushes → Pushed e [] [] pushes := fun h => by
  obtain ⟨pushes, helem, hfull⟩ : ∃ pushes, Elements 1 pushes ∧ indexRoom < pushes.length := by
    refine ⟨bytePushes (indexRoom + 1), bytePushes_elements _, ?_⟩
    rw [length_bytePushes]
    exact Nat.lt_add_one indexRoom
  exact not_pushed helem (by decide) hfull (h 1 pushes helem)

end Metor.Proof.TimeSeries
