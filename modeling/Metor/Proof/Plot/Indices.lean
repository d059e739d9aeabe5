import Mathlib.Tactic.Ring
import Metor.Proof.Plot.Shards

/-!
# The indices of a line

A chunk of `n` samples writes at most `5 + n / step` indices, and the step is
such that all of them have room where six for each chunk have
(`count_le`). Then no write is dropped (`foldl_writeChunk`), so the
count is that of what is written.
-/

namespace Metor.Proof.Plot

open Metor.Lib Metor.Impl.Plot

variable {t : LineTree} {start stop : Int} {pixelWidth step : Nat}

/-! ## Steps -/

theorem mem_of_mem_stepBy {α : Type} {l : List α} {x : α} (h : x ∈ stepBy step l) : x ∈ l := by
  obtain ⟨i, -, hx⟩ := List.mem_filterMap.mp h
  exact List.mem_of_getElem? hx

theorem length_stepBy_le {α : Type} (step : Nat) (l : List α) : (stepBy step l).length ≤ (l.length + step - 1) / step := by
  have hle := List.length_filterMap_le (fun i => l[i * step]?) (List.range ((l.length + step - 1) / step))
  rwa [List.length_range] at hle

theorem filterMap_range_getElem? {α : Type} (l : List α) : (List.range l.length).filterMap (fun i => l[i]?) = l := by
  induction l with
  | nil => rfl
  | cons x l ih =>
    rw [List.length_cons, List.range_succ_eq_map, List.filterMap_cons, List.filterMap_map]
    exact congrArg (x :: ·) ih

theorem stepBy_one {α : Type} (l : List α) : stepBy 1 l = l := by
  simpa [stepBy] using filterMap_range_getElem? l

/-! ## A chunk -/

/-- The indices that a chunk writes. -/
def indicesOf (step : Nat) (chunk : IndexChunk) : List Nat :=
  0 :: (chunk.intoIndexIter.head?.toList ++ stepBy step chunk.intoIndexIter.tail ++ chunk.intoIndexIter.getLast?.toList) ++ [0]

theorem mem_indicesOf {chunk : IndexChunk} {index : Nat} (h : index ∈ indicesOf step chunk) :
    index = 0 ∨ index ∈ chunk.intoIndexIter := by
  obtain hwritten | hlast := List.mem_append.mp h
  · obtain rfl | hwritten := List.mem_cons.mp hwritten
    · exact .inl rfl
    · right
      obtain hwritten | hend := List.mem_append.mp hwritten
      · obtain hhead | htail := List.mem_append.mp hwritten
        · exact List.mem_of_mem_head? (Option.mem_toList.mp hhead)
        · exact List.mem_of_mem_tail (mem_of_mem_stepBy htail)
      · exact List.mem_of_mem_getLast? (Option.mem_toList.mp hend)
  · exact .inl (List.mem_singleton.mp hlast)

/-- A step takes few of the samples of a chunk. -/
theorem step_mul_length_le (hstep : 1 ≤ step) (chunk : IndexChunk) :
    step * (indicesOf step chunk).length ≤ 5 * step + chunk.intoIndexIter.length := by
  have htail : ∀ l : List Nat, step * (stepBy step l).length ≤ l.length + step - 1 := fun l =>
    Nat.le_trans (Nat.mul_le_mul_left step (length_stepBy_le step l)) (Nat.mul_div_le _ _)
  rw [indicesOf]
  cases hindices : chunk.intoIndexIter with
  | nil =>
    have hnil : (stepBy step ([] : List Nat)).length = 0 := by
      have hle := htail []
      by_contra hne
      have hmul := Nat.mul_le_mul_left step (Nat.one_le_iff_ne_zero.mpr hne)
      rw [List.length_nil] at hle
      omega
    simp only [List.head?_nil, List.tail_nil, List.getLast?_nil, Option.toList_none, List.nil_append, List.append_nil,
      List.length_append, List.length_cons, List.length_nil, hnil]
    omega
  | cons x l =>
    have hle := htail l
    simp only [List.head?_cons, List.tail_cons, List.getLast?_cons, Option.toList_some, List.length_append, List.length_cons,
      List.length_nil, Nat.mul_add]
    omega

theorem appendU32_of_lt {view : List Nat} {val : Nat} (h : view.length < indexBufferLen) : appendU32 view val = view ++ [val] :=
  if_pos h

theorem foldl_appendU32 {view l : List Nat} (h : view.length + l.length ≤ indexBufferLen) :
    l.foldl appendU32 view = view ++ l := by
  induction l generalizing view with
  | nil => exact (List.append_nil view).symm
  | cons val l ih =>
    have hcons : (val :: l).length = l.length + 1 := List.length_cons
    have hsnoc : (view ++ [val]).length = view.length + 1 := List.length_append
    rw [List.foldl_cons, appendU32_of_lt (by omega), ih (by omega), List.append_assoc]
    rfl

/-- A chunk for which there is room writes its indices. -/
theorem writeChunk_eq {view : List Nat} {chunk : IndexChunk}
    (h : view.length + (indicesOf step chunk).length ≤ indexBufferLen) :
    LineTree.writeChunk step (view, view.length) chunk =
      (view ++ indicesOf step chunk, (view ++ indicesOf step chunk).length) := by
  rw [indicesOf] at h ⊢
  rw [LineTree.writeChunk]
  generalize chunk.intoIndexIter.head?.toList ++ stepBy step chunk.intoIndexIter.tail ++ chunk.intoIndexIter.getLast?.toList =
    written at h ⊢
  have hlen : (0 :: written ++ [0]).length = written.length + 2 := by simp
  have hzero : (view ++ [0]).length = view.length + 1 := List.length_append
  have hwritten : (view ++ [0] ++ written).length = view.length + 1 + written.length := by
    rw [List.length_append, hzero]
  show (appendU32 (written.foldl appendU32 (appendU32 view 0)) 0, view.length + written.length + 2) = _
  rw [appendU32_of_lt (show view.length < indexBufferLen by omega),
    foldl_appendU32 (show (view ++ [0]).length + written.length ≤ indexBufferLen by omega),
    appendU32_of_lt (show (view ++ [0] ++ written).length < indexBufferLen by omega), List.length_append, hlen]
  simp [Nat.add_assoc]

theorem foldl_writeChunk {view : List Nat} {chunks : List IndexChunk}
    (h : view.length + (chunks.flatMap (indicesOf step)).length ≤ indexBufferLen) :
    chunks.foldl (LineTree.writeChunk step) (view, view.length) =
      (view ++ chunks.flatMap (indicesOf step), (view ++ chunks.flatMap (indicesOf step)).length) := by
  induction chunks generalizing view with
  | nil => simp
  | cons chunk chunks ih =>
    rw [List.flatMap_cons, List.length_append] at h
    rw [List.foldl_cons, writeChunk_eq (by omega), ih (by rw [List.length_append]; omega), List.flatMap_cons, List.append_assoc]

/-! ## All chunks -/

/-- All chunks write no more than there is room for, if a step is large enough for their samples. -/
theorem length_indices_le {chunks : List IndexChunk} {room : Nat} (hstep : 1 ≤ step)
    (hroom : (LineTree.drawIndexCount chunks).2 ≤ step * room) :
    (chunks.flatMap (indicesOf step)).length ≤ 6 * chunks.length + room := by
  have hsum : step * (chunks.flatMap (indicesOf step)).length ≤
      5 * step * chunks.length + (LineTree.drawIndexCount chunks).2 := by
    clear hroom
    induction chunks with
    | nil => simp
    | cons chunk chunks ih =>
      have hchunk := step_mul_length_le hstep chunk
      simp only [LineTree.drawIndexCount, List.map_cons, List.sum_cons, List.length_cons, List.flatMap_cons, List.length_append,
        Nat.mul_add] at ih ⊢
      omega
  have hmul : step * (chunks.flatMap (indicesOf step)).length ≤ step * (6 * chunks.length + room) := by
    calc step * (chunks.flatMap (indicesOf step)).length
        ≤ 5 * step * chunks.length + step * room := by omega
      _ = step * (5 * chunks.length + room) := by ring
      _ ≤ step * (6 * chunks.length + room) := Nat.mul_le_mul_left step (by omega)
  exact Nat.le_of_mul_le_mul_left hmul hstep

/-- What a chunk that is drawn is. -/
theorem drawIndexChunkIter_eq (h : start ≤ stop) :
    t.drawIndexChunkIter start stop = some ((t.overlapping ⟨start, stop⟩).filterMap fun e =>
      (t.shard .data e).map (·.asIndexChunk e.2.summary.len)) := by
  have hrange : Interval.ii start stop = some ⟨start, stop⟩ := if_pos h
  rw [LineTree.drawIndexChunkIter, hrange]
  refine congrArg some (congrArg (List.filterMap · (t.overlapping ⟨start, stop⟩)) (funext fun e => ?_))
  rw [LineTree.shard, LineTree.buffer]
  cases t.arcs[e.2.arcs]? with
  | none => rfl
  | some b =>
    show (b.data.gpu >>= fun gpu => pure (gpu.asIndexChunk e.2.summary.len)) = b.data.gpu.map _
    cases b.data.gpu <;> rfl

theorem length_drawn (t : LineTree) (start stop : Int) :
    ((t.overlapping ⟨start, stop⟩).filterMap fun e => (t.shard .data e).map (·.asIndexChunk e.2.summary.len)).length =
      t.loadedCount start stop := by
  rw [List.length_filterMap_eq_countP, List.countP_eq_length_filter, LineTree.loadedCount]
  refine congrArg (fun p => (List.filter p (t.overlapping ⟨start, stop⟩)).length) (funext fun e => ?_)
  cases t.shard .data e <;> rfl

/-- The indices of a shard are those of its samples. -/
theorem mem_intoIndexIter {i len index : Nat} (hi : i ≤ chunkCount)
    (h : index ∈ ((LineTree.shardAt i).asIndexChunk len).intoIndexIter) :
    ∃ j, j < len ∧ j < chunkLen ∧ index = (LineTree.shardAt i).start / 4 + j := by
  have hchunk : chunkLen = 3072 := rfl
  have hcount : chunkCount = 16384 := rfl
  have hstart : (LineTree.shardAt i).start / 4 = i * chunkLen := by
    show i * (4 * chunkLen) / 4 = _
    rw [hchunk]
    omega
  have hstop : (LineTree.shardAt i).stop / 4 = i * chunkLen + chunkLen := by
    show (i + 1) * (4 * chunkLen) / 4 = _
    rw [hchunk]
    omega
  have hindices : ((LineTree.shardAt i).asIndexChunk len).intoIndexIter = (List.range' (i * chunkLen) chunkLen).take len := by
    rw [IndexChunk.intoIndexIter, BufferShard.asIndexChunk, hstart, hstop, Nat.mod_eq_of_lt (by rw [hchunk]; omega),
      Nat.mod_eq_of_lt (by rw [hchunk]; omega), Nat.add_sub_cancel_left]
  rw [hindices] at h
  obtain ⟨j, hj, rfl⟩ := List.mem_iff_getElem.mp h
  have hlt : j < min len chunkLen := by simpa using hj
  refine ⟨j, by omega, by omega, ?_⟩
  rw [List.getElem_take, List.getElem_range', hstart, Nat.one_mul]

/-- Without room for six for each chunk, the step is a division by zero or less. -/
theorem writeToIndexBuffer_none {chunks : List IndexChunk} (hchunks : t.drawIndexChunkIter start stop = some chunks)
    (hroom : min indexBufferLen (pixelWidth * 4 % 2 ^ 64) ≤ 6 * chunks.length) :
    t.writeToIndexBuffer start stop pixelWidth = none := by
  rw [LineTree.writeToIndexBuffer, hchunks]
  show (if min indexBufferLen (pixelWidth * 4 % 2 ^ 64) ≤ 6 * chunks.length ∨ _ = 0 then none else _) = none
  rw [if_pos (.inl hroom)]

/-- With room for six for each chunk, all indices are written. -/
theorem writeToIndexBuffer_eq {chunks : List IndexChunk} (hchunks : t.drawIndexChunkIter start stop = some chunks)
    (hroom : 6 * chunks.length < min indexBufferLen (pixelWidth * 4 % 2 ^ 64)) :
    ∃ step, t.writeToIndexBuffer start stop pixelWidth =
        some (chunks.flatMap (indicesOf step), (chunks.flatMap (indicesOf step)).length) ∧
      (chunks.flatMap (indicesOf step)).length ≤ indexBufferLen := by
  generalize hdesired : min indexBufferLen (pixelWidth * 4 % 2 ^ 64) = desired at hroom
  have hcap : desired ≤ indexBufferLen := hdesired ▸ Nat.min_le_left _ _
  have hdesired' : min indexBufferLen (pixelWidth * 4 % 2 ^ 64) = desired := hdesired
  have hpos : 0 < desired - 6 * chunks.length := by omega
  let step := max (((LineTree.drawIndexCount chunks).2 + (desired - 6 * chunks.length) - 1) / (desired - 6 * chunks.length)) 1
  have hstep : 1 ≤ step := Nat.le_max_right _ _
  have henough : (LineTree.drawIndexCount chunks).2 ≤ step * (desired - 6 * chunks.length) := by
    have hdiv := Nat.lt_div_mul_add (a := (LineTree.drawIndexCount chunks).2 + (desired - 6 * chunks.length) - 1) hpos
    have hmul := Nat.mul_le_mul_right (desired - 6 * chunks.length) (Nat.le_max_left
      (((LineTree.drawIndexCount chunks).2 + (desired - 6 * chunks.length) - 1) / (desired - 6 * chunks.length)) 1)
    show _ ≤ max _ 1 * _
    omega
  have hchunkStep : max ((chunks.length * 6 + desired - 1) / desired) 1 = 1 := by
    refine Nat.max_eq_right ((Nat.div_lt_iff_lt_mul (by omega)).mpr ?_ |> Nat.le_of_lt_succ)
    omega
  have hlen := length_indices_le hstep henough
  refine ⟨step, ?_, by omega⟩
  have hne : ¬ (desired ≤ 6 * chunks.length ∨ desired = 0) := by omega
  have hwrite : chunks.foldl (LineTree.writeChunk step) ([], 0) =
      (chunks.flatMap (indicesOf step), (chunks.flatMap (indicesOf step)).length) :=
    @foldl_writeChunk step [] chunks (by rw [List.length_nil]; omega)
  rw [LineTree.writeToIndexBuffer, hchunks]
  show (if min indexBufferLen (pixelWidth * 4 % 2 ^ 64) ≤ 6 * chunks.length ∨ _ = 0 then none else _) = _
  rw [hdesired', if_neg hne]
  show some ((stepBy (max ((chunks.length * 6 + desired - 1) / desired) 1) chunks).foldl (LineTree.writeChunk step) ([], 0)) = _
  rw [hchunkStep, stepBy_one]
  exact congrArg some hwrite

/-- Indices are written, all of them counted and those of samples in view,
exactly where there is room for what each chunk needs. -/
theorem write_to_index_buffer_iff (h : Reachable t) (start stop : Int) (pixelWidth : Nat) :
    t.WritesIndices start stop pixelWidth ↔ t.HasRoom start stop pixelWidth := by
  constructor
  · rintro ⟨written, hwritten, -, -⟩
    obtain ⟨chunks, hchunks, -⟩ := Option.bind_eq_some_iff.mp hwritten
    obtain ⟨range, hrange, -⟩ := Option.bind_eq_some_iff.mp hchunks
    have hle := (ii_eq_some hrange).2
    refine ⟨hle, ?_⟩
    rw [← length_drawn]
    by_contra hroom
    rw [writeToIndexBuffer_none (drawIndexChunkIter_eq hle) (Nat.le_of_not_lt hroom)] at hwritten
    cases hwritten
  · rintro ⟨hle, hroom⟩
    rw [← length_drawn] at hroom
    obtain ⟨step, hwritten, hlen⟩ := writeToIndexBuffer_eq (drawIndexChunkIter_eq hle) hroom
    refine ⟨_, hwritten, hlen, fun index hindex => ?_⟩
    obtain ⟨chunk, hchunk, hindex⟩ := List.mem_flatMap.mp hindex
    obtain rfl | hindex := mem_indicesOf hindex
    · exact .inl rfl
    · right
      obtain ⟨e, he, hchunk⟩ := List.mem_filterMap.mp hchunk
      obtain ⟨shard, hshard, rfl⟩ := Option.map_eq_some_iff.mp hchunk
      obtain ⟨_, -, i, rfl, -, hi, -⟩ := shardAt_of_mem (inv_of_reachable h) hshard
      obtain ⟨j, hj, hj', rfl⟩ := mem_intoIndexIter hi hindex
      exact ⟨e, he, _, hshard, j, hj, hj', rfl⟩

/-- A chunk that is loaded -/
theorem loaded_writes_indices : ∃ t : LineTree, t.loadedCount 0 9 = 1 ∧ t.WritesIndices 0 9 800 := by
  obtain ⟨t, s, hrun, htree, -, hshard⟩ := exists_loaded (show (0 : Int) ≤ 9 by decide)
  have hcount : t.loadedCount 0 9 = 1 := by
    rw [LineTree.loadedCount, overlapping_single (by decide) htree]
    simp [hshard]
  refine ⟨t, hcount, (write_to_index_buffer_iff (reachable_of_spared hrun) 0 9 800).mpr ⟨by decide, ?_⟩⟩
  rw [hcount]
  decide

/-- A line that is no pixel wide divides by zero. -/
theorem no_width_writes_nothing : ¬ ∀ t, Reachable t → ∀ start stop, start ≤ stop → ∀ pixelWidth,
    t.WritesIndices start stop pixelWidth := by
  intro h
  obtain ⟨written, hwritten, -⟩ := h .default .refl 0 0 (Int.le_refl 0) 0
  have hnone : LineTree.default.writeToIndexBuffer 0 0 0 = none := by decide
  rw [hnone] at hwritten
  cases hwritten

end Metor.Proof.Plot
