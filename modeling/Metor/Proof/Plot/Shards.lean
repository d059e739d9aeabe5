import Metor.Spec.Plot

/-!
# Shards

`Owns` is the invariant of an allocator and the buffers that take shards from
it: held shards are not free, and no two buffers hold the same one. Loading and
collecting a buffer keep it (`owns_queueLoad`, `owns_release`), so it holds in
every tree (`inv_of_reachable`): no two chunks share a shard (`unshared`), and
that of the NaN is kept (`nanKept`).
-/

namespace Metor.Proof.Plot

open Metor.Lib Metor.Impl.Plot

/-! ## An allocator -/

/-- The invariant of an allocator and the buffers with shards from it. -/
structure Owns (alloc : Option BufferShardAlloc) (buffers : List SharedBuffer) : Prop where
  size : ∀ a ∈ alloc, a.chunkSize = 4 * chunkLen
  free : ∀ a ∈ alloc, ∀ i ∈ a.freeMap, 1 ≤ i ∧ i ≤ chunkCount
  held : ∀ b ∈ buffers, ∀ s ∈ b.gpu, ∃ a ∈ alloc, ∃ i, s = LineTree.shardAt i ∧ 1 ≤ i ∧ i ≤ chunkCount ∧ i ∉ a.freeMap
  distinct : ∀ (j k : Nat) (b c : SharedBuffer), buffers[j]? = some b → buffers[k]? = some c → ∀ s ∈ b.gpu, s ∈ c.gpu → j = k
  dirty : ∀ b ∈ buffers, b.gpu = none → b.gpuDirty = true
  all : ∀ a ∈ alloc, ∀ i, 1 ≤ i → i ≤ chunkCount → i ∈ a.freeMap ∨ ∃ b ∈ buffers, LineTree.shardAt i ∈ b.gpu

variable {alloc : Option BufferShardAlloc} {a a' : BufferShardAlloc} {buffers : List SharedBuffer} {b b' : SharedBuffer}
  {k i j : Nat} {s : BufferShard}

theorem shardAt_inj (h : LineTree.shardAt i = LineTree.shardAt j) : i = j := by
  have hstart : i * (4 * chunkLen) = j * (4 * chunkLen) := congrArg BufferShard.start h
  exact Nat.eq_of_mul_eq_mul_right (by decide) hstart

theorem alloc_eq_some (h : a.alloc = some (s, a')) :
    ∃ i ∈ a.freeMap, s = ⟨i * a.chunkSize, (i + 1) * a.chunkSize⟩ ∧ a' = { a with freeMap := a.freeMap.erase i } := by
  rw [BufferShardAlloc.alloc] at h
  split at h
  · obtain ⟨hs, ha⟩ := Prod.mk.inj (Option.some.inj h)
    exact ⟨_, Finset.min'_mem _ _, hs.symm, ha.symm⟩
  · cases h

theorem withNanChunk_eq (chunks len : Nat) :
    BufferShardAlloc.withNanChunk chunks len = some ⟨4 * len, (Finset.range (chunks + 1)).erase 0⟩ := by
  have hmin : ∀ h : (Finset.range (chunks + 1)).Nonempty, (Finset.range (chunks + 1)).min' h = 0 := fun h =>
    Nat.le_zero.mp (Finset.min'_le _ _ (Finset.mem_range.mpr (Nat.succ_pos _)))
  rw [BufferShardAlloc.withNanChunk, BufferShardAlloc.alloc]
  have hne : (BufferShardAlloc.new (chunks + 1) len).freeMap.Nonempty := Finset.nonempty_range_iff.mpr (Nat.succ_ne_zero _)
  rw [dif_pos hne]
  simp only [BufferShardAlloc.new, hmin, Option.map_some]

theorem dealloc_shardAt (hsize : a.chunkSize = 4 * chunkLen) (hi : i ≤ chunkCount) :
    a.dealloc (LineTree.shardAt i) = { a with freeMap := insert i a.freeMap } := by
  have hindex : i * (4 * chunkLen) / a.chunkSize % 2 ^ 32 = i := by
    rw [hsize, Nat.mul_div_cancel _ (by decide)]
    exact Nat.mod_eq_of_lt (Nat.lt_of_le_of_lt hi (by decide))
  rw [BufferShardAlloc.dealloc, LineTree.shardAt, hindex]

theorem mem_of_set {α : Type} {l : List α} {x y : α} (h : x ∈ l.set k y) : x ∈ l ∨ x = y :=
  List.mem_or_eq_of_mem_set h

theorem getElem?_set_cases {α : Type} {l : List α} {x y : α} (h : (l.set k x)[j]? = some y) :
    j = k ∧ y = x ∨ j ≠ k ∧ l[j]? = some y := by
  by_cases hj : k = j
  · subst hj
    have hlt : k < l.length := by simpa using (List.getElem?_eq_some_iff.mp h).1
    rw [List.getElem?_set_self hlt] at h
    exact .inl ⟨rfl, (Option.some.inj h).symm⟩
  · rw [List.getElem?_set_ne hj] at h
    exact .inr ⟨fun hjk => hj hjk.symm, h⟩

/-! ## Buffers -/

theorem owns_append (h : Owns alloc buffers) : Owns alloc (buffers ++ [.default]) where
  size := h.size
  free := h.free
  held b hb s hs := by
    obtain hb | hb := List.mem_append.mp hb
    · exact h.held b hb s hs
    · rw [List.mem_singleton.mp hb] at hs
      cases hs
  distinct j k b c hb hc s hs hs' := by
    have hget : ∀ (j : Nat) (b : SharedBuffer), (buffers ++ [.default])[j]? = some b → s ∈ b.gpu → buffers[j]? = some b := by
      intro j b hb hs
      by_cases hj : j < buffers.length
      · rwa [List.getElem?_append_left hj] at hb
      · rw [List.getElem?_append_right (Nat.le_of_not_lt hj)] at hb
        rw [List.mem_singleton.mp (List.mem_of_getElem? hb)] at hs
        cases hs
    exact h.distinct j k b c (hget j b hb hs) (hget k c hc hs') s hs hs'
  dirty b hb hgpu := by
    obtain hb | hb := List.mem_append.mp hb
    · exact h.dirty b hb hgpu
    · rw [List.mem_singleton.mp hb]
      rfl
  all a ha i hi hi' := by
    obtain hfree | ⟨b, hb, hs⟩ := h.all a ha i hi hi'
    · exact .inl hfree
    · exact .inr ⟨b, List.mem_append_left _ hb, hs⟩

theorem owns_withNanChunk (h : Owns none buffers) (ha : BufferShardAlloc.withNanChunk chunkCount chunkLen = some a) :
    Owns (some a) buffers := by
  rw [withNanChunk_eq] at ha
  obtain rfl := Option.some.inj ha
  have hnone : ∀ b ∈ buffers, ∀ s, s ∉ b.gpu := fun b hb s hs => by
    obtain ⟨a, ha, -⟩ := h.held b hb s hs
    cases ha
  refine ⟨fun a ha => ?_, fun a ha i hi => ?_, fun b hb s hs => absurd hs (hnone b hb s), fun j k b c hb _ s hs _ =>
    absurd hs (hnone b (List.mem_of_getElem? hb) s), h.dirty, fun a ha i hi hi' => .inl ?_⟩
  · obtain rfl := Option.some.inj ha
    rfl
  · obtain rfl := Option.some.inj ha
    obtain ⟨hne, hlt⟩ := Finset.mem_erase.mp hi
    exact ⟨Nat.pos_of_ne_zero hne, Nat.le_of_lt_succ (Finset.mem_range.mp hlt)⟩
  · obtain rfl := Option.some.inj ha
    exact Finset.mem_erase.mpr ⟨Nat.ne_of_gt hi, Finset.mem_range.mpr (Nat.lt_succ_of_le hi')⟩

/-- A shard that is held stays so, unless it is that of the buffer that is set. -/
theorem exists_mem_set (hb : buffers[k]? = some b) (h : ∃ c ∈ buffers, s ∈ c.gpu) :
    s ∈ b.gpu ∨ ∃ c ∈ buffers.set k b', s ∈ c.gpu := by
  obtain ⟨c, hc, hs⟩ := h
  obtain ⟨l, hl⟩ := List.mem_iff_getElem?.mp hc
  by_cases hlk : k = l
  · subst hlk
    obtain rfl := Option.some.inj (hb.symm.trans hl)
    exact .inl hs
  · exact .inr ⟨c, List.mem_of_getElem? (by rw [List.getElem?_set_ne hlk]; exact hl), hs⟩

theorem mem_set_self (hb : buffers[k]? = some b) : b' ∈ buffers.set k b' :=
  List.mem_set (List.getElem?_eq_some_iff.mp hb).1 b'

/-- A buffer that gets no other shard. -/
theorem owns_set (h : Owns alloc buffers) (hb : buffers[k]? = some b) (hgpu : b'.gpu = b.gpu)
    (hdirty : b'.gpu = none → b'.gpuDirty = true) : Owns alloc (buffers.set k b') where
  size := h.size
  free := h.free
  held c hc s hs := by
    obtain hc | rfl := mem_of_set hc
    · exact h.held c hc s hs
    · rw [hgpu] at hs
      exact h.held b (List.mem_of_getElem? hb) s hs
  distinct j l c d hc hd s hs hs' := by
    have hget : ∀ (j : Nat) (c : SharedBuffer), (buffers.set k b')[j]? = some c → s ∈ c.gpu →
        ∃ c', buffers[j]? = some c' ∧ s ∈ c'.gpu := by
      intro j c hc hs
      obtain ⟨rfl, rfl⟩ | ⟨-, hc'⟩ := getElem?_set_cases hc
      · exact ⟨b, hb, hgpu ▸ hs⟩
      · exact ⟨c, hc', hs⟩
    obtain ⟨c', hc', hs⟩ := hget j c hc hs
    obtain ⟨d', hd', hs'⟩ := hget l d hd hs'
    exact h.distinct j l c' d' hc' hd' s hs hs'
  dirty c hc hnone := by
    obtain hc | rfl := mem_of_set hc
    · exact h.dirty c hc hnone
    · exact hdirty hnone
  all a ha i hi hi' := by
    obtain hfree | hheld := h.all a ha i hi hi'
    · exact .inl hfree
    · obtain hs | hs := @exists_mem_set _ _ b' _ _ hb hheld
      · exact .inr ⟨b', mem_set_self hb, hgpu ▸ hs⟩
      · exact .inr hs

/-- A buffer takes the shard that it gets. -/
theorem owns_alloc (h : Owns (some a) buffers) (hb : buffers[k]? = some b) (hnone : b.gpu = none) (ha : a.alloc = some (s, a')) :
    Owns (some a') (buffers.set k ⟨some s, false⟩) := by
  obtain ⟨i, hi, rfl, rfl⟩ := alloc_eq_some ha
  have hsize := h.size a rfl
  have hrange := h.free a rfl i hi
  have hshard : (⟨i * a.chunkSize, (i + 1) * a.chunkSize⟩ : BufferShard) = LineTree.shardAt i := by
    rw [hsize]
    rfl
  have hother : ∀ c ∈ buffers, LineTree.shardAt i ∉ c.gpu := fun c hc hs => by
    obtain ⟨a', ha', j, hj, -, -, hnot⟩ := h.held c hc _ hs
    obtain rfl := Option.some.inj ha'
    obtain rfl := shardAt_inj hj
    exact hnot hi
  rw [hshard]
  refine ⟨fun a' ha' => ?_, fun a' ha' j hj => ?_, fun c hc s hs => ?_, fun j l c d hc hd s hs hs' => ?_, fun c hc hnone => ?_,
    fun a' ha' j hj hj' => ?_⟩
  · obtain rfl := Option.some.inj ha'
    exact hsize
  · obtain rfl := Option.some.inj ha'
    exact h.free a rfl j (Finset.mem_of_mem_erase hj)
  · obtain hc | rfl := mem_of_set hc
    · obtain ⟨a', ha', j, rfl, hj, hj', hnot⟩ := h.held c hc s hs
      obtain rfl := Option.some.inj ha'
      exact ⟨_, rfl, j, rfl, hj, hj', fun hmem => hnot (Finset.mem_of_mem_erase hmem)⟩
    · obtain rfl := Option.some.inj hs
      exact ⟨_, rfl, i, rfl, hrange.1, hrange.2, Finset.notMem_erase i a.freeMap⟩
  · obtain ⟨hj, hc'⟩ | ⟨-, hc'⟩ := getElem?_set_cases hc
    · obtain ⟨hl, -⟩ | ⟨-, hd'⟩ := getElem?_set_cases hd
      · exact hj.trans hl.symm
      · rw [hc'] at hs
        obtain rfl := Option.some.inj hs
        exact absurd hs' (hother d (List.mem_of_getElem? hd'))
    · obtain ⟨-, hd'⟩ | ⟨-, hd'⟩ := getElem?_set_cases hd
      · rw [hd'] at hs'
        obtain rfl := Option.some.inj hs'
        exact absurd hs (hother c (List.mem_of_getElem? hc'))
      · exact h.distinct j l c d hc' hd' s hs hs'
  · obtain hc | rfl := mem_of_set hc
    · exact h.dirty c hc hnone
    · cases hnone
  · obtain rfl := Option.some.inj ha'
    obtain hfree | hheld := h.all a rfl j hj hj'
    · by_cases hij : j = i
      · subst hij
        exact .inr ⟨_, mem_set_self hb, rfl⟩
      · exact .inl (Finset.mem_erase.mpr ⟨hij, hfree⟩)
    · obtain hs | hs := exists_mem_set hb hheld
      · rw [hnone] at hs
        cases hs
      · exact .inr hs

theorem owns_queueLoad (h : Owns (some a) buffers) (hb : buffers[k]? = some b) :
    Owns (some (b.queueLoad a).2) (buffers.set k (b.queueLoad a).1) := by
  rw [SharedBuffer.queueLoad]
  split
  · exact owns_set h hb rfl (h.dirty b (List.mem_of_getElem? hb))
  · split
    · rename_i s hgpu
      refine owns_set h hb rfl fun hnone => ?_
      rw [hgpu] at hnone
      cases hnone
    · split
      · exact owns_set h hb rfl (h.dirty b (List.mem_of_getElem? hb))
      · exact owns_alloc h hb ‹_› ‹_›

/-- A buffer gives its shard back. -/
theorem owns_dealloc (h : Owns (some a) buffers) (hb : buffers[k]? = some b) (hs : s ∈ b.gpu) :
    Owns (some (a.dealloc s)) (buffers.set k ⟨none, true⟩) := by
  obtain ⟨a', ha', i, rfl, hi, hi', -⟩ := h.held b (List.mem_of_getElem? hb) s hs
  obtain rfl := Option.some.inj ha'
  have hsize := h.size a rfl
  rw [dealloc_shardAt hsize hi']
  refine ⟨fun a' ha' => ?_, fun a' ha' j hj => ?_, fun c hc t ht => ?_, fun j l c d hc hd t ht ht' => ?_, fun c hc hnone => ?_,
    fun a' ha' j hj hj' => ?_⟩
  · obtain rfl := Option.some.inj ha'
    exact hsize
  · obtain rfl := Option.some.inj ha'
    obtain rfl | hj := Finset.mem_insert.mp hj
    · exact ⟨hi, hi'⟩
    · exact h.free a rfl j hj
  · obtain ⟨l, hl⟩ := List.mem_iff_getElem?.mp hc
    obtain ⟨-, rfl⟩ | ⟨hl', hc'⟩ := getElem?_set_cases hl
    · cases ht
    · obtain ⟨a', ha', j, rfl, hj, hj', hnot⟩ := h.held c (List.mem_of_getElem? hc') t ht
      obtain rfl := Option.some.inj ha'
      refine ⟨_, rfl, j, rfl, hj, hj', fun hmem => ?_⟩
      obtain rfl | hmem := Finset.mem_insert.mp hmem
      · exact hl' (h.distinct l k c b hc' hb _ ht hs)
      · exact hnot hmem
  · obtain ⟨-, rfl⟩ | ⟨-, hc'⟩ := getElem?_set_cases hc
    · cases ht
    · obtain ⟨-, rfl⟩ | ⟨-, hd'⟩ := getElem?_set_cases hd
      · cases ht'
      · exact h.distinct j l c d hc' hd' t ht ht'
  · obtain hc | rfl := mem_of_set hc
    · exact h.dirty c hc hnone
    · rfl
  · obtain rfl := Option.some.inj ha'
    obtain hfree | hheld := h.all a rfl j hj hj'
    · exact .inl (Finset.mem_insert_of_mem hfree)
    · obtain hs' | hs' := exists_mem_set hb hheld
      · obtain rfl := shardAt_inj (Option.some.inj (hs'.symm.trans hs))
        exact .inl (Finset.mem_insert_self _ _)
      · exact .inr hs'

/-- A buffer that is collected gives its shard back, if it has one. -/
theorem release_cases (b : SharedBuffer) (alloc : Option BufferShardAlloc) :
    (∃ a s, alloc = some a ∧ b.gpu = some s ∧ b.release alloc = (⟨none, true⟩, some (a.dealloc s))) ∨
      (alloc = none ∨ b.gpu = none) ∧ b.release alloc = (b, alloc) := by
  obtain ⟨gpu, dirty⟩ := b
  cases alloc with
  | none => exact .inr ⟨.inl rfl, rfl⟩
  | some a =>
    cases gpu with
    | none => exact .inr ⟨.inr rfl, rfl⟩
    | some s => exact .inl ⟨a, s, rfl, rfl, rfl⟩

theorem owns_release (h : Owns alloc buffers) (hb : buffers[k]? = some b) :
    Owns (b.release alloc).2 (buffers.set k (b.release alloc).1) := by
  obtain ⟨a, s, rfl, hs, heq⟩ | ⟨-, heq⟩ := release_cases b alloc
  · rw [heq]
    exact owns_dealloc h hb hs
  · rw [heq]
    exact owns_set h hb rfl (h.dirty b (List.mem_of_getElem? hb))

/-! ## Trees -/

/-- What holds in every tree. -/
structure Inv (t : LineTree) : Prop where
  bound : ∀ e ∈ t.tree, e.2.arcs < t.arcs.length
  owns : ∀ which, Owns (t.alloc which) (t.arcs.map (·.buffer which))

variable {t t' : LineTree} {act : Act}

theorem map_buffer_set {arcs : List Arcs} {b : Arcs} (which : Which) :
    (arcs.set k b).map (·.buffer which) = (arcs.map (·.buffer which)).set k (b.buffer which) :=
  List.map_set

theorem getElem?_map_buffer {arcs : List Arcs} {b : Arcs} (h : arcs[k]? = some b) (which : Which) :
    (arcs.map (·.buffer which))[k]? = some (b.buffer which) := by
  rw [List.getElem?_map, h]
  rfl

/-- What is left of entries are parts of those that are not covered. -/
theorem mem_insertOverwrite {tree : List (Interval × Chunk)} {range : Interval} {c : Chunk} {e : Interval × Chunk}
    (h : e ∈ LineTree.insertOverwrite tree range c) :
    e = (range, c) ∨ ∃ e' ∈ tree, ¬ LineTree.Covered range e' ∧ e'.2 = e.2 := by
  rw [LineTree.insertOverwrite, List.mem_append, List.mem_cons, List.mem_flatMap, List.mem_flatMap] at h
  obtain ⟨e', he', h⟩ | rfl | ⟨e', he', h⟩ := h
  · rw [LineTree.before] at h
    split at h
    · rename_i hstart
      rw [List.mem_singleton.mp h]
      exact .inr ⟨e', he', fun hcovered => absurd hcovered.1 (Int.not_le.mpr hstart), rfl⟩
    · cases h
  · exact .inl rfl
  · rw [LineTree.after] at h
    split at h
    · rename_i hstop
      rw [List.mem_singleton.mp h]
      exact .inr ⟨e', he', fun hcovered => absurd hcovered.2 (Int.not_le.mpr hstop), rfl⟩
    · cases h

theorem inv_default : Inv .default where
  bound e he := by cases he
  owns which := by
    cases which <;> exact ⟨by simp [LineTree.alloc, LineTree.default], by simp [LineTree.alloc, LineTree.default],
      by simp [LineTree.default], by simp [LineTree.default], by simp [LineTree.default],
      by simp [LineTree.alloc, LineTree.default]⟩

theorem inv_insert (h : Inv t) {c : Chunk} (hc : c.arcs < t.arcs.length) (ht : t.insert c = some t') : Inv t' := by
  obtain ⟨range, -, ht⟩ := Option.bind_eq_some_iff.mp ht
  obtain rfl := Option.some.inj ht
  refine ⟨fun e he => ?_, h.owns⟩
  obtain rfl | ⟨e', he', -, heq⟩ := mem_insertOverwrite he
  · exact hc
  · exact heq ▸ h.bound e' he'

theorem inv_fromIter (h : Inv t) {timestamps : List Int} {values : List F32} {c : Chunk}
    (ht : t.fromIter timestamps values = some (t', c)) :
    Inv t' ∧ c.arcs < t'.arcs.length := by
  obtain ⟨first, -, ht⟩ := Option.bind_eq_some_iff.mp ht
  obtain ⟨last, -, ht⟩ := Option.bind_eq_some_iff.mp ht
  obtain ⟨rfl, rfl⟩ := Prod.mk.inj (Option.some.inj ht)
  have hlt : t.arcs.length < (t.arcs ++ [(⟨.default, .default⟩ : Arcs)]).length := by simp
  refine ⟨⟨fun e he => Nat.lt_trans (h.bound e he) hlt, fun which => ?_⟩, hlt⟩
  have hmap : (t.arcs ++ [(⟨.default, .default⟩ : Arcs)]).map (·.buffer which) =
      t.arcs.map (·.buffer which) ++ [.default] := by
    rw [List.map_append]
    cases which <;> rfl
  show Owns (t.alloc which) ((t.arcs ++ [(⟨.default, .default⟩ : Arcs)]).map (·.buffer which))
  rw [hmap]
  exact owns_append (h.owns which)

theorem inv_updateLast (h : Inv t) {timestamp : Int} {value : F32} (ht : t.updateLast timestamp value = some t') : Inv t' := by
  rw [LineTree.updateLast] at ht
  split at ht
  · obtain rfl := Option.some.inj ht
    exact h
  · rename_i range last hlast
    obtain ⟨b, hb, ht⟩ := Option.bind_eq_some_iff.mp ht
    refine inv_insert ⟨fun e he => ?_, fun which => ?_⟩ ?_ ht
    · rw [List.length_set]
      exact h.bound e (List.mem_of_mem_dropLast he)
    · show Owns (t.alloc which) ((t.arcs.set last.arcs (LineTree.push timestamp value last b).2).map (·.buffer which))
      rw [map_buffer_set]
      refine owns_set (h.owns which) (getElem?_map_buffer hb which) ?_ fun _ => ?_ <;> cases which <;> rfl
    · rw [List.length_set]
      exact (List.getElem?_eq_some_iff.mp hb).1

/-- The allocator of a buffer, as entries are loaded -/
def loadAlloc (s : List Arcs × BufferShardAlloc × BufferShardAlloc) : Which → BufferShardAlloc
  | .timestampsFloat => s.2.2
  | .data => s.2.1

/-- What loading an entry does to one of its buffers. -/
theorem queueLoad_eq {l : List Arcs × BufferShardAlloc × BufferShardAlloc} {e : Interval × Chunk} {b : Arcs}
    (hb : l.1[e.2.arcs]? = some b) :
    ∃ b', (LineTree.queueLoad l e).1 = l.1.set e.2.arcs b' ∧
      ∀ which, b'.buffer which = ((b.buffer which).queueLoad (loadAlloc l which)).1 ∧
        loadAlloc (LineTree.queueLoad l e) which = ((b.buffer which).queueLoad (loadAlloc l which)).2 := by
  rw [LineTree.queueLoad, hb]
  exact ⟨_, rfl, fun which => by cases which <;> exact ⟨rfl, rfl⟩⟩

theorem owns_loads (entries : List (Interval × Chunk)) (l : List Arcs × BufferShardAlloc × BufferShardAlloc) (which : Which)
    (h : Owns (some (loadAlloc l which)) (l.1.map (·.buffer which))) :
    Owns (some (loadAlloc (entries.foldl LineTree.queueLoad l) which))
      ((entries.foldl LineTree.queueLoad l).1.map (·.buffer which)) := by
  induction entries generalizing l with
  | nil => exact h
  | cons e entries ih =>
    apply ih
    cases hb : l.1[e.2.arcs]? with
    | none =>
      rw [LineTree.queueLoad, hb]
      exact h
    | some b =>
      obtain ⟨b', harcs, heq⟩ := queueLoad_eq hb
      rw [harcs, map_buffer_set, (heq which).1, (heq which).2]
      exact owns_queueLoad h (getElem?_map_buffer hb which)

theorem length_loads (entries : List (Interval × Chunk)) (l : List Arcs × BufferShardAlloc × BufferShardAlloc) :
    (entries.foldl LineTree.queueLoad l).1.length = l.1.length := by
  induction entries generalizing l with
  | nil => rfl
  | cons e entries ih =>
    rw [List.foldl_cons, ih]
    cases hb : l.1[e.2.arcs]? with
    | none => rw [LineTree.queueLoad, hb]
    | some b =>
      obtain ⟨b', harcs, -⟩ := queueLoad_eq hb
      rw [harcs, List.length_set]

/-- The allocators are those of the tree, or new ones. -/
theorem queueLoadRange_eq {start stop : Int} (ht : t.queueLoadRange start stop = some t') :
    ∃ range l, Interval.ii start stop = some range ∧ l.1 = t.arcs ∧
      (∀ which, some (loadAlloc l which) = (t.alloc which <|> BufferShardAlloc.withNanChunk chunkCount chunkLen)) ∧
      t'.tree = t.tree ∧ t'.arcs = ((t.overlapping range).foldl LineTree.queueLoad l).1 ∧
      ∀ which, t'.alloc which = some (loadAlloc ((t.overlapping range).foldl LineTree.queueLoad l) which) := by
  obtain ⟨dataAlloc, hdata, ht⟩ := Option.bind_eq_some_iff.mp ht
  obtain ⟨timestampAlloc, htimestamp, ht⟩ := Option.bind_eq_some_iff.mp ht
  obtain ⟨range, hrange, ht⟩ := Option.bind_eq_some_iff.mp ht
  obtain rfl := Option.some.inj ht
  refine ⟨range, (t.arcs, dataAlloc, timestampAlloc), hrange, rfl, fun which => ?_, rfl, rfl, fun which => ?_⟩
  · cases which
    · exact htimestamp.symm
    · exact hdata.symm
  · cases which <;> rfl

theorem owns_orElse (h : Owns alloc buffers)
    (ha : some a = (alloc <|> BufferShardAlloc.withNanChunk chunkCount chunkLen)) : Owns (some a) buffers := by
  cases alloc with
  | none =>
    simp only [Option.orElse_eq_orElse, Option.orElse_none] at ha
    exact owns_withNanChunk h ha.symm
  | some a' =>
    obtain rfl := Option.some.inj ha
    exact h

theorem inv_queueLoadRange (h : Inv t) {start stop : Int} (ht : t.queueLoadRange start stop = some t') : Inv t' := by
  obtain ⟨range, l, -, harcs, halloc, htree, harcs', halloc'⟩ := queueLoadRange_eq ht
  refine ⟨fun e he => ?_, fun which => ?_⟩
  · rw [harcs', length_loads, harcs]
    exact h.bound e (htree ▸ he)
  · rw [halloc' which, harcs']
    apply owns_loads
    rw [harcs]
    exact owns_orElse (h.owns which) (halloc which)

/-- An entry that is collected gives its shards back, others are let be. -/
theorem collect_eq (start stop : Int) (t : LineTree) (e : Interval × Chunk) :
    LineTree.collect start stop t e = t ∨ ∃ b b', t.arcs[e.2.arcs]? = some b ∧
      (LineTree.collect start stop t e).tree = t.tree ∧ (LineTree.collect start stop t e).arcs = t.arcs.set e.2.arcs b' ∧
      ∀ which, b'.buffer which = ((b.buffer which).release (t.alloc which)).1 ∧
        (LineTree.collect start stop t e).alloc which = ((b.buffer which).release (t.alloc which)).2 := by
  rw [LineTree.collect]
  split
  · exact .inl rfl
  · split
    · exact .inl rfl
    · rename_i b hb
      exact .inr ⟨b, _, hb, rfl, rfl, fun which => by cases which <;> exact ⟨rfl, rfl⟩⟩

theorem inv_collect (h : Inv t) (start stop : Int) (e : Interval × Chunk) : Inv (LineTree.collect start stop t e) := by
  obtain heq | ⟨b, b', hb, htree, harcs, heq⟩ := collect_eq start stop t e
  · rwa [heq]
  · refine ⟨fun e' he' => ?_, fun which => ?_⟩
    · rw [harcs, List.length_set]
      exact h.bound e' (htree ▸ he')
    · rw [harcs, map_buffer_set, (heq which).1, (heq which).2]
      exact owns_release (h.owns which) (getElem?_map_buffer hb which)

theorem inv_collects (h : Inv t) (start stop : Int) (entries : List (Interval × Chunk)) :
    Inv (entries.foldl (LineTree.collect start stop) t) := by
  induction entries generalizing t with
  | nil => exact h
  | cons e entries ih => exact ih (inv_collect h start stop e)

theorem garbageCollect_eq {start stop : Int} (ht : t.garbageCollect start stop = some t') :
    i64Min ≤ start - 1 ∧ stop + 1 ≤ i64Max ∧ ∃ firstHalf secondHalf, Interval.ee i64Min (start - 1) = some firstHalf ∧
      Interval.ee (stop + 1) i64Max = some secondHalf ∧
      t' = (t.overlapping firstHalf ++ t.overlapping secondHalf).foldl (LineTree.collect start stop) t := by
  rw [LineTree.garbageCollect] at ht
  split at ht
  · cases ht
  · rename_i hbounds
    obtain ⟨firstHalf, hfirst, ht⟩ := Option.bind_eq_some_iff.mp ht
    obtain ⟨secondHalf, hsecond, ht⟩ := Option.bind_eq_some_iff.mp ht
    obtain rfl := Option.some.inj ht
    exact ⟨by omega, by omega, firstHalf, secondHalf, hfirst, hsecond, rfl⟩

/-- A step keeps the invariant. -/
theorem inv_step (h : Inv t) (ht : step t act = some t') : Inv t' := by
  cases act with
  | insert timestamps values =>
    obtain ⟨⟨t₁, c⟩, hc, ht⟩ := Option.bind_eq_some_iff.mp ht
    obtain ⟨h₁, hlt⟩ := inv_fromIter h hc
    exact inv_insert h₁ hlt ht
  | updateLast timestamp value => exact inv_updateLast h ht
  | queueLoadRange start stop => exact inv_queueLoadRange h ht
  | garbageCollect start stop =>
    obtain ⟨-, -, _, _, -, -, rfl⟩ := garbageCollect_eq ht
    exact inv_collects h start stop _

theorem inv_of_reachable (h : Reachable t) : Inv t :=
  h.invariant (fun hi _ ht => inv_step hi ht) inv_default

/-! ## What the invariant gives -/

/-- The buffer of an entry is one of the buffers. -/
theorem mem_shard {which : Which} {e : Interval × Chunk} (hs : s ∈ t.shard which e) :
    ∃ b, t.arcs[e.2.arcs]? = some b ∧ s ∈ (b.buffer which).gpu := by
  obtain ⟨c, hc, hs⟩ := Option.bind_eq_some_iff.mp hs
  obtain ⟨b, hb, rfl⟩ := Option.map_eq_some_iff.mp hc
  exact ⟨b, hb, hs⟩

theorem shard_eq {which : Which} {e : Interval × Chunk} {b : Arcs} (hb : t.arcs[e.2.arcs]? = some b) :
    t.shard which e = (b.buffer which).gpu := by
  rw [LineTree.shard, LineTree.buffer, hb]
  rfl

theorem shardAt_of_mem (h : Inv t) {which : Which} {e : Interval × Chunk} (hs : s ∈ t.shard which e) :
    ∃ a ∈ t.alloc which, ∃ i, s = LineTree.shardAt i ∧ 1 ≤ i ∧ i ≤ chunkCount ∧ i ∉ a.freeMap := by
  obtain ⟨b, hb, hs⟩ := mem_shard hs
  exact (h.owns which).held _ (List.mem_of_getElem? (getElem?_map_buffer hb which)) s hs

theorem unshared (h : Inv t) : t.Unshared := by
  intro which e he e' he' hne s hs s' hs'
  obtain ⟨_, -, i, rfl, -⟩ := shardAt_of_mem h hs
  obtain ⟨_, -, j, rfl, -⟩ := shardAt_of_mem h hs'
  obtain ⟨b, hb, hs⟩ := mem_shard hs
  obtain ⟨b', hb', hs'⟩ := mem_shard hs'
  have hij : i ≠ j := fun hij => hne
    ((h.owns which).distinct _ _ _ _ (getElem?_map_buffer hb which) (getElem?_map_buffer hb' which) _ hs (hij ▸ hs'))
  obtain hij | hij := Nat.lt_or_gt_of_ne hij
  · exact .inl (Nat.mul_le_mul_right (4 * chunkLen) hij)
  · exact .inr (Nat.mul_le_mul_right (4 * chunkLen) hij)

theorem nanKept (h : Inv t) : t.NanKept := by
  intro which a ha
  refine ⟨fun hfree => ?_, fun e he hs => ?_⟩
  · exact absurd ((h.owns which).free a ha 0 hfree).1 (by decide)
  · obtain ⟨_, -, i, hi, hpos, -⟩ := shardAt_of_mem h hs
    obtain rfl := shardAt_inj hi
    exact absurd hpos (by decide)

/-! ## A tree with a chunk that is loaded -/

theorem ii_eq_some {start stop : Int} {range : Interval} (h : Interval.ii start stop = some range) :
    range = ⟨start, stop⟩ ∧ start ≤ stop := by
  rw [Interval.ii] at h
  split at h
  · exact ⟨(Option.some.inj h).symm, ‹_›⟩
  · cases h

/-- The first load of a buffer -/
theorem queueLoad_new (h : a.freeMap.Nonempty) : ∃ s a', SharedBuffer.default.queueLoad a = (⟨some s, false⟩, a') := by
  refine ⟨⟨a.freeMap.min' h * a.chunkSize, (a.freeMap.min' h + 1) * a.chunkSize⟩,
    { a with freeMap := a.freeMap.erase (a.freeMap.min' h) }, ?_⟩
  simp only [SharedBuffer.queueLoad, SharedBuffer.default, BufferShardAlloc.alloc, dif_pos h]
  rfl

/-- The tree of a chunk of two samples -/
def single (first last : Int) : LineTree :=
  ⟨[(⟨first, last⟩, ⟨[first, last], [0, 0], ⟨2, first, last⟩, 0⟩)], [⟨.default, .default⟩], none, none⟩

theorem step_single {first last : Int} (h : first ≤ last) :
    step .default (.insert [first, last] [0, 0]) = some (single first last) := by
  have hrange : Interval.ii first last = some ⟨first, last⟩ := if_pos h
  simp only [step, LineTree.fromIter, LineTree.insert, List.head?_cons, List.getLast?_cons_cons, List.getLast?_singleton,
    Option.bind_eq_bind, Option.bind_some, Option.pure_def, hrange]
  rfl

theorem spared_single {first last : Int} : Spared .default (.insert [first, last] [0, 0]) :=
  fun _ _ _ _ e he => (by cases he)

/-- Its entry -/
def singleEntry (first last : Int) : Interval × Chunk := (⟨first, last⟩, ⟨[first, last], [0, 0], ⟨2, first, last⟩, 0⟩)

theorem overlapping_single {first last : Int} (h : first ≤ last) (ht : t.tree = (single first last).tree) :
    t.overlapping ⟨first, last⟩ = [singleEntry first last] := by
  rw [LineTree.overlapping, ht]
  simp [single, singleEntry, Interval.overlaps, h]

/-- Its shards are loaded. -/
theorem exists_loaded {first last : Int} (h : first ≤ last) :
    ∃ t s, Run step Spared .default t ∧ t.tree = [singleEntry first last] ∧ (∀ which, (t.alloc which).isSome) ∧
      ∀ which, t.shard which (singleEntry first last) = some s := by
  have hfree : ((Finset.range (chunkCount + 1)).erase 0).Nonempty :=
    ⟨1, Finset.mem_erase.mpr ⟨by decide, Finset.mem_range.mpr (by decide)⟩⟩
  obtain ⟨s, a, hload⟩ := queueLoad_new (a := ⟨4 * chunkLen, (Finset.range (chunkCount + 1)).erase 0⟩) hfree
  have hrange : Interval.ii first last = some ⟨first, last⟩ := if_pos h
  have hsingle : Run step Spared .default (single first last) := Run.refl.snoc spared_single (step_single h)
  refine ⟨{ single first last with
    arcs := [⟨⟨some s, false⟩, ⟨some s, false⟩⟩], dataBufferShardAlloc := some a, timestampBufferShardAlloc := some a },
    s, hsingle.snoc (a := .queueLoadRange first last) trivial ?_, rfl, ?_, ?_⟩
  · simp only [step, LineTree.queueLoadRange, withNanChunk_eq, hrange, Option.bind_eq_bind, Option.bind_some,
      overlapping_single h rfl]
    simp [single, singleEntry, LineTree.queueLoad, hload]
  · intro which
    cases which <;> rfl
  · intro which
    cases which <;> rfl

theorem reachable_of_spared (h : Run step Spared .default t) : Reachable t := h.mono fun _ _ _ => trivial

end Metor.Proof.Plot
