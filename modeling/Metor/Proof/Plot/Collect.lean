import Metor.Proof.Plot.Shards

/-!
# Garbage collection of a line

A chunk is collected through any of its entries: its buffers are emptied where
one of them is collected (`collects_of_mem`) and let be where none is
(`collects_of_not`). So `garbage_collect` keeps what is in view and frees what
is away exactly where no entry in view with a shard has a chunk that is
collected and every entry away with a shard has one (`garbage_collect_iff`).
-/

namespace Metor.Proof.Plot

open Metor.Lib Metor.Impl.Plot

variable {t t' : LineTree} {start stop : Int} {e : Interval × Chunk} {k : Nat} {which : Which}

/-! ## One entry -/

/-- No end of the entry is in view. -/
def Ends (start stop : Int) (e : Interval × Chunk) : Prop :=
  ¬ LineTree.contains start stop e.1.start ∧ ¬ LineTree.contains start stop e.1.stop

theorem eq_of_dirty {b : SharedBuffer} (hgpu : b.gpu = none) (hdirty : b.gpuDirty = true) : b = ⟨none, true⟩ := by
  obtain ⟨gpu, dirty⟩ := b
  obtain rfl : gpu = none := hgpu
  obtain rfl : dirty = true := hdirty
  rfl

theorem release_eq {alloc : Option BufferShardAlloc} {buffers : List SharedBuffer} {b : SharedBuffer} (h : Owns alloc buffers)
    (hb : b ∈ buffers) : (b.release alloc).1 = ⟨none, true⟩ := by
  have hclean : b.gpu = none → b = ⟨none, true⟩ := fun hgpu => eq_of_dirty hgpu (h.dirty b hb hgpu)
  obtain ⟨a, s, -, -, heq⟩ | ⟨hnone, heq⟩ := release_cases b alloc
  · rw [heq]
  · rw [heq]
    obtain rfl | hgpu := hnone
    · refine hclean (Option.eq_none_iff_forall_not_mem.mpr fun s hs => ?_)
      obtain ⟨a, ha, -⟩ := h.held b hb s hs
      cases ha
    · exact hclean hgpu

theorem collect_of_ends (hi : Inv t) (hends : Ends start stop e) (he : e.2.arcs < t.arcs.length) :
    (LineTree.collect start stop t e).arcs[e.2.arcs]?.map (·.buffer which) = some ⟨none, true⟩ := by
  have hb : t.arcs[e.2.arcs]? = some t.arcs[e.2.arcs] := List.getElem?_eq_getElem he
  have hne : ¬ (LineTree.contains start stop e.1.start || LineTree.contains start stop e.1.stop) := by
    simpa [Ends] using hends
  rw [LineTree.collect, if_neg hne, hb]
  show ((t.arcs.set e.2.arcs _)[e.2.arcs]?).map (·.buffer which) = _
  rw [List.getElem?_set_self he]
  have hrelease := release_eq (hi.owns which) (List.mem_of_getElem? (getElem?_map_buffer hb which))
  cases which <;> exact congrArg some hrelease

theorem collect_of_not (h : ¬ (Ends start stop e ∧ e.2.arcs = k)) :
    (LineTree.collect start stop t e).arcs[k]? = t.arcs[k]? := by
  rw [LineTree.collect]
  split
  · rfl
  · rename_i hne
    have hends : Ends start stop e := by simpa [Ends] using hne
    split
    · rfl
    · exact List.getElem?_set_ne fun hk => h ⟨hends, hk⟩

theorem length_collect : (LineTree.collect start stop t e).arcs.length = t.arcs.length := by
  obtain heq | ⟨_, _, -, -, harcs, -⟩ := collect_eq start stop t e
  · rw [heq]
  · rw [harcs, List.length_set]

theorem alloc_collect (ha : (t.alloc which).isSome) : ((LineTree.collect start stop t e).alloc which).isSome := by
  obtain heq | ⟨b, _, -, -, -, heq⟩ := collect_eq start stop t e
  · rwa [heq]
  · rw [(heq which).2]
    obtain ⟨_, _, -, -, hrelease⟩ | ⟨-, hrelease⟩ := release_cases (b.buffer which) (t.alloc which)
    · rw [hrelease]
      rfl
    · rwa [hrelease]

/-! ## All entries -/

theorem collects_of_not {entries : List (Interval × Chunk)} (h : ∀ e ∈ entries, ¬ (Ends start stop e ∧ e.2.arcs = k)) :
    (entries.foldl (LineTree.collect start stop) t).arcs[k]? = t.arcs[k]? := by
  induction entries generalizing t with
  | nil => rfl
  | cons e entries ih =>
    rw [List.foldl_cons, ih fun e' he' => h e' (List.mem_cons_of_mem _ he')]
    exact collect_of_not (h e List.mem_cons_self)

theorem collects_of_mem {entries : List (Interval × Chunk)} (hi : Inv t) (hk : k < t.arcs.length)
    (h : ∃ e ∈ entries, Ends start stop e ∧ e.2.arcs = k) :
    (entries.foldl (LineTree.collect start stop) t).arcs[k]?.map (·.buffer which) = some ⟨none, true⟩ := by
  induction entries generalizing t with
  | nil =>
    obtain ⟨e, he, -⟩ := h
    cases he
  | cons e entries ih =>
    rw [List.foldl_cons]
    by_cases hlater : ∃ e' ∈ entries, Ends start stop e' ∧ e'.2.arcs = k
    · exact ih (inv_collect hi start stop e) (length_collect.symm ▸ hk) hlater
    · rw [collects_of_not fun e' he' hends => hlater ⟨e', he', hends⟩]
      obtain ⟨e', he', hends, rfl⟩ := h
      obtain rfl | he' := List.mem_cons.mp he'
      · exact collect_of_ends hi hends hk
      · exact absurd ⟨e', he', hends, rfl⟩ hlater

theorem alloc_collects {entries : List (Interval × Chunk)} (ha : (t.alloc which).isSome) :
    ((entries.foldl (LineTree.collect start stop) t).alloc which).isSome := by
  induction entries generalizing t with
  | nil => exact ha
  | cons e entries ih => exact ih (alloc_collect ha)

/-! ## `garbage_collect` -/

/-- The range has neighbours that have neighbours. -/
def Inner (start stop : Int) : Prop := i64Min + 3 ≤ start ∧ stop ≤ i64Max - 3

/-- The entries that are looked at -/
def looked (t : LineTree) (start stop : Int) : List (Interval × Chunk) :=
  t.overlapping ⟨i64Min + 1, start - 2⟩ ++ t.overlapping ⟨stop + 2, i64Max - 1⟩

theorem ee_eq {a b : Int} (h : a + 2 ≤ b) : Interval.ee a b = some ⟨a + 1, b - 1⟩ := if_pos (by omega)

theorem garbageCollect_inner (h : Inner start stop) :
    t.garbageCollect start stop = some ((looked t start stop).foldl (LineTree.collect start stop) t) := by
  obtain ⟨hstart, hstop⟩ := h
  have hbounds : ¬ (start - 1 < i64Min ∨ i64Max < stop + 1) := by omega
  have hfirst : start - 1 - 1 = start - 2 := by omega
  have hsecond : stop + 1 + 1 = stop + 2 := by omega
  rw [LineTree.garbageCollect, if_neg hbounds, ee_eq (by omega), ee_eq (by omega), hfirst, hsecond]
  rfl

theorem inner_of_garbageCollect (h : t.garbageCollect start stop = some t') : Inner start stop := by
  obtain ⟨-, -, first, second, hfirst, hsecond, -⟩ := garbageCollect_eq h
  have hstart := (ii_eq_some hfirst).2
  have hstop := (ii_eq_some hsecond).2
  exact ⟨by omega, by omega⟩

theorem exists_looked : (∃ e ∈ looked t start stop, Ends start stop e ∧ e.2.arcs = k) ↔
    ∃ e ∈ t.tree, LineTree.Collected start stop e ∧ e.2.arcs = k := by
  constructor
  · rintro ⟨e, he, hends, harcs⟩
    obtain he | he := List.mem_append.mp he
    · obtain ⟨he, hoverlaps⟩ := List.mem_filter.mp he
      exact ⟨e, he, ⟨.inl hoverlaps, hends⟩, harcs⟩
    · obtain ⟨he, hoverlaps⟩ := List.mem_filter.mp he
      exact ⟨e, he, ⟨.inr hoverlaps, hends⟩, harcs⟩
  · rintro ⟨e, he, ⟨hoverlaps | hoverlaps, hends⟩, harcs⟩
    · exact ⟨e, List.mem_append_left _ (List.mem_filter.mpr ⟨he, hoverlaps⟩), hends, harcs⟩
    · exact ⟨e, List.mem_append_right _ (List.mem_filter.mpr ⟨he, hoverlaps⟩), hends, harcs⟩

/-- What a collection does to the buffers of an entry. -/
theorem buffer_garbageCollect (hi : Inv t) (ht : t.garbageCollect start stop = some t') (he : e ∈ t.tree) (which : Which) :
    (t.Shares start stop e → t'.buffer which e = some ⟨none, true⟩) ∧
      (¬ t.Shares start stop e → t'.buffer which e = t.buffer which e) := by
  rw [garbageCollect_inner (inner_of_garbageCollect ht)] at ht
  obtain rfl := Option.some.inj ht
  refine ⟨fun hshares => ?_, fun hshares => ?_⟩
  · exact collects_of_mem hi (hi.bound e he) (exists_looked.mpr hshares)
  · rw [LineTree.buffer, collects_of_not fun e' he' hends => hshares (exists_looked.mp ⟨e', he', hends⟩)]
    rfl

theorem buffer_of_shard_none (hi : Inv t) (he : e ∈ t.tree) (hnone : t.shard which e = none) :
    t.buffer which e = some ⟨none, true⟩ := by
  have hb : t.arcs[e.2.arcs]? = some (t.arcs.get ⟨e.2.arcs, hi.bound e he⟩) := List.getElem?_eq_getElem _
  rw [shard_eq hb] at hnone
  have hdirty := (hi.owns which).dirty _ (List.mem_of_getElem? (getElem?_map_buffer hb which)) hnone
  rw [LineTree.buffer, hb]
  exact congrArg some (eq_of_dirty hnone hdirty)

/-- Entries in view are as they were exactly where none with a shard is of a chunk that is collected. -/
theorem keepsInView_iff (hi : Inv t) (ht : t.garbageCollect start stop = some t') :
    t.KeepsInView t' start stop ↔
      ∀ e ∈ t.tree, LineTree.InView start stop e → (∃ which, (t.shard which e).isSome) → ¬ t.Shares start stop e := by
  constructor
  · rintro h e he hview ⟨which, hshard⟩ hshares
    have hbuffer := h e he hview which
    rw [(buffer_garbageCollect hi ht he which).1 hshares] at hbuffer
    rw [LineTree.shard, ← hbuffer] at hshard
    cases hshard
  · intro h e he hview which
    by_cases hshares : t.Shares start stop e
    · rw [(buffer_garbageCollect hi ht he which).1 hshares]
      cases hshard : t.shard which e with
      | none => exact (buffer_of_shard_none hi he hshard).symm
      | some s => exact absurd hshares (h e he hview ⟨which, Option.isSome_of_mem hshard⟩)
    · exact (buffer_garbageCollect hi ht he which).2 hshares

/-- The shards of a chunk that is collected are free. -/
theorem free_of_shares (hi : Inv t) (ht : t.garbageCollect start stop = some t')
    (hshares : t.Shares start stop e) {s : BufferShard} (hs : s ∈ t.shard which e) :
    ∃ alloc ∈ t'.alloc which, ∃ i, s = LineTree.shardAt i ∧ i ∈ alloc.freeMap := by
  obtain ⟨a, ha, i, rfl, hpos, hle, -⟩ := shardAt_of_mem hi hs
  have hi' : Inv t' := inv_step hi (show step t (.garbageCollect start stop) = some t' from ht)
  rw [garbageCollect_inner (inner_of_garbageCollect ht)] at ht
  obtain rfl := Option.some.inj ht
  obtain ⟨a', ha'⟩ := Option.isSome_iff_exists.mp
    (@alloc_collects t start stop which (looked t start stop) (Option.isSome_of_mem ha))
  obtain hfree | ⟨b', hb', hs'⟩ := (hi'.owns which).all a' ha' i hpos hle
  · exact ⟨a', ha', i, rfl, hfree⟩
  · obtain ⟨j, hj⟩ := List.mem_iff_getElem?.mp hb'
    rw [List.getElem?_map] at hj
    have hnot : ¬ ∃ e ∈ looked t start stop, Ends start stop e ∧ e.2.arcs = j := by
      intro hmem
      have hlt : j < t.arcs.length := by
        obtain ⟨e', he', -, rfl⟩ := exists_looked.mp hmem
        exact hi.bound e' he'
      rw [collects_of_mem hi hlt hmem] at hj
      obtain rfl := Option.some.inj hj
      cases hs'
    rw [collects_of_not fun e' he' hends => hnot ⟨e', he', hends⟩] at hj
    obtain ⟨b, hb, rfl⟩ := Option.map_eq_some_iff.mp hj
    obtain ⟨c, hc, hs⟩ := mem_shard hs
    have hje : e.2.arcs = j :=
      (hi.owns which).distinct _ _ _ _ (getElem?_map_buffer hc which) (getElem?_map_buffer hb which) _ hs hs'
    exact absurd (exists_looked.mpr hshares) (hje ▸ hnot)

theorem freesAway_iff (hi : Inv t) (ht : t.garbageCollect start stop = some t') :
    t.FreesAway t' start stop ↔
      ∀ e ∈ t.tree, LineTree.Away start stop e → (∃ which, (t.shard which e).isSome) → t.Shares start stop e := by
  constructor
  · rintro h e he haway ⟨which, hshard⟩
    by_contra hshares
    have hbuffer := (h e he haway which).1
    rw [(buffer_garbageCollect hi ht he which).2 hshares] at hbuffer
    rw [LineTree.shard, hbuffer] at hshard
    cases hshard
  · intro h e he haway which
    refine ⟨?_, fun s hs => free_of_shares hi ht (h e he haway ⟨which, Option.isSome_of_mem hs⟩) hs⟩
    cases hshard : t.shard which e with
    | none =>
      by_cases hshares : t.Shares start stop e
      · exact (buffer_garbageCollect hi ht he which).1 hshares
      · rw [(buffer_garbageCollect hi ht he which).2 hshares]
        exact buffer_of_shard_none hi he hshard
    | some s => exact (buffer_garbageCollect hi ht he which).1 (h e he haway ⟨which, Option.isSome_of_mem hshard⟩)

/-- A collection is right exactly where the range is not next to an end of time,
and the entries with a shard are separated by it. -/
theorem garbage_collect_iff (h : Reachable t) (start stop : Int) :
    t.CollectsGarbage start stop ↔ t.Separated start stop := by
  have hi := inv_of_reachable h
  constructor
  · rintro ⟨t', ht, hkeeps, hfrees⟩
    obtain ⟨hstart, hstop⟩ := inner_of_garbageCollect ht
    refine ⟨hstart, hstop, fun e he hshard => ⟨fun hview => ?_, fun haway => ?_⟩⟩
    · exact (keepsInView_iff hi ht).mp hkeeps e he hview hshard
    · exact (freesAway_iff hi ht).mp hfrees e he haway hshard
  · rintro ⟨hstart, hstop, hentries⟩
    have ht := garbageCollect_inner (t := t) ⟨hstart, hstop⟩
    refine ⟨_, ht, (keepsInView_iff hi ht).mpr fun e he hview hshard => ?_, (freesAway_iff hi ht).mpr fun e he haway hshard => ?_⟩
    · exact (hentries e he hshard).1 hview
    · exact (hentries e he hshard).2 haway

/-- A chunk that is loaded gives its shards back when another time is in view. -/
theorem loaded_collects_garbage : ∃ t : LineTree, (∃ e ∈ t.tree, LineTree.Away 20 30 e ∧ (t.shard .data e).isSome) ∧
    t.CollectsGarbage 20 30 := by
  obtain ⟨t, s, hrun, htree, -, hshard⟩ := exists_loaded (show (0 : Int) ≤ 9 by decide)
  have he : singleEntry 0 9 ∈ t.tree := htree ▸ List.mem_singleton_self _
  have haway : LineTree.Away 20 30 (singleEntry 0 9) := .inl (by decide)
  have hcollected : LineTree.Collected 20 30 (singleEntry 0 9) := ⟨.inl (by decide), by decide, by decide⟩
  refine ⟨t, ⟨_, he, haway, Option.isSome_of_mem (hshard .data)⟩, ?_⟩
  refine (garbage_collect_iff (reachable_of_spared hrun) 20 30).mpr ⟨by decide, by decide, fun e he' _ =>
    ⟨fun hview => ?_,
    fun _ => ?_⟩⟩
  · obtain rfl := List.mem_singleton.mp (htree ▸ he')
    exact absurd hview.2 (by decide)
  · obtain rfl := List.mem_singleton.mp (htree ▸ he')
    exact ⟨_, he, hcollected, rfl⟩

/-- A chunk that is loaded, and reaches beyond what is in view on both sides, is freed. -/
theorem in_view_freed : ¬ ∀ t, Reachable t → ∀ start stop, start ≤ stop → t.CollectsGarbage start stop := by
  intro h
  obtain ⟨t, s, hrun, htree, -, hshard⟩ := exists_loaded (show (0 : Int) ≤ 9 by decide)
  have hreach := reachable_of_spared hrun
  obtain ⟨t', ht, hkeeps, -⟩ := h t hreach 4 5 (by decide)
  have he : singleEntry 0 9 ∈ t.tree := htree ▸ List.mem_singleton_self _
  have hcollected : LineTree.Collected 4 5 (singleEntry 0 9) := ⟨.inl (by decide), by decide, by decide⟩
  exact (keepsInView_iff (inv_of_reachable hreach) ht).mp hkeeps _ he ⟨by decide, by decide⟩
    ⟨.data, Option.isSome_of_mem (hshard .data)⟩ ⟨_, he, hcollected, rfl⟩

end Metor.Proof.Plot
