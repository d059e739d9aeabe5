import Metor.Proof.Plot.Shards

/-!
# Shards that are lost

An insert drops the entries that it covers, and does not give their shards
back: one that drops the last entry of a chunk with a shard loses it
(`not_accounted_of_covered`). Where none does, a chunk that has a shard has an
entry (`rooted_step`), and every shard is accounted for (`run_accounted`).
-/

namespace Metor.Proof.Plot

open Metor.Lib Metor.Impl.Plot

variable {t t' : LineTree} {act : Act}

/-! ## Shards that are accounted for -/

/-- A chunk that has a shard has an entry. -/
def Rooted (t : LineTree) : Prop :=
  ∀ (k : Nat) (b : Arcs) (which : Which), t.arcs[k]? = some b → (b.buffer which).gpu.isSome → ∃ e ∈ t.tree, e.2.arcs = k

theorem accounted (h : Inv t) (hroot : Rooted t) : t.Accounted := by
  intro which a ha i hi hi'
  obtain hfree | ⟨c, hc, hs⟩ := (h.owns which).all a ha i hi hi'
  · exact .inl hfree
  · obtain ⟨k, hk⟩ := List.mem_iff_getElem?.mp hc
    rw [List.getElem?_map] at hk
    obtain ⟨b, hb, rfl⟩ := Option.map_eq_some_iff.mp hk
    obtain ⟨e, he, rfl⟩ := hroot k b which hb (Option.isSome_of_mem hs)
    exact .inr ⟨e, he, (shard_eq hb).trans hs⟩

/-- An entry that is not covered is left in part. -/
theorem exists_mem_insertOverwrite {tree : List (Interval × Chunk)} {range : Interval} {c : Chunk} {e : Interval × Chunk}
    (he : e ∈ tree) (hcovered : ¬ LineTree.Covered range e) :
    ∃ e' ∈ LineTree.insertOverwrite tree range c, e'.2 = e.2 := by
  rw [LineTree.insertOverwrite]
  by_cases hstart : e.1.start < range.start
  · refine ⟨(⟨e.1.start, min e.1.stop (range.start - 1)⟩, e.2), List.mem_append_left _ (List.mem_flatMap.mpr ⟨e, he, ?_⟩), rfl⟩
    rw [LineTree.before, if_pos hstart]
    exact List.mem_singleton_self _
  · have hstop : range.stop < e.1.stop := by
      by_contra hstop
      exact hcovered ⟨by omega, by omega⟩
    refine ⟨(⟨max e.1.start (range.stop + 1), e.1.stop⟩, e.2),
      List.mem_append_right _ (List.mem_cons_of_mem _ (List.mem_flatMap.mpr ⟨e, he, ?_⟩)), rfl⟩
    rw [LineTree.after, if_pos hstop]
    exact List.mem_singleton_self _

/-- A chunk keeps an entry where an insert spares it. -/
theorem exists_mem_of_spares {tree : List (Interval × Chunk)} {range : Interval} {c : Chunk} {e : Interval × Chunk}
    (h : t.Spares tree range c.arcs) (he : e ∈ tree) (hshard : ∃ which, (t.shard which e).isSome) :
    ∃ e' ∈ LineTree.insertOverwrite tree range c, e'.2.arcs = e.2.arcs := by
  by_cases hcovered : LineTree.Covered range e
  · obtain heq | ⟨e', he', hcovered', heq⟩ := h e he hcovered hshard
    · exact ⟨(range, c), List.mem_append_right _ List.mem_cons_self, heq.symm⟩
    · obtain ⟨e'', he'', heq'⟩ := exists_mem_insertOverwrite he' hcovered'
      exact ⟨e'', he'', by rw [heq', heq]⟩
  · obtain ⟨e', he', heq⟩ := exists_mem_insertOverwrite he hcovered
    exact ⟨e', he', by rw [heq]⟩

theorem rooted_default : Rooted .default := fun k b which hb => by cases hb

/-- The chunk that is inserted has an entry, and those that it spares. -/
theorem rooted_insert {c : Chunk}
    (h : ∀ (k : Nat) (b : Arcs) (which : Which), t.arcs[k]? = some b → (b.buffer which).gpu.isSome →
      c.arcs = k ∨ ∃ e ∈ t.tree, e.2.arcs = k)
    (hspares : t.Spares t.tree ⟨c.summary.startTimestamp, c.summary.endTimestamp⟩ c.arcs) (ht : t.insert c = some t') :
    Rooted t' := by
  obtain ⟨range, hrange, ht⟩ := Option.bind_eq_some_iff.mp ht
  obtain ⟨rfl, -⟩ := ii_eq_some hrange
  obtain rfl := Option.some.inj ht
  intro k b which hb hgpu
  obtain rfl | ⟨e, he, rfl⟩ := h k b which hb hgpu
  · exact ⟨_, List.mem_append_right _ List.mem_cons_self, rfl⟩
  · have hshard : (t.shard which e).isSome := by
      rw [shard_eq (show t.arcs[e.2.arcs]? = some b from hb)]
      exact hgpu
    exact exists_mem_of_spares hspares he ⟨which, hshard⟩

/-- A push changes no shard. -/
theorem gpu_push {timestamp : Int} {value : F32} {c : Chunk} {b : Arcs} (which : Which) :
    ((LineTree.push timestamp value c b).2.buffer which).gpu = (b.buffer which).gpu := by
  cases which <;> rfl

theorem rooted_updateLast (h : Rooted t) {timestamp : Int} {value : F32} (hspared : Spared t (.updateLast timestamp value))
    (ht : t.updateLast timestamp value = some t') : Rooted t' := by
  rw [LineTree.updateLast] at ht
  split at ht
  · obtain rfl := Option.some.inj ht
    exact h
  · rename_i range last hlast
    obtain ⟨b, hb, ht⟩ := Option.bind_eq_some_iff.mp ht
    have hgpu : ∀ (k : Nat) (c : Arcs), (t.arcs.set last.arcs (LineTree.push timestamp value last b).2)[k]? = some c →
        ∃ c', t.arcs[k]? = some c' ∧ ∀ which, (c.buffer which).gpu = (c'.buffer which).gpu := by
      intro k c hc
      obtain ⟨rfl, rfl⟩ | ⟨-, hc⟩ := getElem?_set_cases hc
      · exact ⟨b, hb, gpu_push⟩
      · exact ⟨c, hc, fun which => rfl⟩
    refine rooted_insert (fun k c which hc hsome => ?_) (fun e he hcovered hshard => ?_) ht
    · obtain ⟨c', hc', heq⟩ := hgpu k c hc
      rw [heq] at hsome
      obtain ⟨e, he, rfl⟩ := h k c' which hc' hsome
      rw [← List.dropLast_append_getLast? _ hlast] at he
      obtain he | he := List.mem_append.mp he
      · exact .inr ⟨e, he, rfl⟩
      · rw [List.mem_singleton.mp he]
        exact .inl rfl
    · refine hspared (range, last) hlast e he hcovered ?_
      obtain ⟨which, hsome⟩ := hshard
      obtain ⟨s, hs⟩ := Option.isSome_iff_exists.mp hsome
      obtain ⟨c, hc, hs⟩ := mem_shard hs
      obtain ⟨c', hc', heq⟩ := hgpu _ c hc
      refine ⟨which, ?_⟩
      rw [shard_eq hc', ← heq]
      exact Option.isSome_of_mem hs

/-- Only what is loaded gets a shard. -/
theorem gpu_loads (entries : List (Interval × Chunk)) (l : List Arcs × BufferShardAlloc × BufferShardAlloc) (k : Nat) (b : Arcs)
    (which : Which) (hb : (entries.foldl LineTree.queueLoad l).1[k]? = some b) (hgpu : (b.buffer which).gpu.isSome) :
    (∃ e ∈ entries, e.2.arcs = k) ∨ ∃ b', l.1[k]? = some b' ∧ (b'.buffer which).gpu.isSome := by
  induction entries generalizing l with
  | nil => exact .inr ⟨b, hb, hgpu⟩
  | cons e entries ih =>
    obtain ⟨e', he', heq⟩ | ⟨b', hb', hgpu⟩ := ih _ hb
    · exact .inl ⟨e', List.mem_cons_of_mem _ he', heq⟩
    · cases hc : l.1[e.2.arcs]? with
      | none =>
        rw [LineTree.queueLoad, hc] at hb'
        exact .inr ⟨b', hb', hgpu⟩
      | some c =>
        obtain ⟨c', harcs, -⟩ := queueLoad_eq hc
        rw [harcs] at hb'
        obtain ⟨rfl, -⟩ | ⟨-, hb'⟩ := getElem?_set_cases hb'
        · exact .inl ⟨e, List.mem_cons_self, rfl⟩
        · exact .inr ⟨b', hb', hgpu⟩

theorem rooted_queueLoadRange (h : Rooted t) {start stop : Int} (ht : t.queueLoadRange start stop = some t') : Rooted t' := by
  obtain ⟨range, l, -, harcs, -, htree, harcs', -⟩ := queueLoadRange_eq ht
  intro k b which hb hgpu
  rw [harcs'] at hb
  rw [htree]
  obtain ⟨e, he, heq⟩ | ⟨b', hb', hgpu⟩ := gpu_loads _ l k b which hb hgpu
  · exact ⟨e, (List.mem_filter.mp he).1, heq⟩
  · exact h k b' which (harcs ▸ hb') hgpu

/-- What is collected gets no shard. -/
theorem rooted_collect (h : Rooted t) (start stop : Int) (e : Interval × Chunk) :
    Rooted (LineTree.collect start stop t e) := by
  obtain heq | ⟨b, b', hb, htree, harcs, heq⟩ := collect_eq start stop t e
  · rwa [heq]
  · intro k c which hc hgpu
    rw [htree]
    rw [harcs] at hc
    obtain ⟨rfl, rfl⟩ | ⟨-, hc⟩ := getElem?_set_cases hc
    · refine h _ b which hb ?_
      rw [(heq which).1] at hgpu
      obtain ⟨_, s, -, hs, -⟩ | ⟨-, hrelease⟩ := release_cases (b.buffer which) (t.alloc which)
      · exact Option.isSome_of_mem hs
      · rwa [hrelease] at hgpu
    · exact h k c which hc hgpu

theorem rooted_collects (h : Rooted t) (start stop : Int) (entries : List (Interval × Chunk)) :
    Rooted (entries.foldl (LineTree.collect start stop) t) := by
  induction entries generalizing t with
  | nil => exact h
  | cons e entries ih => exact ih (rooted_collect h start stop e)

theorem rooted_fromIter (h : Rooted t) {timestamps : List Int} {values : List F32} (hspared : Spared t (.insert timestamps values))
    {s : LineTree × Chunk} (hs : t.fromIter timestamps values = some s) (ht : s.1.insert s.2 = some t') : Rooted t' := by
  obtain ⟨first, hfirst, hs⟩ := Option.bind_eq_some_iff.mp hs
  obtain ⟨last, hlast, hs⟩ := Option.bind_eq_some_iff.mp hs
  obtain rfl := Option.some.inj hs
  have hget : ∀ (k : Nat) (b : Arcs) (which : Which), (t.arcs ++ [(⟨.default, .default⟩ : Arcs)])[k]? = some b →
      (b.buffer which).gpu.isSome → t.arcs[k]? = some b := by
    intro k b which hb hgpu
    by_cases hk : k < t.arcs.length
    · rwa [List.getElem?_append_left hk] at hb
    · rw [List.getElem?_append_right (Nat.le_of_not_lt hk)] at hb
      rw [List.mem_singleton.mp (List.mem_of_getElem? hb)] at hgpu
      cases which <;> cases hgpu
  refine rooted_insert ?_ ?_ ht
  · intro k b which hb hgpu
    exact .inr (h k b which (hget k b which hb hgpu) hgpu)
  · intro e he hcovered hshard
    refine hspared first hfirst last hlast e he hcovered ?_
    obtain ⟨which, hsome⟩ := hshard
    obtain ⟨s, hs⟩ := Option.isSome_iff_exists.mp hsome
    obtain ⟨b, hb, hs⟩ := mem_shard hs
    refine ⟨which, ?_⟩
    rw [shard_eq (hget _ b which hb (Option.isSome_of_mem hs))]
    exact Option.isSome_of_mem hs

/-- A step that loses no shard keeps an entry for each chunk that has one. -/
theorem rooted_step (h : Rooted t) (hspared : Spared t act) (ht : step t act = some t') : Rooted t' := by
  cases act with
  | insert timestamps values =>
    obtain ⟨s, hs, ht⟩ := Option.bind_eq_some_iff.mp ht
    exact rooted_fromIter h hspared hs ht
  | updateLast timestamp value => exact rooted_updateLast h hspared ht
  | queueLoadRange start stop => exact rooted_queueLoadRange h ht
  | garbageCollect start stop =>
    obtain ⟨-, -, _, _, -, -, rfl⟩ := garbageCollect_eq ht
    exact rooted_collects h start stop _

/-- Different chunks have different shards in every run, shard 0 stays that of
the NaN, and while no insert drops the last entry of a chunk with a shard, every
shard is free or that of an entry. -/
theorem run_accounted (h : Run step Spared .default t) : t.Unshared ∧ t.NanKept ∧ t.Accounted := by
  have hkept : Inv t ∧ Rooted t := by
    refine Run.invariant (I := fun t => Inv t ∧ Rooted t) ?_ h ⟨inv_default, rooted_default⟩
    intro s u act hi hspared ht
    exact ⟨inv_step hi.1 ht, rooted_step hi.2 hspared ht⟩
  exact ⟨unshared hkept.1, nanKept hkept.1, accounted hkept.1 hkept.2⟩

/-- A chunk of two samples that is loaded -/
theorem loaded_accounted : ∃ t : LineTree, (∀ which, (t.alloc which).isSome ∧ ∃ e ∈ t.tree, (t.shard which e).isSome) ∧
    t.Unshared ∧ t.NanKept ∧ t.Accounted := by
  obtain ⟨t, s, hrun, htree, halloc, hshard⟩ := exists_loaded (show (0 : Int) ≤ 1 by decide)
  refine ⟨t, fun which => ⟨halloc which, singleEntry 0 1, ?_, Option.isSome_of_mem (hshard which)⟩, run_accounted hrun⟩
  rw [htree]
  exact List.mem_singleton_self _

/-! ## Shards that are lost -/

theorem not_accounted_of_covered (hi : Inv t) {c : Chunk} (ht : t.insert c = some t') {which : Which} {e : Interval × Chunk}
    {s : BufferShard} (hs : s ∈ t.shard which e) (hne : c.arcs ≠ e.2.arcs)
    (hcovered : ∀ e' ∈ t.tree, e'.2.arcs = e.2.arcs → LineTree.Covered ⟨c.summary.startTimestamp, c.summary.endTimestamp⟩ e') :
    ¬ t'.Accounted := by
  obtain ⟨a, ha, i, rfl, hpos, hle, hnot⟩ := shardAt_of_mem hi hs
  obtain ⟨range, hrange, ht⟩ := Option.bind_eq_some_iff.mp ht
  obtain ⟨rfl, -⟩ := ii_eq_some hrange
  obtain rfl := Option.some.inj ht
  intro h
  obtain hfree | ⟨e', he', hs'⟩ := h which a ha i hpos hle
  · exact hnot hfree
  · obtain ⟨b, hb, hs⟩ := mem_shard hs
    obtain ⟨b', hb', hs'⟩ := mem_shard (show LineTree.shardAt i ∈ t.shard which e' from hs')
    have harcs : e'.2.arcs = e.2.arcs :=
      (hi.owns which).distinct _ _ _ _ (getElem?_map_buffer hb' which) (getElem?_map_buffer hb which) _ hs' hs
    obtain rfl | ⟨e'', he'', hleft, heq⟩ := mem_insertOverwrite he'
    · exact hne harcs
    · exact hleft (hcovered e'' he'' (heq ▸ harcs))

/-- An insert of timestamps that cover all entries of a chunk loses its shards. -/
theorem lost_of_covered (hi : Inv t) {timestamps : List Int} {values : List F32} (ht : step t (.insert timestamps values) = some t') {first last : Int}
    (hfirst : timestamps.head? = some first) (hlast : timestamps.getLast? = some last) {which : Which} {e : Interval × Chunk}
    {s : BufferShard} (hs : s ∈ t.shard which e)
    (hcovered : ∀ e' ∈ t.tree, e'.2.arcs = e.2.arcs → LineTree.Covered ⟨first, last⟩ e') : ¬ t'.Accounted := by
  obtain ⟨⟨u, c⟩, hu, ht⟩ := Option.bind_eq_some_iff.mp ht
  have hiu := (inv_fromIter hi hu).1
  obtain ⟨_, hfirst', hu⟩ := Option.bind_eq_some_iff.mp hu
  obtain ⟨_, hlast', hu⟩ := Option.bind_eq_some_iff.mp hu
  obtain ⟨rfl, rfl⟩ := Prod.mk.inj (Option.some.inj hu)
  obtain rfl := Option.some.inj (hfirst.symm.trans hfirst')
  obtain rfl := Option.some.inj (hlast.symm.trans hlast')
  obtain ⟨b, hb, hs⟩ := mem_shard hs
  have hlt : e.2.arcs < t.arcs.length := (List.getElem?_eq_some_iff.mp hb).1
  refine @not_accounted_of_covered _ _ hiu _ ht which e s ?_ (Nat.ne_of_gt hlt) hcovered
  rw [shard_eq (b := b)]
  · exact hs
  · exact (List.getElem?_append_left hlt).trans hb

/-- A chunk of two samples that is loaded, and inserted again, loses its shards. -/
theorem shards_lost : ¬ ∀ t, Reachable t → t.Unshared ∧ t.NanKept ∧ t.Accounted := by
  intro h
  obtain ⟨t, s, hrun, htree, -, hshard⟩ := exists_loaded (show (0 : Int) ≤ 1 by decide)
  have hreach := reachable_of_spared hrun
  obtain ⟨t', ht'⟩ : ∃ t', step t (.insert [0, 1] [0, 0]) = some t' := ⟨_, rfl⟩
  refine lost_of_covered (inv_of_reachable hreach) ht' rfl rfl (hshard .data) ?_ (h t' (hreach.snoc trivial ht')).2.2
  intro e he _
  rw [htree] at he
  rw [List.mem_singleton.mp he]
  exact ⟨Int.le_refl 0, Int.le_refl 1⟩

end Metor.Proof.Plot
