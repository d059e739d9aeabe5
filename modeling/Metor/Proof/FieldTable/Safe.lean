import Metor.Lib.Run
import Metor.Proof.FieldTable.BitVec
import Metor.Proof.Visitor.Layout
import Metor.Spec.FieldTable

/-!
# The hand-off of the table

The bit of a field is what keeps its plan and the sender apart: a plan that is
running has its bit clear, and while the sender has the packet all bits are set
(`Inv.full`). The sender clears the bits of one word at a time, and until it
comes to a field, that field's plan waits (`Fresh`). `step_inv` is kept by
every step of every task, and gives `run_safe`.
-/

namespace Metor.Proof.FieldTable

open Metor.Lib Metor.Impl.Proto Metor.Impl.FieldTable
open Metor.Proof.Visitor (content length_inner pushes_spec)

variable {cfg : Config} {s s' : State}

/-! ## The invariant -/

/-- The packet has been sent, and the bit of the field is not cleared yet. -/
def Fresh (sender : Sender) (i : Nat) : Prop :=
  match sender with
  | .replacePkt _ => True
  | .clear word => word ≤ i / 64
  | _ => False

structure TaskInv (sender : Sender) (i : Nat) (filled : Bool) (t : Task) : Prop where
  running : ∀ written, t.plan = .running written → filled = false
  fresh : Fresh sender i → filled = true ∧ t.completed = 0
  counted : ¬Fresh sender i → t.completed = filled.toNat

/-- The packet is in the table, or with the sender, or was dropped with it. -/
def Holder (s : State) (P : LenPacket → Prop) : Prop :=
  match s.sender with
  | .waitReady | .take | .clear _ => ∃ pkt, s.table = some pkt ∧ P pkt
  | .send pkt | .replacePkt pkt => s.table = none ∧ P pkt
  | .ended => s.table = none

/-- The packet is in the table. -/
def AtTable : Sender → Prop
  | .waitReady | .take | .clear _ => True
  | _ => False

theorem holder_iff {P : LenPacket → Prop} {pkt : LenPacket} (h : s.table = some pkt) :
    Holder s P ↔ AtTable s.sender ∧ P pkt := by
  unfold Holder AtTable
  cases s.sender <;> simp [h]

structure Inv (cfg : Config) (s : State) : Prop where
  present : s.panicked = false
  size : s.filledFields.size = cfg.shards.length
  words : Words s.filledFields
  length : s.tasks.length = cfg.shards.length
  holder : Holder s fun pkt => pkt.inner.length = headerOffset + cfg.len
  full : s.sender = .take ∨ s.table = none → ∀ i < cfg.shards.length, bit s.filledFields i = true
  tasks : ∀ (i : Nat) (t : Task), s.tasks[i]? = some t → TaskInv s.sender i (bit s.filledFields i) t
  sends : ∀ sent ∈ s.sends, sent.tasks.length = cfg.shards.length ∧ ∀ t ∈ sent.tasks, t.completed = 1

theorem Inv.lt (hi : Inv cfg s) {i : Nat} {t : Task} (ht : s.tasks[i]? = some t) : i < cfg.shards.length :=
  hi.length ▸ (List.getElem?_eq_some_iff.mp ht).1

/-- A running plan finds the table. -/
theorem Inv.table_of_running (hi : Inv cfg s) {i : Nat} {t : Task} (ht : s.tasks[i]? = some t)
    {written : List (Which × Bytes)} (hr : t.plan = .running written) : ∃ pkt, s.table = some pkt := by
  refine Option.ne_none_iff_exists'.mp fun hnone => ?_
  have hbit := hi.full (.inr hnone) i (hi.lt ht)
  rw [(hi.tasks i t ht).running written hr] at hbit
  cases hbit

theorem Inv.completed_of_running (hi : Inv cfg s) {i : Nat} {t : Task} (ht : s.tasks[i]? = some t)
    {written : List (Which × Bytes)} (hr : t.plan = .running written) : ¬Fresh s.sender i ∧ t.completed = 0 := by
  have hti := hi.tasks i t ht
  have hclear := hti.running written hr
  have hf : ¬Fresh s.sender i := fun hf => by rw [(hti.fresh hf).1] at hclear; cases hclear
  exact ⟨hf, by rw [hti.counted hf, hclear]; rfl⟩

/-- A plan moves on, and its count stays. -/
theorem Inv.setTask (hi : Inv cfg s) {i : Nat} {t u : Task} (ht : s.tasks[i]? = some t)
    (hc : u.completed = t.completed)
    (hr : ∀ written, u.plan = .running written → bit s.filledFields i = false) : Inv cfg (s.setTask i u) := by
  refine { hi with length := (List.length_set ..).trans hi.length, tasks := fun j w hw => ?_ }
  change (s.tasks.set i u)[j]? = some w at hw
  by_cases e : i = j
  · subst e
    rw [List.getElem?_set_self (hi.length ▸ hi.lt ht)] at hw
    cases hw
    have hti := hi.tasks i t ht
    exact ⟨hr, fun h => ⟨(hti.fresh h).1, hc.trans (hti.fresh h).2⟩, fun h => hc.trans (hti.counted h)⟩
  · rw [List.getElem?_set_ne e] at hw
    exact hi.tasks j w hw

/-! ## The sender -/

theorem inv_ready (hi : Inv cfg s) (h : step cfg s .ready = some s') : Inv cfg s' := by
  simp only [step, Option.ite_none_right_eq_some, Option.some.injEq] at h
  obtain ⟨⟨hs, hall⟩, rfl⟩ := h
  have hall := (allSet_iff hi.words).mp hall
  rw [hi.size] at hall
  have hh := hi.holder
  have ht := hi.tasks
  simp only [Holder, hs] at hh
  simp only [hs] at ht
  exact { hi with holder := hh, full := fun _ => hall, tasks := fun i t hit => ⟨(ht i t hit).1, (ht i t hit).2, (ht i t hit).3⟩ }

theorem inv_take (hi : Inv cfg s) (h : step cfg s .take = some s') : Inv cfg s' := by
  simp only [step, Option.ite_none_right_eq_some] at h
  obtain ⟨hs, h⟩ := h
  have hh := hi.holder
  have ht := hi.tasks
  simp only [Holder, hs] at hh
  simp only [hs] at ht
  obtain ⟨pkt, hpkt, hlen⟩ := hh
  rw [hpkt] at h
  cases h
  exact { hi with
    holder := ⟨rfl, hlen⟩
    full := fun _ => hi.full (.inl hs)
    tasks := fun i t hit => ⟨(ht i t hit).1, (ht i t hit).2, (ht i t hit).3⟩ }

theorem inv_send (hi : Inv cfg s) {ok : Bool} (h : step cfg s (.send ok) = some s') : Inv cfg s' := by
  have hh := hi.holder
  have ht := hi.tasks
  simp only [step] at h
  split at h
  next pkt hs =>
    simp only [Holder, hs] at hh
    simp only [hs] at ht
    have hfull := hi.full (.inr hh.1)
    have hone : ∀ t ∈ s.tasks, t.completed = 1 := by
      intro t hmem
      obtain ⟨i, hit⟩ := List.mem_iff_getElem?.mp hmem
      rw [(ht i t hit).counted id, hfull i (hi.lt hit)]
      rfl
    split at h
    · cases h
      refine { hi with
        length := (List.length_map ..).trans hi.length
        holder := ⟨hh.1, ?_⟩
        full := fun _ => hfull
        tasks := fun i t hit => ?_
        sends := fun sent hmem => ?_ }
      · show (overwrite pkt.inner 7 [cfg.reqId]).length = _
        rw [length_overwrite]
        · exact hh.2
        · rw [hh.2]
          simp only [headerOffset, packetHeaderLen, List.length_singleton]
          omega
      · rw [List.getElem?_map, Option.map_eq_some_iff] at hit
        obtain ⟨u, hu, rfl⟩ := hit
        exact ⟨(ht i u hu).running, fun _ => ⟨hfull i (hi.lt hu), rfl⟩, fun h => absurd trivial h⟩
      · rcases List.mem_append.mp hmem with hmem | hmem
        · exact hi.sends sent hmem
        · rw [List.mem_singleton.mp hmem]
          exact ⟨hi.length, hone⟩
    · cases h
      exact { hi with
        holder := hh.1
        full := fun _ => hfull
        tasks := fun i t hit => ⟨(ht i t hit).1, (ht i t hit).2, (ht i t hit).3⟩ }
  · cases h

theorem inv_replacePkt (hi : Inv cfg s) (h : step cfg s .replacePkt = some s') : Inv cfg s' := by
  have hh := hi.holder
  have ht := hi.tasks
  simp only [step] at h
  split at h
  next pkt hs =>
    cases h
    simp only [Holder, hs] at hh
    simp only [hs] at ht
    refine { hi with
      holder := ⟨pkt, rfl, hh.2⟩
      full := fun h => h.elim (by simp) (by simp)
      tasks := fun i t hit => ⟨(ht i t hit).running, fun _ => (ht i t hit).fresh trivial, fun h => absurd (Nat.zero_le _) h⟩ }
  · cases h

/-- Clearing one word frees the plans of its fields. -/
theorem inv_notify (hi : Inv cfg s) (h : step cfg s .notify = some s') : Inv cfg s' := by
  have hh := hi.holder
  have ht := hi.tasks
  simp only [step] at h
  split at h
  next word hs =>
    simp only [Holder, hs] at hh
    simp only [hs] at ht
    obtain ⟨pkt, hpkt, hlen⟩ := hh
    split at h
    · cases h
      refine { hi with
        size := hi.size
        words := words_clearWord hi.words word
        holder := ⟨pkt, hpkt, hlen⟩
        full := fun h => h.elim (by simp) (by simp [hpkt])
        tasks := fun i t hit => ?_ }
      have hti := ht i t hit
      simp only [bit_clearWord]
      refine ⟨fun written hr => by rw [hti.running written hr]; rfl, fun hf => ?_, fun hf => ?_⟩
      · have hlt : word + 1 ≤ i / 64 := hf
        obtain ⟨hb, hc⟩ := hti.fresh (show word ≤ i / 64 by omega)
        exact ⟨by rw [hb, Bool.true_and]; exact decide_eq_true (by omega), hc⟩
      · have hlt : ¬word + 1 ≤ i / 64 := hf
        by_cases e : i / 64 = word
        · rw [(hti.fresh (show word ≤ i / 64 by omega)).2, decide_eq_false (not_not_intro e), Bool.and_false]
          rfl
        · rw [hti.counted (show ¬word ≤ i / 64 by omega), decide_eq_true e, Bool.and_true]
    next hw =>
      cases h
      refine { hi with
        holder := ⟨pkt, hpkt, hlen⟩
        full := fun h => h.elim (by simp) (by simp [hpkt])
        tasks := fun i t hit => ⟨(ht i t hit).running, nofun, fun _ => (ht i t hit).counted ?_⟩ }
      intro hf
      have hlt := hi.words.word_lt (hi.size ▸ hi.lt hit)
      have hle : word ≤ i / 64 := hf
      omega
  · cases h

/-! ## The plans -/

theorem inv_writeable (hi : Inv cfg s) {i : Nat} (h : step cfg s (.writeable i) = some s') : Inv cfg s' := by
  simp only [step, Option.bind_eq_bind, Option.bind_eq_some_iff, Option.ite_none_right_eq_some, Option.some.injEq] at h
  obtain ⟨t, ht, ⟨-, hw⟩, rfl⟩ := h
  refine hi.setTask ht rfl fun written _ => ?_
  rw [writeable, get_eq hi.words (hi.size ▸ hi.lt ht), Option.getD_some, Bool.not_eq_true'] at hw
  exact hw

/-- A write stays within the packet. -/
theorem length_withBuf {pkt : LenPacket} {shard : Shard} {which : Which} {f : Impl.VTableStream.Field} {bytes : Bytes}
    (hs : shard ∈ cfg.shards) (hf : f ∈ shard.field which) (hb : bytes.length = f.stop - f.start)
    (hl : pkt.inner.length = headerOffset + cfg.len) : headerOffset + f.start + bytes.length ≤ pkt.inner.length := by
  have := cfg.inTable shard hs which f hf
  omega

theorem inv_withBuf (hi : Inv cfg s) {i : Nat} {which : Which} {bytes : Bytes}
    (h : step cfg s (.withBuf i which bytes) = some s') : Inv cfg s' := by
  simp only [step, Option.bind_eq_bind, Option.bind_eq_some_iff] at h
  obtain ⟨t, ht, shard, hshard, f, hf, h⟩ := h
  split at h
  next written hr =>
    simp only [Option.ite_none_right_eq_some] at h
    obtain ⟨hb, h⟩ := h
    obtain ⟨pkt, hpkt⟩ := hi.table_of_running ht hr
    rw [hpkt] at h
    cases h
    have hset := hi.setTask (u := { t with plan := .running (written ++ [(which, bytes)]) }) ht rfl
      fun _ _ => (hi.tasks i t ht).running written hr
    have hlen (hl : pkt.inner.length = headerOffset + cfg.len) :
        (withBuf pkt f bytes).inner.length = headerOffset + cfg.len := by
      have hle := length_withBuf (List.mem_of_getElem? hshard) hf hb hl
      exact (length_overwrite hle).trans hl
    obtain ⟨hat, hl⟩ := (holder_iff hpkt).mp hi.holder
    exact { hset with
      holder := (holder_iff rfl).mpr ⟨hat, hlen hl⟩
      full := fun h => hi.full (.inl (h.resolve_right (by simp))) }
  · cases h

theorem inv_endIteration (hi : Inv cfg s) {i : Nat} {finished : Bool}
    (h : step cfg s (.endIteration i finished) = some s') : Inv cfg s' := by
  simp only [step, Option.bind_eq_bind, Option.bind_eq_some_iff] at h
  obtain ⟨t, ht, h⟩ := h
  split at h
  next written hr =>
    split at h
    · cases h
      obtain ⟨hnf, hzero⟩ := hi.completed_of_running ht hr
      obtain ⟨v', hv, hsize, hwords, hbit⟩ := set_true hi.words (i := i) (hi.size ▸ hi.lt ht)
      rw [hv, Option.getD_some]
      refine { hi with
        size := hsize.trans hi.size
        words := hwords
        length := (List.length_set ..).trans hi.length
        holder := hi.holder
        full := fun h j hj => by rw [hbit, hi.full h j hj]; rfl
        tasks := fun j u hu => ?_ }
      change (s.tasks.set i _)[j]? = some u at hu
      by_cases e : i = j
      · subst e
        rw [List.getElem?_set_self (hi.length ▸ hi.lt ht)] at hu
        cases hu
        refine ⟨nofun, fun hf => absurd hf hnf, fun _ => ?_⟩
        dsimp only
        rw [hbit, decide_eq_true rfl, Bool.or_true, hzero]
        rfl
      · rw [List.getElem?_set_ne e] at hu
        dsimp only
        rw [hbit, decide_eq_false (Ne.symm e), Bool.or_false]
        exact hi.tasks j u hu
    · cases h
      exact hi.setTask ht rfl nofun
  · cases h

theorem inv_fail (hi : Inv cfg s) {i : Nat} (h : step cfg s (.fail i) = some s') : Inv cfg s' := by
  simp only [step, Option.bind_eq_bind, Option.bind_eq_some_iff] at h
  obtain ⟨t, ht, h⟩ := h
  split at h
  · cases h
    exact hi.setTask ht rfl nofun
  · cases h

theorem step_inv (hi : Inv cfg s) {a : Act} (h : step cfg s a = some s') : Inv cfg s' := by
  cases a with
  | ready => exact inv_ready hi h
  | take => exact inv_take hi h
  | send ok => exact inv_send hi h
  | replacePkt => exact inv_replacePkt hi h
  | notify => exact inv_notify hi h
  | writeable i => exact inv_writeable hi h
  | withBuf i which bytes => exact inv_withBuf hi h
  | endIteration i finished => exact inv_endIteration hi h
  | fail i => exact inv_fail hi h

theorem length_table (cfg : Config) : cfg.table.inner.length = headerOffset + cfg.len := by
  have hc : Visitor.Counted (.table cfg.id) := rfl
  rw [length_inner, Config.table, (pushes_spec hc cfg.len).2]
  simp [content, LenPacket.table, LenPacket.new, headerOffset, packetHeaderLen]

theorem inv_init (cfg : Config) : Inv cfg cfg.init where
  present := rfl
  size := rfl
  words := words_new _
  length := List.length_map ..
  holder := ⟨_, rfl, length_table cfg⟩
  full := fun h => h.elim nofun nofun
  tasks := fun i t ht => by
    obtain ⟨shard, -, rfl⟩ := Option.map_eq_some_iff.mp ((List.getElem?_map ..).symm.trans ht)
    exact ⟨nofun, nofun, fun _ => (congrArg Bool.toNat (bit_new _ i)).symm⟩
  sends := nofun

end Metor.Proof.FieldTable
