import Metor.Lib.Run
import Metor.Proof.Disruptor.Wal
import Metor.Proof.MsgLog.Persist
import Metor.Proof.TimeSeries.Search
import Metor.Spec.MsgLog

/-!
# Message logs pushed to in time order

`push` compares no timestamps, and nor does what follows it. If each message
comes with a timestamp no earlier than those before it (`InTimeOrder`), what is
persisted and what the WAL holds are in time order together (`LogInv`), so the
nodes are sorted and the searches right. A log whose WAL is a ring of bytes is
such a log, as long as the ring loses nothing (`ring_sim`), which gives
`run_queryable`. A client may as well send an earlier message
(`earlier_push_not_queryable`).
-/

namespace Metor.Proof.MsgLog

open Metor.Lib Metor.Impl Metor.Impl.Msg Metor.Proof.Disruptor Metor.Proof.TimeSeries
open Metor.Impl.Disruptor (Record WalAct Wal)

/-! ## Timestamps in time order -/

/-- The nodes from the newest on: none is empty, and their timestamps do not increase on the way down. -/
structure Descending (nodes : List (List Int)) : Prop where
  ne_nil : ∀ ts ∈ nodes, ts ≠ []
  sorted : ∀ ts ∈ nodes, ts.Pairwise (· ≤ ·)
  across : nodes.Pairwise fun new old => ∀ x ∈ old, ∀ y ∈ new, x ≤ y

/-- Persisting a message no earlier than those of the log. -/
theorem persisted_descending {old new : List (List Int)} {t : Int} (h : Persisted t old new) (ho : Descending old)
    (ht : ∀ ts ∈ old, ∀ x ∈ ts, x ≤ t) : Descending new ∧ ∀ ts ∈ new, ∀ x ∈ ts, x ≤ t ∨ ∃ ts' ∈ old, x ∈ ts' := by
  cases h with
  | refused => exact ⟨ho, fun ts hts x hx => .inr ⟨ts, hts, hx⟩⟩
  | newNode =>
    refine ⟨⟨List.forall_mem_cons.mpr ⟨by simp, ho.ne_nil⟩,
      List.forall_mem_cons.mpr ⟨List.pairwise_singleton _ _, ho.sorted⟩,
      List.pairwise_cons.mpr ⟨fun ts hts x hx y hy => ?_, ho.across⟩⟩, fun ts hts x hx => ?_⟩
    · rw [List.mem_singleton.mp hy]
      exact ht ts hts x hx
    · rcases List.mem_cons.mp hts with rfl | hts
      · exact .inl (List.mem_singleton.mp hx).le
      · exact .inr ⟨ts, hts, hx⟩
  | within ts older e =>
    subst e
    obtain ⟨hts, holder⟩ := List.forall_mem_cons.mp ht
    obtain ⟨hsorted, hsorted'⟩ := List.forall_mem_cons.mp ho.sorted
    obtain ⟨hacross, hacross'⟩ := List.pairwise_cons.mp ho.across
    refine ⟨⟨List.forall_mem_cons.mpr ⟨by simp, (List.forall_mem_cons.mp ho.ne_nil).2⟩,
      List.forall_mem_cons.mpr ⟨?_, hsorted'⟩, List.pairwise_cons.mpr ⟨fun us hus x hx y hy => ?_, hacross'⟩⟩,
      fun us hus x hx => ?_⟩
    · refine List.pairwise_append.mpr ⟨hsorted, List.pairwise_singleton _ _, fun x hx y hy => ?_⟩
      rw [List.mem_singleton.mp hy]
      exact hts x hx
    · rcases List.mem_append.mp hy with hy | hy
      · exact hacross us hus x hx y hy
      · rw [List.mem_singleton.mp hy]
        exact holder us hus x hx
    · rcases List.mem_cons.mp hus with rfl | hus
      · rcases List.mem_append.mp hx with hx | hx
        · exact .inr ⟨ts, List.mem_cons_self, hx⟩
        · exact .inl (List.mem_singleton.mp hx).le
      · exact .inr ⟨us, List.mem_cons_of_mem _ hus, hx⟩

/-! ## The invariant -/

structure LogInv (s : State) : Prop where
  node : ∀ n ∈ s.list, NodeInv n
  descending : Descending (stamps s.list)
  recorded : ∀ r ∈ s.wal, Recorded r
  /-- What the WAL holds is in time order. -/
  wal : s.wal.Pairwise fun r r' => r.1 ≤ r'.1
  /-- And no earlier than what is persisted. -/
  later : ∀ r ∈ s.wal, ∀ ts ∈ stamps s.list, ∀ x ∈ ts, x ≤ r.1

theorem new_logInv : LogInv new := ⟨nofun, ⟨nofun, nofun, .nil⟩, nofun, .nil, nofun⟩

/-- The oldest record of the WAL is persisted. -/
theorem persistMsg_inv {list : MsgLog} {r : Int × Bytes} {wal : List (Int × Bytes)} (h : LogInv ⟨list, r :: wal⟩) :
    LogInv ⟨(list.persistMsg r.1 r.2).2, wal⟩ := by
  obtain ⟨hr, hwal⟩ := List.forall_mem_cons.mp h.recorded
  obtain ⟨hle, hpair⟩ := List.pairwise_cons.mp h.wal
  obtain ⟨hlater, hlater'⟩ := List.forall_mem_cons.mp h.later
  obtain ⟨hnode, hp⟩ := persistMsg_spec h.node r.1 hr.2
  obtain ⟨hdesc, hnew⟩ := persisted_descending hp h.descending hlater
  refine ⟨hnode, hdesc, hwal, hpair, fun r' hr' ts hts x hx => ?_⟩
  rcases hnew ts hts x hx with hx | ⟨ts', hts', hx⟩
  · exact hx.trans (hle r' hr')
  · exact hlater' r' hr' ts' hts' x hx

theorem persist_inv {list : MsgLog} {recs wal : List (Int × Bytes)} (h : LogInv ⟨list, recs ++ wal⟩) :
    LogInv ⟨recs.foldl (fun list r => (list.persistMsg r.1 r.2).2) list, wal⟩ := by
  induction recs generalizing list with
  | nil => exact h
  | cons r recs ih => exact ih (persistMsg_inv h)

theorem step_inv {s s' : State} {a : Act} (hs : LogInv s) (hok : InTimeOrder s a) (h : step s a = some s') :
    LogInv s' := by
  cases a with
  | push t msg =>
    simp only [step, Option.ite_none_right_eq_some, Option.some.injEq] at h
    obtain ⟨hrec, rfl⟩ := h
    obtain ⟨hwal, hlist⟩ := hok
    refine ⟨hs.node, hs.descending, fun r hr => ?_, ?_, fun r hr ts hts x hx => ?_⟩
    · rcases List.mem_append.mp hr with hr | hr
      · exact hs.recorded r hr
      · rw [List.mem_singleton.mp hr]
        exact hrec
    · refine List.pairwise_append.mpr ⟨hs.wal, List.pairwise_singleton _ _, fun r hr r' hr' => ?_⟩
      rw [List.mem_singleton.mp hr']
      exact hwal r hr
    · rcases List.mem_append.mp hr with hr | hr
      · exact hs.later r hr ts hts x hx
      · rw [List.mem_singleton.mp hr]
        obtain ⟨n, hn, rfl⟩ := List.mem_map.mp hts
        exact hlist n hn x hx
  | walFull =>
    cases h
    exact hs
  | persist n =>
    simp only [step, Option.ite_none_right_eq_some, Option.some.injEq] at h
    obtain ⟨-, rfl⟩ := h
    rw [persistLoop_records _ fun r hr => hs.recorded r (List.mem_of_mem_take hr)]
    apply persist_inv
    rw [List.take_append_drop]
    exact hs

/-! ## The searches -/

theorem valid_of_inv {s : State} (h : LogInv s) : s.list.Valid := by
  refine ⟨fun n hn => ?_, List.pairwise_map.mp h.descending.across⟩
  have hmem : n.timestamps ∈ stamps s.list := List.mem_map_of_mem hn
  exact ⟨h.descending.ne_nil _ hmem, h.descending.sorted _ hmem, stored (h.node n hn)⟩

/-- `get` finds the timestamp in the newest node that has it. -/
theorem get_spec {list full : MsgLog} (hl : list <:+ full) (hv : ∀ n ∈ list, n.Valid) {t : Int}
    (ht : ∃ n ∈ list, t ∈ n.timestamps) : ∃ r, list.get t = some r ∧ r.timestamp = t ∧ r.Stored full := by
  induction list with
  | nil =>
    obtain ⟨n, hn, -⟩ := ht
    exact (List.not_mem_nil hn).elim
  | cons head prev ih =>
    obtain ⟨hhead, hprev⟩ := List.forall_mem_cons.mp hv
    obtain ⟨hfound, hmissing⟩ := binarySearch_spec hhead.sorted t
    by_cases hmem : t ∈ head.timestamps
    · have hpos : 0 < upTo head.timestamps t := List.countP_pos_iff.mpr ⟨t, hmem, by simp⟩
      have hlt : upTo head.timestamps t - 1 < head.timestamps.length := by
        have := upTo_le head.timestamps t
        omega
      have hdata := hhead.stored _ hlt
      refine ⟨⟨⟨head, prev⟩, t, upTo head.timestamps t - 1⟩, ?_, rfl, hl, ?_, hdata⟩
      · have hnone : (head.bufs.getMsg (upTo head.timestamps t - 1)).isNone = false := by
          rw [← Option.not_isSome, hdata]
          rfl
        simp only [MsgLog.get, hfound hmem, hnone]
        rfl
      · exact getElem?_upTo hhead.sorted hmem
    · have e : MsgLog.get (head :: prev) t = MsgLog.get prev t := by
        simp only [MsgLog.get, hmissing hmem]
      rw [e]
      refine ih ((List.suffix_cons head prev).trans hl) hprev ?_
      obtain ⟨n, hn, hn'⟩ := ht
      rcases List.mem_cons.mp hn with rfl | hn
      · exact absurd hn' hmem
      · exact ⟨n, hn, hn'⟩

/-- The latest message is the last of the newest node. -/
theorem latest_spec {list : MsgLog} (hv : list.Valid) {n : MsgLogNode} (hn : n ∈ list) {t : Int} (ht : t ∈ n.timestamps) :
    ∃ r, list.latest = some r ∧ t ≤ r.timestamp ∧ r.Stored list := by
  cases list with
  | nil => exact (List.not_mem_nil hn).elim
  | cons head prev =>
    have hhead := hv.node head List.mem_cons_self
    have hlen : 0 < head.timestamps.length := List.length_pos_iff.mpr hhead.ne_nil
    have hlast := List.getLast?_eq_some_getLast hhead.ne_nil
    refine ⟨⟨⟨head, prev⟩, head.timestamps.getLast hhead.ne_nil, head.timestamps.length - 1⟩, ?_, ?_,
      List.suffix_refl _, ?_, hhead.stored _ (Nat.sub_lt hlen Nat.one_pos)⟩
    · rw [MsgLog.latest, hlast]
      rfl
    · show t ≤ head.timestamps.getLast hhead.ne_nil
      rcases List.mem_cons.mp hn with rfl | hn
      · exact le_of_getLast? hhead.sorted hlast ht
      · exact (List.pairwise_cons.mp hv.across).1 n hn t ht _ (List.getLast_mem _)
    · rw [← List.getLast?_eq_getElem?]
      exact hlast

theorem queryable_of_valid {list : MsgLog} (hv : list.Valid) : list.Queryable :=
  ⟨fun n hn => (hv.node n hn).sorted, fun n hn _ ht => get_spec (List.suffix_refl list) hv.node ⟨n, hn, ht⟩,
    fun _ hn _ ht => latest_spec hv hn ht⟩

/-! ## The ring -/

section
variable {s t : Ring} {a : RingAct}

/-- The record that a step commits. -/
def committed (s : Ring) : RingAct → Option Record
  | .wal a => s.wal.committed a
  | .next | .persist => none

/-- The writers lose nothing of the ring. -/
def Lossless (s : Ring) : RingAct → Prop
  | .wal a => WalFresh s.wal a
  | .next | .persist => True

/-- The log, with the records that its WAL has still to release. -/
def ideal (s : Ring) : State := ⟨s.list, (queue s.wal).map fun b => (i64OfBytes (b.take 8), b.drop (8 + 4))⟩

/-- The ring loses nothing, and a message is committed with a timestamp no earlier than those committed before. -/
def Orderly (s : Ring) (a : RingAct) : Prop :=
  Lossless s a ∧ ∀ r ∈ committed s a, InTimeOrder (ideal s) (.push r.1 r.2)

/-- The WAL, whose records are those of messages; `P` holds of the ones that are pushed, and `Q` of the ones that are
committed. -/
structure RingInv (P Q : Record → Prop) (s : Ring) : Prop where
  wal : WalInv Ring.encode s.wal
  cap : s.wal.ring.cap = walSize
  carries : Carries Ring.encode (fun r => IsI64 r.1 ∧ P r) (fun r => Recorded r ∧ Q r) s.wal

theorem length_encode (r : Record) : (Ring.encode r).length = 8 + 4 + r.2.length := by
  simp only [Ring.encode, Msg.record, List.length_append, length_i64Bytes, length_leBytes]

theorem timestamp_encode {r : Record} (h : IsI64 r.1) : i64OfBytes ((Ring.encode r).take 8) = r.1 := by
  rw [Ring.encode, Msg.record, List.append_assoc, List.take_left' (length_i64Bytes _), i64OfBytes_i64Bytes h]

theorem decode_encode {r : Record} (h : IsI64 r.1) :
    (i64OfBytes ((Ring.encode r).take 8), (Ring.encode r).drop (8 + 4)) = r := by
  have hdrop : (Ring.encode r).drop (8 + 4) = r.2 := by
    rw [Ring.encode, Msg.record]
    exact List.drop_left' (by rw [List.length_append, length_i64Bytes, length_leBytes])
  rw [timestamp_encode h, hdrop]

theorem decode_map {recs : List Record} (h : ∀ r ∈ recs, IsI64 r.1) :
    (recs.map Ring.encode).map (fun b => (i64OfBytes (b.take 8), b.drop (8 + 4))) = recs := by
  rw [List.map_map]
  exact (List.map_congr_left fun r hr => decode_encode (h r hr)).trans (List.map_id _)

theorem new_ringInv (P Q : Record → Prop) (list : MsgLog) : RingInv P Q ⟨list, .new walSize⟩ := by
  refine ⟨new_walInv _ _, ?_, nofun, nofun, [], rfl, nofun⟩
  exact List.length_replicate

theorem ring_inv {P Q Q' : Record → Prop} (hs : RingInv P Q s) (hok : Lossless s a)
    (hload : ∀ b, a = .wal b → ∀ r ∈ b.loaded, P r) (hQ : ∀ r, Q r → Q' r)
    (hcommit : ∀ r ∈ committed s a, P r → Q' r) (h : s.step a = some t) : RingInv P Q' t := by
  cases a with
  | wal b =>
    simp only [Ring.step, Option.ite_none_right_eq_some, Option.map_eq_some_iff] at h
    obtain ⟨hi, wal, hwal, rfl⟩ := h
    have hstepped := step_wal hs.wal hok hwal
    refine ⟨hstepped.inv, hstepped.cap.trans hs.cap, step_carries hs.carries hs.wal hok hwal
      (fun r hr => ⟨hi r hr, hload b rfl r hr⟩) (fun r hr => ⟨hr.1, hQ r hr.2⟩) fun r hr hP hlen => ?_⟩
    rw [hs.cap, length_encode] at hlen
    exact ⟨⟨hP.1, hlen⟩, hcommit r hr hP.2⟩
  | next =>
    obtain ⟨wal, hwal, rfl⟩ := Option.map_eq_some_iff.mp h
    obtain ⟨hinv, hcap, -⟩ := next_wal hs.wal hwal
    exact ⟨hinv, hcap.trans hs.cap, (next_carries hs.carries hs.wal hwal).mono fun r hr => ⟨hr.1, hQ r hr.2⟩⟩
  | persist =>
    simp only [Ring.step, Option.bind_eq_bind, Option.bind_eq_some_iff, Option.pure_def, Option.some.injEq] at h
    obtain ⟨buf, hbuf, wal, hwal, rfl⟩ := h
    obtain ⟨hinv, hcap, -, -⟩ := release_wal hs.wal hbuf hwal
    exact ⟨hinv, hcap.trans hs.cap, (release_carries hs.carries hs.wal hbuf hwal).1.mono fun r hr => ⟨hr.1, hQ r hr.2⟩⟩

/-- What `persist` adds to the log is records that were committed. -/
theorem persist_eq {P Q : Record → Prop} (hs : RingInv P Q s) (h : s.step .persist = some t) :
    ∃ recs : List Record, heldRecords s.wal = recs.map Ring.encode ∧ (∀ r ∈ recs, Recorded r ∧ Q r) ∧
      t.list = persistLoop (recs.flatMap fun r => Msg.record r.1 r.2) s.list := by
  simp only [Ring.step, Option.bind_eq_bind, Option.bind_eq_some_iff, Option.pure_def, Option.some.injEq] at h
  obtain ⟨buf, hbuf, wal, hwal, rfl⟩ := h
  obtain ⟨-, recs, hheld, rfl, hall⟩ := release_carries hs.carries hs.wal hbuf hwal
  exact ⟨recs, hheld, hall, rfl⟩

/-- A log on its ring is a log whose WAL is a queue: a commit pushes, and `persist` persists what it holds. -/
theorem ring_sim {P Q : Record → Prop} (hs : RingInv P Q s) (hok : Lossless s a) (h : s.step a = some t) :
    committed s a = none ∧ ideal t = ideal s ∨
      (∃ r ∈ committed s a, Msg.step (ideal s) (.push r.1 r.2) = some (ideal t)) ∨
      ∃ n, committed s a = none ∧ Msg.step (ideal s) (.persist n) = some (ideal t) := by
  cases a with
  | wal b =>
    simp only [Ring.step, Option.ite_none_right_eq_some, Option.map_eq_some_iff] at h
    obtain ⟨-, wal, hwal, rfl⟩ := h
    have hstepped := step_wal hs.wal hok hwal
    cases hr : s.wal.committed b with
    | none =>
      refine .inl ⟨hr, ?_⟩
      simp only [ideal, hstepped.queue, hr, Option.toList_none, List.map_nil, List.append_nil]
    | some r =>
      have hlen := hstepped.fits r hr
      rw [hs.cap, length_encode] at hlen
      have hi : IsI64 r.1 := by
        cases b with
        | commit => exact (hs.carries.writing r hr).1
        | _ => cases hr
      refine .inr (.inl ⟨r, hr, ?_⟩)
      simp only [Msg.step, if_pos (And.intro hi hlen), ideal, hstepped.queue, hr, Option.toList_some, List.map_cons,
        List.map_nil, List.map_append, decode_encode hi]
  | next =>
    obtain ⟨wal, hwal, rfl⟩ := Option.map_eq_some_iff.mp h
    obtain ⟨-, -, hqueue⟩ := next_wal hs.wal hwal
    refine .inl ⟨rfl, ?_⟩
    simp only [ideal, hqueue]
  | persist =>
    obtain ⟨recs, hheld, hall, hlist⟩ := persist_eq hs h
    simp only [Ring.step, Option.bind_eq_bind, Option.bind_eq_some_iff, Option.pure_def, Option.some.injEq] at h
    obtain ⟨buf, hbuf, wal, hwal, rfl⟩ := h
    obtain ⟨-, -, hqueue, -⟩ := release_wal hs.wal hbuf hwal
    have hwal' : (ideal s).wal = recs ++ (ideal ⟨persistLoop buf s.list, wal⟩).wal := by
      show (queue s.wal).map _ = _
      rw [hqueue, hheld, List.map_append, decode_map fun r hr => (hall r hr).1.1]
      rfl
    refine .inr (.inr ⟨recs.length, rfl, ?_⟩)
    simp only [Msg.step, hwal', List.length_append, Nat.le_add_right, if_true, List.take_left, List.drop_left]
    exact congrArg some (congrArg (State.mk · _) hlist.symm)

/-- In every run whose messages are committed in time order to a ring that loses nothing, the log is sorted and its
searches are right. -/
theorem run_queryable (h : Run Ring.step Orderly .new s) : s.list.Queryable := by
  have hnone : ∀ {Q : Record → Prop} (r : Record), Q r → True := fun _ _ => trivial
  have hsim : RingInv (fun _ => True) (fun _ => True) s ∧ Run Msg.step InTimeOrder (ideal .new) (ideal s) :=
    h.simulate ideal (fun hs hok ht => ring_inv hs hok.1 (fun _ _ _ _ => trivial) hnone (fun _ _ _ => trivial) ht)
      (fun hs hok ht => by
        rcases ring_sim hs hok.1 ht with ⟨-, e⟩ | ⟨r, hr, e⟩ | ⟨n, -, e⟩
        · exact .inl e
        · exact .inr ⟨.push r.1 r.2, hok.2 r hr, e⟩
        · exact .inr ⟨.persist n, trivial, e⟩)
      (new_ringInv _ _ [])
  exact queryable_of_valid (valid_of_inv (hsim.2.invariant step_inv new_logInv))

end

/-! ## Two messages -/

/-- The first records of a ring are committed, and not read. -/
structure Filled (list : MsgLog) (recs : List Record) (s : Ring) (ringbuf : Bytes) (log : List Disruptor.Write) (c : Nat) :
    Prop where
  eq : s = ⟨list, ⟨⟨⟨ringbuf, ⟨c, c⟩, [⟨0, none, 0, []⟩], none, log⟩, [], none⟩, [], none⟩⟩
  length : ringbuf.length = walSize
  log : log.map (·.bytes) = recs.map Ring.encode
  slice : slice ringbuf 0 c = (recs.map Ring.encode).flatten
  recorded : ∀ r ∈ recs, IsI64 r.1

theorem new_filled : Filled [] [] .new (.replicate walSize 0) [] 0 :=
  ⟨rfl, List.length_replicate, rfl, rfl, nofun⟩

theorem ideal_filled {list : MsgLog} {recs : List Record} {s : Ring} {ringbuf : Bytes} {log : List Disruptor.Write}
    {c : Nat} (h : Filled list recs s ringbuf log c) : ideal s = ⟨list, recs⟩ := by
  have hne : ∀ w ∈ log, w.bytes ≠ [] := by
    intro w hw
    have hmem : w.bytes ∈ recs.map Ring.encode := h.log ▸ List.mem_map_of_mem hw
    obtain ⟨r, -, hr⟩ := List.mem_map.mp hmem
    rw [← hr, ← List.length_pos_iff, length_encode]
    omega
  have hqueue : queue s.wal = log.map (·.bytes) := by
    rw [h.eq]
    exact congrArg _ (dropBytes_append [] hne)
  rw [ideal, hqueue, h.log, decode_map h.recorded, h.eq]

/-- There is room for a record after the others. -/
theorem reserve_filled {c n cap : Nat} (hn : 0 < n) (hroom : c + n < cap) :
    Disruptor.reserve ⟨c, c⟩ [0] cap (c % cap) n = .ok (⟨c, c + n⟩, ⟨c, c + n⟩) := by
  have hcan : Disruptor.canWrite [0] n c cap = true := by
    refine canWrite_iff.mpr fun d hd => ?_
    rw [List.mem_singleton.mp hd, Nat.zero_mod]
    omega
  rw [Nat.mod_eq_of_lt (by omega)]
  simp only [Disruptor.reserve, hcan, Bool.not_true, Bool.false_eq_true, if_false,
    if_neg (show ¬n > cap by omega), if_neg (show ¬c + n > cap by omega), if_pos (show c + n > c by omega)]

/-- A message that is pushed alone, after the others. -/
theorem push_filled (ok : Ring → RingAct → Prop) {list : MsgLog} {recs : List Record} {s : Ring} {ringbuf : Bytes}
    {log : List Disruptor.Write} {c : Nat} {r : Record} (h : Filled list recs s ringbuf log c) (hi : IsI64 r.1)
    (hroom : c + (Ring.encode r).length < walSize)
    (hok : ∀ t b, WalFresh t.wal b → (∀ r' ∈ t.wal.committed b, r' = r ∧ ideal t = ⟨list, recs⟩) → ok t (.wal b)) :
    ∃ t ringbuf' log', Run Ring.step ok s t ∧
      Filled list (recs ++ [r]) t ringbuf' log' (c + (Ring.encode r).length) := by
  have hideal := ideal_filled h
  obtain ⟨rfl, hlen, hlog, hslice, hrecs⟩ := h
  have hn : 0 < (Ring.encode r).length := by rw [length_encode]; omega
  generalize hnlen : (Ring.encode r).length = n at hroom hn ⊢
  have hcap : ringbuf.length ≠ 0 := by omega
  have hres := reserve_filled hn hroom
  have hle : c + (Ring.encode r).length ≤ ringbuf.length := by omega
  -- the states between: loaded, locked, granted, committed
  have h₁ : Ring.step ⟨list, ⟨⟨⟨ringbuf, ⟨c, c⟩, [⟨0, none, 0, []⟩], none, log⟩, [], none⟩, [], none⟩⟩ (.wal (.load r)) =
      some ⟨list, ⟨⟨⟨ringbuf, ⟨c, c⟩, [⟨0, none, 0, []⟩], none, log⟩, [(c % walSize, n)], none⟩, [r], none⟩⟩ := by
    rw [hlen] at hcap
    simp [Ring.step, WalAct.loaded, hi, Wal.step, Wal.ring, Disruptor.State.cap, Disruptor.wstep, hnlen, hn,
      Disruptor.loadWrite, hlen, Nat.pos_of_ne_zero hcap]
  have h₂ : Ring.step ⟨list, ⟨⟨⟨ringbuf, ⟨c, c⟩, [⟨0, none, 0, []⟩], none, log⟩, [(c % walSize, n)], none⟩, [r], none⟩⟩
      (.wal (.lock 0)) = some ⟨list, ⟨⟨⟨ringbuf, ⟨c, c⟩, [⟨0, none, 0, []⟩], none, log⟩, [],
        some (.locked (c % walSize) n)⟩, [], some r⟩⟩ := rfl
  have h₃ : Ring.step ⟨list, ⟨⟨⟨ringbuf, ⟨c, c⟩, [⟨0, none, 0, []⟩], none, log⟩, [], some (.locked (c % walSize) n)⟩,
      [], some r⟩⟩ (.wal .reserve) = some ⟨list, ⟨⟨⟨ringbuf, ⟨c, c + n⟩, [⟨0, none, 0, []⟩], some ⟨c, c + n⟩, log⟩, [],
        some .granted⟩, [], some r⟩⟩ := by
    simp [Ring.step, WalAct.loaded, Wal.step, Disruptor.wstep, Disruptor.reserveStep, Disruptor.State.cursors,
      Disruptor.State.cap, hlen, hres]
  have h₄ : Ring.step ⟨list, ⟨⟨⟨ringbuf, ⟨c, c + n⟩, [⟨0, none, 0, []⟩], some ⟨c, c + n⟩, log⟩, [], some .granted⟩, [],
      some r⟩⟩ (.wal .commit) = some ⟨list, ⟨⟨⟨overwrite ringbuf c (Ring.encode r), ⟨c + n, c + n⟩, [⟨0, none, 0, []⟩],
        none, log ++ [⟨⟨c, c + n⟩, Ring.encode r⟩]⟩, [], some .committed⟩, [], some r⟩⟩ := by
    have hwritten : slice (overwrite ringbuf c (Ring.encode r)) c (c + n) = Ring.encode r := by
      rw [← hnlen]
      exact slice_overwrite_self hle
    simp [Ring.step, WalAct.loaded, Wal.step, Disruptor.wstep, Disruptor.step, Disruptor.fillStep, hnlen,
      Disruptor.commitStep, Disruptor.commit, hwritten]
  have h₅ : Ring.step ⟨list, ⟨⟨⟨overwrite ringbuf c (Ring.encode r), ⟨c + n, c + n⟩, [⟨0, none, 0, []⟩],
      none, log ++ [⟨⟨c, c + n⟩, Ring.encode r⟩]⟩, [], some .committed⟩, [], some r⟩⟩ (.wal .unlock) =
      some ⟨list, ⟨⟨⟨overwrite ringbuf c (Ring.encode r), ⟨c + n, c + n⟩, [⟨0, none, 0, []⟩],
        none, log ++ [⟨⟨c, c + n⟩, Ring.encode r⟩]⟩, [], none⟩, [], none⟩⟩ := rfl
  have hsafe : WalFresh ⟨⟨⟨ringbuf, ⟨c, c⟩, [⟨0, none, 0, []⟩], none, log⟩, [], some (.locked (c % walSize) n)⟩, [],
      some r⟩ .reserve := by
    intro _
    refine ⟨congrArg (c % ·) hlen.symm, fun _ p hp => ?_⟩
    obtain rfl := List.mem_singleton.mp hp
    simp only [Wal.ring, Disruptor.State.cap]
    omega
  have hrun₂ := (Run.refl.snoc (hok _ (.load r) trivial fun r' hr' => (by cases hr')) h₁).snoc
    (hok _ (.lock 0) trivial fun r' hr' => (by cases hr')) h₂
  have hrun₃ := hrun₂.snoc (hok _ .reserve hsafe fun r' hr' => (by cases hr')) h₃
  have hrun₄ := hrun₃.snoc (hok _ .commit trivial fun r' hr' => ⟨(Option.some.inj hr').symm, hideal⟩) h₄
  have hrun₅ := hrun₄.snoc (hok _ .unlock trivial fun r' hr' => (by cases hr')) h₅
  refine ⟨_, _, _, hrun₅, rfl, (length_overwrite hle).trans hlen, ?_, ?_, ?_⟩
  · rw [List.map_append, List.map_append, hlog]
    rfl
  · rw [← slice_append _ (Nat.zero_le c) (Nat.le_add_right c n), slice_overwrite_of_disjoint hle (.inl (Nat.le_refl c)),
      hslice, ← hnlen, slice_overwrite_self hle, List.map_append, List.flatten_append]
    simp
  · exact List.forall_mem_append.mpr ⟨hrecs, List.forall_mem_singleton.mpr hi⟩

/-- All that was pushed is persisted. -/
theorem persist_filled (ok : Ring → RingAct → Prop) {list : MsgLog} {recs : List Record} {s : Ring} {ringbuf : Bytes}
    {log : List Disruptor.Write} {c : Nat} (h : Filled list recs s ringbuf log c) (hc : 0 < c)
    (hnext : ∀ t, ok t .next) (hpersist : ∀ t, ok t .persist) (hrecs : ∀ r ∈ recs, Recorded r) :
    ∃ t, Run Ring.step ok s t ∧ t.list = recs.foldl (fun list r => (list.persistMsg r.1 r.2).2) list := by
  obtain ⟨rfl, hlen, -, hslice, -⟩ := h
  have h₁ : Ring.step ⟨list, ⟨⟨⟨ringbuf, ⟨c, c⟩, [⟨0, none, 0, []⟩], none, log⟩, [], none⟩, [], none⟩⟩ .next =
      some ⟨list, ⟨⟨⟨ringbuf, ⟨c, c⟩, [⟨0, some ⟨0, 0 + c⟩, 0, [] ++ slice ringbuf 0 (0 + c)⟩], none, log⟩, [], none⟩,
        [], none⟩⟩ := by
    simp [Ring.step, Wal.next, Wal.persister, Wal.ring, Disruptor.wstep, Disruptor.Act.byReader, Disruptor.step,
      Disruptor.Reader.poll, Disruptor.tryNext, hc]
  have h₂ : Ring.step ⟨list, ⟨⟨⟨ringbuf, ⟨c, c⟩, [⟨0, some ⟨0, 0 + c⟩, 0, [] ++ slice ringbuf 0 (0 + c)⟩], none, log⟩,
      [], none⟩, [], none⟩⟩ .persist = some ⟨persistLoop (slice ringbuf 0 (0 + c)) list, ⟨⟨⟨ringbuf, ⟨c, c⟩,
        [⟨0 + c, none, 0, [] ++ slice ringbuf 0 (0 + c)⟩], none, log⟩, [], none⟩, [], none⟩⟩ := rfl
  refine ⟨_, (Run.refl.snoc (hnext _) h₁).snoc (hpersist _) h₂, ?_⟩
  show persistLoop (slice ringbuf 0 (0 + c)) list = _
  rw [Nat.zero_add, hslice]
  exact persistLoop_records recs hrecs list

/-- The log after two messages. -/
def afterTwo (t u : Int) : MsgLog := [(t, [7]), (u, [8])].foldl (fun list r => (list.persistMsg r.1 r.2).2) []

/-- A run in which a message of one byte is pushed at each of two times, and then both are persisted. -/
theorem run_two (ok : Ring → RingAct → Prop) {t u : Int} (ht : IsI64 t) (hu : IsI64 u) (hnext : ∀ s, ok s .next)
    (hpersist : ∀ s, ok s .persist)
    (hok : ∀ s b, WalFresh s.wal b → (∀ r ∈ s.wal.committed b, r = (t, [7]) ∧ ideal s = ⟨[], []⟩ ∨
      r = (u, [8]) ∧ ideal s = ⟨[], [(t, [7])]⟩) → ok s (.wal b)) :
    ∃ s, Run Ring.step ok .new s ∧ s.list = afterTwo t u := by
  have hsize : (Ring.encode (t, [7])).length = 13 ∧ (Ring.encode (u, [8])).length = 13 :=
    ⟨length_encode _, length_encode _⟩
  obtain ⟨s₁, buf₁, log₁, hrun₁, h₁⟩ := push_filled ok new_filled (r := (t, [7])) ht
    (by rw [hsize.1]; decide) fun s b hf hr => hok s b hf fun r hr' => .inl (hr r hr')
  obtain ⟨s₂, buf₂, log₂, hrun₂, h₂⟩ := push_filled ok h₁ (r := (u, [8])) hu
    (by rw [hsize.1, hsize.2]; decide) fun s b hf hr => hok s b hf fun r hr' => .inr (hr r hr')
  have hrecs : ∀ r ∈ [] ++ [(t, [7])] ++ [(u, [8])], Recorded r := by
    intro r hr
    rcases List.mem_cons.mp hr with rfl | hr
    · exact ⟨ht, show 8 + 4 + 1 ≤ walSize by decide⟩
    · rw [List.mem_singleton.mp hr]
      exact ⟨hu, show 8 + 4 + 1 ≤ walSize by decide⟩
  obtain ⟨s₃, hrun₃, hlist⟩ := persist_filled ok h₂ (by rw [hsize.1, hsize.2]; decide) hnext hpersist hrecs
  exact ⟨s₃, (hrun₁.trans hrun₂).trans hrun₃, hlist⟩

theorem run_queryable_two : ∃ s, Run Ring.step Orderly .new s ∧ s.list = afterTwo 1 2 ∧ s.list.Queryable := by
  obtain ⟨s, h, hlist⟩ := run_two Orderly (t := 1) (u := 2) (by decide) (by decide)
    (fun _ => ⟨trivial, nofun⟩) (fun _ => ⟨trivial, nofun⟩) fun s b hf hr => ⟨hf, fun r hr' => by
      rcases hr r hr' with ⟨rfl, e⟩ | ⟨rfl, e⟩ <;> rw [e] <;> decide⟩
  exact ⟨s, h, hlist, run_queryable h⟩

/-- The later message is pushed first: the node is not sorted. -/
theorem earlier_push_not_queryable : ¬∀ s : Ring, Run Ring.step Lossless .new s → s.list.Queryable := by
  intro h
  obtain ⟨s, hrun, hlist⟩ := run_two Lossless (t := 2) (u := 1) (by decide) (by decide)
    (fun _ => trivial) (fun _ => trivial) fun _ _ hf _ => hf
  have hq := h s hrun
  rw [hlist] at hq
  exact absurd (hq.sorted _ List.mem_cons_self) (by decide)

end Metor.Proof.MsgLog
