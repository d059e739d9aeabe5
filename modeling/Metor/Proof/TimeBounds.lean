import Metor.Proof.Component.Order
import Metor.Proof.MsgLog.Sorted
import Metor.Spec.TimeBounds

/-!
# The time bounds, over runs

Every record that a WAL has still to release is after `earliest_timestamp`, and
`last_updated` has been raised to it or is about to be (`Covered`). So what is
persisted is enclosed, as long as its push has raised `last_updated` and no
ring loses a record (`step_inv`). At opening, the bounds come from the first
and the last timestamps of nodes (`open_inv`).
-/

namespace Metor.Proof.TimeBounds

open Metor.Lib Metor.Impl Metor.Impl.TimeBounds Metor.Proof.Component Metor.Proof.MsgLog
open Metor.Impl.Disruptor (Record)
open Metor.Proof.Disruptor (WalInv WalFresh Carries heldRecords new_walInv step_wal step_carries next_wal next_carries
  release_wal release_carries)

/-! ## Sound steps -/

/-- The timestamp of a record of a WAL. -/
def timestampOf (record : Bytes) : Int := i64OfBytes (record.take 8)

/-- A sample is not before `earliest_timestamp`, the ring loses nothing, and no sample is persisted whose push is still
to raise `last_updated`. -/
def SoundPush (db : DB) (p : Pushed) : PushedAct → Prop
  | .check timestamp _ => p.component.lastTimestamp ≤ timestamp → db.earliestTimestamp ≤ timestamp
  | .wal a => WalFresh p.wal a
  | .persist => ∀ b ∈ heldRecords p.wal, timestampOf b ∈ p.committed ++ db.updates → timestampOf b ≤ db.lastUpdated
  | .load _ | .updateMax _ | .next => True

/-- The same for messages. -/
def SoundMsg (db : DB) (l : Msg.Ring) : Msg.RingAct → Prop
  | .wal a => WalFresh l.wal a ∧ ∀ r ∈ a.loaded, db.earliestTimestamp ≤ r.1
  | .persist => ∀ b ∈ heldRecords l.wal, timestampOf b ∈ db.updates → timestampOf b ≤ db.lastUpdated
  | .next => True

def Sound (db : DB) : Act → Prop
  | .component i act => ∀ p ∈ db.components[i]?, SoundPush db p act
  | .msgLog i act => ∀ l ∈ db.msgLogs[i]?, SoundMsg db l act
  | .insertComponent _ | .insertMsgLog | .updateMax _ => True

instance (db : DB) (p : Pushed) : (act : PushedAct) → Decidable (SoundPush db p act)
  | .check _ _ => inferInstanceAs (Decidable (_ → _))
  | .wal _ => inferInstanceAs (Decidable (WalFresh _ _))
  | .persist => inferInstanceAs (Decidable (∀ b ∈ heldRecords p.wal, _))
  | .load _ | .updateMax _ | .next => isTrue trivial

instance (db : DB) (l : Msg.Ring) : (act : Msg.RingAct) → Decidable (SoundMsg db l act)
  | .wal _ => inferInstanceAs (Decidable (_ ∧ _))
  | .persist => inferInstanceAs (Decidable (∀ b ∈ heldRecords l.wal, _))
  | .next => isTrue trivial

instance (db : DB) : (a : Act) → Decidable (Sound db a)
  | .component i _ => inferInstanceAs (Decidable (∀ p ∈ db.components[i]?, _))
  | .msgLog i _ => inferInstanceAs (Decidable (∀ l ∈ db.msgLogs[i]?, _))
  | .insertComponent _ | .insertMsgLog | .updateMax _ => isTrue trivial

/-! ## What is persisted was there or was pushed -/

/-- A timestamp of a series. -/
def InSeries (list : TimeSeries) (t : Int) : Prop := ∃ n ∈ list, t ∈ n.timestamps

/-- A timestamp of a message log. -/
def InLog (list : Msg.MsgLog) (t : Int) : Prop := ∃ n ∈ list, t ∈ n.timestamps

theorem mem_timestamps {list : TimeSeries} {t : Int} : t ∈ TimeSeries.timestamps list ↔ InSeries list t := by
  simp only [TimeSeries.timestamps, List.mem_flatMap, List.mem_reverse, InSeries]

theorem inSeries_parseLoop {size : Nat} {recs : List (Int × Bytes)}
    (h : ∀ p ∈ recs, IsI64 p.1 ∧ p.2.length = size) {list : TimeSeries} {t : Int}
    (ht : InSeries (parseLoop size (recs.map fun p => record p.1 p.2).flatten list) t) :
    InSeries list t ∨ ∃ p ∈ recs, p.1 = t := by
  obtain ⟨us, hus, e⟩ := parseLoop_records size recs h list
  rw [← mem_timestamps, e, List.mem_append, mem_timestamps] at ht
  exact ht.imp_right fun hu => List.mem_map.mp (hus.mem hu)

section
variable {list : Msg.MsgLog} {t u : Int} {msg : Bytes}

theorem mem_writeAfter {log log' : AppendLog Unit Int} (h : log.writeAfter AppendLog.bareHeaderSize 8 [t] = .ok log')
    (hu : u ∈ log'.data) : u ∈ log.data ∨ u = t := by
  rcases Nat.lt_or_ge log.mapLen (AppendLog.bareHeaderSize + log.data.length * 8 + [t].length * 8) with hlt | hle
  · rw [writeAfter_of_lt hlt] at h
    cases h
  · rw [writeAfter_of_le hle] at h
    cases h
    exact (List.mem_append.mp hu).imp_right List.mem_singleton.mp

theorem inLog_tryPush (h : InLog (list.tryPush t msg).2 u) : InLog list u ∨ u = t := by
  cases list with
  | nil => exact .inl h
  | cons head prev =>
    -- only the head may have grown
    have hhead : ∀ head' : Msg.MsgLogNode, (∀ v ∈ head'.timestamps, v ∈ head.timestamps ∨ v = t) →
        InLog (head' :: prev) u → InLog (head :: prev) u ∨ u = t := by
      rintro head' hh ⟨n, hn, hu⟩
      rcases List.mem_cons.mp hn with rfl | hn
      · exact (hh u hu).imp_left fun hu => ⟨head, List.mem_cons_self, hu⟩
      · exact .inl ⟨n, List.mem_cons_of_mem _ hn, hu⟩
    unfold Msg.MsgLog.tryPush at h
    dsimp only at h
    split at h
    · refine hhead _ ?_ h
      exact fun v hv => .inl hv
    · refine hhead _ ?_ h
      exact fun v hv => .inl hv
    · split at h
      · refine hhead _ ?_ h
        exact fun v hv => .inl hv
      next hw =>
        refine hhead _ ?_ h
        exact fun v hv => mem_writeAfter hw hv

theorem inLog_persistRound (rounds : Nat) (h : InLog (Msg.MsgLog.persistRound rounds list t msg).2 u) :
    InLog list u ∨ u = t := by
  induction rounds generalizing list with
  | zero => exact .inl h
  | succ rounds ih =>
    have htry : InLog (Msg.MsgLog.tryPush list t msg).2 u → InLog list u ∨ u = t := inLog_tryPush
    unfold Msg.MsgLog.persistRound at h
    split at h
    next list' e => exact htry (by rw [e]; exact h)
    next list' e => exact htry (by rw [e]; exact h)
    next list' e =>
      rw [e] at htry
      split at h
      · exact htry h
      next node hnode =>
        obtain ⟨n, hn, hu⟩ | rfl := ih h
        · rcases List.mem_cons.mp hn with rfl | hn
          · unfold Msg.MsgLog.createNode at hnode
            split at hnode
            · cases hnode
            · cases hnode
              cases hu
          · exact htry ⟨n, hn, hu⟩
        · exact .inr rfl

theorem inLog_persistLoop {recs : List (Int × Bytes)} (hr : ∀ r ∈ recs, Recorded r)
    (h : InLog (Msg.persistLoop (recs.flatMap fun r => Msg.record r.1 r.2) list) t) :
    InLog list t ∨ ∃ r ∈ recs, r.1 = t := by
  rw [persistLoop_records recs hr] at h
  clear hr
  induction recs generalizing list with
  | nil => exact .inl h
  | cons r recs ih =>
    obtain h | ⟨r', hr', rfl⟩ := ih h
    · obtain h | rfl := inLog_persistRound 2 h
      · exact .inl h
      · exact .inr ⟨r, List.mem_cons_self, rfl⟩
    · exact .inr ⟨r', List.mem_cons_of_mem _ hr', rfl⟩

end

/-! ## Records -/

/-- After `earliest`, and `last` has been raised to it or is to be. -/
def Covered (earliest last : Int) (pending : List Int) (t : Int) : Prop := earliest ≤ t ∧ (t ≤ last ∨ t ∈ pending)

theorem Covered.mono {earliest last last' t : Int} {pending pending' : List Int} (h : Covered earliest last pending t)
    (hl : last ≤ last') (hp : ∀ u ∈ pending, u ≤ last' ∨ u ∈ pending') : Covered earliest last' pending' t := by
  refine ⟨h.1, ?_⟩
  rcases h.2 with ht | ht
  · exact .inl (Int.le_trans ht hl)
  · exact hp t ht

/-- A record as long as the messages that `persist` takes off the WAL. -/
def Fits (size : Nat) (p : Int × Bytes) : Prop := IsI64 p.1 ∧ p.2.length = size

structure PushedInv (earliest last : Int) (updates : List Int) (s : Pushed) : Prop where
  wal : WalInv Pushed.encode s.wal
  carries : Carries Pushed.encode (fun r => Fits s.component.size r ∧ earliest ≤ r.1)
    (fun r => Fits s.component.size r ∧ Covered earliest last (s.committed ++ updates) r.1) s.wal
  checked : ∀ r ∈ s.checked, Fits s.component.size r ∧ earliest ≤ r.1

section
variable {earliest last : Int} {updates : List Int} {s t : Pushed}

theorem PushedInv.mono (h : PushedInv earliest last updates s) {last' : Int} {updates' : List Int}
    (hl : last ≤ last') (hu : ∀ u ∈ updates, u ≤ last' ∨ u ∈ updates') : PushedInv earliest last' updates' s := by
  refine ⟨h.wal, h.carries.mono fun r hr => ⟨hr.1, hr.2.mono hl fun u hu' => ?_⟩, h.checked⟩
  rcases List.mem_append.mp hu' with hu' | hu'
  · exact .inr (List.mem_append_left _ hu')
  · exact (hu u hu').imp_right fun hu => List.mem_append_right _ hu

/-- A step of a writer or of a stream. -/
theorem pushedWal_inv {a : Disruptor.WalAct} (h : PushedInv earliest last updates s) (hok : WalFresh s.wal a)
    (ht : s.step (.wal a) = some t) : PushedInv earliest last updates t := by
  simp only [Pushed.step, Option.ite_none_right_eq_some, Option.map_eq_some_iff] at ht
  obtain ⟨hnone, wal, hwal, rfl⟩ := ht
  refine ⟨(step_wal h.wal hok hwal).inv, step_carries h.carries h.wal hok hwal (by rw [hnone]; exact nofun) ?_ ?_,
    h.checked⟩
  · intro r hr
    refine ⟨hr.1, hr.2.mono (Int.le_refl _) fun u hu => .inr ?_⟩
    rw [List.append_assoc]
    exact (List.mem_append.mp hu).elim (List.mem_append_left _) fun hu =>
      List.mem_append_right _ (List.mem_append_right _ hu)
  · -- the timestamp that is committed joins `committed`
    intro r hr hP _
    refine ⟨hP.1, hP.2, .inr (List.mem_append_left _ (List.mem_append_right _ ?_))⟩
    exact List.mem_map_of_mem (Option.mem_toList.mpr hr)

/-- One step of the pushes to a component keeps the invariant. -/
theorem pushed_inv {act : PushedAct} (h : PushedInv earliest last updates s)
    (hcheck : ∀ timestamp value, act = .check timestamp value → s.component.lastTimestamp ≤ timestamp →
      earliest ≤ timestamp)
    (hok : ∀ a, act = .wal a → WalFresh s.wal a) (ht : s.step act = some t) :
    PushedInv earliest last (updates ++ (returned s act t).toList) t := by
  have hmore : ∀ {p : Pushed} (us : List Int), PushedInv earliest last updates p →
      PushedInv earliest last (updates ++ us) p := fun us hp =>
    hp.mono (Int.le_refl last) fun u hu => .inr (List.mem_append_left _ hu)
  cases act with
  | check timestamp value =>
    obtain ⟨hv, ht⟩ := Option.ite_none_right_eq_some.mp ht
    split at ht
    · cases ht
      exact hmore _ h
    next hlast =>
      cases ht
      refine hmore _ ⟨h.wal, h.carries, fun p hp => ?_⟩
      rcases List.mem_append.mp hp with hp | hp
      · exact h.checked p hp
      · rw [List.mem_singleton.mp hp]
        exact ⟨hv, hcheck _ _ rfl (Int.not_lt.mp hlast)⟩
  | load i =>
    simp only [Pushed.step, Option.bind_eq_bind, Option.bind_eq_some_iff, Option.pure_def, Option.some.injEq] at ht
    obtain ⟨r, hr, wal, hwal, rfl⟩ := ht
    have hfresh : WalFresh s.wal (.load r) := trivial
    refine hmore _ ⟨(step_wal h.wal hfresh hwal).inv, ?_, fun p hp => h.checked p (List.mem_of_mem_eraseIdx hp)⟩
    refine step_carries h.carries h.wal hfresh hwal (fun r' hr' => ?_) (fun _ hQ => hQ) nofun
    rw [← Option.some.inj hr']
    exact h.checked r (List.mem_of_getElem? hr)
  | wal a => exact hmore _ (pushedWal_inv h (hok a rfl) ht)
  | updateMax i =>
    obtain ⟨c, hc, rfl⟩ := Option.map_eq_some_iff.mp ht
    refine ⟨h.wal, h.carries.mono fun r hr => ⟨hr.1, hr.2.mono (Int.le_refl _) fun u hu => .inr ?_⟩, h.checked⟩
    -- the timestamp that is raised moves from `committed` to `updates`
    rcases List.mem_append.mp hu with hu | hu
    · rcases (mem_iff_eraseIdx hc).mp hu with rfl | hu
      · refine List.mem_append_right _ (List.mem_append_right _ ?_)
        show _ ∈ (s.committed[i]?).toList
        rw [hc]
        exact List.mem_singleton_self _
      · exact List.mem_append_left _ hu
    · exact List.mem_append_right _ (List.mem_append_left _ hu)
  | next =>
    obtain ⟨wal, hwal, rfl⟩ := Option.map_eq_some_iff.mp ht
    exact hmore _ ⟨(next_wal h.wal hwal).1, next_carries h.carries h.wal hwal, h.checked⟩
  | persist =>
    simp only [Pushed.step, Option.bind_eq_bind, Option.bind_eq_some_iff, Option.pure_def, Option.some.injEq] at ht
    obtain ⟨buf, hbuf, wal, hwal, rfl⟩ := ht
    exact hmore _ ⟨(release_wal h.wal hbuf hwal).1, (release_carries h.carries h.wal hbuf hwal).1, h.checked⟩

/-- What a step adds to the series was in the WAL, and its push had raised `last_updated`. -/
theorem pushed_stored {act : PushedAct} (h : PushedInv earliest last updates s)
    (hpersist : act = .persist → ∀ b ∈ heldRecords s.wal, timestampOf b ∈ s.committed ++ updates → timestampOf b ≤ last)
    (ht : s.step act = some t) {u : Int} (hu : InSeries t.component.timeSeries u) :
    InSeries s.component.timeSeries u ∨ earliest ≤ u ∧ u ≤ last := by
  cases act with
  | check timestamp value =>
    obtain ⟨-, ht⟩ := Option.ite_none_right_eq_some.mp ht
    split at ht
    all_goals
      cases ht
      exact .inl hu
  | load i =>
    simp only [Pushed.step, Option.bind_eq_bind, Option.bind_eq_some_iff, Option.pure_def, Option.some.injEq] at ht
    obtain ⟨r, -, wal, -, rfl⟩ := ht
    exact .inl hu
  | wal a =>
    simp only [Pushed.step, Option.ite_none_right_eq_some, Option.map_eq_some_iff] at ht
    obtain ⟨-, wal, -, rfl⟩ := ht
    exact .inl hu
  | updateMax i | next =>
    obtain ⟨_, -, rfl⟩ := Option.map_eq_some_iff.mp ht
    exact .inl hu
  | persist =>
    simp only [Pushed.step, Option.bind_eq_bind, Option.bind_eq_some_iff, Option.pure_def, Option.some.injEq] at ht
    obtain ⟨buf, hbuf, wal, hwal, rfl⟩ := ht
    obtain ⟨-, recs, hheld, rfl, hall⟩ := release_carries h.carries h.wal hbuf hwal
    obtain hu | ⟨p, hp, rfl⟩ := inSeries_parseLoop (fun p hp => (hall p hp).1) hu
    · exact .inl hu
    · obtain ⟨⟨hi, -⟩, hle, hc⟩ := hall p hp
      refine .inr ⟨hle, hc.elim id fun hc => ?_⟩
      have ht : timestampOf (Pushed.encode p) = p.1 := timestamp_record hi p.2
      have hlast := hpersist rfl (Pushed.encode p) (hheld ▸ List.mem_map_of_mem hp)
      rw [ht] at hlast
      exact hlast hc

end

/-! ## Steps -/

/-- The messages that are pushed, and those that a log has still to persist. -/
def MsgInv (earliest last : Int) (updates : List Int) (l : Msg.Ring) : Prop :=
  RingInv (fun r => earliest ≤ r.1) (fun r => Covered earliest last updates r.1) l

structure Inv (db : DB) : Prop where
  encloses : Encloses db
  component : ∀ p ∈ db.components, PushedInv db.earliestTimestamp db.lastUpdated db.updates p
  msgLog : ∀ l ∈ db.msgLogs, MsgInv db.earliestTimestamp db.lastUpdated db.updates l

theorem MsgInv.mono {earliest last last' : Int} {updates updates' : List Int} {l : Msg.Ring}
    (h : MsgInv earliest last updates l) (hl : last ≤ last') (hu : ∀ u ∈ updates, u ≤ last' ∨ u ∈ updates') :
    MsgInv earliest last' updates' l :=
  ⟨h.wal, h.cap, h.carries.mono fun _ hr => ⟨hr.1, hr.2.mono hl hu⟩⟩

/-- A component that nothing was pushed to. -/
theorem new_pushedInv (earliest last : Int) (updates : List Int) (component : Component) (capacity : Nat) :
    PushedInv earliest last updates ⟨component, .new capacity, [], []⟩ :=
  ⟨new_walInv _ _, ⟨nofun, nofun, [], rfl, nofun⟩, nofun⟩

section
variable {db db' : DB}

theorem insertComponent_inv (h : Inv db) (size : Nat) :
    Inv { db with components := db.components ++ [.create size] } where
  encloses t ht := by
    rcases ht with ⟨p, hp, n, hn, ht⟩ | ht
    · rcases List.mem_append.mp hp with hp | hp
      · exact h.encloses t (.inl ⟨p, hp, n, hn, ht⟩)
      · rw [List.mem_singleton.mp hp] at hn
        cases hn
    · exact h.encloses t (.inr ht)
  component p hp := by
    rcases List.mem_append.mp hp with hp | hp
    · exact h.component p hp
    · rw [List.mem_singleton.mp hp]
      exact new_pushedInv _ _ _ _ _
  msgLog := h.msgLog

theorem insertMsgLog_inv (h : Inv db) : Inv { db with msgLogs := db.msgLogs ++ [.new] } where
  encloses t ht := by
    rcases ht with ht | ⟨l, hl, n, hn, ht⟩
    · exact h.encloses t (.inl ht)
    · rcases List.mem_append.mp hl with hl | hl
      · exact h.encloses t (.inr ⟨l, hl, n, hn, ht⟩)
      · rw [List.mem_singleton.mp hl] at hn
        cases hn
  component := h.component
  msgLog l hl := by
    rcases List.mem_append.mp hl with hl | hl
    · exact h.msgLog l hl
    · rw [List.mem_singleton.mp hl]
      exact new_ringInv _ _ []

theorem component_inv {i : Nat} {act : PushedAct} (h : Inv db) (ha : Sound db (.component i act))
    (ht : step db (.component i act) = some db') : Inv db' := by
  obtain ⟨p, hp, ht⟩ := Option.bind_eq_some_iff.mp ht
  obtain ⟨p', hp', ht⟩ := Option.bind_eq_some_iff.mp ht
  obtain rfl := Option.some.inj ht
  have hinv := h.component p (List.mem_of_getElem? hp)
  have hnew := pushed_inv hinv (by rintro t v rfl; exact ha p hp) (by rintro a rfl; exact ha p hp) hp'
  have hstored := @pushed_stored _ _ _ _ _ _ hinv (by rintro rfl; exact ha p hp) hp'
  exact
    { encloses := by
        rintro u (⟨q, hq, n, hn, hu⟩ | hu)
        · rcases List.mem_or_eq_of_mem_set hq with hq | rfl
          · exact h.encloses u (.inl ⟨q, hq, n, hn, hu⟩)
          · rcases hstored ⟨n, hn, hu⟩ with ⟨n, hn, hu⟩ | hle
            · exact h.encloses u (.inl ⟨p, List.mem_of_getElem? hp, n, hn, hu⟩)
            · exact hle
        · exact h.encloses u (.inr hu)
      component := by
        intro q hq
        rcases List.mem_or_eq_of_mem_set hq with hq | rfl
        · exact (h.component q hq).mono (Int.le_refl _) fun u hu => .inr (List.mem_append_left _ hu)
        · exact hnew
      msgLog := by
        intro l hl
        exact (h.msgLog l hl).mono (Int.le_refl _) fun u hu => .inr (List.mem_append_left _ hu) }

section
variable {earliest last : Int} {updates : List Int} {l l' : Msg.Ring} {act : Msg.RingAct}

theorem msg_inv (h : MsgInv earliest last updates l) (hok : Lossless l act)
    (hload : ∀ a, act = .wal a → ∀ r ∈ a.loaded, earliest ≤ r.1) (ht : l.step act = some l') :
    MsgInv earliest last (updates ++ (returnedMsg l act).toList) l' := by
  refine ring_inv h hok hload (fun r hr => hr.mono (Int.le_refl _) fun u hu => .inr (List.mem_append_left _ hu)) ?_ ht
  intro r hr hle
  refine ⟨hle, .inr (List.mem_append_right _ (Option.mem_toList.mpr ?_))⟩
  cases act with
  | wal a => exact Option.mem_map_of_mem _ hr
  | next | persist => cases hr

theorem msg_stored (h : MsgInv earliest last updates l)
    (hpersist : act = .persist → ∀ b ∈ heldRecords l.wal, timestampOf b ∈ updates → timestampOf b ≤ last)
    (ht : l.step act = some l') {u : Int} (hu : InLog l'.list u) : InLog l.list u ∨ earliest ≤ u ∧ u ≤ last := by
  cases act with
  | wal a =>
    simp only [Msg.Ring.step, Option.ite_none_right_eq_some, Option.map_eq_some_iff] at ht
    obtain ⟨-, wal, -, rfl⟩ := ht
    exact .inl hu
  | next =>
    obtain ⟨wal, -, rfl⟩ := Option.map_eq_some_iff.mp ht
    exact .inl hu
  | persist =>
    obtain ⟨recs, hheld, hall, hlist⟩ := persist_eq h ht
    rw [hlist] at hu
    obtain hu | ⟨r, hr, rfl⟩ := inLog_persistLoop (fun r hr => (hall r hr).1) hu
    · exact .inl hu
    · obtain ⟨hrec, hle, hc⟩ := hall r hr
      refine .inr ⟨hle, hc.elim id fun hc => ?_⟩
      have hmem : Msg.Ring.encode r ∈ heldRecords l.wal := by
        rw [hheld]
        exact List.mem_map_of_mem hr
      have hlast := hpersist rfl _ hmem
      rw [timestampOf, timestamp_encode hrec.1] at hlast
      exact hlast hc

end

theorem msgLog_inv {i : Nat} {act : Msg.RingAct} (h : Inv db) (ha : Sound db (.msgLog i act))
    (ht : step db (.msgLog i act) = some db') : Inv db' := by
  obtain ⟨l, hl, ht⟩ := Option.bind_eq_some_iff.mp ht
  obtain ⟨l', hl', ht⟩ := Option.bind_eq_some_iff.mp ht
  obtain rfl := Option.some.inj ht
  have hinv := h.msgLog l (List.mem_of_getElem? hl)
  have hok : Lossless l act := by
    cases act with
    | wal a => exact (ha l hl).1
    | next | persist => trivial
  have hnew := msg_inv hinv hok (by rintro a rfl; exact (ha l hl).2) hl'
  have hstored := @msg_stored _ _ _ _ _ _ hinv (by rintro rfl; exact ha l hl) hl'
  exact
    { encloses := by
        rintro u (hu | ⟨k, hk, n, hn, hu⟩)
        · exact h.encloses u (.inl hu)
        · rcases List.mem_or_eq_of_mem_set hk with hk | rfl
          · exact h.encloses u (.inr ⟨k, hk, n, hn, hu⟩)
          · rcases hstored ⟨n, hn, hu⟩ with ⟨n, hn, hu⟩ | hle
            · exact h.encloses u (.inr ⟨l, List.mem_of_getElem? hl, n, hn, hu⟩)
            · exact hle
      component := by
        intro q hq
        exact (h.component q hq).mono (Int.le_refl _) fun u hu => .inr (List.mem_append_left _ hu)
      msgLog := by
        intro k hk
        rcases List.mem_or_eq_of_mem_set hk with hk | rfl
        · exact (h.msgLog k hk).mono (Int.le_refl _) fun u hu => .inr (List.mem_append_left _ hu)
        · exact hnew }

theorem updateMax_inv {j : Nat} {timestamp : Int} (h : Inv db) (hj : db.updates[j]? = some timestamp) :
    Inv { db with lastUpdated := max db.lastUpdated timestamp, updates := db.updates.eraseIdx j } := by
  have hraise : ∀ u ∈ db.updates, u ≤ max db.lastUpdated timestamp ∨ u ∈ db.updates.eraseIdx j := by
    intro u hu
    rcases (mem_iff_eraseIdx hj).mp hu with rfl | hu
    · exact .inl (Int.le_max_right _ _)
    · exact .inr hu
  have hle := Int.le_max_left db.lastUpdated timestamp
  refine ⟨fun t ht => ⟨(h.encloses t ht).1, Int.le_trans (h.encloses t ht).2 hle⟩, ?_, ?_⟩
  · exact fun p hp => (h.component p hp).mono hle hraise
  · exact fun l hl => (h.msgLog l hl).mono hle hraise

theorem step_inv {a : Act} (h : Inv db) (ha : Sound db a) (ht : step db a = some db') : Inv db' := by
  cases a with
  | insertComponent size =>
    obtain rfl := Option.some.inj ht
    exact insertComponent_inv h size
  | insertMsgLog =>
    obtain rfl := Option.some.inj ht
    exact insertMsgLog_inv h
  | component i act => exact component_inv h ha ht
  | msgLog i act => exact msgLog_inv h ha ht
  | updateMax j =>
    obtain ⟨timestamp, hj, rfl⟩ := Option.map_eq_some_iff.mp ht
    exact updateMax_inv h hj

end

/-! ## Opening -/

/-- The variables of `DB::open`, after nodes with these first, last and other timestamps. -/
structure OpenInv (acc : Opening) (firsts lasts timestamps : List Int) : Prop where
  first : ∀ f ∈ firsts, acc.startTimestamp ≤ f
  last : ∀ l ∈ lasts, l ≤ acc.lastUpdated
  component : ∀ p ∈ acc.components, (∃ component capacity, p = ⟨component, .new capacity, [], []⟩) ∧
    ∀ t, InSeries p.component.timeSeries t → t ∈ timestamps
  msgLog : ∀ l ∈ acc.msgLogs, l.wal = .new Msg.walSize ∧ ∀ t, InLog l.list t → t ∈ timestamps

section
variable {acc : Opening} {firsts lasts timestamps : List Int}

/-- The comparisons for nodes whose first timestamps are `fs`, and whose timestamps are `ts`. -/
theorem seen_inv (h : OpenInv acc firsts lasts timestamps) (latest first : Option Int) {fs : List Int}
    (hfs : ∀ f ∈ fs, ∃ m ∈ first, m ≤ f) (ts : List Int) :
    OpenInv (acc.seen latest first) (firsts ++ fs) (lasts ++ latest.toList) (timestamps ++ ts) := by
  have hlast : acc.lastUpdated ≤ (acc.seen latest first).lastUpdated := by
    cases latest with
    | none => exact Int.le_refl _
    | some l => exact Int.le_max_right _ _
  have hfirst : (acc.seen latest first).startTimestamp ≤ acc.startTimestamp := by
    cases first with
    | none => exact Int.le_refl _
    | some m => exact Int.min_le_left _ _
  refine ⟨?_, ?_, fun p hp => ⟨(h.component p hp).1, fun t ht => List.mem_append_left _ ((h.component p hp).2 t ht)⟩,
    fun l hl => ⟨(h.msgLog l hl).1, fun t ht => List.mem_append_left _ ((h.msgLog l hl).2 t ht)⟩⟩
  · intro f hf
    rcases List.mem_append.mp hf with hf | hf
    · exact Int.le_trans hfirst (h.first f hf)
    · obtain ⟨m, hm, hmf⟩ := hfs f hf
      rw [Option.mem_def.mp hm]
      exact Int.le_trans (Int.min_le_right _ _) hmf
  · intro l hl
    rcases List.mem_append.mp hl with hl | hl
    · exact Int.le_trans (h.last l hl) hlast
    · rw [Option.mem_toList.mp hl]
      exact Int.le_max_left _ _

/-- The nodes of a directory come in the other order in the stack; their least first timestamp is the same. -/
theorem min_reverse_le {α : Type} (g : α → Option Int) {entries : List α} {f : Int} (hf : f ∈ entries.filterMap g) :
    ∃ m ∈ (entries.reverse.filterMap g).min?, m ≤ f := by
  have hf : f ∈ entries.reverse.filterMap g := by
    rw [List.filterMap_reverse]
    exact List.mem_reverse.mpr hf
  obtain ⟨m, hm⟩ := Option.isSome_iff_exists.mp (List.isSome_min?_of_mem hf)
  exact ⟨m, hm, (List.min?_eq_some_iff.mp hm).2 f hf⟩

theorem latest_eq (list : TimeSeries) : list.latest.map (·.timestamp) = list.head?.bind (·.timestamps.getLast?) := by
  cases list with
  | nil => rfl
  | cons n prev =>
    show (n.timestamps.getLast?.map _).map _ = n.timestamps.getLast?
    rw [Option.map_map]
    exact Option.map_id'

theorem msg_latest_eq (list : Msg.MsgLog) :
    list.latest.map (·.timestamp) = list.head?.bind (·.timestamps.getLast?) := by
  cases list with
  | nil => rfl
  | cons n prev =>
    show (n.timestamps.getLast?.map _).map _ = n.timestamps.getLast?
    rw [Option.map_map]
    exact Option.map_id'

theorem component_openInv (h : OpenInv acc firsts lasts timestamps) (dir : Nat × List TimeSeriesNode) :
    OpenInv (acc.component dir) (firsts ++ dir.2.filterMap (·.timestamps.head?))
      (lasts ++ (dir.2.getLast?.bind (·.timestamps.getLast?)).toList) (timestamps ++ dir.2.flatMap (·.timestamps)) := by
  have hopen : (openComponent dir.1 dir.2).timeSeries = dir.2.reverse := TimeSeries.open_eq_reverse dir.2
  have hlatest : (openComponent dir.1 dir.2).timeSeries.latest.map (·.timestamp) =
      dir.2.getLast?.bind (·.timestamps.getLast?) := by
    rw [latest_eq, hopen, List.head?_reverse]
  have hfirst : ∀ f ∈ dir.2.filterMap (·.timestamps.head?),
      ∃ e ∈ (openComponent dir.1 dir.2).timeSeries.startTimestamp, e ≤ f := fun f hf => by
    rw [hopen]; exact min_reverse_le _ hf
  have hseen := seen_inv h ((openComponent dir.1 dir.2).timeSeries.latest.map (·.timestamp))
    (openComponent dir.1 dir.2).timeSeries.startTimestamp hfirst (dir.2.flatMap (·.timestamps))
  refine ⟨hseen.first, hlatest ▸ hseen.last, ?_, hseen.msgLog⟩
  intro p hp
  rcases List.mem_append.mp hp with hp | hp
  · exact hseen.component p hp
  · rw [List.mem_singleton.mp hp]
    refine ⟨⟨_, _, rfl⟩, ?_⟩
    rintro t ⟨n, hn, ht⟩
    have hn : n ∈ dir.2.reverse := hopen ▸ hn
    exact List.mem_append_right _ (List.mem_flatMap.mpr ⟨n, List.mem_reverse.mp hn, ht⟩)

theorem msgLog_openInv (h : OpenInv acc firsts lasts timestamps) (dir : List Msg.MsgLogNode) :
    OpenInv (acc.msgLog dir) (firsts ++ dir.filterMap (·.timestamps.head?))
      (lasts ++ (dir.getLast?.bind (·.timestamps.getLast?)).toList) (timestamps ++ dir.flatMap (·.timestamps)) := by
  have hopen : openMsgLog dir = dir.reverse := by
    rw [openMsgLog, List.foldl_flip_cons_eq_append', List.append_nil]
  have hlatest : (openMsgLog dir).latest.map (·.timestamp) = dir.getLast?.bind (·.timestamps.getLast?) := by
    rw [msg_latest_eq, hopen, List.head?_reverse]
  have hfirst : ∀ f ∈ dir.filterMap (·.timestamps.head?), ∃ e ∈ firstTimestamp (openMsgLog dir), e ≤ f := fun f hf => by
    rw [hopen]; exact min_reverse_le _ hf
  have hseen := seen_inv h ((openMsgLog dir).latest.map (·.timestamp)) (firstTimestamp (openMsgLog dir)) hfirst
    (dir.flatMap (·.timestamps))
  refine ⟨hseen.first, hlatest ▸ hseen.last, hseen.component, ?_⟩
  intro l hl
  rcases List.mem_append.mp hl with hl | hl
  · exact hseen.msgLog l hl
  · rw [List.mem_singleton.mp hl]
    refine ⟨rfl, ?_⟩
    rintro t ⟨n, hn, ht⟩
    have hn : n ∈ dir.reverse := hopen ▸ hn
    exact List.mem_append_right _ (List.mem_flatMap.mpr ⟨n, List.mem_reverse.mp hn, ht⟩)

/-- A loop of `DB::open`, by its rounds. -/
theorem foldl_openInv {α : Type} {round : Opening → α → Opening} {fs ts : α → List Int} {l : α → Option Int}
    (hround : ∀ {acc firsts lasts timestamps}, OpenInv acc firsts lasts timestamps → ∀ dir,
      OpenInv (round acc dir) (firsts ++ fs dir) (lasts ++ (l dir).toList) (timestamps ++ ts dir))
    (h : OpenInv acc firsts lasts timestamps) (dirs : List α) :
    OpenInv (dirs.foldl round acc) (firsts ++ dirs.flatMap fs) (lasts ++ dirs.filterMap l)
      (timestamps ++ dirs.flatMap ts) := by
  induction dirs generalizing acc firsts lasts timestamps with
  | nil => simpa using h
  | cons dir dirs ih =>
    have h' := ih (hround h dir)
    simp only [List.append_assoc] at h'
    rw [List.foldl_cons, List.flatMap_cons, List.flatMap_cons, List.filterMap_eq_flatMap_toList, List.flatMap_cons,
      ← List.filterMap_eq_flatMap_toList]
    exact h'

end

theorem open_inv {now : Int} {dir : Directory} (h : (Start.open now dir).Sound) : Inv (.open now dir) := by
  obtain ⟨hnow, hdir⟩ := h
  have hstart : OpenInv ⟨[], [], i64Min, i64Max⟩ [] [] [] := ⟨nofun, nofun, nofun, nofun⟩
  have hopen := foldl_openInv msgLog_openInv (foldl_openInv component_openInv hstart dir.components) dir.msgLogs
  simp only [List.nil_append] at hopen
  refine ⟨?_, ?_, ?_⟩
  · intro t ht
    have hmem : t ∈ dir.timestamps := by
      rcases ht with ⟨p, hp, n, hn, ht⟩ | ⟨l, hl, n, hn, ht⟩
      · exact (hopen.component p hp).2 t ⟨n, hn, ht⟩
      · exact (hopen.msgLog l hl).2 t ⟨n, hn, ht⟩
    obtain ⟨⟨f, hf, hft⟩, l, hl, hlt⟩ := hdir t hmem
    refine ⟨?_, Int.le_trans hlt (hopen.last l hl)⟩
    have hle := Int.le_trans (hopen.first f hf) hft
    unfold DB.open
    dsimp only
    split
    next hmax =>
      -- every node begins at the last `i64`, and now is not after it
      rw [hmax] at hle
      have hlt := hnow.2
      unfold i64Max at hle
      omega
    · exact hle
  · intro p hp
    obtain ⟨component, capacity, rfl⟩ := (hopen.component p hp).1
    exact new_pushedInv _ _ _ _ _
  · intro l hl
    have hwal : l.wal = .new Msg.walSize := (hopen.msgLog l hl).1
    obtain ⟨list, wal⟩ := l
    obtain rfl := hwal
    exact new_ringInv _ _ list

theorem create_inv (now : Int) : Inv (.create now) := by
  refine ⟨?_, nofun, nofun⟩
  rintro t (⟨p, hp, -⟩ | ⟨l, hl, -⟩)
  · cases hp
  · cases hl

/-! ## Runs -/

/-- From a database that was created, or opened on a directory whose nodes show
its least and greatest timestamps, the bounds enclose what is stored, as long
as nothing older than `earliest_timestamp` is pushed and nothing is persisted
whose push is still to raise `last_updated`. -/
theorem bounds_enclose {start : Start} {db : DB} (hs : start.Sound) (h : Run step Sound start.db db) : Encloses db := by
  have hstart : Inv start.db := by
    cases start with
    | create now => exact create_inv now
    | «open» now dir => exact open_inv hs
  exact (h.invariant step_inv hstart).encloses

/-- A push of one sample to the first component, up to where `persist` has its record. -/
def pushActs (timestamp : Int) (value : Bytes) : List Act :=
  [.component 0 (.check timestamp value), .component 0 (.load 0), .component 0 (.wal (.lock 0)),
    .component 0 (.wal .reserve), .component 0 (.wal .commit), .component 0 (.wal .unlock), .component 0 (.updateMax 0),
    .updateMax 0, .component 0 .next]

/-- The WAL of `n` bytes after it. -/
def pushedWal (n : Nat) (timestamp : Int) (value : Bytes) (cursor : Nat) (grant : Option Disruptor.Range) :
    Disruptor.Wal :=
  let bytes := record timestamp value
  ⟨⟨⟨bytes ++ .replicate (n - 9) 0, ⟨9, 9⟩, [⟨cursor, grant, 0, bytes⟩], none, [⟨⟨0, 9⟩, bytes⟩]⟩, [], none⟩, [], none⟩

theorem parseLoop_one {timestamp : Int} {b : UInt8} (ht : IsI64 timestamp) (list : TimeSeries) :
    parseLoop 1 (record timestamp [b]) list = (list.pushBuf timestamp [b]).2 := by
  have h : parseLoop 1 (record timestamp [b] ++ []) list = parseLoop 1 [] (list.pushBuf timestamp [b]).2 :=
    parseLoop_record ht (List.length_singleton) [] list
  rw [List.append_nil, parseLoop_nil] at h
  exact h

/-- A node of two samples. -/
def twoSamples : TimeSeriesNode := ⟨"10", ⟨10, 1000, [10, 20]⟩, ⟨1, 1000, [1, 2]⟩⟩

/-- A database is opened with the samples of 10 and 20, and a sample of 30 is pushed. -/
theorem bounds_enclose_opened :
    ∃ db, Run step Sound (Start.open 500 ⟨[(1, [twoSamples])], []⟩).db db ∧ Stored db 10 ∧ Stored db 30 ∧ Encloses db := by
  have hpush : exec step Sound (Start.open 500 ⟨[(1, [twoSamples])], []⟩).db (pushActs 30 [3]) =
      some ⟨10, 30, [⟨⟨1, 30, [twoSamples]⟩, pushedWal 256 30 [3] 0 (some ⟨0, 9⟩), [], []⟩], [], []⟩ := by
    decide +kernel
  have hpersist : step ⟨10, 30, [⟨⟨1, 30, [twoSamples]⟩, pushedWal 256 30 [3] 0 (some ⟨0, 9⟩), [], []⟩], [], []⟩
      (.component 0 .persist) =
      some ⟨10, 30, [⟨⟨1, 30, (TimeSeries.pushBuf [twoSamples] 30 [3]).2⟩, pushedWal 256 30 [3] 9 none, [], []⟩], [],
        []⟩ := by
    rw [← parseLoop_one (by decide)]
    rfl
  have hrun := (Run.of_exec _ .refl hpush).snoc (by decide) hpersist
  have hs : (Start.open 500 ⟨[(1, [twoSamples])], []⟩).Sound := ⟨by decide, by decide⟩
  refine ⟨_, hrun, .inl ⟨_, List.mem_singleton_self _, ?_⟩, .inl ⟨_, List.mem_singleton_self _, ?_⟩,
    bounds_enclose hs hrun⟩
  · decide +kernel
  · decide +kernel

/-- A sample from before a database was created. -/
theorem early_sample_not_enclosed :
    ¬ ∀ (start : Start) (db : DB), Run step (fun _ _ => True) start.db db → Encloses db := by
  intro h
  have hpush : exec step (fun _ _ => True) (Start.create 1000).db (.insertComponent 1 :: pushActs 5 [7]) =
      some ⟨1000, 5, [⟨⟨1, 5, []⟩, pushedWal 1024 5 [7] 0 (some ⟨0, 9⟩), [], []⟩], [], []⟩ := by decide +kernel
  have hpersist : step ⟨1000, 5, [⟨⟨1, 5, []⟩, pushedWal 1024 5 [7] 0 (some ⟨0, 9⟩), [], []⟩], [], []⟩
      (.component 0 .persist) =
      some ⟨1000, 5, [⟨⟨1, 5, (TimeSeries.pushBuf [] 5 [7]).2⟩, pushedWal 1024 5 [7] 9 none, [], []⟩], [], []⟩ := by
    rw [← parseLoop_one (by decide)]
    rfl
  have hdb := h (.create 1000) _ ((Run.of_exec _ .refl hpush).snoc (a := .component 0 .persist) trivial hpersist)
  have hstored : Stored ⟨1000, 5, [⟨⟨1, 5, (TimeSeries.pushBuf [] 5 [7]).2⟩, pushedWal 1024 5 [7] 9 none, [], []⟩], [],
      []⟩ 5 := .inl ⟨_, List.mem_singleton_self _, by decide +kernel⟩
  exact absurd (hdb 5 hstored).1 (by decide)

end Metor.Proof.TimeBounds
