import Metor.Proof.FieldTable.Safe

/-!
# What is in the packet

A field holds what its plan has written in the iteration under way, or in the
one it has finished since the last send (`current`), as no other plan writes
to it. All plans have finished one when the packet is sent, so it holds what
those wrote.
-/

namespace Metor.Proof.FieldTable

open Metor.Lib Metor.Impl.Proto Metor.Impl.FieldTable

variable {cfg : Config} {s s' : State} {pkt : LenPacket} {shard : Shard}

/-! ## Packets -/

theorem lastWritten_snoc (written : List (Which × Bytes)) (a : Which) (bytes : Bytes) (which : Which) :
    lastWritten (written ++ [(a, bytes)]) which = if a = which then some bytes else lastWritten written which := by
  simp only [lastWritten, List.reverse_append, List.reverse_singleton, List.singleton_append, List.find?_cons]
  by_cases h : a = which
  · rw [if_pos h, decide_eq_true h]
    rfl
  · rw [if_neg h, decide_eq_false h]

theorem holds_nil (pkt : LenPacket) (shard : Shard) : Holds pkt shard [] := by
  intro which f _ bytes hb
  cases hb

theorem fieldBytes_withRequestId {f : Impl.VTableStream.Field} (hl : 8 ≤ pkt.inner.length) (reqId : UInt8) :
    fieldBytes (withRequestId pkt reqId) f = fieldBytes pkt f := by
  refine slice_overwrite_of_disjoint ?_ (.inr ?_)
  · simp only [List.length_singleton]
    omega
  · simp only [headerOffset, packetHeaderLen, List.length_singleton]
    omega

/-- The field that is written. -/
theorem fieldBytes_withBuf_self {f : Impl.VTableStream.Field} {bytes : Bytes} (hle : f.start ≤ f.stop) (hb : bytes.length = f.stop - f.start)
    (hl : headerOffset + f.start + bytes.length ≤ pkt.inner.length) : fieldBytes (withBuf pkt f bytes) f = bytes := by
  have hstop : headerOffset + f.stop = headerOffset + f.start + bytes.length := by omega
  rw [fieldBytes, hstop]
  exact slice_overwrite_self hl

/-- A field that has no byte of the one that is written. -/
theorem fieldBytes_withBuf_of_disjoint {f g : Impl.VTableStream.Field} {bytes : Bytes} (hb : bytes.length = f.stop - f.start)
    (hle : f.start ≤ f.stop) (hl : headerOffset + f.start + bytes.length ≤ pkt.inner.length)
    (hd : f.stop ≤ g.start ∨ g.stop ≤ f.start) : fieldBytes (withBuf pkt f bytes) g = fieldBytes pkt g :=
  slice_overwrite_of_disjoint hl (by omega)

/-! ## The invariant -/

/-- What a plan has written for the next packet. -/
def current (t : Task) : List (Which × Bytes) :=
  match t.plan with
  | .running written => written
  | _ => if t.completed = 1 then t.last else []

theorem current_of_zero {t : Task} (hr : ∀ written, t.plan ≠ .running written) (h : t.completed = 0) : current t = [] := by
  unfold current
  split
  next written he => exact absurd he (hr written)
  next => rw [if_neg (by omega)]

/-- The packet, wherever it is. -/
def Held (s : State) (pkt : LenPacket) : Prop :=
  s.table = some pkt ∨ s.sender = .send pkt ∨ s.sender = .replacePkt pkt

structure Contents (cfg : Config) (s : State) : Prop where
  held : ∀ pkt, Held s pkt → ∀ (i : Nat) (shard : Shard) (t : Task), cfg.shards[i]? = some shard →
    s.tasks[i]? = some t → Holds pkt shard (current t)
  sends : ∀ sent ∈ s.sends, ∀ (i : Nat) (shard : Shard) (t : Task), cfg.shards[i]? = some shard →
    sent.tasks[i]? = some t → Holds sent.pkt shard t.last

/-- A plan moves on, and what it has written stays, or is dropped. -/
theorem Contents.setTask (hc : Contents cfg s) {i : Nat} {t u : Task} (ht : s.tasks[i]? = some t)
    (hu : current u = current t ∨ current u = []) {filled : AtomicBitVec} :
    Contents cfg { s.setTask i u with filledFields := filled } := by
  refine ⟨fun pkt hp j shard w hs hw => ?_, hc.sends⟩
  change (s.tasks.set i u)[j]? = some w at hw
  by_cases e : i = j
  · subst e
    rw [List.getElem?_set_self (List.getElem?_eq_some_iff.mp ht).1] at hw
    cases hw
    rcases hu with hu | hu
    · rw [hu]; exact hc.held pkt hp i shard t hs ht
    · rw [hu]; exact holds_nil _ _
  · rw [List.getElem?_set_ne e] at hw
    exact hc.held pkt hp j shard w hs hw

/-- The packet changes hands. -/
theorem Contents.move (hc : Contents cfg s) (hp : ∀ pkt, Held s' pkt → Held s pkt) (ht : s'.tasks = s.tasks)
    (hs : s'.sends = s.sends) : Contents cfg s' :=
  ⟨fun pkt h => ht ▸ hc.held pkt (hp pkt h), hs ▸ hc.sends⟩

theorem contents_send (hi : Inv cfg s) (hc : Contents cfg s) {ok : Bool} (h : step cfg s (.send ok) = some s') :
    Contents cfg s' := by
  have hh := hi.holder
  have ht := hi.tasks
  simp only [step] at h
  split at h
  next pkt hs =>
    simp only [Holder, hs] at hh
    simp only [hs] at ht
    have hfull := hi.full (.inr hh.1)
    -- every plan waits, and has finished one iteration
    have hidle : ∀ (i : Nat) (t : Task), s.tasks[i]? = some t → (∀ written, t.plan ≠ .running written) ∧ t.completed = 1 := by
      intro i t hit
      have hb := hfull i (hi.lt hit)
      refine ⟨fun written hr => ?_, ?_⟩
      · rw [(ht i t hit).running written hr] at hb
        cases hb
      · rw [(ht i t hit).counted id, hb]
        rfl
    split at h
    · cases h
      refine ⟨fun p hp i shard t hsh hit => ?_, fun sent hmem i shard t hsh hit => ?_⟩
      · rw [List.getElem?_map, Option.map_eq_some_iff] at hit
        obtain ⟨u, hu, rfl⟩ := hit
        rw [current_of_zero (t := { u with completed := 0 }) (hidle i u hu).1 rfl]
        exact holds_nil _ _
      · rcases List.mem_append.mp hmem with hmem | hmem
        · exact hc.sends sent hmem i shard t hsh hit
        · rw [List.mem_singleton.mp hmem] at hit ⊢
          have hold := hc.held pkt (.inr (.inl hs)) i shard t hsh hit
          have hcur : current t = t.last := by
            obtain ⟨hr, hone⟩ := hidle i t hit
            unfold current
            split
            next written he => exact absurd he (hr written)
            next => rw [if_pos hone]
          intro which f hf bytes hb
          rw [fieldBytes_withRequestId (by rw [hh.2]; exact Nat.le_add_right _ _)]
          exact hold which f hf bytes (hcur ▸ hb)
    · cases h
      refine hc.move (fun p hp => ?_) rfl rfl
      rcases hp with hp | hp | hp
      · exact .inl hp
      · cases hp
      · cases hp
  · cases h

theorem contents_withBuf (hd : cfg.Disjoint) (hi : Inv cfg s) (hc : Contents cfg s) {i : Nat} {which : Which}
    {bytes : Bytes} (h : step cfg s (.withBuf i which bytes) = some s') : Contents cfg s' := by
  simp only [step, Option.bind_eq_bind, Option.bind_eq_some_iff] at h
  obtain ⟨t, ht, shard, hshard, f, hf, h⟩ := h
  split at h
  next written hr =>
    simp only [Option.ite_none_right_eq_some] at h
    obtain ⟨hb, h⟩ := h
    obtain ⟨pkt, hpkt⟩ := hi.table_of_running ht hr
    rw [hpkt] at h
    cases h
    obtain ⟨hat, hlen⟩ := (holder_iff hpkt).mp hi.holder
    have hmem := List.mem_of_getElem? hshard
    have hle := (cfg.inTable shard hmem which f hf).1
    have hroom := length_withBuf hmem hf hb hlen
    refine ⟨fun p hp j shard' w hs hw => ?_, hc.sends⟩
    obtain rfl : p = withBuf pkt f bytes := by
      rcases hp with hp | hp | hp
      · cases hp; rfl
      · rw [show s.sender = .send p from hp] at hat; exact hat.elim
      · rw [show s.sender = .replacePkt p from hp] at hat; exact hat.elim
    change (s.tasks.set i _)[j]? = some w at hw
    intro a g hg bytes' hb'
    by_cases e : i = j
    · subst e
      rw [List.getElem?_set_self (List.getElem?_eq_some_iff.mp ht).1] at hw
      cases hw
      cases hshard.symm.trans hs
      change bytes' ∈ lastWritten (written ++ [(which, bytes)]) a at hb'
      rw [lastWritten_snoc] at hb'
      by_cases ea : which = a
      · subst ea
        rw [if_pos rfl] at hb'
        cases hb'
        cases hf.symm.trans hg
        exact fieldBytes_withBuf_self hle hb hroom
      · rw [if_neg ea] at hb'
        rw [fieldBytes_withBuf_of_disjoint hb hle hroom
          (hd i i shard shard which a hshard hshard (fun e => ea (Prod.mk.inj e).2) f hf g hg)]
        exact hc.held pkt (.inl hpkt) i shard t hshard ht a g hg bytes' (by rw [current, hr]; exact hb')
    · rw [List.getElem?_set_ne e] at hw
      rw [fieldBytes_withBuf_of_disjoint hb hle hroom
        (hd i j shard shard' which a hshard hs (fun e' => e (Prod.mk.inj e').1) f hf g hg)]
      exact hc.held pkt (.inl hpkt) j shard' w hs hw a g hg bytes' hb'
  · cases h

theorem step_contents (hd : cfg.Disjoint) (hi : Inv cfg s) (hc : Contents cfg s) {a : Act}
    (h : step cfg s a = some s') : Contents cfg s' := by
  cases a with
  | send ok => exact contents_send hi hc h
  | withBuf i which bytes => exact contents_withBuf hd hi hc h
  | ready =>
    simp only [step, Option.ite_none_right_eq_some, Option.some.injEq] at h
    obtain ⟨⟨hs, -⟩, rfl⟩ := h
    exact hc.move (fun p hp => hp.imp_right (by simp)) rfl rfl
  | take =>
    simp only [step, Option.ite_none_right_eq_some] at h
    obtain ⟨hs, h⟩ := h
    split at h
    · cases h; exact hc.move (fun p hp => hp) rfl rfl
    next pkt hpkt =>
      cases h
      refine hc.move (fun p hp => ?_) rfl rfl
      rcases hp with hp | hp | hp <;> cases hp
      exact .inl hpkt
  | replacePkt =>
    simp only [step] at h
    split at h
    next pkt hs =>
      cases h
      refine hc.move (fun p hp => ?_) rfl rfl
      rcases hp with hp | hp | hp <;> cases hp
      exact .inr (.inr hs)
    · cases h
  | notify =>
    simp only [step] at h
    split at h
    next word hs =>
      split at h
      · cases h; exact hc.move (fun p hp => hp.imp_right (by simp)) rfl rfl
      · cases h; exact hc.move (fun p hp => hp.imp_right (by simp)) rfl rfl
    · cases h
  | writeable i =>
    simp only [step, Option.bind_eq_bind, Option.bind_eq_some_iff, Option.ite_none_right_eq_some, Option.some.injEq] at h
    obtain ⟨t, ht, -, rfl⟩ := h
    exact hc.setTask ht (.inr rfl)
  | endIteration i finished =>
    simp only [step, Option.bind_eq_bind, Option.bind_eq_some_iff] at h
    obtain ⟨t, ht, h⟩ := h
    split at h
    next written hr =>
      split at h
      · cases h
        refine hc.setTask ht ?_
        by_cases e : t.completed + 1 = 1
        · exact .inl (by simp only [current, hr, if_pos e])
        · exact .inr (by simp only [current, if_neg e])
      · cases h
        have hzero := (hi.completed_of_running ht hr).2
        exact hc.setTask ht (.inr (current_of_zero (t := { t with plan := .waitWriteable }) (by simp) hzero))
    · cases h
  | fail i =>
    simp only [step, Option.bind_eq_bind, Option.bind_eq_some_iff] at h
    obtain ⟨t, ht, h⟩ := h
    split at h
    next written hr =>
      cases h
      have hzero := (hi.completed_of_running ht hr).2
      exact hc.setTask ht (.inr (current_of_zero (t := { t with plan := .ended }) (by simp) hzero))
    · cases h

theorem contents_init (cfg : Config) : Contents cfg cfg.init := by
  refine ⟨fun pkt _ i shard t _ ht => ?_, nofun⟩
  obtain ⟨shard', -, rfl⟩ := Option.map_eq_some_iff.mp ((List.getElem?_map ..).symm.trans ht)
  exact holds_nil _ _

/-! ## Runs -/

/-- In every run of the tasks, nothing is missing, and every packet holds what one finished iteration of each plan wrote. -/
theorem run_safe (h : Run (step cfg) (fun _ _ => True) cfg.init s) : Safe cfg s := by
  have hi : Inv cfg s := h.invariant (I := Inv cfg) (fun hi _ hs => step_inv hi hs) (inv_init cfg)
  refine ⟨hi.present, hi.sends, fun hd => ?_⟩
  have hc := h.invariant (I := fun s => Inv cfg s ∧ Contents cfg s)
    (fun hc _ hs => ⟨step_inv hc.1 hs, step_contents hd hc.1 hc.2 hs⟩) ⟨inv_init cfg, contents_init cfg⟩
  exact hc.2.sends

/-- One byte and its timestamp. -/
def oneField : Config where
  id := (1, 0)
  reqId := 3
  len := 9
  shards := [⟨⟨8, 9⟩, some ⟨0, 8⟩⟩]
  inTable := by
    intro s hs which f hf
    obtain rfl := List.mem_singleton.mp hs
    cases which <;> cases hf <;> decide

/-- One packet is filled and sent. -/
def oneSend : List Act :=
  [.writeable 0, .withBuf 0 .value [7], .withBuf 0 .timestamp [1, 0, 0, 0, 0, 0, 0, 0], .endIteration 0 true, .ready,
    .take, .send true]

theorem run_safe_oneSend : ∃ s, Safe oneField s ∧ s.sends.map (fun sent => sent.pkt.inner.drop 8) =
    [[1, 0, 0, 0, 0, 0, 0, 0, 7]] := by
  have hs : (exec (step oneField) (fun _ _ => True) oneField.init oneSend).map
      (fun s => s.sends.map fun sent => sent.pkt.inner.drop 8) = some [[1, 0, 0, 0, 0, 0, 0, 0, 7]] := by
    decide +kernel
  obtain ⟨s, hs, hb⟩ := Option.map_eq_some_iff.mp hs
  exact ⟨s, run_safe (Run.of_exec oneSend .refl hs), hb⟩

end Metor.Proof.FieldTable
