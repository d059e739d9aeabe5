import Mathlib.Data.List.Basic
import Metor.Spec.Stellarator

/-!
# Completions reach their own operation

Whatever the kernel completes, a completion that is neither dropped nor ready
keeps its slot (`Inv`, `inv_step`), and so always finds it. An entry of an
operation finds the slot of that operation, because a slot is only vacated
after the entry of its operation has completed (`Matched`); a cancel breaks
this, since its entry carries the key of slot 0. Where every cancel misses, each
completion gets that of its own entry (`completions_own`).
-/

namespace Metor.Proof.Uring

open Metor.Lib Metor.Impl.Uring Metor.Impl.Uring.UringReactor

/-- Each slot is of the operation that has its key, and a completion that is neither dropped nor ready has its slot. -/
structure Inv (r : UringReactor) : Prop where
  slots : ∀ k slot, r.states k = some slot → k < maxSlots ∧ ∃ c, r.completions[slot.op]? = some c ∧ c.id = k
  live : ∀ n c, r.completions[n]? = some c → c.opCode → ¬ c.dropped →
    ∃ slot, r.states c.id = some slot ∧ slot.op = n ∧ slot.state ≠ .ignored
  found : r.Found

/-- Of two entries at most one is of an operation. -/
def Apart (a b : Entry) : Prop := ∀ n, a.origin = .op n → b.origin ≠ .op n

/-- Each entry of an operation has the key of the slot of its operation, which has not completed; and what completed a
slot is of its operation. -/
structure Matched (r : UringReactor) : Prop where
  apart : r.inFlight.Pairwise Apart
  ops : ∀ e ∈ r.inFlight, ∀ n, e.origin = .op n →
    ∃ slot, r.states e.userData = some slot ∧ slot.op = n ∧ ∀ cqe, slot.state ≠ .completed cqe
  others : ∀ e ∈ r.inFlight, (∀ n, e.origin ≠ .op n) → e = asyncCancel ∨ maxSlots ≤ e.userData
  completed : ∀ k slot cqe, r.states k = some slot → slot.state = .completed cqe → cqe.entry.origin = .op slot.op
  own : r.Own

theorem inv_init : Inv init :=
  ⟨fun k slot h => absurd h (by simp [init]), fun n c h => absurd h (by simp [init]), fun o h => absurd h (by simp [init])⟩

theorem matched_init : Matched init :=
  ⟨.nil, fun e h => absurd h (by simp [init]), fun e h => absurd h (by simp [init]),
    fun k slot cqe h => absurd h (by simp [init]), fun o h => absurd h (by simp [init])⟩

/-! ## Slots that change -/

section
variable {r : UringReactor}

theorem states_setState {k k' : Nat} {slot : Option Slot} :
    (r.setState k slot).states k' = if k' = k then slot else r.states k' := Function.update_apply _ _ _ _

/-- The slot of a key gets another state of the same operation. -/
theorem Inv.setState (h : Inv r) {k : Nat} {slot : Slot} (hk : r.states k = some slot) {state : OpState}
    (hl : state = .ignored → ∀ c, r.completions[slot.op]? = some c → c.opCode → c.dropped = true) :
    Inv (r.setState k (some { slot with state })) := by
  refine ⟨fun k' slot' hs => ?_, fun n c hc ho hd => ?_, h.found⟩
  · rw [states_setState] at hs
    split at hs
    · rename_i e
      obtain rfl := Option.some.inj hs
      rw [e]
      exact h.slots k slot hk
    · exact h.slots k' slot' hs
  · obtain ⟨slot', hs, hn, hi⟩ := h.live n c hc ho hd
    rw [states_setState]
    by_cases e : c.id = k
    · rw [e, hk] at hs
      obtain rfl := Option.some.inj hs
      rw [if_pos e]
      exact ⟨_, rfl, hn, fun hst => hd (hl hst c (hn ▸ hc) ho)⟩
    · rw [if_neg e]
      exact ⟨slot', hs, hn, hi⟩

/-- The slot of an operation that is dropped or ready is vacated. -/
theorem Inv.vacate (h : Inv r) {k : Nat} {slot : Slot} (hk : r.states k = some slot)
    (hl : ∀ c, r.completions[slot.op]? = some c → c.opCode → c.dropped = true) : Inv (r.setState k none) := by
  refine ⟨fun k' slot' hs => ?_, fun n c hc ho hd => ?_, h.found⟩
  · rw [states_setState, Option.ite_none_left_eq_some] at hs
    exact h.slots k' slot' hs.2
  · obtain ⟨slot', hs, hn, hi⟩ := h.live n c hc ho hd
    have e : c.id ≠ k := by
      intro e
      rw [e, hk] at hs
      obtain rfl := Option.some.inj hs
      exact hd (hl c (hn ▸ hc) ho)
    exact ⟨slot', by rw [states_setState, if_neg e, hs], hn, hi⟩

/-- A completion is dropped or becomes ready. -/
theorem Inv.retire (h : Inv r) {n : Nat} {c c' : Completion} (hc : r.completions[n]? = some c) (hid : c'.id = c.id)
    (hl : c'.opCode → c'.dropped = true) : Inv { r with completions := r.completions.set n c' } := by
  have hn := (List.getElem?_eq_some_iff.mp hc).1
  refine ⟨fun k slot hs => ?_, fun m d hd ho hnd => ?_, h.found⟩
  · obtain ⟨hk, d, hd, rfl⟩ := h.slots k slot hs
    refine ⟨hk, ?_⟩
    show ∃ c, (r.completions.set n c')[slot.op]? = some c ∧ c.id = d.id
    rw [List.getElem?_set]
    by_cases e : n = slot.op
    · rw [← e, hc] at hd
      obtain rfl := Option.some.inj hd
      exact ⟨c', by rw [if_pos e, if_pos hn], hid⟩
    · exact ⟨d, by rw [if_neg e, hd], rfl⟩
  · have hd : (r.completions.set n c')[m]? = some d := hd
    rw [List.getElem?_set] at hd
    by_cases e : n = m
    · rw [if_pos e, if_pos hn] at hd
      obtain rfl := Option.some.inj hd
      exact absurd (hl ho) hnd
    · rw [if_neg e] at hd
      exact h.live m d hd ho hnd

theorem Inv.output (h : Inv r) (n : Nat) (cqe : Cqe) : Inv { r with outputs := r.outputs ++ [(n, .output cqe)] } := by
  refine ⟨h.slots, h.live, fun o ho => ?_⟩
  rcases List.mem_append.mp ho with ho | ho
  · exact h.found o ho
  · obtain rfl := List.mem_singleton.mp ho
    exact ⟨cqe, rfl⟩

theorem Inv.push (h : Inv r) (room : Bool) (entry : Entry) : Inv (r.push room entry) := by
  unfold UringReactor.push
  split
  · exact ⟨h.slots, h.live, h.found⟩
  · exact h

/-- An operation has one slot. -/
theorem Inv.key_eq (h : Inv r) {k k' : Nat} {slot slot' : Slot} (hk : r.states k = some slot)
    (hk' : r.states k' = some slot') (e : slot.op = slot'.op) : k = k' := by
  obtain ⟨-, c, hc, rfl⟩ := h.slots k slot hk
  obtain ⟨-, c', hc', rfl⟩ := h.slots k' slot' hk'
  rw [e, hc'] at hc
  rw [Option.some.inj hc]

/-! ## What a step keeps in any case -/

theorem inv_submitOp (h : Inv r) {key : Nat} {room : Bool} {t : UringReactor} (ht : r.submitOp key room = some t) :
    Inv t := by
  unfold submitOp at ht
  split at ht
  · rename_i hkey
    split at ht
    · obtain rfl := Option.some.inj ht
      have hold : ∀ {m c}, r.completions[m]? = some c →
          (r.completions ++ [(⟨key, true, false⟩ : Completion)])[m]? = some c := fun hc => by
        rw [List.getElem?_append_left (List.getElem?_eq_some_iff.mp hc).1, hc]
      refine ⟨fun k slot hs => ?_, fun n c hc ho hd => ?_, h.found⟩
      · have hs : (r.setState key (some ⟨r.completions.length, .waiting none⟩)).states k = some slot := hs
        rw [states_setState] at hs
        split at hs
        · rename_i e
          obtain rfl := Option.some.inj hs
          exact ⟨e ▸ hkey.2, _, List.getElem?_concat_length, e.symm⟩
        · obtain ⟨hlt, c, hc, e⟩ := h.slots k slot hs
          exact ⟨hlt, c, hold hc, e⟩
      · show ∃ slot, (r.setState key (some ⟨r.completions.length, .waiting none⟩)).states c.id = some slot ∧ _
        have hc : (r.completions ++ [(⟨key, true, false⟩ : Completion)])[n]? = some c := hc
        rw [states_setState]
        rcases Nat.lt_trichotomy n r.completions.length with hn | rfl | hn
        · rw [List.getElem?_append_left hn] at hc
          obtain ⟨slot, hs, hrest⟩ := h.live n c hc ho hd
          have e : c.id ≠ key := fun e => absurd (e ▸ hs) (by rw [hkey.1]; simp)
          exact ⟨slot, by rw [if_neg e, hs], hrest⟩
        · rw [List.getElem?_concat_length] at hc
          obtain rfl := Option.some.inj hc
          exact ⟨_, if_pos rfl, rfl, by simp⟩
        · rw [List.getElem?_eq_none (by rw [List.length_append, List.length_singleton]; omega)] at hc
          exact absurd hc (by simp)
    · obtain rfl := Option.some.inj ht
      exact h
  · exact absurd ht (by simp)

/-- What a poll can do: its slot is that of its operation, which waits or has completed. -/
theorem poll_cases (h : Inv r) {n waker : Nat} {t : UringReactor} (ht : r.pollCompletion n waker = some t) :
    ∃ c slot, r.completions[n]? = some c ∧ r.states c.id = some slot ∧ slot.op = n ∧
      (((∃ w, slot.state = .waiting w) ∧ t = r.setState c.id (some { slot with state := .waiting (some waker) })) ∨
        ∃ cqe, slot.state = .completed cqe ∧ t = (r.setState c.id none).ready n c (.output cqe)) := by
  obtain ⟨c, hc, ht⟩ := Option.bind_eq_some_iff.mp ht
  split at ht
  · rename_i hl
    obtain ⟨slot, hs, hn, hi⟩ := h.live n c hc hl.1 hl.2
    refine ⟨c, slot, hc, hs, hn, ?_⟩
    simp only [hs] at ht
    cases hst : slot.state with
    | waiting w =>
      rw [hst] at ht
      exact .inl ⟨⟨w, rfl⟩, (Option.some.inj ht).symm⟩
    | completed cqe =>
      rw [hst] at ht
      exact .inr ⟨cqe, rfl, (Option.some.inj ht).symm⟩
    | ignored => exact absurd hst hi
  · exact absurd ht (by simp)

theorem inv_poll (h : Inv r) {n waker : Nat} {t : UringReactor} (ht : r.pollCompletion n waker = some t) : Inv t := by
  obtain ⟨c, slot, hc, hs, rfl, ⟨-, rfl⟩ | ⟨cqe, -, rfl⟩⟩ := poll_cases h ht
  · exact h.setState hs (fun e => absurd e (by simp))
  · have hr : Inv { r with completions := r.completions.set slot.op { c with opCode := false } } :=
      h.retire hc rfl (fun ho => absurd ho (by simp))
    have hlt := (List.getElem?_eq_some_iff.mp hc).1
    refine (hr.vacate hs fun d hd ho => ?_).output slot.op cqe
    have hd : (r.completions.set slot.op { c with opCode := false })[slot.op]? = some d := hd
    rw [List.getElem?_set_self hlt] at hd
    obtain rfl := Option.some.inj hd
    exact absurd ho (by simp)

/-- What a drop can do: a completion whose `op_code` is taken, or does not fit, leaves nothing behind. -/
theorem drop_cases (h : Inv r) {n : Nat} {stable room : Bool} {t : UringReactor}
    (ht : r.dropCompletion n stable room = some t) :
    ∃ c, r.completions[n]? = some c ∧ ¬ c.dropped ∧
      let d := { r with completions := r.completions.set n { c with dropped := true } }
      (¬ (c.opCode ∧ stable) ∧ t = d) ∨ ∃ slot, r.states c.id = some slot ∧ slot.op = n ∧ (c.opCode ∧ stable) ∧
        ∃ sent, t = (d.push sent asyncCancel).setState c.id (some { slot with state := .ignored }) := by
  obtain ⟨c, hc, ht⟩ := Option.bind_eq_some_iff.mp ht
  refine ⟨c, hc, ?_⟩
  split at ht
  · exact absurd ht (by simp)
  · rename_i hd
    refine ⟨hd, ?_⟩
    by_cases ho : c.opCode ∧ stable
    · obtain ⟨slot, hs, hn, -⟩ := h.live n c hc ho.1 hd
      simp only [hs, if_pos ho] at ht
      refine .inr ⟨slot, hs, hn, ho, ?_⟩
      split at ht
      · exact ⟨room, (Option.some.inj ht).symm⟩
      · exact ⟨false, (Option.some.inj ht).symm⟩
    · refine .inl ⟨ho, ?_⟩
      cases hs : r.states c.id with
      | none =>
        simp only [hs, Option.some.injEq] at ht
        exact ht.symm
      | some slot =>
        simp only [hs, if_neg ho, Option.some.injEq] at ht
        exact ht.symm

theorem inv_drop (h : Inv r) {n : Nat} {stable room : Bool} {t : UringReactor}
    (ht : r.dropCompletion n stable room = some t) : Inv t := by
  obtain ⟨c, hc, -, htd⟩ := drop_cases h ht
  have hr : Inv { r with completions := r.completions.set n { c with dropped := true } } :=
    h.retire hc rfl (fun _ => rfl)
  rcases htd with ⟨-, rfl⟩ | ⟨slot, hs, rfl, -, sent, rfl⟩
  · exact hr
  · have hlt := (List.getElem?_eq_some_iff.mp hc).1
    refine (hr.push sent asyncCancel).setState ?_ fun _ d hd _ => ?_
    · unfold UringReactor.push; split <;> exact hs
    · have hd : (r.completions.set slot.op { c with dropped := true })[slot.op]? = some d := by
        unfold UringReactor.push at hd
        split at hd <;> exact hd
      rw [List.getElem?_set_self hlt] at hd
      rw [← Option.some.inj hd]

/-- The operation of an ignored slot is not waited for. -/
theorem Inv.dropped_of_ignored (h : Inv r) {k : Nat} {slot : Slot} (hk : r.states k = some slot)
    (hi : slot.state = .ignored) : ∀ c, r.completions[slot.op]? = some c → c.opCode → c.dropped = true := by
  intro c hc ho
  by_contra hd
  obtain ⟨slot', hs, hn, hne⟩ := h.live slot.op c hc ho hd
  obtain rfl := h.key_eq hs hk hn
  obtain rfl := Option.some.inj (hs.symm.trans hk)
  exact hne hi

/-- What one completion does to the slot of its key. -/
theorem complete_cases (r : UringReactor) (comp : Cqe) :
    (r.states comp.entry.userData = none ∧ r.complete comp = r) ∨
      ∃ slot, r.states comp.entry.userData = some slot ∧
        ((slot.state = .ignored ∧ r.complete comp = r.setState comp.entry.userData none) ∨
          slot.state ≠ .ignored ∧ ∃ woken, r.complete comp =
            { r.setState comp.entry.userData (some { slot with state := .completed comp }) with woken }) := by
  unfold complete
  cases hs : r.states comp.entry.userData with
  | none => exact .inl ⟨rfl, rfl⟩
  | some slot =>
    refine .inr ⟨slot, rfl, ?_⟩
    cases hst : slot.state with
    | waiting w =>
      refine .inr ⟨by simp, ?_⟩
      cases w with
      | none => exact ⟨r.woken, by simp only [hst]; rfl⟩
      | some w => exact ⟨r.woken ++ [w], by simp only [hst]⟩
    | completed cqe => exact .inr ⟨by simp, r.woken, by simp only [hst]; rfl⟩
    | ignored => exact .inl ⟨rfl, by simp only [hst]⟩

theorem inv_processIo (h : Inv r) {entry : Entry} {result : Int} {t : UringReactor}
    (ht : r.processIo entry result = some t) : Inv t := by
  rw [processIo, Option.ite_none_right_eq_some] at ht
  obtain rfl := Option.some.inj ht.2
  have hr : Inv { r with inFlight := r.inFlight.erase entry } := ⟨h.slots, h.live, h.found⟩
  rcases complete_cases { r with inFlight := r.inFlight.erase entry } ⟨entry, result⟩ with
    ⟨-, e⟩ | ⟨slot, hs, ⟨hi, e⟩ | ⟨-, woken, e⟩⟩
  · rw [e]; exact hr
  · rw [e]; exact hr.vacate hs (hr.dropped_of_ignored hs hi)
  · rw [e]
    have hset := @Inv.setState _ hr _ _ hs (.completed ⟨entry, result⟩) (fun e => absurd e (by simp))
    exact ⟨hset.slots, hset.live, hset.found⟩

theorem inv_step (h : Inv r) {a : Act} {t : UringReactor} (ht : step r a = some t) : Inv t := by
  cases a with
  | submitOp key room => exact inv_submitOp h ht
  | pollCompletion n waker => exact inv_poll h ht
  | dropCompletion n stable room => exact inv_drop h ht
  | waitForIo timeout room =>
    obtain rfl := Option.some.inj ht
    unfold waitForIo
    split
    · exact h.push room _
    · exact h
  | wake room =>
    obtain rfl := Option.some.inj ht
    exact h.push room _
  | processIo entry result => exact inv_processIo h ht

/-! ## What a step keeps where the cancels miss -/

theorem Matched.push (h : Matched r) (room : Bool) {entry : Entry} (hop : ∀ n, entry.origin ≠ .op n)
    (he : entry = asyncCancel ∨ maxSlots ≤ entry.userData) : Matched (r.push room entry) := by
  unfold UringReactor.push
  split
  · refine ⟨?_, fun e hm n hn => ?_, fun e hm hn => ?_, h.completed, h.own⟩
    · refine List.pairwise_append.mpr ⟨h.apart, List.pairwise_singleton _ _, fun a _ b hb n _ => ?_⟩
      rw [List.mem_singleton.mp hb]
      exact hop n
    · rcases List.mem_append.mp hm with hm | hm
      · exact h.ops e hm n hn
      · exact absurd (List.mem_singleton.mp hm ▸ hn) (hop n)
    · rcases List.mem_append.mp hm with hm | hm
      · exact h.others e hm hn
      · rw [List.mem_singleton.mp hm]; exact he
  · exact h

theorem Matched.erase (h : Matched r) (entry : Entry) : Matched { r with inFlight := r.inFlight.erase entry } :=
  ⟨h.apart.sublist List.erase_sublist, fun e he => h.ops e (List.mem_of_mem_erase he),
    fun e he => h.others e (List.mem_of_mem_erase he), h.completed, h.own⟩

/-- After an entry of an operation none of that operation is left. -/
theorem Matched.erased (h : Matched r) {entry : Entry} (hm : entry ∈ r.inFlight) {n : Nat}
    (hn : entry.origin = .op n) : ∀ e ∈ r.inFlight.erase entry, e.origin ≠ .op n := by
  have hsymm : ∀ {a b : Entry}, Apart a b → Apart b a := fun hab n ha hb => hab n hb ha
  have hp := ((List.perm_cons_erase hm).pairwise_iff hsymm).mp h.apart
  exact fun e he => (List.pairwise_cons.mp hp).1 e he n hn

theorem Matched.setState (h : Matched r) {k : Nat} {slot : Slot} (hk : r.states k = some slot) {state : OpState}
    (hst : ∀ cqe, state = .completed cqe →
      cqe.entry.origin = .op slot.op ∧ ∀ e ∈ r.inFlight, e.origin ≠ .op slot.op) :
    Matched (r.setState k (some { slot with state })) := by
  refine ⟨h.apart, fun e he n hn => ?_, h.others, fun k' slot' cqe hs hc => ?_, h.own⟩
  · obtain ⟨slot', hs, hop, hnc⟩ := h.ops e he n hn
    rw [states_setState]
    by_cases hek : e.userData = k
    · rw [hek, hk] at hs
      obtain rfl := Option.some.inj hs
      exact ⟨_, if_pos hek, hop, fun cqe hc => (hst cqe hc).2 e he (hop ▸ hn)⟩
    · exact ⟨slot', by rw [if_neg hek, hs], hop, hnc⟩
  · rw [states_setState] at hs
    split at hs
    · obtain rfl := Option.some.inj hs
      exact (hst cqe hc).1
    · exact h.completed k' slot' cqe hs hc

theorem Matched.vacate (h : Matched r) {k : Nat} {slot : Slot} (hk : r.states k = some slot)
    (hno : ∀ e ∈ r.inFlight, e.origin ≠ .op slot.op) : Matched (r.setState k none) := by
  refine ⟨h.apart, fun e he n hn => ?_, h.others, fun k' slot' cqe hs => ?_, h.own⟩
  · obtain ⟨slot', hs, hop, hnc⟩ := h.ops e he n hn
    have hek : e.userData ≠ k := by
      intro hek
      rw [hek, hk] at hs
      obtain rfl := Option.some.inj hs
      exact hno e he (hop ▸ hn)
    exact ⟨slot', by rw [states_setState, if_neg hek, hs], hop, hnc⟩
  · rw [states_setState, Option.ite_none_left_eq_some] at hs
    exact h.completed k' slot' cqe hs.2

/-- No entry of the operation of a completed slot is left. -/
theorem Matched.of_completed (h : Matched r) (hi : Inv r) {k : Nat} {slot : Slot} {cqe : Cqe}
    (hk : r.states k = some slot) (hc : slot.state = .completed cqe) : ∀ e ∈ r.inFlight, e.origin ≠ .op slot.op := by
  intro e he hn
  obtain ⟨slot', hs, hop, hnc⟩ := h.ops e he slot.op hn
  obtain rfl := hi.key_eq hs hk hop
  obtain rfl := Option.some.inj (hs.symm.trans hk)
  exact hnc cqe hc

theorem matched_submitOp (h : Matched r) (hi : Inv r) {key : Nat} {room : Bool} {t : UringReactor}
    (ht : r.submitOp key room = some t) : Matched t := by
  unfold submitOp at ht
  split at ht
  · rename_i hkey
    split at ht
    · obtain rfl := Option.some.inj ht
      -- the operation is new: no entry is of it
      have hnew : ∀ e ∈ r.inFlight, ∀ n, e.origin = .op n → n < r.completions.length := fun e he n hn => by
        obtain ⟨slot, hs, rfl, -⟩ := h.ops e he n hn
        obtain ⟨-, c, hc, -⟩ := hi.slots _ _ hs
        exact (List.getElem?_eq_some_iff.mp hc).1
      refine ⟨?_, fun e he n hn => ?_, fun e he hn => ?_, fun k slot cqe hs hc => ?_, h.own⟩
      · refine List.pairwise_append.mpr ⟨h.apart, List.pairwise_singleton _ _, fun a ha b hb n hn hb' => ?_⟩
        rw [List.mem_singleton.mp hb] at hb'
        have := hnew a ha n hn
        rw [← Origin.op.inj hb'] at this
        omega
      · show ∃ slot, (r.setState key (some ⟨r.completions.length, .waiting none⟩)).states e.userData = some slot ∧ _
        rw [states_setState]
        rcases List.mem_append.mp he with he | he
        · obtain ⟨slot, hs, hrest⟩ := h.ops e he n hn
          have hek : e.userData ≠ key := fun hek => absurd (hek ▸ hs) (by rw [hkey.1]; simp)
          exact ⟨slot, by rw [if_neg hek, hs], hrest⟩
        · obtain rfl := List.mem_singleton.mp he
          exact ⟨_, if_pos rfl, Origin.op.inj hn, by simp⟩
      · rcases List.mem_append.mp he with he | he
        · exact h.others e he hn
        · obtain rfl := List.mem_singleton.mp he
          exact absurd rfl (hn r.completions.length)
      · have hs : (r.setState key (some ⟨r.completions.length, .waiting none⟩)).states k = some slot := hs
        rw [states_setState] at hs
        split at hs
        · obtain rfl := Option.some.inj hs
          exact absurd hc (by simp)
        · exact h.completed k slot cqe hs hc
    · obtain rfl := Option.some.inj ht
      exact h
  · exact absurd ht (by simp)

theorem matched_poll (h : Matched r) (hi : Inv r) {n waker : Nat} {t : UringReactor}
    (ht : r.pollCompletion n waker = some t) : Matched t := by
  obtain ⟨c, slot, hc, hs, rfl, ⟨-, rfl⟩ | ⟨cqe, hcq, rfl⟩⟩ := poll_cases hi ht
  · exact h.setState hs (fun cqe e => absurd e (by simp))
  · have hv := h.vacate hs (h.of_completed hi hs hcq)
    refine ⟨hv.apart, hv.ops, hv.others, hv.completed, fun o ho cqe' hcq' => ?_⟩
    rcases List.mem_append.mp ho with ho | ho
    · exact h.own o ho cqe' hcq'
    · obtain rfl := List.mem_singleton.mp ho
      obtain rfl := Output.output.inj hcq'
      exact h.completed c.id slot cqe hs hcq

theorem matched_drop (h : Matched r) (hi : Inv r) {n : Nat} {stable room : Bool} {t : UringReactor}
    (ht : r.dropCompletion n stable room = some t) : Matched t := by
  obtain ⟨c, hc, -, htd⟩ := drop_cases hi ht
  have hr : Matched { r with completions := r.completions.set n { c with dropped := true } } :=
    ⟨h.apart, h.ops, h.others, h.completed, h.own⟩
  rcases htd with ⟨-, rfl⟩ | ⟨slot, hs, rfl, -, sent, rfl⟩
  · exact hr
  · have hp := @Matched.push _ hr sent asyncCancel (by simp [asyncCancel]) (.inl rfl)
    refine hp.setState ?_
      (fun cqe e => absurd e (by simp))
    unfold UringReactor.push
    split <;> exact hs

/-- An entry of an operation finds the slot of that operation, and every other one no slot that is still of use. -/
theorem matched_processIo (h : Matched r) (hi : Inv r) {entry : Entry} {result : Int} {t : UringReactor}
    (hok : CancelsMiss r (.processIo entry result)) (ht : r.processIo entry result = some t) : Matched t := by
  rw [processIo, Option.ite_none_right_eq_some] at ht
  obtain ⟨hm, ht⟩ := ht
  obtain rfl := Option.some.inj ht
  have hr := h.erase entry
  have hcases := complete_cases { r with inFlight := r.inFlight.erase entry } ⟨entry, result⟩
  by_cases hop : ∃ n, entry.origin = .op n
  · obtain ⟨n, hn⟩ := hop
    obtain ⟨slot, hs, rfl, hnc⟩ := h.ops entry hm n hn
    have hno := h.erased hm hn
    rcases hcases with ⟨hnone, -⟩ | ⟨slot', hs', ⟨-, e⟩ | ⟨-, woken, e⟩⟩
    · exact absurd (hs.symm.trans hnone) (by simp)
    · obtain rfl := Option.some.inj (hs.symm.trans hs')
      rw [e]
      exact hr.vacate hs hno
    · obtain rfl := Option.some.inj (hs.symm.trans hs')
      rw [e]
      have hset := @Matched.setState _ hr _ _ hs (.completed ⟨entry, result⟩) fun cqe e => by
        rw [← OpState.completed.inj e]
        exact ⟨hn, hno⟩
      exact ⟨hset.apart, hset.ops, hset.others, hset.completed, hset.own⟩
  · rw [not_exists] at hop
    rcases h.others entry hm hop with rfl | hlarge
    · rcases hcases with ⟨-, e⟩ | ⟨slot, hs, ⟨-, e⟩ | ⟨hne, -⟩⟩
      · rw [e]; exact hr
      · rw [e]
        exact hr.vacate hs fun e he => (hok rfl slot hs).2 e (List.mem_of_mem_erase he)
      · exact absurd (hok rfl slot hs).1 hne
    · rcases hcases with ⟨-, e⟩ | ⟨slot, hs, -⟩
      · rw [e]; exact hr
      · exact absurd (hi.slots _ _ hs).1 (Nat.not_lt.mpr hlarge)

theorem matched_step (h : Matched r) (hi : Inv r) {a : Act} {t : UringReactor} (hok : CancelsMiss r a)
    (ht : step r a = some t) : Matched t := by
  cases a with
  | submitOp key room => exact matched_submitOp h hi ht
  | pollCompletion n waker => exact matched_poll h hi ht
  | dropCompletion n stable room => exact matched_drop h hi ht
  | waitForIo timeout room =>
    obtain rfl := Option.some.inj ht
    unfold waitForIo
    split
    · exact h.push room (by simp) (.inr (by decide))
    · exact h
  | wake room =>
    obtain rfl := Option.some.inj ht
    exact h.push room (by simp) (.inr (by decide))
  | processIo entry result => exact matched_processIo h hi hok ht

end

/-! ## Runs -/

/-- A completion that is not dropped finds its slot in every run. -/
theorem run_found {r : UringReactor} (h : Run step (fun _ _ => True) init r) : r.Found :=
  (h.invariant (fun hi _ ht => inv_step hi ht) inv_init).found

/-- Where every cancel misses, a completion that is ready has the completion of its own entry. -/
theorem completions_own {r : UringReactor} (h : Run step CancelsMiss init r) : r.Own ∧ r.Found := by
  have hi : Inv r ∧ Matched r :=
    h.invariant (I := fun r => Inv r ∧ Matched r)
      (fun hi hok ht => ⟨inv_step hi.1 ht, matched_step hi.2 hi.1 hok ht⟩) ⟨inv_init, matched_init⟩
  exact ⟨hi.2.own, hi.1.found⟩

/-- Two operations; the first is ready before the second is dropped. -/
def readyThenDropped : List Act :=
  [.submitOp 0 true, .submitOp 1 true, .processIo ⟨0, .op 0⟩ 7, .pollCompletion 0 0, .dropCompletion 1 true true,
    .processIo ⟨0, .cancel⟩ 0, .processIo ⟨1, .op 1⟩ (-125)]

/-- Two operations; the second is dropped, and its cancel completes the first. -/
def droppedThenReady : List Act :=
  [.submitOp 0 true, .submitOp 1 true, .dropCompletion 1 true true, .processIo ⟨0, .cancel⟩ (-2), .pollCompletion 0 0]

theorem completions_own_first : ∃ r, exec step CancelsMiss init readyThenDropped = some r ∧ r.Own ∧ r.Found := by
  have h : (exec step CancelsMiss init readyThenDropped).isSome := by decide
  obtain ⟨r, hr⟩ := Option.isSome_iff_exists.mp h
  exact ⟨r, hr, completions_own (Run.of_exec _ .refl hr)⟩

theorem cancel_completes_other : ¬ ∀ r, Run step (fun _ _ => True) init r → r.Own ∧ r.Found := by
  intro hall
  let r := (exec step (fun _ _ => True) init droppedThenReady).getD init
  have hr : exec step (fun _ _ => True) init droppedThenReady = some r := by rfl
  have ho : (0, Output.output ⟨⟨0, .cancel⟩, -2⟩) ∈ r.outputs := by decide
  exact absurd ((hall r (Run.of_exec _ .refl hr)).1 _ ho _ rfl) (by decide)

end Metor.Proof.Uring
