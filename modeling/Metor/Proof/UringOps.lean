import Metor.Proof.Uring
import Metor.Spec.Stellarator

/-!
# Memory of operations in flight has an owner

A slot that waits or is ignored has its entry in flight, one that waits or has
completed has its completion, and the value of an ignored one keeps all that
its entry points to (`Owns`, `owns_step`). With what `Uring` says of slots and
entries, the memory of what is in flight has an owner (`Owns.safe`).
-/

namespace Metor.Proof.Uring

open Metor.Lib Metor.Impl.Uring Metor.Impl.Uring.UringReactor

/-- What is so of each slot. -/
structure Owns (m : Memory) : Prop where
  length : m.opCodes.length = m.reactor.completions.length
  live : ∀ k slot, m.reactor.states k = some slot → slot.state ≠ .ignored → m.reactor.Live slot.op
  inFlight : ∀ k slot, m.reactor.states k = some slot → (∀ cqe, slot.state ≠ .completed cqe) → m.reactor.InFlight slot.op
  keeps : ∀ k slot, m.reactor.states k = some slot → slot.state = .ignored →
    ∀ opCode ∈ m.opCodes[slot.op]?, ∀ region ∈ opCode.sqe, (slot.op, region) ∈ m.values k

theorem owns_init : Owns .init :=
  ⟨rfl, fun k slot h => absurd h (by simp [Memory.init, UringReactor.init]),
    fun k slot h => absurd h (by simp [Memory.init, UringReactor.init]),
    fun k slot h => absurd h (by simp [Memory.init, UringReactor.init])⟩

section
variable {r : UringReactor} {m t : Memory} {capacity n : Nat}

/-! ## What stays live and in flight -/

theorem mem_push (room : Bool) {e : Entry} (entry : Entry) (he : e ∈ r.inFlight) : e ∈ (r.push room entry).inFlight := by
  unfold UringReactor.push
  split
  · exact List.mem_append_left _ he
  · exact he

theorem states_push (room : Bool) (entry : Entry) : (r.push room entry).states = r.states := by
  unfold UringReactor.push
  split <;> rfl

theorem completions_push (room : Bool) (entry : Entry) : (r.push room entry).completions = r.completions := by
  unfold UringReactor.push
  split <;> rfl

theorem inFlight_erase (h : r.InFlight n) {entry : Entry} (he : entry.origin ≠ .op n) :
    ({ r with inFlight := r.inFlight.erase entry } : UringReactor).InFlight n := by
  obtain ⟨e, hm, hn⟩ := h
  have hne : e ≠ entry := fun heq => he (heq ▸ hn)
  exact ⟨e, (List.mem_erase_of_ne hne).mpr hm, hn⟩

/-- Another completion is dropped or becomes ready. -/
theorem live_set (h : r.Live n) {k : Nat} (hk : k ≠ n) (c : Completion) :
    ({ r with completions := r.completions.set k c } : UringReactor).Live n := by
  obtain ⟨d, hd, hl⟩ := h
  exact ⟨d, by rw [← hd]; exact List.getElem?_set_ne hk, hl⟩

/-- Entries are pushed for what is no operation. -/
theorem Owns.push (h : Owns m) (room : Bool) (entry : Entry) : Owns { m with reactor := m.reactor.push room entry } := by
  refine ⟨?_, fun k slot hs hi => ?_, fun k slot hs hc => ?_, fun k slot hs hi => ?_⟩
  · show m.opCodes.length = (m.reactor.push room entry).completions.length
    rw [completions_push, h.length]
  · replace hs : (m.reactor.push room entry).states k = some slot := hs
    rw [states_push] at hs
    show ∃ c, (m.reactor.push room entry).completions[slot.op]? = some c ∧ c.opCode ∧ ¬ c.dropped
    rw [completions_push]
    exact h.live k slot hs hi
  · replace hs : (m.reactor.push room entry).states k = some slot := hs
    rw [states_push] at hs
    obtain ⟨e, he, hn⟩ := h.inFlight k slot hs hc
    exact ⟨e, mem_push room entry he, hn⟩
  · replace hs : (m.reactor.push room entry).states k = some slot := hs
    rw [states_push] at hs
    exact h.keeps k slot hs hi

/-- Of the other slots nothing changes. -/
theorem Owns.frame (h : Owns m) {r : UringReactor} {values : Nat → List (Nat × Region)} {k : Nat}
    (hlen : r.completions.length = m.reactor.completions.length)
    (hs : ∀ k' ≠ k, r.states k' = m.reactor.states k' ∧ values k' = m.values k')
    (hlive : ∀ k' ≠ k, ∀ slot, m.reactor.states k' = some slot → m.reactor.Live slot.op → r.Live slot.op)
    (hfl : ∀ k' ≠ k, ∀ slot, m.reactor.states k' = some slot → m.reactor.InFlight slot.op → r.InFlight slot.op)
    (hk : ∀ slot, r.states k = some slot → (slot.state ≠ .ignored → r.Live slot.op) ∧
      ((∀ cqe, slot.state ≠ .completed cqe) → r.InFlight slot.op) ∧
      (slot.state = .ignored → ∀ opCode ∈ m.opCodes[slot.op]?, ∀ region ∈ opCode.sqe, (slot.op, region) ∈ values k)) :
    Owns ⟨r, m.opCodes, values⟩ := by
  refine ⟨h.length.trans hlen.symm, fun k' slot hk' hi => ?_, fun k' slot hk' hc => ?_, fun k' slot hk' hi => ?_⟩
  · by_cases e : k' = k
    · rw [e] at hk'
      exact (hk slot hk').1 hi
    · replace hk' : r.states k' = some slot := hk'
      rw [(hs k' e).1] at hk'
      exact hlive k' e slot hk' (h.live k' slot hk' hi)
  · by_cases e : k' = k
    · rw [e] at hk'
      exact (hk slot hk').2.1 hc
    · replace hk' : r.states k' = some slot := hk'
      rw [(hs k' e).1] at hk'
      exact hfl k' e slot hk' (h.inFlight k' slot hk' hc)
  · by_cases e : k' = k
    · rw [e] at hk' ⊢
      exact (hk slot hk').2.2 hi
    · replace hk' : r.states k' = some slot := hk'
      rw [(hs k' e).1] at hk'
      show ∀ opCode ∈ m.opCodes[slot.op]?, ∀ region ∈ opCode.sqe, (slot.op, region) ∈ values k'
      rw [(hs k' e).2]
      exact h.keeps k' slot hk' hi

/-! ## Steps -/

theorem owns_submitOp (h : Owns m) (hi : Inv m.reactor) {key : Nat} {room : Bool} {opCode : OpCode}
    (ht : m.submitOp key room opCode = some t) : Owns t := by
  obtain ⟨r, hr, rfl⟩ := Option.map_eq_some_iff.mp ht
  unfold UringReactor.submitOp at hr
  split at hr
  · rename_i hkey
    split at hr
    · rename_i hroom
      obtain rfl := Option.some.inj hr
      rw [if_pos hroom]
      have hlt {k : Nat} {slot : Slot} (hs : m.reactor.states k = some slot) : slot.op < m.reactor.completions.length := by
        obtain ⟨-, c, hc, -⟩ := hi.slots k slot hs
        exact (List.getElem?_eq_some_iff.mp hc).1
      have hstates {k : Nat} {slot : Slot}
          (hs : (m.reactor.setState key (some ⟨m.reactor.completions.length, .waiting none⟩)).states k = some slot) :
          (⟨m.reactor.completions.length, .waiting none⟩ : Slot) = slot ∨ m.reactor.states k = some slot := by
        rw [states_setState] at hs
        split at hs
        · exact .inl (Option.some.inj hs)
        · exact .inr hs
      refine ⟨?_, fun k slot hs hst => ?_, fun k slot hs hst => ?_, fun k slot hs hst => ?_⟩
      · show (m.opCodes ++ [opCode]).length = (m.reactor.completions ++ [_]).length
        rw [List.length_append, List.length_append, h.length]
        rfl
      · show ∃ c, (m.reactor.completions ++ [⟨key, true, false⟩])[slot.op]? = some c ∧ _
        rcases hstates hs with rfl | hs
        · exact ⟨_, List.getElem?_concat_length, rfl, by simp⟩
        · obtain ⟨c, hc, hl⟩ := h.live k slot hs hst
          exact ⟨c, by rw [List.getElem?_append_left (hlt hs), hc], hl⟩
      · rcases hstates hs with rfl | hs
        · exact ⟨_, List.mem_append_right _ List.mem_cons_self, rfl⟩
        · obtain ⟨e, he, hn⟩ := h.inFlight k slot hs hst
          exact ⟨e, List.mem_append_left _ he, hn⟩
      · show ∀ opCode' ∈ (m.opCodes ++ [opCode])[slot.op]?, _
        rcases hstates hs with rfl | hs
        · exact absurd hst (by simp)
        · rw [List.getElem?_append_left (by rw [h.length]; exact hlt hs)]
          exact h.keeps k slot hs hst
    · rename_i hroom
      obtain rfl := Option.some.inj hr
      rw [if_neg hroom]
      exact h
  · exact absurd hr (by simp)

theorem owns_poll (h : Owns m) (hi : Inv m.reactor) {waker : Nat}
    (ht : m.lift (m.reactor.pollCompletion n waker) = some t) : Owns t := by
  obtain ⟨r, hr, rfl⟩ := Option.map_eq_some_iff.mp ht
  obtain ⟨c, slot, hc, hs, rfl, ⟨⟨w, hw⟩, rfl⟩ | ⟨cqe, hcq, rfl⟩⟩ := poll_cases hi hr
  · refine @Owns.frame _ h _ m.values c.id rfl (fun k' e => ⟨Function.update_of_ne e _ _, rfl⟩) (fun _ _ _ _ hl => hl)
      (fun _ _ _ _ hf => hf) fun slot' hs' => ?_
    replace hs' : some { slot with state := .waiting (some waker) } = some slot' := by
      rw [← hs', states_setState, if_pos rfl]
    rw [← Option.some.inj hs']
    refine ⟨fun _ => h.live c.id slot hs ?_, fun _ => h.inFlight c.id slot hs ?_, fun e => absurd e (by simp)⟩
    · rw [hw]
      simp
    · rw [hw]
      simp
  · refine @Owns.frame _ h _ m.values c.id (List.length_set ..) (fun k' e => ⟨Function.update_of_ne e _ _, rfl⟩)
      (fun k' e slot' hs' hl => ?_) (fun _ _ _ _ hf => hf) fun slot' hs' => ?_
    · exact live_set hl (fun he => e (hi.key_eq hs' hs he.symm)) _
    · replace hs' : (m.reactor.setState c.id none).states c.id = some slot' := hs'
      rw [states_setState, if_pos rfl] at hs'
      exact absurd hs' (by simp)

theorem owns_drop (h : Owns m) (hi : Inv m.reactor) {room : Bool} (hok : Memory.Keeps capacity m (.dropCompletion n room))
    (ht : m.dropCompletion capacity n room = some t) : Owns t := by
  obtain ⟨c, hc, ht⟩ := Option.bind_eq_some_iff.mp ht
  obtain ⟨opCode, hop, ht⟩ := Option.bind_eq_some_iff.mp ht
  obtain ⟨r, hr, ht⟩ := Option.bind_eq_some_iff.mp ht
  obtain ⟨c', hc', hd, hcases⟩ := drop_cases hi hr
  obtain rfl : c = c' := Option.some.inj (hc.symm.trans hc')
  rcases hcases with ⟨hno, rfl⟩ | ⟨slot, hs, rfl, ho, sent, rfl⟩
  · -- the op code is taken already, since what is dropped fits
    have htaken : ¬ c.opCode := fun ho => hno ⟨ho, ((hok c hc ho).2 opCode hop).1⟩
    rw [if_neg fun hall => htaken hall.2.1] at ht
    obtain rfl := Option.some.inj ht
    refine ⟨h.length.trans (List.length_set ..).symm, fun k slot hs hst => ?_, h.inFlight, h.keeps⟩
    have hlive := h.live k slot hs hst
    refine live_set hlive (fun hn => ?_) _
    obtain ⟨d, hdn, ho, -⟩ := hlive
    rw [← hn, hc] at hdn
    exact htaken (Option.some.inj hdn ▸ ho)
  · obtain ⟨hnc, hfits⟩ := hok c hc ho.1
    rw [if_pos ⟨by rw [hs]; rfl, ho⟩] at ht
    obtain rfl := Option.some.inj ht
    have hpush {n : Nat} : m.reactor.InFlight n →
        (UringReactor.push { m.reactor with completions := m.reactor.completions.set slot.op { c with dropped := true } }
          sent asyncCancel).InFlight n := by
      rintro ⟨e, he, hn⟩
      exact ⟨e, mem_push sent asyncCancel he, hn⟩
    refine @Owns.frame _ h _ _ c.id ?_ (fun k' e => ⟨?_, Function.update_of_ne e _ _⟩) (fun k' e slot' hs' hl => ?_)
      (fun _ _ _ _ hf => hpush hf) fun slot' hs' => ?_
    · show ((UringReactor.push _ sent asyncCancel).completions).length = _
      rw [completions_push]
      exact List.length_set ..
    · rw [states_setState, if_neg e, states_push]
    · show ∃ d, (UringReactor.push _ sent asyncCancel).completions[slot'.op]? = some d ∧ d.opCode ∧ ¬ d.dropped
      rw [completions_push]
      exact live_set hl (fun he => e (hi.key_eq hs' hs he.symm)) _
    · rw [states_setState, if_pos rfl] at hs'
      rw [← Option.some.inj hs']
      refine ⟨fun hne => absurd rfl hne, fun _ => hpush (h.inFlight c.id slot hs (hnc slot hs)),
        fun _ opCode' hop' region hr => ?_⟩
      rw [Function.update_self]
      obtain rfl : opCode = opCode' := Option.some.inj (hop.symm.trans hop')
      exact List.mem_map_of_mem ((hfits opCode hop).2 region hr)

theorem owns_processIo (h : Owns m) (hi : Inv m.reactor) (hm : Matched m.reactor) {entry : Entry} {result : Int}
    (hok : Memory.Keeps capacity m (.processIo entry result))
    (ht : m.lift (m.reactor.processIo entry result) = some t) : Owns t := by
  obtain ⟨r, hr, rfl⟩ := Option.map_eq_some_iff.mp ht
  rw [UringReactor.processIo, Option.ite_none_right_eq_some] at hr
  obtain ⟨hmem, hr⟩ := hr
  obtain rfl := Option.some.inj hr
  -- a slot that is in use is that of the entry's operation
  have hown {slot : Slot} (hs : m.reactor.states entry.userData = some slot) : entry.origin = .op slot.op := by
    by_cases hop : ∃ n, entry.origin = .op n
    · obtain ⟨n, hn⟩ := hop
      obtain ⟨slot', hs', hop, -⟩ := hm.ops entry hmem n hn
      obtain rfl := Option.some.inj (hs.symm.trans hs')
      rw [hn, hop]
    · rcases hm.others entry hmem (not_exists.mp hop) with rfl | hlarge
      · obtain ⟨hi', hno⟩ := hok rfl slot hs
        obtain ⟨e, he, hn⟩ := h.inFlight _ slot hs (by rw [hi']; simp)
        exact absurd hn (hno e he)
      · exact absurd (hi.slots _ slot hs).1 (Nat.not_lt.mpr hlarge)
  have hother : ∀ k ≠ entry.userData, ∀ slot, m.reactor.states k = some slot → m.reactor.InFlight slot.op →
      ({ m.reactor with inFlight := m.reactor.inFlight.erase entry } : UringReactor).InFlight slot.op := by
    intro k e slot hs hf
    refine inFlight_erase hf fun hn => ?_
    obtain ⟨slot', hs', hop, -⟩ := hm.ops entry hmem _ hn
    exact e (hi.key_eq hs hs' hop.symm)
  rcases complete_cases { m.reactor with inFlight := m.reactor.inFlight.erase entry } ⟨entry, result⟩ with
    ⟨hnone, e⟩ | ⟨slot, hs, ⟨-, e⟩ | ⟨hne, woken, e⟩⟩
  · rw [e]
    replace hnone : m.reactor.states entry.userData = none := hnone
    refine ⟨h.length, h.live, fun k slot hs hc => hother k (fun hk => ?_) slot hs (h.inFlight k slot hs hc), h.keeps⟩
    rw [hk] at hs
    exact absurd (hs.symm.trans hnone) (by simp)
  · rw [e]
    refine @Owns.frame _ h _ _ entry.userData rfl (fun k e => ⟨Function.update_of_ne e _ _, rfl⟩) (fun _ _ _ _ hl => hl)
      hother fun slot' hs' => ?_
    rw [states_setState, if_pos rfl] at hs'
    exact absurd hs' (by simp)
  · rw [e]
    refine @Owns.frame _ h _ _ entry.userData rfl (fun k e => ⟨Function.update_of_ne e _ _, rfl⟩) (fun _ _ _ _ hl => hl)
      hother fun slot' hs' => ?_
    replace hs' : (UringReactor.setState _ entry.userData _).states entry.userData = some slot' := hs'
    rw [states_setState, if_pos rfl] at hs'
    rw [← Option.some.inj hs']
    exact ⟨fun _ => h.live _ slot hs hne, fun hc => absurd rfl (hc _), fun hi' => absurd hi' (by simp)⟩

theorem owns_step (h : Owns m) (hi : Inv m.reactor) (hm : Matched m.reactor) {a : Memory.Act}
    (hok : m.Keeps capacity a) (ht : m.step capacity a = some t) : Owns t := by
  cases a with
  | submitOp key room opCode => exact owns_submitOp h hi ht
  | pollCompletion n waker => exact owns_poll h hi ht
  | dropCompletion n room => exact owns_drop h hi hok ht
  | waitForIo timeout room =>
    obtain rfl := Option.some.inj ht
    show Owns { m with reactor := m.reactor.waitForIo timeout room }
    unfold waitForIo
    split
    · exact h.push room _
    · exact h
  | wake room =>
    obtain rfl := Option.some.inj ht
    exact h.push room _
  | processIo entry result => exact owns_processIo h hi hm hok ht

/-- Each step is one of the reactor. -/
theorem reactor_step {a : Memory.Act} (hok : m.Keeps capacity a) (ht : m.step capacity a = some t) :
    ∃ b, CancelsMiss m.reactor b ∧ step m.reactor b = some t.reactor := by
  cases a with
  | submitOp key room opCode =>
    obtain ⟨r, hr, rfl⟩ := Option.map_eq_some_iff.mp ht
    exact ⟨.submitOp key room, trivial, hr⟩
  | pollCompletion n waker =>
    obtain ⟨r, hr, rfl⟩ := Option.map_eq_some_iff.mp ht
    exact ⟨.pollCompletion n waker, trivial, hr⟩
  | dropCompletion n room =>
    obtain ⟨c, hc, ht⟩ := Option.bind_eq_some_iff.mp ht
    obtain ⟨opCode, hop, ht⟩ := Option.bind_eq_some_iff.mp ht
    obtain ⟨r, hr, ht⟩ := Option.bind_eq_some_iff.mp ht
    refine ⟨.dropCompletion n (Memory.newStable capacity opCode.intoBuf) room, trivial, hr.trans ?_⟩
    split at ht
    · rw [← Option.some.inj ht]
    · rw [← Option.some.inj ht]
  | waitForIo timeout room =>
    obtain rfl := Option.some.inj ht
    exact ⟨.waitForIo timeout room, trivial, rfl⟩
  | wake room =>
    obtain rfl := Option.some.inj ht
    exact ⟨.wake room, trivial, rfl⟩
  | processIo entry result =>
    obtain ⟨r, hr, rfl⟩ := Option.map_eq_some_iff.mp ht
    exact ⟨.processIo entry result, hok, hr⟩

/-! ## Runs -/

theorem Owns.safe (h : Owns m) (hm : Matched m.reactor) : m.AllOwned ∧ m.Recycled := by
  refine ⟨fun n hf opCode hop region hr => ?_, fun n c hc hd hf k slot hs hn => ?_⟩
  · obtain ⟨e, he, hn⟩ := hf
    obtain ⟨slot, hs, rfl, -⟩ := hm.ops e he n hn
    by_cases hi : slot.state = .ignored
    · exact .inr ⟨_, slot, hs, hi, h.keeps _ slot hs hi opCode hop region hr⟩
    · exact .inl (h.live _ slot hs hi)
  · rw [← hn] at hc hf
    by_cases hi : slot.state = .ignored
    · exact hf (h.inFlight k slot hs (by rw [hi]; simp))
    · obtain ⟨c', hc', -, hnd⟩ := h.live k slot hs hi
      obtain rfl := Option.some.inj (hc.symm.trans hc')
      exact hnd hd

/-- Where operations are dropped before they complete, with values that keep what their entries point to, and every cancel
misses, all memory in flight has an owner, and slots are vacated. -/
theorem memory_owned {capacity : Nat} {m : Memory} (h : Run (Memory.step capacity) (Memory.Keeps capacity) .init m) :
    m.AllOwned ∧ m.Recycled := by
  have hi : (Inv m.reactor ∧ Matched m.reactor) ∧ Owns m :=
    @Run.invariant _ _ _ _ _ _ (fun m => (Inv m.reactor ∧ Matched m.reactor) ∧ Owns m)
      (fun hi hok ht => by
        obtain ⟨b, hb, hr⟩ := reactor_step hok ht
        exact ⟨⟨inv_step hi.1.1 hr, matched_step hi.1.2 hi.1.1 hb hr⟩, owns_step hi.2 hi.1.1 hi.1.2 hok ht⟩)
      h ⟨⟨inv_init, matched_init⟩, owns_init⟩
  exact hi.2.safe hi.1.2

end

/-- A read is dropped in flight, and a timeout gets its slot. -/
def droppedInFlight : List Memory.Act :=
  [.submitOp 0 true (.read 24), .dropCompletion 0 true, .processIo ⟨0, .op 0⟩ (-125), .submitOp 0 true .timeout]

/-- The value has eight words, one of which is for the type. -/
theorem memory_owned_read : ∃ m, exec (Memory.step 56) (Memory.Keeps 56) .init droppedInFlight = some m ∧
    m.AllOwned ∧ m.Recycled := by
  have h : (exec (Memory.step 56) (Memory.Keeps 56) .init droppedInFlight).isSome := by decide
  obtain ⟨m, hm⟩ := Option.isSome_iff_exists.mp h
  exact ⟨m, hm, memory_owned (Run.of_exec _ .refl hm)⟩

/-- An open that is dropped in flight does not keep its path, and a read that is dropped after it has completed keeps its
slot. -/
theorem memory_not_owned :
    (¬ ∀ m, Run (Memory.step 56) (fun _ _ => True) .init m → m.AllOwned) ∧
    ¬ ∀ m, Run (Memory.step 56) (fun _ _ => True) .init m → m.Recycled := by
  constructor
  · intro hall
    let m := (exec (Memory.step 56) (fun _ _ => True) .init [.submitOp 0 true .openAt, .dropCompletion 0 false]).getD .init
    have hm : exec (Memory.step 56) (fun _ _ => True) .init [.submitOp 0 true .openAt, .dropCompletion 0 false] = some m := rfl
    have howned := hall m (Run.of_exec _ .refl hm) 0 ⟨⟨0, .op 0⟩, by decide, rfl⟩ .openAt rfl .path (by decide)
    have hvalues : m.values = Function.update (fun _ => []) 0 [] := rfl
    rcases howned with ⟨c, hc, -, hd⟩ | ⟨k, slot, -, -, hk⟩
    · rw [← Option.some.inj hc] at hd
      exact hd rfl
    · rw [hvalues, Function.update_eq_self] at hk
      exact absurd hk List.not_mem_nil
  · intro hall
    let as : List Memory.Act := [.submitOp 0 true (.read 24), .processIo ⟨0, .op 0⟩ 24, .dropCompletion 0 false]
    let m := (exec (Memory.step 56) (fun _ _ => True) .init as).getD .init
    have hm : exec (Memory.step 56) (fun _ _ => True) .init as = some m := rfl
    refine hall m (Run.of_exec _ .refl hm) 0 ⟨0, true, true⟩ rfl rfl ?_ 0 ⟨0, .ignored⟩ rfl rfl
    rintro ⟨e, he, -⟩
    exact absurd he List.not_mem_nil

end Metor.Proof.Uring
