import Mathlib.Data.List.Induction
import Metor.Spec.Stellarator

/-!
# What waits can be woken

An operation that waits and has not been woken is armed, or an event of its fd
is still to be processed (`Inv`, `inv_step`). Setting the interest of an fd
keeps this if all that waits there agrees (`Inv.arm`). Each event wakes all
operations on its fd (`foldl_processEvent`), so when everything that was woken
has been polled, all that waits is armed (`wakeable_of_alone`).
-/

namespace Metor.Proof.Polling

open Metor.Lib Metor.Impl.Polling Metor.Impl.Polling.PollingReactor

structure Inv (r : PollingReactor) : Prop where
  registered : ∀ fd, (r.poller fd).isSome → (r.fds fd).isSome
  slot : ∀ c ∈ r.completions, c.alive → (r.states c.id).isSome ∧ (r.poller c.fd).isSome ∧ ∃ ids ∈ r.fds c.fd, c.id ∈ ids
  distinct : ∀ (n m : Nat) (c d : Completion), r.completions[n]? = some c → r.completions[m]? = some d → c.alive → d.alive →
    c.id = d.id → n = m
  armed : ∀ c, r.Waits c → ¬ r.Woken c → c.fd ∈ r.events ∨ r.Armed c
  submitted : r.failed = []

theorem inv_init : Inv init :=
  ⟨fun fd h => absurd h (by simp [init]), fun c hc => absurd hc List.not_mem_nil,
    fun n m c d hc => absurd hc (by simp [init]), fun c h => absurd h.1 List.not_mem_nil, rfl⟩

section
variable {r t : PollingReactor} {fd n : Nat} {c : Completion}

/-! ## What one change keeps -/

/-- The interest of an fd is set. -/
theorem Inv.arm (h : Inv r) {event : Interest} (hagrees : r.Agrees fd event) {ids : List Nat}
    (hids : ∀ old ∈ r.fds fd, old ⊆ ids) :
    Inv { r with poller := Function.update r.poller fd (some event), fds := Function.update r.fds fd (some ids) } := by
  refine ⟨fun fd' hs => ?_, fun d hd ha => ?_, h.distinct, fun d hd hw => ?_, h.submitted⟩
  · by_cases e : fd' = fd
    · rw [e]
      show (Function.update r.fds fd (some ids) fd).isSome
      rw [Function.update_self]
      rfl
    · replace hs : (Function.update r.poller fd (some event) fd').isSome := hs
      rw [Function.update_of_ne e] at hs
      show (Function.update r.fds fd (some ids) fd').isSome
      rw [Function.update_of_ne e]
      exact h.registered fd' hs
  · obtain ⟨hs, hp, old, hold, hid⟩ := h.slot d hd ha
    refine ⟨hs, ?_⟩
    show (Function.update r.poller fd (some event) d.fd).isSome ∧ ∃ ids' ∈ Function.update r.fds fd (some ids) d.fd, d.id ∈ ids'
    by_cases e : d.fd = fd
    · rw [e, Function.update_self, Function.update_self]
      exact ⟨rfl, ids, rfl, hids old (e ▸ hold) hid⟩
    · rw [Function.update_of_ne e, Function.update_of_ne e]
      exact ⟨hp, old, hold, hid⟩
  · by_cases e : d.fd = fd
    · refine .inr ⟨event, ?_, hagrees d hd.1 hd.2.1 hd.2.2 e hw⟩
      show Function.update r.poller fd (some event) d.fd = some event
      rw [e, Function.update_self]
    · refine (h.armed d hd hw).imp_right fun ⟨i, hi, hinc⟩ => ⟨i, ?_, hinc⟩
      show Function.update r.poller fd (some event) d.fd = some i
      rw [Function.update_of_ne e]
      exact hi

/-- The entries of a list after one is set. -/
theorem getElem?_set_cases {l : List Completion} {m : Nat} {c' d : Completion} (h : (l.set n c')[m]? = some d) :
    m ≠ n ∧ l[m]? = some d ∨ m = n ∧ d = c' := by
  rw [List.getElem?_set] at h
  by_cases e : n = m
  · rw [if_pos e] at h
    split at h
    · exact .inr ⟨e.symm, (Option.some.inj h).symm⟩
    · exact absurd h (by simp)
  · rw [if_neg e] at h
    exact .inl ⟨Ne.symm e, h⟩

/-- A completion that is alive has been polled, and its fd is armed for it. -/
theorem Inv.pend (h : Inv r) (hc : r.completions[n]? = some c) (hal : c.alive) (harm : r.Armed c) (waker : Option Nat) :
    Inv { r.setState c.id (some (.waiting waker)) with completions := r.completions.set n { c with pending := true } } := by
  have hmem : c ∈ r.completions := List.mem_of_getElem? hc
  -- the others have other slots
  have hstate {d : Completion} {m : Nat} (hm : m ≠ n) (hd : r.completions[m]? = some d) (ha : d.alive) :
      Function.update r.states c.id (some (.waiting waker)) d.id = r.states d.id :=
    Function.update_of_ne (fun e => hm (h.distinct m n d c hd hc ha hal e)) _ _
  refine ⟨h.registered, fun d hd ha => ?_, fun m k d e hd he hda hea hid => ?_, fun d hd hw => ?_, h.submitted⟩
  · obtain ⟨m, hm⟩ := List.mem_iff_getElem?.mp hd
    show (Function.update r.states c.id (some (.waiting waker)) d.id).isSome ∧ _
    rcases getElem?_set_cases hm with ⟨hne, hd'⟩ | ⟨-, rfl⟩
    · rw [hstate hne hd' ha]
      exact h.slot d (List.mem_of_getElem? hd') ha
    · rw [Function.update_self]
      exact ⟨rfl, (h.slot c hmem hal).2⟩
  · rcases getElem?_set_cases hd with ⟨-, hd'⟩ | ⟨rfl, rfl⟩
    · rcases getElem?_set_cases he with ⟨-, he'⟩ | ⟨rfl, rfl⟩
      · exact h.distinct m k d e hd' he' hda hea hid
      · exact h.distinct m k d c hd' hc hda hal hid
    · rcases getElem?_set_cases he with ⟨-, he'⟩ | ⟨rfl, rfl⟩
      · exact h.distinct m k c e hc he' hal hea hid
      · rfl
  · obtain ⟨m, hm⟩ := List.mem_iff_getElem?.mp hd.1
    rcases getElem?_set_cases hm with ⟨hne, hd'⟩ | ⟨-, rfl⟩
    · refine h.armed d ⟨List.mem_of_getElem? hd', hd.2⟩ fun hs => hw ?_
      exact (hstate hne hd' hd.2.1).trans hs
    · exact .inr harm

/-- A completion is dropped or ready. -/
theorem Inv.retire (h : Inv r) (n : Nat) (c : Completion) :
    Inv { r with completions := r.completions.set n { c with alive := false } } := by
  have hold {d : Completion} (hd : d ∈ r.completions.set n { c with alive := false }) (ha : d.alive) : d ∈ r.completions := by
    rcases List.mem_or_eq_of_mem_set hd with hd | rfl
    · exact hd
    · exact absurd ha (by simp)
  refine ⟨h.registered, fun d hd ha => h.slot d (hold hd ha) ha, fun m k d e hd he hda hea hid => ?_,
    fun d hd hw => h.armed d ⟨hold hd.1 hd.2.1, hd.2⟩ hw, h.submitted⟩
  rcases getElem?_set_cases hd with ⟨-, hd'⟩ | ⟨-, rfl⟩
  · rcases getElem?_set_cases he with ⟨-, he'⟩ | ⟨-, rfl⟩
    · exact h.distinct m k d e hd' he' hda hea hid
    · exact absurd hea (by simp)
  · exact absurd hda (by simp)

/-- A slot that no completion has which is alive. -/
theorem Inv.setFree (h : Inv r) {key : Nat} (hkey : ∀ c ∈ r.completions, c.alive → c.id ≠ key) (state : Option OpState) :
    Inv (r.setState key state) := by
  have hstate {d : Completion} (hd : d ∈ r.completions) (ha : d.alive) :
      Function.update r.states key state d.id = r.states d.id := Function.update_of_ne (hkey d hd ha) _ _
  refine ⟨h.registered, fun d hd ha => ?_, h.distinct, fun d hd hw => ?_, h.submitted⟩
  · show (Function.update r.states key state d.id).isSome ∧ _
    rw [hstate hd ha]
    exact h.slot d hd ha
  · exact h.armed d hd fun hs => hw ((hstate hd.1 hd.2.1).trans hs)

/-- A completion with a slot of its own. -/
theorem Inv.append (h : Inv r) (ha : ¬ c.pending) (hs : (r.states c.id).isSome) (hp : (r.poller c.fd).isSome)
    (hf : ∃ ids ∈ r.fds c.fd, c.id ∈ ids) (hfree : ∀ d ∈ r.completions, d.alive → d.id ≠ c.id) :
    Inv { r with completions := r.completions ++ [c] } := by
  have hcases {m : Nat} {d : Completion} (hd : (r.completions ++ [c])[m]? = some d) :
      r.completions[m]? = some d ∨ m = r.completions.length ∧ d = c := by
    rcases Nat.lt_trichotomy m r.completions.length with hm | rfl | hm
    · rw [List.getElem?_append_left hm] at hd
      exact .inl hd
    · rw [List.getElem?_concat_length] at hd
      exact .inr ⟨rfl, (Option.some.inj hd).symm⟩
    · rw [List.getElem?_eq_none (by rw [List.length_append, List.length_singleton]; omega)] at hd
      exact absurd hd (by simp)
  refine ⟨h.registered, fun d hd hda => ?_, fun m k d e hd he hda hea hid => ?_, fun d hd hw => ?_, h.submitted⟩
  · rcases List.mem_append.mp hd with hd | hd
    · exact h.slot d hd hda
    · rw [List.mem_singleton.mp hd]
      exact ⟨hs, hp, hf⟩
  · rcases hcases hd with hd' | ⟨rfl, rfl⟩
    · rcases hcases he with he' | ⟨rfl, rfl⟩
      · exact h.distinct m k d e hd' he' hda hea hid
      · exact absurd hid (hfree d (List.mem_of_getElem? hd') hda)
    · rcases hcases he with he' | ⟨rfl, rfl⟩
      · exact absurd hid.symm (hfree e (List.mem_of_getElem? he') hea)
      · rfl
  · rcases List.mem_append.mp hd.1 with hm | hm
    · exact h.armed d ⟨hm, hd.2⟩ hw
    · rw [List.mem_singleton.mp hm] at hd
      exact absurd hd.2.2 ha

/-- A submission does not fail on an fd that is registered, or that the reactor has not seen. -/
theorem submitOpReactor_eq (h : (r.poller fd).isSome → (r.fds fd).isSome) (hreg : (r.fds fd).isSome → (r.poller fd).isSome) (opCode : OpCode) (id : Nat) :
    ∃ ids, id ∈ ids ∧ (∀ old ∈ r.fds fd, old ⊆ ids) ∧ r.submitOpReactor fd opCode id =
      some { r with
        poller := Function.update r.poller fd (some opCode.event), fds := Function.update r.fds fd (some ids) } := by
  unfold submitOpReactor
  cases hf : r.fds fd with
  | none =>
    have hnone : r.poller fd = none := by
      by_contra hs
      have := h (Option.isSome_iff_ne_none.mpr hs)
      rw [hf] at this
      exact absurd this (by decide)
    refine ⟨[id], List.mem_cons_self, fun old hold => absurd hold (by simp), ?_⟩
    show (r.add fd opCode.event).map _ = _
    rw [PollingReactor.add, if_pos hnone]
    rfl
  | some ids =>
    refine ⟨ids ++ [id], List.mem_append_right _ List.mem_cons_self, fun old hold => ?_, ?_⟩
    · obtain rfl := Option.some.inj hold
      exact List.subset_append_left _ _
    · show (r.modify fd opCode.event).map _ = _
      rw [PollingReactor.modify, if_pos (hreg (by rw [hf]; rfl))]
      rfl

/-! ## Steps -/

theorem inv_submitOp (h : Inv r) {key : Nat} {opCode : OpCode} (hok : Alone r (.submitOp key fd opCode))
    (ht : r.submitOp key fd opCode = some t) : Inv t := by
  rw [submitOp, Option.ite_none_right_eq_some] at ht
  obtain ⟨hkey, ht⟩ := ht
  have hfree : ∀ c ∈ r.completions, c.alive → c.id ≠ key := by
    intro c hc ha e
    have := (h.slot c hc ha).1
    rw [e, hkey] at this
    exact absurd this (by decide)
  have hr := h.setFree hfree (some opCode.initialState)
  obtain ⟨ids, hid, hids, hsub⟩ := submitOpReactor_eq (hr.registered fd) hok.1 opCode key
  rw [hsub] at ht
  obtain rfl := Option.some.inj ht
  have hagrees : (r.setState key (some opCode.initialState)).Agrees fd opCode.event := by
    intro c hc ha hp he hs
    refine hok.2 c hc ha hp he fun hs' => hs ?_
    exact (Function.update_of_ne (hfree c hc ha) _ _).trans hs'
  refine (hr.arm hagrees hids).append (by simp) ?_ ?_ ⟨ids, ?_, hid⟩ hfree
  · show (Function.update r.states key (some opCode.initialState) key).isSome
    rw [Function.update_self]
    rfl
  · show (Function.update r.poller fd (some opCode.event) fd).isSome
    rw [Function.update_self]
    rfl
  · show Function.update r.fds fd (some ids) fd = some ids
    rw [Function.update_self]

theorem inv_poll (h : Inv r) {waker : Nat} {isReady : Bool} (hok : Alone r (.pollCompletion n waker isReady))
    (ht : r.pollCompletion n waker isReady = some t) : Inv t := by
  obtain ⟨c, hc, ht⟩ := Option.bind_eq_some_iff.mp ht
  rw [Option.ite_none_right_eq_some] at ht
  obtain ⟨hal, ht⟩ := ht
  have hmem : c ∈ r.completions := List.mem_of_getElem? hc
  obtain ⟨hs, hp, ids, hids, hid⟩ := h.slot c hmem hal
  rw [if_neg (Option.isSome_iff_ne_none.mp hs)] at ht
  cases isReady with
  | true =>
    rw [if_pos rfl] at ht
    obtain rfl := Option.some.inj ht
    refine (h.retire n c).setFree (fun d hd ha e => ?_) none
    obtain ⟨m, hm⟩ := List.mem_iff_getElem?.mp hd
    rcases getElem?_set_cases hm with ⟨hne, hd'⟩ | ⟨-, rfl⟩
    · exact hne (h.distinct m n d c hd' hc ha hal e)
    · exact absurd ha (by simp)
  | false =>
    rw [if_neg (by simp)] at ht
    dsimp only at ht
    obtain ⟨new, -, hnew, hsub⟩ := @submitOpReactor_eq { r.setState c.id (some (.waiting (some waker))) with
      completions := r.completions.set n { c with pending := true } } c.fd (h.registered c.fd) (fun _ => hp) c.opCode c.id
    rw [hsub] at ht
    rw [← Option.some.inj ht]
    exact (h.arm (hok rfl c hc) hnew).pend hc hal ⟨c.opCode.event, Function.update_self .., id, id⟩ (some waker)

theorem inv_close (h : Inv r) (ht : r.close fd = some t) : Inv t := by
  rw [PollingReactor.close, Option.ite_none_right_eq_some] at ht
  obtain ⟨hno, ht⟩ := ht
  obtain rfl := Option.some.inj ht
  have hpoller {c : Completion} (hc : c ∈ r.completions) (ha : c.alive) :
      Function.update r.poller fd none c.fd = r.poller c.fd := Function.update_of_ne (hno c hc ha) _ _
  refine ⟨fun fd' hs => ?_, fun c hc ha => ?_, h.distinct, fun c hc hw => ?_, h.submitted⟩
  · replace hs : (Function.update r.poller fd none fd').isSome := hs
    by_cases e : fd' = fd
    · rw [e, Function.update_self] at hs
      exact absurd hs (by decide)
    · rw [Function.update_of_ne e] at hs
      exact h.registered fd' hs
  · obtain ⟨hs, hp, hf⟩ := h.slot c hc ha
    refine ⟨hs, ?_, hf⟩
    show (Function.update r.poller fd none c.fd).isSome
    rw [hpoller hc ha]
    exact hp
  · refine (h.armed c hc hw).imp_right fun ⟨i, hi, hinc⟩ => ⟨i, ?_, hinc⟩
    exact (hpoller hc.1 hc.2.1).trans hi

theorem inv_wait (h : Inv r) {fds : List Nat} (ht : r.wait fds = some t) : Inv t := by
  rw [PollingReactor.wait, Option.ite_none_right_eq_some] at ht
  obtain ⟨hall, ht⟩ := ht
  obtain rfl := Option.some.inj ht
  refine ⟨fun fd hs => ?_, fun c hc ha => ?_, h.distinct, fun c hc hw => ?_, h.submitted⟩
  · by_cases e : fd ∈ fds
    · obtain ⟨i, hi, -⟩ := hall fd e
      exact h.registered fd (Option.isSome_of_mem hi)
    · replace hs : (if fd ∈ fds then some Interest.cleared else r.poller fd).isSome := hs
      rw [if_neg e] at hs
      exact h.registered fd hs
  · obtain ⟨hs, hp, hf⟩ := h.slot c hc ha
    refine ⟨hs, ?_, hf⟩
    show (if c.fd ∈ fds then some Interest.cleared else r.poller c.fd).isSome
    split
    · rfl
    · exact hp
  · by_cases e : c.fd ∈ fds
    · exact .inl (List.mem_append_right _ e)
    · refine (h.armed c hc hw).imp (fun he => List.mem_append_left _ he) fun ⟨i, hi, hinc⟩ => ⟨i, ?_, hinc⟩
      show (if c.fd ∈ fds then some Interest.cleared else r.poller c.fd) = some i
      rw [if_neg e]
      exact hi

/-! ## Events -/

/-- The states after the ids are woken. -/
def readied (states : Nat → Option OpState) (ids : List Nat) : Nat → Option OpState :=
  fun k => if k ∈ ids then (states k).map fun _ => .ready else states k

theorem readied_readied (states : Nat → Option OpState) (ids ids' : List Nat) :
    readied (readied states ids) ids' = readied states (ids ++ ids') := by
  funext k
  unfold readied
  by_cases h : k ∈ ids
  · rw [if_pos h, if_pos (List.mem_append_left _ h), Option.map_map]
    exact ite_self _
  · by_cases h' : k ∈ ids'
    · rw [if_pos h', if_neg h, if_pos (List.mem_append_right _ h')]
    · rw [if_neg h', if_neg h, if_neg (fun hm => (List.mem_append.mp hm).elim h h')]

theorem wakeId_eq (r : PollingReactor) (id : Nat) :
    ∃ woken, r.wakeId id = { r with states := readied r.states [id], woken } := by
  have hself {state : Option OpState} (hs : r.states id = state) :
      Function.update r.states id (state.map fun _ => .ready) = readied r.states [id] := by
    funext k
    unfold readied
    by_cases e : k = id
    · rw [e, Function.update_self, if_pos List.mem_cons_self, hs]
    · rw [Function.update_of_ne e, if_neg fun hm => e (List.mem_singleton.mp hm)]
  unfold wakeId
  split
  · rename_i hs
    rw [← hself hs, Option.map_none, ← hs, Function.update_eq_self]
    exact ⟨r.woken, rfl⟩
  · rename_i waker hs
    rw [← hself hs]
    exact ⟨r.woken ++ [waker], rfl⟩
  · rename_i state _ hs
    rw [← hself hs]
    exact ⟨r.woken, rfl⟩

theorem foldl_wakeId (r : PollingReactor) (ids : List Nat) :
    ∃ woken, ids.foldl wakeId r = { r with states := readied r.states ids, woken } := by
  induction ids using List.reverseRecOn with
  | nil => exact ⟨r.woken, rfl⟩
  | append_singleton ids id ih =>
    obtain ⟨woken, e⟩ := ih
    rw [List.foldl_append, e]
    obtain ⟨woken', e'⟩ := wakeId_eq { r with states := readied r.states ids, woken } id
    refine ⟨woken', e'.trans ?_⟩
    rw [readied_readied]

/-- All operations on the fds of the events are woken. -/
theorem foldl_processEvent (r : PollingReactor) (events : List Nat) :
    ∃ woken, events.foldl processEvent r =
      { r with states := readied r.states (events.flatMap fun fd => (r.fds fd).getD []), woken } := by
  induction events using List.reverseRecOn with
  | nil => exact ⟨r.woken, rfl⟩
  | append_singleton events fd ih =>
    obtain ⟨woken, e⟩ := ih
    rw [List.foldl_append, e, List.flatMap_append, List.flatMap_singleton, ← readied_readied]
    show ∃ woken', processEvent _ fd = _
    unfold processEvent
    cases hf : r.fds fd with
    | none => exact ⟨woken, rfl⟩
    | some ids => exact foldl_wakeId _ ids

theorem inv_processIo (h : Inv r) {fds : List Nat} (ht : r.processIo fds = some t) : Inv t := by
  obtain ⟨u, hu, rfl⟩ := Option.map_eq_some_iff.mp ht
  have h : Inv u := by
    split at hu
    · exact inv_wait h hu
    · exact Option.some.inj hu ▸ h
  obtain ⟨woken, e⟩ := foldl_processEvent u u.events
  rw [e]
  refine ⟨h.registered, fun c hc ha => ?_, h.distinct, fun c hc hw => ?_, h.submitted⟩
  · obtain ⟨hs, hpf⟩ := h.slot c hc ha
    refine ⟨?_, hpf⟩
    show (readied u.states _ c.id).isSome
    unfold readied
    split
    · rw [Option.isSome_map]
      exact hs
    · exact hs
  · -- what is on the fd of an event is woken
    obtain ⟨hs, -, ids, hids, hid⟩ := h.slot c hc.1 hc.2.1
    replace hw : readied u.states (u.events.flatMap fun fd => (u.fds fd).getD []) c.id ≠ some .ready := hw
    have hno : c.id ∉ u.events.flatMap fun fd => (u.fds fd).getD [] := by
      intro hm
      obtain ⟨state, hstate⟩ := Option.isSome_iff_exists.mp hs
      rw [readied, if_pos hm, hstate] at hw
      exact hw rfl
    rw [readied, if_neg hno] at hw
    refine .inr ((h.armed c hc hw).resolve_left fun he => hno (List.mem_flatMap.mpr ⟨c.fd, he, ?_⟩))
    rw [Option.mem_def.mp hids]
    exact hid

theorem inv_step (h : Inv r) {a : Act} (hok : Alone r a) (ht : step r a = some t) : Inv t := by
  match a with
  | .submitOp key fd opCode => exact inv_submitOp h hok ht
  | .pollCompletion n waker isReady => exact inv_poll h hok ht
  | .dropCompletion n =>
    obtain ⟨c, hc, ht⟩ := Option.bind_eq_some_iff.mp ht
    rw [Option.ite_none_right_eq_some] at ht
    rw [← Option.some.inj ht.2]
    exact h.retire n c
  | .close fd => exact inv_close h ht
  | .waitForIo fds => exact inv_wait h ht
  | .processIo fds => exact inv_processIo h ht

end

/-- Where each fd is used in one direction at a time, and no number of an fd twice, no submission fails and all that waits
can be woken. -/
theorem wakeable_of_alone {r : PollingReactor} (h : Run step Alone init r) : r.Wakeable := by
  have hi : Inv r := h.invariant (fun hi hok ht => inv_step hi hok ht) inv_init
  refine ⟨hi.submitted, fun hp c hc => (hi.armed c hc (hp.2 c hc)).resolve_left fun he => ?_⟩
  rw [hp.1] at he
  exact absurd he List.not_mem_nil

/-- A read waits, is woken and waits again, beside an accept of another socket. -/
def readAndAccept : List Act :=
  [.submitOp 0 5 .read, .submitOp 1 6 .accept, .pollCompletion 0 0 false, .pollCompletion 1 1 false, .waitForIo [5],
    .processIo [], .pollCompletion 0 0 false]

theorem wakeable_readAndAccept : ∃ r, exec step Alone init readAndAccept = some r ∧ r.Wakeable := by
  have h : (exec step Alone init readAndAccept).isSome := by decide
  obtain ⟨r, hr⟩ := Option.isSome_iff_exists.mp h
  exact ⟨r, hr, wakeable_of_alone (Run.of_exec _ .refl hr)⟩

/-- A read waits, and then a write of the same socket. -/
def readThenWrite : List Act :=
  [.submitOp 0 5 .read, .submitOp 1 5 .write, .pollCompletion 0 0 false, .pollCompletion 1 1 false, .processIo []]

/-- A socket is closed, and the next one has its number. -/
def closedThenReused : List Act := [.submitOp 0 5 .read, .pollCompletion 0 0 true, .close 5, .submitOp 0 5 .read]

theorem not_always_wakeable :
    (¬ ∀ r, Run step (fun _ _ => True) init r → r.failed = []) ∧
    ¬ ∀ r, Run step (fun _ _ => True) init r → r.Polled → ∀ c, r.Waits c → r.Armed c := by
  constructor
  · intro hall
    let r := (exec step (fun _ _ => True) init closedThenReused).getD init
    have hr : exec step (fun _ _ => True) init closedThenReused = some r := rfl
    exact absurd (hall r (Run.of_exec _ .refl hr)) (by decide)
  · intro hall
    let r := (exec step (fun _ _ => True) init readThenWrite).getD init
    have hr : exec step (fun _ _ => True) init readThenWrite = some r := rfl
    have hpolled : r.Polled := by
      refine ⟨rfl, fun c hc => ?_⟩
      have hstates : ∀ c ∈ r.completions, r.states c.id ≠ some .ready := by decide
      exact hstates c hc.1
    obtain ⟨i, hi, hinc⟩ := hall r (Run.of_exec _ .refl hr) hpolled ⟨0, 5, .read, true, true⟩ ⟨by decide, rfl, rfl⟩
    rw [← Option.some.inj hi] at hinc
    exact absurd (hinc.1 rfl) (by decide)

end Metor.Proof.Polling
