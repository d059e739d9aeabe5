import Mathlib.Data.List.InsertIdx
import Metor.Proof.Disruptor.Lossless

/-!
# The WAL is a queue of records

`queue`: the records that the task has still to release, oldest first. While
the reservations are fresh and safe, a step of the writers adds the record that
it commits (`step_wal`); a poll leaves the queue as it is (`next_wal`), and
dropping the grant takes off its front the records that the grant held
(`release_wal`). `Carries` says of which records the queue consists.
-/

namespace Metor.Proof.Disruptor

open Metor.Lib Metor.Impl.Disruptor

/-- The bytes of the records that the task has still to release. -/
def queue (w : Wal) : List Bytes := (w.ring.readers[w.persister]?.elim [] (unread w.ring)).map (·.bytes)

/-- The records at the front that `n` bytes cover. -/
def takeBytes : Nat → List Bytes → List Bytes
  | _, [] => []
  | n, b :: bs => if b.length ≤ n then b :: takeBytes (n - b.length) bs else []

/-- The records that the task holds. -/
def heldRecords (w : Wal) : List Bytes := takeBytes (w.held.elim 0 List.length) (queue w)

/-- The steps that lose nothing. -/
def WalFresh (w : Wal) : WalAct → Prop
  | .reserve => ReserveSafe w.ring w.writers.lock
  | .read a => Safe w.ring a
  | .load _ | .lock _ | .commit | .unlock => True

instance (w : Wal) : (a : WalAct) → Decidable (WalFresh w a)
  | .reserve => inferInstanceAs (Decidable (ReserveSafe _ _))
  | .read _ => inferInstanceAs (Decidable (Safe _ _))
  | .load _ | .lock _ | .commit | .unlock => isTrue trivial

theorem takeBytes_append (us : List Bytes) {vs : List Bytes} (h : ∀ b ∈ vs, b ≠ []) :
    takeBytes us.flatten.length (us ++ vs) = us := by
  induction us with
  | nil =>
    cases vs with
    | nil => rfl
    | cons v vs =>
      have := List.length_pos_iff.mpr (h v List.mem_cons_self)
      exact if_neg (by simp only [List.flatten_nil, List.length_nil]; omega)
  | cons u us ih =>
    rw [List.cons_append, takeBytes, List.flatten_cons, List.length_append, if_pos (Nat.le_add_right _ _),
      Nat.add_sub_cancel_left, ih]

section
variable {encode : Record → Bytes} {w v : Wal} {a : WalAct}

/-- Each writer has its record, and the task its reader. -/
structure WalInv (encode : Record → Bytes) (w : Wal) : Prop where
  ring : Inv w.ring
  writers : WInv w.writers
  loads : w.writers.loads.map Prod.snd = w.waiting.map fun r => (encode r).length
  locked : ∀ write len, w.writers.lock = some (.locked write len) → ∃ r, w.writing = some r ∧ len = (encode r).length
  granted : ∀ g, w.ring.grant = some g → ∃ r, w.writing = some r ∧ g.stop = g.start + (encode r).length
  reader : ∃ p, w.ring.readers[w.persister]? = some p

/-! ## The queue of one reader -/

theorem queue_eq {p : Reader} (h : w.ring.readers[w.persister]? = some p) :
    queue w = (unread w.ring p).map (·.bytes) := by
  rw [queue, h]
  rfl

/-- What the reader has not read depends on it and the log. -/
theorem queue_congr (hlog : v.ring.log = w.ring.log)
    (hreader : v.ring.readers[v.persister]? = w.ring.readers[w.persister]?) : queue v = queue w := by
  have hunread : unread v.ring = unread w.ring := by
    funext p
    rw [unread, unread, hlog]
  rw [queue, queue, hreader, hunread]

/-- A commit leaves a record more to read. -/
theorem unread_commit {s : State} {r : Reader} {g : Range} (hs : Inv s) (hg : s.grant = some g) (hr : r ∈ s.readers) :
    unread (commitStep s g) r = unread s r ++ [⟨g, slice s.ringbuf g.start g.stop⟩] := by
  obtain ⟨old, held, ws, hi⟩ := hs.readers r hr
  have hgrant := hs.grant g hg
  rw [(hi.commit hs hgrant (hgrant.clear r hr)).unread_eq (commitStep_inv hs hg), hi.unread_eq hs, List.append_assoc]

/-- A poll leaves what was there to read. -/
theorem unread_poll {s : State} {r r' : Reader} (hs : Inv s) (hr : r ∈ s.readers) (hg : r.grant = none)
    (h : r.poll s = some r') : unread s r' = unread s r := by
  obtain ⟨old, held, ws, hi⟩ := hs.readers r hr
  have ht := hi.tiles
  rw [show stop r = r.cursor by simp [stop, hg]] at ht
  obtain rfl := ht.eq_nil
  obtain ⟨r'', held', ws', hp, hws, hi', -, -, -⟩ := poll_inv hi hg
  obtain rfl := Option.some.inj (h.symm.trans hp)
  rw [hi'.unread_eq hs, hi.unread_eq hs, List.nil_append, hws]

/-- A reader that drops its grant has read what it held. -/
theorem unread_release {s : State} {r : Reader} {g : Range} (hs : Inv s) (hr : r ∈ s.readers) (hg : r.grant = some g) :
    ∃ held, unread s r = held ++ unread s (r.release g) ∧ slice s.ringbuf g.start g.stop = bytesOf held ∧
      ∀ w ∈ unread s (r.release g), w.bytes ≠ [] := by
  obtain ⟨old, held, ws, hi⟩ := hs.readers r hr
  have hreleased := (release_inv hi hg).unread_eq hs
  refine ⟨held, ?_, ?_, ?_⟩
  · rw [hi.unread_eq hs, hreleased, List.nil_append]
  · rw [← hi.tiles.slice_eq, ← hi.start g hg, stop, hg]
    rfl
  · rw [hreleased]
    exact (release_inv hi hg).bytes_ne_nil hs

/-! ## The readers' steps -/

/-- A step of another reader leaves the log, and the reader of the task. -/
theorem step_before {s t : State} {b : Act} {n : Nat} (hn : n + 1 = s.readers.length) (hb : b.before n = true)
    (h : step s b = some t) :
    t.log = s.log ∧ t.ringbuf = s.ringbuf ∧ t.readers[t.readers.length - 1]? = s.readers[n]? ∧ 0 < t.readers.length := by
  cases b <;> simp only [Act.before, Bool.false_eq_true, decide_eq_true_eq] at hb <;>
    simp only [step, Option.bind_eq_bind, Option.bind_eq_some_iff, Option.pure_def, Option.some.injEq] at h
  · subst h
    refine ⟨rfl, rfl, ?_, Nat.succ_pos _⟩
    show (_ :: s.readers)[s.readers.length + 1 - 1]? = _
    rw [← hn]
    rfl
  · obtain ⟨r, -, _, -, r', -, rfl⟩ := h
    refine ⟨rfl, rfl, ?_, ?_⟩
    · show (s.readers.set _ r')[(s.readers.set _ r').length - 1]? = _
      rw [List.length_set, ← hn, Nat.add_sub_cancel, List.getElem?_set_ne (Nat.ne_of_lt hb)]
    · show 0 < (s.readers.set _ r').length
      rw [List.length_set]
      omega
  · obtain ⟨r, -, g, -, rfl⟩ := h
    refine ⟨rfl, rfl, ?_, ?_⟩
    · show (s.readers.set _ (r.release g))[(s.readers.set _ (r.release g)).length - 1]? = _
      rw [List.length_set, ← hn, Nat.add_sub_cancel, List.getElem?_set_ne (Nat.ne_of_lt hb)]
    · show 0 < (s.readers.set _ (r.release g)).length
      rw [List.length_set]
      omega
  · next i =>
    obtain ⟨r, -, _, -, rfl⟩ := h
    have hlen : (s.readers.eraseIdx i).length = n := by rw [List.length_eraseIdx_of_lt (by omega)]; omega
    refine ⟨rfl, rfl, ?_, ?_⟩
    · show (s.readers.eraseIdx i)[(s.readers.eraseIdx i).length - 1]? = _
      rw [hlen, List.getElem?_eraseIdx_of_ge (by omega), Nat.sub_add_cancel (by omega)]
    · show 0 < (s.readers.eraseIdx i).length
      omega

theorem persister_lt (hs : WalInv encode w) : w.persister + 1 = w.ring.readers.length := by
  obtain ⟨p, hp⟩ := hs.reader
  have hlt := (List.getElem?_eq_some_iff.mp hp).1
  simp only [Wal.persister] at hlt ⊢
  omega

/-- A fresh step of the writers keeps the invariant of the ring. -/
theorem wstep_ringInv {s t : Writers} {b : WAct} (hw : WInv s) (hs : Inv s.ring) (hok : Fresh s b)
    (h : wstep s b = some t) : Inv t.ring := by
  rcases wstep_sim hw hok h with e | ⟨c, hc, hstep⟩
  · rw [e]
    exact hs
  · exact step_inv hs hc hstep

/-! ## The writers' steps -/

/-- What a step of the writers does to the queue: it adds the record that it commits. -/
structure Stepped (encode : Record → Bytes) (w : Wal) (a : WalAct) (v : Wal) : Prop where
  inv : WalInv encode v
  cap : v.ring.cap = w.ring.cap
  queue : queue v = queue w ++ (w.committed a).toList.map encode
  fits : ∀ r ∈ w.committed a, (encode r).length ≤ w.ring.cap

/-- A step that leaves the ring as it is. -/
theorem stepped_of_ring (hinv : WalInv encode v) (hring : v.ring = w.ring)
    (ha : w.committed a = none) : Stepped encode w a v := by
  refine ⟨hinv, by rw [hring], ?_, ?_⟩
  · have hqueue : queue v = queue w := by simp only [queue, Wal.persister, hring]
    rw [ha, hqueue]
    exact (List.append_nil _).symm
  · rw [ha]
    exact nofun

theorem load_wal {r : Record} (hs : WalInv encode w) (h : w.step encode (.load r) = some v) :
    Stepped encode w (.load r) v := by
  simp only [Wal.step, Option.ite_none_right_eq_some, Option.map_eq_some_iff] at h
  obtain ⟨-, writers, hstep, rfl⟩ := h
  have hw := wstep_inv hs.writers hstep
  simp only [wstep, Option.ite_none_right_eq_some, Option.some.injEq] at hstep
  obtain ⟨-, rfl⟩ := hstep
  refine stepped_of_ring ⟨hs.ring, hw, ?_, hs.locked, hs.granted, hs.reader⟩ rfl rfl
  rw [List.map_append, List.map_append, hs.loads]
  rfl

theorem lock_wal {i : Nat} (hs : WalInv encode w) (h : w.step encode (.lock i) = some v) :
    Stepped encode w (.lock i) v := by
  simp only [Wal.step, Option.bind_eq_bind, Option.bind_eq_some_iff, Option.pure_def, Option.some.injEq] at h
  obtain ⟨r, hr, writers, hstep, rfl⟩ := h
  have hw := wstep_inv hs.writers hstep
  simp only [wstep, Option.ite_none_right_eq_some, Option.map_eq_some_iff] at hstep
  obtain ⟨hlock, ⟨write, len⟩, hload, rfl⟩ := hstep
  have hnone : w.ring.grant = none := hs.writers.grant (by rw [hlock]; simp)
  have hlen : len = (encode r).length := by
    have h := congrArg (·[i]?) hs.loads
    simp only [List.getElem?_map, hload, hr, Option.map_some] at h
    exact Option.some.inj h
  refine stepped_of_ring ⟨hs.ring, hw, ?_, ?_, fun g hg => ?_, hs.reader⟩ rfl rfl
  · show (w.writers.loads.eraseIdx i).map _ = (w.waiting.eraseIdx i).map _
    rw [← List.eraseIdx_map, ← List.eraseIdx_map, hs.loads]
  · intro write' len' e
    cases e
    exact ⟨r, rfl, hlen⟩
  · cases hnone.symm.trans hg

/-- A reservation is refused, or grants a range. -/
theorem reserveStep_cases (s : Writers) (write len : Nat) :
    reserveStep s write len = { s with lock := none } ∨
      ∃ head range, reserve s.ring.head s.ring.cursors s.ring.cap write len = .ok (head, range) ∧
        reserveStep s write len =
          { s with ring := { s.ring with head := head, grant := some range }, lock := some .granted } := by
  simp only [reserveStep]
  split
  · exact .inl rfl
  · next head range e => exact .inr ⟨head, range, e, rfl⟩

theorem reserve_wal (hs : WalInv encode w) (hok : WalFresh w .reserve) (h : w.step encode .reserve = some v) :
    Stepped encode w .reserve v := by
  simp only [Wal.step, Option.map_eq_some_iff] at h
  obtain ⟨writers, hstep, rfl⟩ := h
  have hw := wstep_inv hs.writers hstep
  have hring := wstep_ringInv (b := .reserve) hs.writers hs.ring hok hstep
  simp only [wstep] at hstep
  split at hstep
  · next write len hlock =>
    cases hstep
    obtain ⟨r, hr, hlen⟩ := hs.locked write len hlock
    have hnone : w.ring.grant = none := hs.writers.grant (by rw [hlock]; simp)
    rcases reserveStep_cases w.writers write len with e | ⟨head, range, hres, e⟩ <;> rw [e] at hw hring ⊢
    · refine stepped_of_ring ⟨hring, hw, hs.loads, fun _ _ h => (by cases h), fun g hg => ?_, hs.reader⟩ rfl rfl
      cases hnone.symm.trans hg
    · refine ⟨⟨hring, hw, hs.loads, fun _ _ h => (by cases h), fun g hg => ?_, hs.reader⟩, rfl, (List.append_nil _).symm,
        fun _ h => (by cases h)⟩
      cases hg
      refine ⟨r, hr, ?_⟩
      obtain ⟨-, -, -, ⟨-, -, rfl⟩ | ⟨-, -, rfl⟩⟩ := reserve_ok hres
      · exact hlen.trans (Nat.zero_add _).symm
      · exact congrArg (write + ·) hlen
  · cases hstep

theorem commit_wal (hs : WalInv encode w) (h : w.step encode .commit = some v) : Stepped encode w .commit v := by
  simp only [Wal.step, Option.bind_eq_bind, Option.bind_eq_some_iff, Option.pure_def, Option.some.injEq] at h
  obtain ⟨r, hr, filled, hfill, writers, hcommit, rfl⟩ := h
  have hw := wstep_inv (wstep_inv hs.writers hfill) hcommit
  simp only [wstep, Option.ite_none_right_eq_some, Option.map_eq_some_iff] at hfill
  obtain ⟨hlock, ring, hring, rfl⟩ := hfill
  obtain ⟨g, hg, hring⟩ := Option.bind_eq_some_iff.mp hring
  have hinv := fillStep_inv hs.ring hg hring
  simp only [fillStep, Option.ite_none_right_eq_some, Option.some.injEq] at hring
  obtain ⟨hlen, rfl⟩ := hring
  simp only [wstep, Option.ite_none_right_eq_some, Option.map_eq_some_iff] at hcommit
  obtain ⟨-, ring, hring, rfl⟩ := hcommit
  obtain ⟨g', hg', rfl⟩ := Option.map_eq_some_iff.mp hring
  obtain rfl : g = g' := Option.some.inj (hg.symm.trans hg')
  obtain ⟨r', hr', hstop⟩ := hs.granted g hg
  obtain rfl : r = r' := Option.some.inj (hr.symm.trans hr')
  have hgrant := hs.ring.grant g hg
  have hle : g.start + 0 + (encode r).length ≤ w.ring.ringbuf.length := by
    have := hgrant.le
    simp only [State.cap] at this
    omega
  obtain ⟨p, hp⟩ := hs.reader
  refine ⟨⟨commitStep_inv hinv hg, hw, hs.loads, fun _ _ h => (by cases h), fun _ h => (by cases h), p, hp⟩,
    length_overwrite hle, ?_, ?_⟩
  · have hslice : slice (overwrite w.ring.ringbuf (g.start + 0) (encode r)) g.start g.stop = encode r := by
      rw [hstop]
      exact slice_overwrite_self hle
    have hmem : p ∈ w.ring.readers := List.mem_of_getElem? hp
    show (w.ring.readers[w.persister]?.elim [] (unread (commitStep _ g))).map (·.bytes) =
      _ ++ w.writing.toList.map encode
    rw [hp, Option.elim_some, unread_commit hinv hg hmem, List.map_append, hr, queue_eq hp]
    exact congrArg (fun b => _ ++ [b]) hslice
  · intro q hq
    obtain rfl : r = q := Option.some.inj (hr.symm.trans hq)
    have hcap : w.ring.ringbuf.length = w.ring.cap := rfl
    omega

theorem unlock_wal (hs : WalInv encode w) (h : w.step encode .unlock = some v) : Stepped encode w .unlock v := by
  simp only [Wal.step, Option.map_eq_some_iff] at h
  obtain ⟨writers, hstep, rfl⟩ := h
  have hw := wstep_inv hs.writers hstep
  simp only [wstep, Option.ite_none_right_eq_some, Option.some.injEq] at hstep
  obtain ⟨hlock, rfl⟩ := hstep
  have hnone : w.ring.grant = none := hs.writers.grant (by rw [hlock]; simp)
  refine stepped_of_ring ⟨hs.ring, hw, hs.loads, fun _ _ h => (by cases h), fun g hg => ?_, hs.reader⟩ rfl rfl
  cases hnone.symm.trans hg

theorem read_wal {b : Act} (hs : WalInv encode w) (hok : WalFresh w (.read b)) (h : w.step encode (.read b) = some v) :
    Stepped encode w (.read b) v := by
  simp only [Wal.step, Option.ite_none_right_eq_some, Option.map_eq_some_iff] at h
  obtain ⟨hb, writers, hstep, rfl⟩ := h
  have hw := wstep_inv hs.writers hstep
  have hring := wstep_ringInv (b := .read b) hs.writers hs.ring hok hstep
  simp only [wstep, Option.ite_none_right_eq_some, Option.map_eq_some_iff] at hstep
  obtain ⟨hbr, ring, hstep, rfl⟩ := hstep
  obtain ⟨hlog, hbuf, hreader, hpos⟩ := step_before (persister_lt hs) hb hstep
  obtain ⟨p, hp⟩ := hs.reader
  refine ⟨⟨hring, hw, hs.loads, hs.locked, fun g hg => ?_, p, hreader.trans hp⟩, congrArg List.length hbuf, ?_,
    fun _ h => (by cases h)⟩
  · exact hs.granted g ((step_grant_of_byReader hstep hbr).symm.trans hg)
  · rw [queue_congr (v := ⟨⟨ring, w.writers.loads, w.writers.lock⟩, w.waiting, w.writing⟩) hlog hreader]
    exact (List.append_nil _).symm

theorem step_wal (hs : WalInv encode w) (hok : WalFresh w a) (h : w.step encode a = some v) :
    Stepped encode w a v := by
  cases a with
  | load r => exact load_wal hs h
  | lock i => exact lock_wal hs h
  | reserve => exact reserve_wal hs hok h
  | commit => exact commit_wal hs h
  | unlock => exact unlock_wal hs h
  | read b => exact read_wal hs hok h

/-! ## The task's steps -/

/-- The task's reader is replaced. -/
theorem persister_set {r : Reader} (hs : WalInv encode w) :
    (w.ring.readers.set w.persister r)[(w.ring.readers.set w.persister r).length - 1]? = some r := by
  have hlt := persister_lt hs
  rw [List.length_set, ← hlt, Nat.add_sub_cancel, List.getElem?_set_self (by omega)]

theorem next_wal (hs : WalInv encode w) (h : w.next = some v) :
    WalInv encode v ∧ v.ring.cap = w.ring.cap ∧ queue v = queue w := by
  obtain ⟨writers, hstep, rfl⟩ := Option.map_eq_some_iff.mp h
  have hw := wstep_inv hs.writers hstep
  have hring := wstep_ringInv (b := .read (.tryNext w.persister)) hs.writers hs.ring trivial hstep
  simp only [wstep, Option.ite_none_right_eq_some, Option.map_eq_some_iff] at hstep
  obtain ⟨-, ring, hstep, rfl⟩ := hstep
  simp only [step, Option.bind_eq_bind, Option.bind_eq_some_iff, Option.pure_def, Option.some.injEq] at hstep
  obtain ⟨r, hr, _, hg, r', hpoll, rfl⟩ := hstep
  have hset := persister_set (r := r') hs
  refine ⟨⟨hring, hw, hs.loads, hs.locked, hs.granted, r', hset⟩, rfl, ?_⟩
  have hunread := unread_poll hs.ring (List.mem_of_getElem? hr) ((Option.guard_eq_some' _).mp hg) hpoll
  show (((w.ring.readers.set w.persister r')[(w.ring.readers.set w.persister r').length - 1]?).elim []
    (unread w.ring)).map (·.bytes) = queue w
  rw [hset, Option.elim_some, hunread, queue_eq hr]

/-- What the task persists is the records it holds, and they leave the queue with its grant. -/
theorem release_wal {buf : Bytes} (hs : WalInv encode w) (hbuf : w.held = some buf) (h : w.release = some v) :
    WalInv encode v ∧ v.ring.cap = w.ring.cap ∧ queue w = heldRecords w ++ queue v ∧ buf = (heldRecords w).flatten := by
  have hheld := hbuf
  simp only [Wal.held, Option.bind_eq_bind, Option.bind_eq_some_iff, Option.pure_def, Option.some.injEq] at hheld
  obtain ⟨r, hr, g, hg, hslice⟩ := hheld
  obtain ⟨writers, hstep, rfl⟩ := Option.map_eq_some_iff.mp h
  have hw := wstep_inv hs.writers hstep
  have hring := wstep_ringInv (b := .read (.release w.persister)) hs.writers hs.ring trivial hstep
  simp only [wstep, Option.ite_none_right_eq_some, Option.map_eq_some_iff] at hstep
  obtain ⟨-, ring, hstep, rfl⟩ := hstep
  simp only [step, Option.bind_eq_bind, Option.bind_eq_some_iff, Option.pure_def, Option.some.injEq] at hstep
  obtain ⟨r', hr', g', hg', rfl⟩ := hstep
  obtain rfl : r = r' := Option.some.inj (hr.symm.trans hr')
  obtain rfl : g = g' := Option.some.inj (hg.symm.trans hg')
  obtain ⟨held, hunread, hbytes, hne⟩ := unread_release hs.ring (List.mem_of_getElem? hr) hg
  have hset := persister_set (r := r.release g) hs
  have hbuf' : buf = (held.map (·.bytes)).flatten := hslice.symm.trans hbytes
  have htake : heldRecords w = held.map (·.bytes) := by
    rw [heldRecords, hbuf, Option.elim_some, queue_eq hr, hunread, List.map_append, hbuf']
    exact takeBytes_append _ (List.forall_mem_map.mpr hne)
  refine ⟨⟨hring, hw, hs.loads, hs.locked, hs.granted, _, hset⟩, rfl, ?_, by rw [htake]; exact hbuf'⟩
  rw [htake, queue_eq hr, hunread, List.map_append]
  show _ = _ ++ (((w.ring.readers.set w.persister (r.release g))[(w.ring.readers.set w.persister (r.release g)).length -
    1]?).elim [] (unread w.ring)).map (·.bytes)
  rw [hset, Option.elim_some]

theorem new_walInv (encode : Record → Bytes) (capacity : Nat) : WalInv encode (.new capacity) := by
  refine ⟨readerStep_inv (new_inv capacity) nofun, ⟨fun _ => rfl, nofun, nofun⟩, rfl, nofun, nofun, ?_⟩
  exact ⟨_, rfl⟩

/-! ## The records of the queue -/

/-- What holds of the records that are to be written, and of those in the queue. -/
structure Carries (encode : Record → Bytes) (P Q : Record → Prop) (w : Wal) : Prop where
  waiting : ∀ r ∈ w.waiting, P r
  writing : ∀ r ∈ w.writing, P r
  queue : ∃ recs : List Record, queue w = recs.map encode ∧ ∀ r ∈ recs, Q r

theorem step_records {P : Record → Prop} (hwaiting : ∀ r ∈ w.waiting, P r) (hwriting : ∀ r ∈ w.writing, P r)
    (hload : ∀ r ∈ a.loaded, P r) (h : w.step encode a = some v) :
    (∀ r ∈ v.waiting, P r) ∧ ∀ r ∈ v.writing, P r := by
  cases a with
  | load r =>
    simp only [Wal.step, Option.ite_none_right_eq_some, Option.map_eq_some_iff] at h
    obtain ⟨-, writers, -, rfl⟩ := h
    refine ⟨fun r' hr' => ?_, hwriting⟩
    rcases List.mem_append.mp hr' with hr' | hr'
    · exact hwaiting r' hr'
    · rw [List.mem_singleton.mp hr']
      exact hload r rfl
  | lock i =>
    simp only [Wal.step, Option.bind_eq_bind, Option.bind_eq_some_iff, Option.pure_def, Option.some.injEq] at h
    obtain ⟨r, hr, writers, -, rfl⟩ := h
    refine ⟨fun r' hr' => hwaiting r' (List.mem_of_mem_eraseIdx hr'), fun r' hr' => ?_⟩
    rw [← Option.some.inj hr']
    exact hwaiting r (List.mem_of_getElem? hr)
  | reserve =>
    simp only [Wal.step, Option.map_eq_some_iff] at h
    obtain ⟨writers, -, rfl⟩ := h
    refine ⟨hwaiting, fun r' hr' => ?_⟩
    dsimp only at hr'
    split at hr'
    · cases hr'
    · exact hwriting r' hr'
  | commit =>
    simp only [Wal.step, Option.bind_eq_bind, Option.bind_eq_some_iff, Option.pure_def, Option.some.injEq] at h
    obtain ⟨r, -, _, -, writers, -, rfl⟩ := h
    exact ⟨hwaiting, hwriting⟩
  | unlock =>
    simp only [Wal.step, Option.map_eq_some_iff] at h
    obtain ⟨writers, -, rfl⟩ := h
    exact ⟨hwaiting, nofun⟩
  | read b =>
    simp only [Wal.step, Option.ite_none_right_eq_some, Option.map_eq_some_iff] at h
    obtain ⟨-, writers, -, rfl⟩ := h
    exact ⟨hwaiting, hwriting⟩

/-- A record that is pushed joins those of the queue when it is committed. -/
theorem step_carries {P Q Q' : Record → Prop} (hc : Carries encode P Q w) (hs : WalInv encode w) (hok : WalFresh w a)
    (h : w.step encode a = some v) (hload : ∀ r ∈ a.loaded, P r) (hQ : ∀ r, Q r → Q' r)
    (hcommit : ∀ r ∈ w.committed a, P r → (encode r).length ≤ w.ring.cap → Q' r) : Carries encode P Q' v := by
  obtain ⟨hwaiting, hwriting⟩ := step_records hc.waiting hc.writing hload h
  have hstepped := step_wal hs hok h
  obtain ⟨recs, hrecs, hall⟩ := hc.queue
  refine ⟨hwaiting, hwriting, recs ++ (w.committed a).toList, ?_, fun r hr => ?_⟩
  · rw [hstepped.queue, hrecs, List.map_append]
  · rcases List.mem_append.mp hr with hr | hr
    · exact hQ r (hall r hr)
    · have hr : r ∈ w.committed a := Option.mem_toList.mp hr
      have hP : P r := by
        cases a with
        | commit => exact hc.writing r hr
        | _ => cases hr
      exact hcommit r hr hP (hstepped.fits r hr)

theorem Carries.mono {P Q Q' : Record → Prop} (hc : Carries encode P Q w) (hQ : ∀ r, Q r → Q' r) :
    Carries encode P Q' w := by
  obtain ⟨recs, hrecs, hall⟩ := hc.queue
  exact ⟨hc.waiting, hc.writing, recs, hrecs, fun r hr => hQ r (hall r hr)⟩

theorem next_carries {P Q : Record → Prop} (hc : Carries encode P Q w) (hs : WalInv encode w) (h : w.next = some v) :
    Carries encode P Q v := by
  obtain ⟨-, -, hqueue⟩ := next_wal hs h
  obtain ⟨writers, -, rfl⟩ := Option.map_eq_some_iff.mp h
  exact ⟨hc.waiting, hc.writing, hqueue ▸ hc.queue⟩

/-- The task is handed the encoding of records at the front of the queue. -/
theorem release_carries {P Q : Record → Prop} {buf : Bytes} (hc : Carries encode P Q w) (hs : WalInv encode w)
    (hbuf : w.held = some buf) (h : w.release = some v) :
    Carries encode P Q v ∧ ∃ recs : List Record, heldRecords w = recs.map encode ∧ buf = (recs.map encode).flatten ∧
      ∀ r ∈ recs, Q r := by
  obtain ⟨-, -, hqueue, hheld⟩ := release_wal hs hbuf h
  obtain ⟨writers, -, rfl⟩ := Option.map_eq_some_iff.mp h
  obtain ⟨recs, hrecs, hall⟩ := hc.queue
  obtain ⟨recs₁, recs₂, rfl, hrecs₁, hrecs₂⟩ := List.map_eq_append_iff.mp (hrecs.symm.trans hqueue)
  refine ⟨⟨hc.waiting, hc.writing, recs₂, hrecs₂.symm, fun r hr => hall r (List.mem_append_right _ hr)⟩,
    recs₁, hrecs₁.symm, ?_, fun r hr => hall r (List.mem_append_left _ hr)⟩
  rw [hheld, hrecs₁]

end

end Metor.Proof.Disruptor
