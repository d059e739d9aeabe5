import Metor.Impl.Disruptor
import Metor.Lib.Run
import Metor.Proof.Disruptor.Inv

/-!
# The ring is a lossless queue to each of its readers

`Lossless`: what a reader has been handed is a prefix of what was committed
since it was created, the bytes it holds are still in the ring, and polling it
until it gets nothing hands it the rest. Every run whose grants are
`GrantSafe` is lossless (`run_lossless`); a grant that is not loses bytes
(`full_ring_not_lossless`).
-/

namespace Metor.Proof.Disruptor

open Metor.Lib Metor.Impl.Disruptor

/-- The bytes committed since the reader was created. -/
def since (s : State) (r : Reader) : Bytes := bytesOf (s.log.drop r.birth)

/-- One turn of a reader's loop: a poll, and the release of what it hands out. -/
def turn (s : State) (r : Reader) : Option Reader :=
  (r.poll s).map fun r' => r'.grant.elim r' r'.release

structure Lossless (s : State) : Prop where
  /-- Nothing is skipped, repeated or out of order. -/
  handed : ∀ r ∈ s.readers, r.handed <+: since s r
  /-- What a reader holds has not been overwritten. -/
  held : ∀ r ∈ s.readers, ∀ g, r.grant = some g →
    g.stop ≤ s.cap ∧ slice s.ringbuf g.start g.stop <:+ r.handed
  /-- A poll that gets nothing comes after everything was handed out. -/
  drained : ∀ r ∈ s.readers, r.grant = none →
    ∃ r', r.poll s = some r' ∧ (r'.grant = none → r.handed = since s r)
  /-- Two turns of the reader's loop reach that point. -/
  drains : ∀ r ∈ s.readers, r.grant = none →
    ∃ r₁ r₂, turn s r = some r₁ ∧ turn s r₁ = some r₂ ∧ r₂.handed = since s r

/-- The steps of one writer and its readers: a reader is created while no grant is out. -/
def Allowed (s : State) (a : Act) : Prop := a = .reader → s.grant = none

instance (s : State) (a : Act) : Decidable (Allowed s a) := inferInstanceAs (Decidable (_ → _))

section
variable {s : State} {r : Reader} {old held ws : List Write}

theorem ReaderInv.since_eq (h : ReaderInv s r old held ws) : since s r = r.handed ++ bytesOf ws := by
  rw [since, h.log, h.handed, List.append_assoc, List.drop_append_of_le_length h.birth]
  simp

theorem ReaderInv.stop_le (h : ReaderInv s r old held ws) (hs : Inv s) : stop r ≤ s.cap := by
  have hc := hs.committed
  have hw := hs.hwm
  rcases h.unread with ⟨hu, -⟩ | ⟨-, hu, -⟩ <;> omega

/-- A turn hands the reader the rest of a lap, and leaves it holding nothing. -/
theorem ReaderInv.turn (h : ReaderInv s r old held ws) (hg : r.grant = none) :
    ∃ r' old' ws', Disruptor.turn s r = some r' ∧ r'.grant = none ∧ r'.birth = r.birth ∧
      ReaderInv s r' old' [] ws' ∧ (ws = [] → ws' = []) ∧
      (ws' = [] ∨ (r.cursor < s.head.highWaterMark ∧ r'.cursor = s.head.highWaterMark)) := by
  obtain ⟨r', held', ws', hp, rfl, hi, -, -, hrest⟩ := poll_inv h hg
  have hb : r'.birth = r.birth := by
    simp only [Reader.poll, Option.map_eq_some_iff] at hp
    obtain ⟨_, _, rfl⟩ := hp
    rfl
  cases hr : r'.grant with
  | none =>
    have hstop : stop r' = r'.cursor := by simp [stop, hr]
    have ht := hi.tiles
    rw [hstop] at ht hrest
    obtain rfl := ht.eq_nil
    exact ⟨r', old, ws', by simp [Disruptor.turn, hp, hr], hr, hb, hi, fun e => by simpa using e, hrest⟩
  | some g =>
    have hstop : stop r' = g.stop := by simp [stop, hr]
    rw [hstop] at hrest
    exact ⟨r'.release g, old ++ held', ws', by simp [Disruptor.turn, hp, hr], rfl, hb, release_inv hi hr,
      fun e => (List.append_eq_nil_iff.mp e).2, hrest⟩

end

theorem Inv.lossless {s : State} (hs : Inv s) : Lossless s := by
  refine ⟨fun r hr => ?_, fun r hr g hg => ?_, fun r hr hg => ?_, fun r hr hg => ?_⟩ <;>
    obtain ⟨old, held, ws, hi⟩ := hs.readers r hr
  · exact ⟨_, hi.since_eq.symm⟩
  · have hstop : stop r = g.stop := by simp [stop, hg]
    have ht := hi.tiles
    rw [hstop, ← hi.start g hg] at ht
    refine ⟨hstop ▸ hi.stop_le hs, ?_⟩
    rw [ht.slice_eq, hi.handed]
    exact List.suffix_append _ _
  · obtain ⟨r', held', ws', hp, -, -, -, hn, -⟩ := poll_inv hi hg
    refine ⟨r', hp, fun h => ?_⟩
    rw [hi.since_eq, hn h, bytesOf_nil, List.append_nil]
  · obtain ⟨r₁, old₁, ws₁, h₁, g₁, b₁, i₁, -, e₁⟩ := hi.turn hg
    obtain ⟨r₂, old₂, ws₂, h₂, -, b₂, i₂, n₂, e₂⟩ := i₁.turn g₁
    refine ⟨r₁, r₂, h₁, h₂, ?_⟩
    have hws : ws₂ = [] := by
      rcases e₁ with e | ⟨-, e⟩
      · exact n₂ e
      · exact e₂.resolve_right (by omega)
    have := i₂.since_eq
    rw [hws, bytesOf_nil, List.append_nil, since, b₂, b₁] at this
    exact this.symm

/-- Every run whose grants are safe is lossless, in every state it reaches. -/
theorem run_lossless {capacity : Nat} (_ : 0 < capacity) {s : State}
    (h : Run step Safe (new capacity) s) : Lossless s :=
  (h.invariant step_inv (new_inv capacity)).lossless

/-- A grant that wraps around a ring of four bytes, read by a reader that was at its end. -/
theorem run_lossless_wrap : ∃ s, Run step Safe (new 4) s ∧ s.head = ⟨2, 3⟩ ∧
    s.readers.map (·.handed) = [[1, 2, 3, 4, 5]] ∧ Lossless s := by
  have h : Run step Safe (new 4) _ := Run.of_exec [.reader, .grant 3, .fill 0 [1, 2, 3], .commit,
    .tryNext 0, .release 0, .grant 2, .fill 0 [4, 5], .commit, .tryNext 0] .refl rfl
  exact ⟨_, h, rfl, rfl, run_lossless (by decide) h⟩

/-- Not every run is: once a write has filled the ring to its end, the next
one is granted over it, although the reader has read none of it. -/
theorem full_ring_not_lossless :
    ¬ ∀ capacity, 0 < capacity → ∀ s, Run step Allowed (new capacity) s → Lossless s := by
  intro h
  have hr : Run step Allowed (new 2) _ := Run.of_exec [.reader, .grant 2, .fill 0 [1, 2], .commit,
    .grant 1, .fill 0 [3], .commit, .tryNext 0] .refl rfl
  have := (h 2 (by decide) _ hr).handed _ (List.mem_singleton_self _)
  revert this
  decide

end Metor.Proof.Disruptor

/-!
## Several writers: no lost update

The writers refine the single writer of `Disruptor.step` as long as the
position a writer reserves from is still the one it loaded (`Fresh`): the load
and the lock leave the ring as it is, and reserving is then a grant
(`wstep_sim`). So a run of such steps loses nothing, and no two writes with
unread bytes overlap (`run_no_lost_update`). Two writers that load the same
position are granted the same range (`stale_load_overlaps`).
-/

namespace Metor.Proof.Disruptor

open Metor.Lib Metor.Impl.Disruptor

/-! ## The writes a reader has not read -/

/-- `ws` without the writes that the first `n` of its bytes cover. -/
def dropBytes : Nat → List Write → List Write
  | _, [] => []
  | n, w :: ws => if w.bytes.length ≤ n then dropBytes (n - w.bytes.length) ws else w :: ws

theorem dropBytes_append (us : List Write) {ws : List Write} (h : ∀ w ∈ ws, w.bytes ≠ []) :
    dropBytes (bytesOf us).length (us ++ ws) = ws := by
  induction us with
  | nil =>
    cases ws with
    | nil => rfl
    | cons w ws =>
      have := List.length_pos_iff.mpr (h w List.mem_cons_self)
      exact if_neg (by simp only [bytesOf_nil, List.length_nil]; omega)
  | cons u us ih =>
    rw [List.cons_append, dropBytes, bytesOf_cons, List.length_append, if_pos (Nat.le_add_right _ _),
      Nat.add_sub_cancel_left, ih]

/-- How many bytes the reader has released. -/
def released (r : Reader) : Nat := r.handed.length - (stop r - r.cursor)

/-- The writes committed since the reader was created of which it has not released every byte. -/
def unread (s : State) (r : Reader) : List Write := dropBytes (released r) (s.log.drop r.birth)

def Apart (g g' : Range) : Prop := g.stop ≤ g'.start ∨ g'.stop ≤ g.start

/-- The ranges of the writes with unread bytes are apart, and the range being
written is apart from them; every committed byte reaches each reader once. -/
structure NoLostUpdate (s : State) : Prop where
  apart : ∀ r ∈ s.readers, (unread s r).Pairwise fun v w => Apart v.range w.range
  grant : ∀ r ∈ s.readers, ∀ g, s.grant = some g → ∀ w ∈ unread s r, Apart g w.range
  lossless : Lossless s

section
variable {s : State} {r : Reader} {old held ws : List Write}

/-- The unread writes tile the ring up to `committed`, or up to
`high_water_mark` and then, below the cursor, up to `committed`. -/
theorem ReaderInv.split (h : ReaderInv s r old held ws) :
    (r.cursor ≤ s.head.committed ∧ Tiles s.ringbuf r.cursor s.head.committed (held ++ ws)) ∨
    (s.head.committed < r.cursor ∧ ∃ us vs, held ++ ws = us ++ vs ∧
      Tiles s.ringbuf r.cursor s.head.highWaterMark us ∧ Tiles s.ringbuf 0 s.head.committed vs) := by
  have hle := h.tiles.le
  rcases h.unread with ⟨hc, ht⟩ | ⟨hc, -, us, vs, rfl, hu, hv⟩
  · exact .inl ⟨by omega, h.tiles.append ht⟩
  · refine .inr ⟨Nat.lt_of_not_le fun hn => ?_, held ++ us, vs, (List.append_assoc _ _ _).symm, h.tiles.append hu, hv⟩
    have := h.lap hn; omega

/-- No unread write is empty. -/
theorem ReaderInv.bytes_ne_nil (h : ReaderInv s r old held ws) (hs : Inv s) : ∀ w ∈ held ++ ws, w.bytes ≠ [] := by
  intro w hw
  rcases h.split with ⟨-, ht⟩ | ⟨-, us, vs, e, hu, hv⟩
  · exact ht.bytes_ne_nil hs.committed hw
  · rw [e] at hw
    rcases List.mem_append.mp hw with hw | hw
    · exact hu.bytes_ne_nil hs.hwm hw
    · exact hv.bytes_ne_nil hs.committed hw

theorem ReaderInv.unread_eq (h : ReaderInv s r old held ws) (hs : Inv s) : Disruptor.unread s r = held ++ ws := by
  have hlen : released r = (bytesOf (old.drop r.birth)).length := by
    have : (bytesOf held).length = stop r - r.cursor := by
      rw [← h.tiles.slice_eq, length_slice (h.stop_le hs)]
    rw [released, h.handed, List.length_append]; omega
  rw [Disruptor.unread, h.log, List.append_assoc, List.drop_append_of_le_length h.birth, hlen,
    dropBytes_append _ (h.bytes_ne_nil hs)]

theorem ReaderInv.apart (h : ReaderInv s r old held ws) :
    (held ++ ws).Pairwise fun v w => Apart v.range w.range := by
  rcases h.split with ⟨-, ht⟩ | ⟨hc, us, vs, e, hu, hv⟩
  · exact ht.pairwise.imp .inl
  · rw [e]
    refine List.pairwise_append.mpr ⟨hu.pairwise.imp .inl, hv.pairwise.imp .inl, fun v hv' w hw => .inr ?_⟩
    have := hu.mem_range hv'
    have := hv.mem_range hw
    omega

/-- A range clear of the reader's cursor is apart from its unread writes. -/
theorem ReaderInv.clear_apart (h : ReaderInv s r old held ws) {g : Range} (hg : Clear s g r.cursor)
    {w : Write} (hw : w ∈ held ++ ws) : Apart g w.range := by
  simp only [Clear] at hg
  simp only [Apart]
  rcases h.split with ⟨hc, ht⟩ | ⟨hc, us, vs, e, hu, hv⟩
  · have := ht.mem_range hw; omega
  · rw [e] at hw
    rcases List.mem_append.mp hw with hw | hw
    · have := hu.mem_range hw; omega
    · have := hv.mem_range hw; omega

end

theorem Inv.no_lost_update {s : State} (hs : Inv s) : NoLostUpdate s := by
  refine ⟨fun r hr => ?_, fun r hr g hg w hw => ?_, hs.lossless⟩ <;>
    obtain ⟨old, held, ws, hi⟩ := hs.readers r hr
  · rw [hi.unread_eq hs]; exact hi.apart
  · rw [hi.unread_eq hs] at hw
    exact hi.clear_apart ((hs.grant g hg).clear r hr) hw

/-! ## The writers refine one writer -/

/-- A writer that is let through reserves from the position that is still the
committed one, and its grant is safe. -/
def ReserveSafe (s : State) : Option Phase → Prop
  | some (.locked write len) => canWrite s.cursors len write s.cap = true →
      write = loadWrite s.head s.cap ∧ GrantSafe s len
  | _ => True

instance (s : State) : (phase : Option Phase) → Decidable (ReserveSafe s phase)
  | some (.locked _ _) => inferInstanceAs (Decidable (_ → _ ∧ _))
  | some .granted | some .committed | none => isTrue trivial

/-- The steps that lose nothing. -/
def Fresh (s : Writers) : WAct → Prop
  | .reserve => ReserveSafe s.ring s.lock
  | .read a => Safe s.ring a
  | _ => True

instance (s : Writers) : (a : WAct) → Decidable (Fresh s a)
  | .reserve => inferInstanceAs (Decidable (ReserveSafe _ _))
  | .read _ => inferInstanceAs (Decidable (Safe _ _))
  | .load _ | .lock _ | .fill _ _ | .commit | .unlock => isTrue trivial

/-- The steps of any number of writers and readers. -/
def WAllowed (s : Writers) : WAct → Prop
  | .read a => Allowed s.ring a
  | _ => True

instance (s : Writers) : (a : WAct) → Decidable (WAllowed s a)
  | .read _ => inferInstanceAs (Decidable (Allowed _ _))
  | .load _ | .lock _ | .reserve | .fill _ _ | .commit | .unlock => isTrue trivial

/-- A grant is out only while its writer is between reserve and commit, and no writer asks for nothing. -/
structure WInv (s : Writers) : Prop where
  grant : s.lock ≠ some .granted → s.ring.grant = none
  loads : ∀ l ∈ s.loads, 0 < l.2
  locked : ∀ write len, s.lock = some (.locked write len) → 0 < len

theorem step_grant_of_byReader {s t : State} {a : Act} (h : step s a = some t) (ha : a.byReader = true) :
    t.grant = s.grant := by
  cases a <;> simp only [Act.byReader, Bool.false_eq_true] at ha <;>
    simp only [step, Option.bind_eq_bind, Option.bind_eq_some_iff, Option.pure_def, Option.some.injEq] at h
  · subst h; rfl
  · obtain ⟨_, _, _, _, _, _, rfl⟩ := h; rfl
  · obtain ⟨_, _, _, _, rfl⟩ := h; rfl
  · obtain ⟨_, _, _, _, rfl⟩ := h; rfl

/-- What a step of the writers is: a reservation, a step of the ring that
leaves the lock or commits, or one that leaves the ring. -/
theorem wstep_cases {s t : Writers} {a : WAct} (h : wstep s a = some t) :
    (t.ring = s.ring ∧ a ≠ .reserve) ∨
    (∃ write len, a = .reserve ∧ s.lock = some (.locked write len) ∧ t = reserveStep s write len) ∨
    (∃ b ring, step s.ring b = some ring ∧ t.ring = ring ∧ (∀ len, b ≠ .grant len) ∧
      (b = .reader → a = .read .reader)) := by
  cases a with
  | load len =>
    simp only [wstep, Option.ite_none_right_eq_some, Option.some.injEq] at h
    obtain ⟨-, rfl⟩ := h
    exact .inl ⟨rfl, nofun⟩
  | lock i =>
    simp only [wstep, Option.ite_none_right_eq_some, Option.map_eq_some_iff] at h
    obtain ⟨-, _, -, rfl⟩ := h
    exact .inl ⟨rfl, nofun⟩
  | reserve =>
    simp only [wstep] at h
    split at h
    · cases h; exact .inr (.inl ⟨_, _, rfl, by assumption, rfl⟩)
    · cases h
  | fill offset bytes =>
    simp only [wstep, Option.ite_none_right_eq_some, Option.map_eq_some_iff] at h
    obtain ⟨-, ring, hr, rfl⟩ := h
    exact .inr (.inr ⟨_, ring, hr, rfl, nofun, nofun⟩)
  | commit =>
    simp only [wstep, Option.ite_none_right_eq_some, Option.map_eq_some_iff] at h
    obtain ⟨-, ring, hr, rfl⟩ := h
    exact .inr (.inr ⟨_, ring, hr, rfl, nofun, nofun⟩)
  | unlock =>
    simp only [wstep, Option.ite_none_right_eq_some, Option.some.injEq] at h
    obtain ⟨-, rfl⟩ := h
    exact .inl ⟨rfl, nofun⟩
  | read b =>
    simp only [wstep, Option.ite_none_right_eq_some, Option.map_eq_some_iff] at h
    obtain ⟨hb, ring, hr, rfl⟩ := h
    refine .inr (.inr ⟨b, ring, hr, rfl, ?_, fun e => e ▸ rfl⟩)
    rintro len rfl
    cases hb

/-- Reserving from the committed position is a grant; a refused one changes nothing. -/
theorem reserveStep_sim {s : Writers} {write len : Nat} (hs : WInv s) (hl : s.lock = some (.locked write len))
    (hok : Fresh s .reserve) : (reserveStep s write len).ring = s.ring ∨
      (GrantSafe s.ring len ∧ step s.ring (.grant len) = some (reserveStep s write len).ring) := by
  simp only [Fresh, hl, ReserveSafe] at hok
  cases hr : reserve s.ring.head s.ring.cursors s.ring.cap write len with
  | error e => exact .inl (by simp only [reserveStep, hr])
  | ok p =>
    obtain ⟨head, g⟩ := p
    obtain ⟨rfl, hsafe⟩ := hok (reserve_ok hr).2.1
    have hg : s.ring.grant = none := hs.grant (by rw [hl]; nofun)
    refine .inr ⟨hsafe, ?_⟩
    simp only [step, hg, hs.locked _ _ hl, and_self, if_true, grantStep, tryGrant, reserveStep, hr]

/-- A fresh step of the writers is a safe step of the ring, or leaves it as it is. -/
theorem wstep_sim {s t : Writers} {a : WAct} (hs : WInv s) (hok : Fresh s a) (h : wstep s a = some t) :
    t.ring = s.ring ∨ ∃ b, Safe s.ring b ∧ step s.ring b = some t.ring := by
  rcases wstep_cases h with ⟨e, -⟩ | ⟨write, len, rfl, hl, rfl⟩ | ⟨b, ring, hb, rfl, hng, hrd⟩
  · exact .inl e
  · exact (reserveStep_sim hs hl hok).imp_right fun ⟨hsafe, e⟩ => ⟨.grant len, hsafe, e⟩
  · refine .inr ⟨b, ?_, hb⟩
    cases b with
    | grant len => exact absurd rfl (hng len)
    | reader => rw [hrd rfl] at hok; exact hok
    | _ => trivial

theorem wstep_inv {s t : Writers} {a : WAct} (hs : WInv s) (h : wstep s a = some t) : WInv t := by
  cases a with
  | load len =>
    simp only [wstep, Option.ite_none_right_eq_some, Option.some.injEq] at h
    obtain ⟨hlen, rfl⟩ := h
    refine ⟨hs.grant, fun l hl => ?_, hs.locked⟩
    rcases List.mem_append.mp hl with hl | hl
    · exact hs.loads l hl
    · rw [List.mem_singleton.mp hl]; exact hlen
  | lock i =>
    simp only [wstep, Option.ite_none_right_eq_some, Option.map_eq_some_iff] at h
    obtain ⟨hn, ⟨write, len⟩, hi, rfl⟩ := h
    refine ⟨fun _ => hs.grant (by rw [hn]; simp), fun l hl => hs.loads l (List.mem_of_mem_eraseIdx hl), ?_⟩
    rintro _ _ ⟨⟩
    exact hs.loads _ (List.mem_of_getElem? hi)
  | reserve =>
    simp only [wstep] at h
    split at h
    · next write len hl =>
      cases h
      have hg : s.ring.grant = none := hs.grant (by rw [hl]; simp)
      simp only [reserveStep]
      split
      · exact ⟨fun _ => hg, hs.loads, fun _ _ e => by cases e⟩
      · exact ⟨fun hn => absurd rfl hn, hs.loads, fun _ _ e => by cases e⟩
    · cases h
  | fill offset bytes =>
    simp only [wstep, Option.ite_none_right_eq_some, Option.map_eq_some_iff] at h
    obtain ⟨hl, ring, -, rfl⟩ := h
    exact ⟨fun hn => absurd hl hn, hs.loads, hs.locked⟩
  | commit =>
    simp only [wstep, Option.ite_none_right_eq_some, Option.map_eq_some_iff] at h
    obtain ⟨-, ring, hr, rfl⟩ := h
    simp only [step, Option.map_eq_some_iff] at hr
    obtain ⟨_, -, rfl⟩ := hr
    exact ⟨fun _ => rfl, hs.loads, fun _ _ e => by cases e⟩
  | unlock =>
    simp only [wstep, Option.ite_none_right_eq_some, Option.some.injEq] at h
    obtain ⟨hl, rfl⟩ := h
    exact ⟨fun _ => hs.grant (by rw [hl]; simp), hs.loads, fun _ _ e => by cases e⟩
  | read b =>
    simp only [wstep, Option.ite_none_right_eq_some, Option.map_eq_some_iff] at h
    obtain ⟨hb, ring, hr, rfl⟩ := h
    exact ⟨fun hn => (step_grant_of_byReader hr hb).trans (hs.grant hn), hs.loads, hs.locked⟩

/-- Any number of writers and readers: while every reservation is made from
the position that is still the committed one, and is safe, no update is lost. -/
theorem run_no_lost_update {capacity : Nat} (_ : 0 < capacity) {s : Writers}
    (h : Run wstep Fresh (Writers.new capacity) s) : NoLostUpdate s.ring := by
  have hsim := h.simulate Writers.ring (fun hs _ ht => wstep_inv hs ht) wstep_sim
    ⟨fun _ => rfl, nofun, nofun⟩
  exact (hsim.2.invariant step_inv (new_inv capacity)).no_lost_update

/-- Two writers, the second of which loads after the first has committed. -/
theorem run_no_lost_update_two : ∃ s, Run wstep Fresh (Writers.new 4) s ∧
    s.ring.readers.map (unread s.ring) = [[⟨⟨0, 1⟩, [7]⟩, ⟨⟨1, 2⟩, [9]⟩]] ∧ NoLostUpdate s.ring := by
  have h : Run wstep Fresh (Writers.new 4) _ := Run.of_exec [.read .reader, .load 1, .lock 0, .reserve,
    .fill 0 [7], .commit, .load 1, .unlock, .lock 0, .reserve, .fill 0 [9], .commit, .unlock] .refl rfl
  exact ⟨_, h, rfl, run_no_lost_update (by decide) h⟩

/-- Two writers that load before either commits: the second is granted the
range the first has committed, and its byte is all the reader gets. -/
theorem stale_load_overlaps :
    ¬ ∀ capacity, 0 < capacity → ∀ s, Run wstep WAllowed (Writers.new capacity) s → NoLostUpdate s.ring := by
  intro h
  have hr : Run wstep WAllowed (Writers.new 4) _ := Run.of_exec [.read .reader, .load 1, .load 1,
    .lock 0, .reserve, .fill 0 [7], .commit, .unlock, .lock 0, .reserve, .fill 0 [9], .commit, .unlock,
    .read (.tryNext 0)] .refl rfl
  have := (h 4 (by decide) _ hr).lossless.handed _ (List.mem_singleton_self _)
  revert this
  decide

end Metor.Proof.Disruptor
