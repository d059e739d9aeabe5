import Metor.Proof.FixedStream.Live

/-!
# When every table decodes

Whether a vtable is sent is decided by a generation and by a count of fields,
and each vtable is made from the components as they are then. The invariant is
that a vtable never lists fewer components than the count says: so a table with
that count, whose samples include those of the components listed, has just
their samples (`listed_eq_sampled`). In a run whose tables are written when each
component they are read for has a sample, and where no time series begins
before the vtable for a table is sent, every table decodes
(`tables_decode_of_steady`).
-/

namespace Metor.Proof.FixedStream

open Metor.Lib Metor.Impl.Proto Metor.Impl.Visitor Metor.Impl.FixedStream Metor.Proof.Visitor
open Metor.Impl hiding Component

variable {s s' : State} {db db' : Db} {listed is : List Nat} {fields : List FieldBuilder} {t : Int} {n : Nat}

/-! ## The invariant -/

/-- The vtable sent last, as the components are now. -/
structure Lists (db : Db) (listed : List Nat) (fields : List FieldBuilder) : Prop where
  fields : fields = fieldsOf (db.view listed)
  nodup : listed.Nodup
  nonempty : ∀ i ∈ listed, ∃ l, db.components[i]? = some l ∧ l.isEmpty = false

/-- The table is written, and a vtable for `is` reads it. -/
structure ReadsAs (db : Db) (s : Stream) (t : Int) (is : List Nat) : Prop where
  lt : ∀ i ∈ is, i < db.components.length
  decodes : Decodes (fieldsOf (db.view is)) s.table (written t s.table.clear s.written)

/-- The last vtable was made from this clone of the map, or from one that visited them in this order. -/
def Ordered (s : Stream) : Prop := ∀ listed fields, lastVtable s.sent = some (listed, fields) → listed.Sublist s.components

/-- The clone has every component of the last vtable. -/
def Covers (s : Stream) : Prop := ∀ listed fields, lastVtable s.sent = some (listed, fields) → listed ⊆ s.components

def PcInv (s : State) : Prop :=
  match s.stream.pc with
  | .start | .opened => s.stream.sent = []
  | .sendVtable _ _ => Covers s.stream
  | .compare t n => Ordered s.stream ∧ ∃ is, is.length = n ∧ ReadsAs s.db s.stream t is ∧
    if s.stream.currentFieldCount = some n then ∃ fields, lastVtable s.stream.sent = some (is, fields) else s.listed = is
  | .sendVtableAgain t n => ReadsAs s.db s.stream t s.listed ∧ s.listed.length = n
  | .sendTable t => Ordered s.stream ∧ ∃ listed fields, lastVtable s.stream.sent = some (listed, fields) ∧
    Decodes fields s.stream.table (written t s.stream.table.clear s.stream.written)
  | .top | .readGen _ | .clone _ _ | .populate _ => Ordered s.stream

structure Inv (s : State) : Prop where
  good : ∀ l ∈ s.db.components, Good l
  nodup : s.stream.components.Nodup
  lt : ∀ i ∈ s.stream.components, i < s.db.components.length
  lists : ∀ listed fields, lastVtable s.stream.sent = some (listed, fields) → Lists s.db listed fields
  counted : ∀ n, s.stream.currentFieldCount = some n →
    ∃ listed fields, lastVtable s.stream.sent = some (listed, fields) ∧ n ≤ listed.length
  pc : PcInv s
  decode : TablesDecode s.stream.sent

theorem Lists.lt (h : Lists db listed fields) : ∀ i ∈ listed, i < db.components.length := by
  intro i hi
  obtain ⟨l, hl, _⟩ := h.nonempty i hi
  exact (List.getElem?_eq_some_iff.mp hl).1

/-! ## Steps of the database -/

theorem lt_grows (h : Grows db db') (hl : ∀ i ∈ is, i < db.components.length) : ∀ i ∈ is, i < db'.components.length := by
  intro i hi
  obtain ⟨l', hl', _⟩ := h i _ (List.getElem?_eq_getElem (hl i hi))
  exact (List.getElem?_eq_some_iff.mp hl').1

theorem Lists.grows (hl : Lists db listed fields) (h : Grows db db') : Lists db' listed fields where
  fields := by rw [fieldsOf_view h hl.lt, hl.fields]
  nodup := hl.nodup
  nonempty i hi := by
    obtain ⟨l, hl, he⟩ := hl.nonempty i hi
    obtain ⟨l', hl', _, hempty⟩ := h i l hl
    exact ⟨l', hl', hempty he⟩

theorem ReadsAs.grows {s : Stream} (hr : ReadsAs db s t is) (h : Grows db db') : ReadsAs db' s t is :=
  ⟨lt_grows h hr.lt, by rw [fieldsOf_view h hr.lt]; exact hr.decodes⟩

/-- While a vtable is to be sent, the components it is going to list stay. -/
theorem listed_db {act : DbAct} (h : Inv s) (ha : Steady s (.db act)) (hs : s.db.step act = some db')
    (hr : s.stream.Renews) : State.listed { s with db := db' } = s.listed := by
  refine List.filter_congr fun i hi => ?_
  have hl := List.getElem?_eq_getElem (h.lt i hi)
  obtain ⟨l', hl', he⟩ := isEmpty_db hs hl fun hact => by
    subst hact
    have hb := ha hr hi
    rwa [hl] at hb
  show (((db'.components[i]?).map _).any _) = _
  rw [hl, hl', Option.map_some, Option.map_some, Option.any_some, Option.any_some]
  exact congrArg (!·) he

theorem pcInv_db {act : DbAct} (h : Inv s) (ha : Steady s (.db act)) (hs : s.db.step act = some db') :
    PcInv { s with db := db' } := by
  have hg := grows_db hs
  have hp := h.pc
  have hlisted := listed_db h ha hs
  rw [PcInv] at hp ⊢
  rw [Stream.Renews] at hlisted
  cases hpc : s.stream.pc with
  | compare t n =>
    simp only [hpc] at hp hlisted ⊢
    obtain ⟨hord, is, hlen, hreads, hexp⟩ := hp
    refine ⟨hord, is, hlen, hreads.grows hg, ?_⟩
    split at hexp
    · next hc => rwa [if_pos hc]
    · next hc =>
      rw [if_neg hc, hlisted hc]
      exact hexp
  | sendVtableAgain t n =>
    simp only [hpc] at hp hlisted ⊢
    rw [hlisted trivial]
    exact ⟨hp.1.grows hg, hp.2⟩
  | start | opened | top | readGen | clone | sendVtable | populate | sendTable =>
    simp only [hpc] at hp ⊢
    exact hp

theorem inv_db {act : DbAct} (h : Inv s) (ha : Steady s (.db act)) (hs : s.db.step act = some db') :
    Inv { s with db := db' } where
  good := good_db h.good hs
  nodup := h.nodup
  lt := lt_grows (grows_db hs) h.lt
  lists _ _ hl := (h.lists _ _ hl).grows (grows_db hs)
  counted := h.counted
  pc := pcInv_db h ha hs
  decode := h.decode

/-! ## Steps of the stream -/

/-- A vtable that is sent lists the components that are not empty. -/
theorem lists_send (h : Inv s) : Lists s.db s.listed (vtableFields (s.db.view s.stream.components)) where
  fields := by
    rw [vtableFields_eq_slotFields, Visitor.listed, filter_view]
    rfl
  nodup := h.nodup.filter _
  nonempty i hi := by
    obtain ⟨_, l, hl, he⟩ := mem_which.mp hi
    rw [Bool.not_eq_true'] at he
    exact ⟨l, hl, he⟩

/-- The samples that a table has are those of the components that the vtable lists, if there are no more of them. -/
theorem listed_eq_sampled (hord : Ordered s.stream) (hlast : lastVtable s.stream.sent = some (listed, fields))
    (hlen : (s.sampled t).length ≤ listed.length) (hs : ∀ i ∈ listed, i ∈ s.sampled t) : listed = s.sampled t := by
  have hsub := (hord _ _ hlast).filter fun i => (s.db.components[i]?.map (·.component)).any fun c => (nearest c t).isSome
  rw [List.filter_eq_self.mpr fun i hi => (List.mem_filter.mp (hs i hi)).2] at hsub
  exact hsub.eq_of_length_le hlen

theorem listed_eq_of_subset (h : ∀ i ∈ s.listed, i ∈ s.sampled t) : s.listed = s.sampled t := by
  refine List.filter_congr fun i hi => ?_
  rw [Bool.eq_iff_iff]
  constructor
  · intro he
    exact (List.mem_filter.mp (h i (List.mem_filter.mpr ⟨hi, he⟩))).2
  · rw [Option.any_eq_true, Option.any_eq_true]
    rintro ⟨c, hc, hn⟩
    exact ⟨c, hc, isSome_listed hn⟩

theorem readsAs_populate {table : LenPacket} (h : Inv s) (hc : s.Complete t)
    (hp : populateTable (s.db.view s.stream.components) s.stream.table.clear t = some (table, n)) :
    n = (s.sampled t).length ∧ (∀ i ∈ s.sampled t, i < s.db.components.length) ∧
      Decodes (fieldsOf (s.db.view (s.sampled t))) table (written t table.clear (s.db.view s.stream.components)) := by
  obtain ⟨_, hsize, hleaf⟩ := hc
  have hlt : ∀ i ∈ s.sampled t, i < s.db.components.length := fun i hi => h.lt i (List.mem_of_mem_filter hi)
  have hview : populated t (s.db.view s.stream.components) = s.db.view (s.sampled t) := filter_view _ _
  have hvalid : ∀ c ∈ s.db.view s.stream.components, c.Valid := by
    intro c hm
    obtain ⟨i, _, hi⟩ := List.mem_filterMap.mp hm
    obtain ⟨l, hl, rfl⟩ := Option.map_eq_some_iff.mp hi
    exact (h.good l (List.mem_of_getElem? hl)).valid
  rw [← hview] at hsize hleaf ⊢
  refine ⟨?_, hlt, decodes_of_valid hvalid hp hsize hleaf⟩
  rw [count_populateTable hp, hview, length_view hlt]

theorem inv_populate (h : Inv s) (hpc : s.stream.pc = .populate t) (hc : s.Complete t) {table : LenPacket}
    (hp : populateTable (s.db.view s.stream.components) s.stream.table.clear t = some (table, n)) :
    Inv { s with stream := { s.stream with
      table := table, written := s.db.view s.stream.components, pc := .compare t n } } := by
  obtain ⟨hn, hlt, hdecodes⟩ := readsAs_populate h hc hp
  have hord : Ordered s.stream := by
    have hpc' := h.pc
    rwa [PcInv, hpc] at hpc'
  refine { h with pc := ⟨hord, s.sampled t, hn.symm, ⟨hlt, hdecodes⟩, ?_⟩ }
  have hread := hc.1
  rw [State.readFor, ← hn] at hread
  dsimp only
  split
  · next hcount =>
    obtain ⟨listed, fields, hlast, hle⟩ := h.counted n hcount
    rw [if_pos hcount, hlast] at hread
    have heq := listed_eq_sampled hord hlast (hn ▸ hle) hread
    exact ⟨fields, by rw [hlast, heq]⟩
  · next hcount =>
    rw [if_neg hcount] at hread
    exact listed_eq_of_subset hread

theorem inv_sendVtable {vtableGen : Nat} (h : Inv s) (hpc : s.stream.pc = .sendVtable t vtableGen) :
    Inv { s with stream := { s.stream with
      sent := s.stream.send s.db, currentVtableGen := vtableGen, pc := .populate t } } where
  good := h.good
  nodup := h.nodup
  lt := h.lt
  lists := by
    have hlists := lists_send h
    rintro _ _ ⟨⟩
    exact hlists
  counted n hn := by
    obtain ⟨listed, fields, hlast, hle⟩ := h.counted n hn
    have hl := h.lists _ _ hlast
    have hcov : Covers s.stream := by
      have hp := h.pc
      rwa [PcInv, hpc] at hp
    have hsub : listed ⊆ s.listed := by
      intro i hi
      obtain ⟨l, hget, he⟩ := hl.nonempty i hi
      exact mem_which.mpr ⟨hcov _ _ hlast hi, l, hget, congrArg (!·) he⟩
    exact ⟨s.listed, _, rfl, hle.trans (hl.nodup.subperm hsub).length_le⟩
  pc := by
    rintro _ _ ⟨⟩
    exact List.filter_sublist
  decode := h.decode

theorem inv_sendVtableAgain (h : Inv s) (hpc : s.stream.pc = .sendVtableAgain t n) :
    Inv { s with stream := { s.stream with
      sent := s.stream.send s.db, currentFieldCount := some n, pc := .sendTable t } } := by
  have hp := h.pc
  rw [PcInv, hpc] at hp
  obtain ⟨hreads, hlen⟩ := hp
  have hlists := lists_send h
  exact {
    good := h.good
    nodup := h.nodup
    lt := h.lt
    lists := by
      rintro _ _ ⟨⟩
      exact hlists
    counted := by
      rintro _ ⟨⟩
      exact ⟨s.listed, _, rfl, hlen.ge⟩
    pc := by
      refine ⟨?_, s.listed, _, rfl, ?_⟩
      · rintro _ _ ⟨⟩
        exact List.filter_sublist
      · rw [hlists.fields]
        exact hreads.decodes
    decode := h.decode }

theorem inv_compare (h : Inv s) (hpc : s.stream.pc = .compare t n) :
    Inv { s with stream := { s.stream with
      pc := if s.stream.currentFieldCount = some n then .sendTable t else .sendVtableAgain t n } } := by
  have hp := h.pc
  rw [PcInv, hpc] at hp
  obtain ⟨hord, is, hlen, hreads, hexp⟩ := hp
  refine { h with pc := ?_ }
  split at hexp
  · next hcount =>
    obtain ⟨fields, hlast⟩ := hexp
    rw [if_pos hcount]
    refine ⟨hord, is, fields, hlast, ?_⟩
    rw [(h.lists _ _ hlast).fields]
    exact hreads.decodes
  · next hcount =>
    rw [if_neg hcount]
    subst hexp
    exact ⟨⟨hreads.lt, hreads.decodes⟩, hlen⟩

theorem inv_sendTable (h : Inv s) (hpc : s.stream.pc = .sendTable t) :
    Inv { s with stream := { s.stream with
      sent := .table t s.stream.written s.stream.table :: .streamTimestamp t :: s.stream.sent, pc := .top } } := by
  have hp := h.pc
  rw [PcInv, hpc] at hp
  obtain ⟨hord, hdecodes⟩ := hp
  exact { h with pc := hord, decode := ⟨hdecodes, h.decode⟩ }

theorem inv_next {stream : Stream} (h : Inv s) (ha : Steady s (.stream .next)) (hs : s.stream.step s.db .next = some stream) :
    Inv { s with stream := stream } := by
  have hp := h.pc
  rw [PcInv] at hp
  rw [Stream.step] at hs
  cases hpc : s.stream.pc with
  | start =>
    simp only [hpc] at hp hs
    cases hs
    exact { h with pc := hp }
  | readGen t =>
    simp only [hpc] at hp hs
    split at hs <;> cases hs <;> exact { h with pc := hp }
  | sendVtable t vtableGen =>
    simp only [hpc] at hs
    cases hs
    exact inv_sendVtable h hpc
  | populate t =>
    simp only [hpc] at hs
    obtain ⟨⟨table, n⟩, hpop, rfl⟩ := Option.map_eq_some_iff.mp hs
    have hc : s.Complete t := by rwa [Steady, hpc] at ha
    exact inv_populate h hpc hc hpop
  | compare t n =>
    have hcompare := inv_compare h hpc
    simp only [hpc] at hs
    split at hs <;> cases hs
    · next hcount => rwa [if_pos hcount] at hcompare
    · next hcount => rwa [if_neg hcount] at hcompare
  | sendVtableAgain t n =>
    simp only [hpc] at hs
    cases hs
    exact inv_sendVtableAgain h hpc
  | sendTable t =>
    simp only [hpc] at hs
    cases hs
    exact inv_sendTable h hpc
  | opened | top | clone =>
    simp only [hpc] at hs
    cases hs

theorem clone_spec {stream stream' : Stream} {order : List Nat} {pc : Pc} (h : stream.clone db order pc = some stream') :
    order.Perm (List.range db.components.length) ∧ stream' = { stream with components := order, pc := pc } := by
  rw [Stream.clone] at h
  split at h <;> cases h
  next hperm => exact ⟨hperm, rfl⟩

theorem nodup_clone {order : List Nat} (h : order.Perm (List.range n)) : order.Nodup := h.nodup_iff.mpr List.nodup_range

theorem lt_clone {order : List Nat} (h : order.Perm (List.range n)) : ∀ i ∈ order, i < n :=
  fun _ hi => List.mem_range.mp (h.mem_iff.mp hi)

theorem inv_clone {stream : Stream} {order : List Nat} (h : Inv s) (hs : s.stream.step s.db (.clone order) = some stream) :
    Inv { s with stream := stream } := by
  rw [Stream.step] at hs
  have hp := h.pc
  rw [PcInv] at hp
  split at hs
  · next hpc =>
    obtain ⟨hperm, rfl⟩ := clone_spec hs
    simp only [hpc] at hp
    refine { h with nodup := nodup_clone hperm, lt := lt_clone hperm, pc := ?_ }
    intro listed fields hlast
    rw [hp] at hlast
    cases hlast
  · next hpc =>
    obtain ⟨hperm, rfl⟩ := clone_spec hs
    refine { h with nodup := nodup_clone hperm, lt := lt_clone hperm, pc := ?_ }
    intro listed fields hlast i hi
    exact hperm.mem_iff.mpr (List.mem_range.mpr ((h.lists _ _ hlast).lt i hi))
  · cases hs

theorem inv_play {stream : Stream} (h : Inv s) (hs : s.stream.step s.db (.play t) = some stream) :
    Inv { s with stream := stream } := by
  rw [Stream.step] at hs
  split at hs
  · next hpc =>
    cases hs
    have hp := h.pc
    rw [PcInv, hpc] at hp
    exact { h with pc := hp }
  · cases hs

theorem inv_step {a : Act} (h : Inv s) (ha : Steady s a) (hs : step s a = some s') : Inv s' := by
  cases a with
  | db act =>
    obtain ⟨db, hdb, rfl⟩ := Option.map_eq_some_iff.mp hs
    exact inv_db h ha hdb
  | stream act =>
    obtain ⟨stream, hstream, rfl⟩ := Option.map_eq_some_iff.mp hs
    cases act with
    | clone order => exact inv_clone h hstream
    | play t => exact inv_play h hstream
    | next => exact inv_next h ha hstream

/-! ## Runs -/

theorem inv_init {components : List Component} {vtableGen : Nat} {id : UInt8 × UInt8} (hc : ∀ c ∈ components, c.Valid) :
    Inv (.init components vtableGen id) where
  good l hl := by
    obtain ⟨c, hm, rfl⟩ := List.mem_map.mp hl
    exact ⟨hc c hm, nofun, trivial⟩
  nodup := List.nodup_nil
  lt := nofun
  lists := nofun
  counted := nofun
  pc := rfl
  decode := trivial

/-- In a run whose steps are all steady, every table is decoded by the vtable sent last before it. -/
theorem tables_decode_of_steady {components : List Component} {vtableGen : Nat} {id : UInt8 × UInt8}
    (hc : ∀ c ∈ components, c.Valid) (h : Run step Steady (.init components vtableGen id) s) :
    TablesDecode s.stream.sent :=
  (h.invariant inv_step (inv_init hc)).decode

/-! ## A component that begins -/

/-- A component of one byte without samples. -/
def empty : Component := ⟨5, ⟨.u8, [1]⟩, []⟩

theorem valid_empty : ∀ c ∈ [empty], c.Valid :=
  List.forall_mem_singleton.mpr ⟨by decide, by decide, .create⟩

/-- A sample is sunk and persisted; then the stream sends a table with it. -/
def steadyActs : List Act :=
  [.stream .next, .stream (.clone [0]), .stream (.play 900), .stream .next, .stream .next, .stream .next, .stream .next,
    .stream .next, .db .startTable, .db (.applyValue 0 0 1000 ⟨0, [7]⟩ true), .db (.persist 0), .db (.endTable 0 true),
    .db (.persist 0), .db (.persist 0), .db (.persist 0), .stream (.play 950), .stream .next, .stream (.clone [0]),
    .stream .next, .stream .next, .stream .next, .stream .next, .stream .next]

theorem tables_decode_of_steady_two : ∃ s, Run step Steady (.init [empty] 0 (1, 2)) s ∧
    ((lastVtable s.stream.sent).map Prod.fst, s.stream.sent.length) = (some [0], 7) ∧ TablesDecode s.stream.sent := by
  have hs : (exec step Steady (.init [empty] 0 (1, 2)) steadyActs).map
      (fun s => ((lastVtable s.stream.sent).map Prod.fst, s.stream.sent.length)) = some (some [0], 7) := by decide
  obtain ⟨s, hs, hsent⟩ := Option.map_eq_some_iff.mp hs
  have h := Run.of_exec steadyActs .refl hs
  exact ⟨s, h, hsent, tables_decode_of_steady valid_empty h⟩

/-- The first node of the time series is made between a table and its vtable. -/
def beginningActs : List Act :=
  [.db .startTable, .db (.applyValue 0 0 1000 ⟨0, [7]⟩ true), .db (.persist 0), .stream .next, .stream (.clone [0]),
    .stream (.play 900), .stream .next, .stream .next, .db (.persist 0), .stream .next, .stream .next, .stream .next]

theorem beginning_not_decoded : ¬ ∀ (components : List Component) (vtableGen : Nat) (id : UInt8 × UInt8) (s : State),
    (∀ c ∈ components, c.Valid) → Run step (fun _ _ => True) (.init components vtableGen id) s →
      TablesDecode s.stream.sent := by
  intro h
  have hs : (exec step (fun _ _ => True) (.init [empty] 0 (1, 2)) beginningActs).map (fun s => s.stream.sent) =
      some [.table 900 [empty] (LenPacket.table (1, 2)).clear, .streamTimestamp 900,
        .vtableMsg [0] (vtableFields [created 5 1000 [7]])] := by decide
  obtain ⟨s, hs, hsent⟩ := Option.map_eq_some_iff.mp hs
  have hdecode := h [empty] 0 (1, 2) s valid_empty (Run.of_exec beginningActs .refl hs)
  rw [hsent] at hdecode
  obtain ⟨⟨listed, fields, hlast, body, _, hfields⟩, _⟩ := hdecode
  cases hlast
  -- The vtable has a field, and the table has no samples.
  obtain ⟨w, hw, _⟩ := hfields 0 (by decide)
  cases hw

end Metor.Proof.FixedStream
