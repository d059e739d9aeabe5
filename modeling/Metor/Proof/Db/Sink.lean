import Metor.Proof.Component.Order
import Metor.Proof.Db.Registry
import Metor.Proof.Db.Reopen
import Metor.Proof.VTable.Contents
import Metor.Spec.Register

/-!
# The schemas that are admitted

`insert_vtable` takes any dimensions. What is computed from them fits, and
their WALs have room for a record, just when a value is not empty and 1024
values are fewer than 2 ^ 64 bytes (`admissible_iff`).
-/

namespace Metor.Proof.Db

open Metor.Lib Metor.Impl.Db Metor.Impl.Sink Metor.Spec.Register Metor.Spec.Sink
open Metor.Impl (ComponentSchema)

variable {schema : ComponentSchema}

/-! ## One schema -/

theorem size_of_lt (h : bytesOf schema < 2 ^ 64) : schema.size = bytesOf schema := Nat.mod_eq_of_lt h

theorem prod_take_le {dims : List Nat} (h : 0 < dims.prod) (k : Nat) : (dims.take k).prod ≤ dims.prod := by
  have hmul := (List.prod_append : (dims.take k ++ dims.drop k).prod = _)
  rw [List.take_append_drop] at hmul
  have hpos : 0 < (dims.drop k).prod := Nat.pos_of_ne_zero fun e => by rw [e, Nat.mul_zero] at hmul; omega
  rw [hmul]
  exact Nat.le_mul_of_pos_right _ hpos

/-- A ring that has room for a record neither panics nor finds a record too large. -/
theorem pushBuf_of_room {wal : Wal} {valueBuf : Bytes} (h : valueBuf.length + 8 ≤ wal.ring.cap) (timestamp : Int) :
    wal.pushBuf timestamp valueBuf ≠ .error .panicked ∧
      Metor.Impl.Disruptor.tryGrant wal.ring.head wal.ring.cursors wal.ring.cap (valueBuf.length + 8) ≠
        .error .insufficientCapacity := by
  constructor
  · rw [Wal.pushBuf]
    split
    · simp
    · rw [if_neg (by omega)]
      split <;> simp
  · simp only [Metor.Impl.Disruptor.tryGrant, Metor.Impl.Disruptor.reserve]
    rw [if_neg (by omega)]
    split
    · simp
    · split
      · simp
      · split <;> simp

theorem admissible_iff : Admissible schema ↔ 0 < bytesOf schema ∧ bytesOf schema * 1024 < 2 ^ 64 := by
  constructor
  · intro h
    have hsize := size_of_lt h.size
    refine ⟨Nat.pos_of_ne_zero fun e => ?_, hsize ▸ h.create⟩
    -- without bytes there is no room for the timestamp of a record
    have hcap := (h.capacity (createCapacity schema) (by simp)).1
    rw [createCapacity, hsize, e] at hcap
    exact absurd hcap (by decide)
  · rintro ⟨hpos, hlt⟩
    have hlt₂ : bytesOf schema * 256 < 2 ^ 64 := (Nat.mul_le_mul_left _ (by decide)).trans_lt hlt
    have hlt₃ : bytesOf schema + 8 < 2 ^ 64 := by omega
    have hlt₄ : bytesOf schema < 2 ^ 64 := Nat.lt_of_le_of_lt (Nat.le_add_right _ 8) hlt₃
    have hsize := size_of_lt hlt₄
    have hcreate : createCapacity schema = bytesOf schema * 1024 := by
      rw [createCapacity, hsize]; exact Nat.mod_eq_of_lt hlt
    have hopen : openCapacity schema = bytesOf schema * 256 := by
      rw [openCapacity, hsize]; exact Nat.mod_eq_of_lt hlt₂
    have hroom : ∀ capacity ∈ [createCapacity schema, openCapacity schema], schema.size + 8 ≤ capacity := by
      rw [hcreate, hopen, hsize]
      simp only [List.mem_cons, List.not_mem_nil, or_false, forall_eq_or_imp, forall_eq]
      omega
    have hprod : 0 < schema.dim.prod := Nat.pos_of_mul_pos_right hpos
    have hle : schema.dim.prod ≤ bytesOf schema := Nat.le_mul_of_pos_right _ (Nat.pos_of_mul_pos_left hpos)
    constructor
    · intro k
      exact (prod_take_le hprod k).trans_lt (hle.trans_lt hlt₄)
    · exact hlt₄
    · rw [hsize]; exact hlt
    · rw [hsize]; exact hlt₂
    · rw [hsize]; exact hlt₃
    · intro capacity hc
      exact ⟨Nat.lt_of_lt_of_le (Nat.succ_pos _) (hroom capacity hc), hroom capacity hc⟩
    · intro wal timestamp valueBuf hc hv
      exact pushBuf_of_room (hv ▸ hroom _ hc) timestamp

/-! ## The schemas of a vtable -/

variable {B M : Type} {pc : Platform B M}

/-- The components of an accepted vtable are safe to push to if and only if the value of each has a
byte, and 1024 of them fit a `usize`. -/
theorem accepted_admissible_iff {db db' : DB B M} {fuel : Nat} {id : UInt16} {vtable : Metor.Impl.Proto.VTable}
    (h : db.insertVTable pc fuel id vtable = (.ok (), db')) :
    (∀ field ∈ vtable.fields, ∀ r, vtable.realizeField none fuel field = .ok r →
      ∃ component, db'.state.components.lookup (.ofNat r.componentId) = some component ∧
        component.schema = ⟨r.ty, r.shape⟩ ∧ Admissible component.schema) ↔
    ∀ field ∈ vtable.fields, ∀ r, vtable.realizeField none fuel field = .ok r →
      0 < r.shape.prod * r.ty.size ∧ r.shape.prod * r.ty.size * 1024 < 2 ^ 64 := by
  obtain ⟨-, -, hreg⟩ := insertVTable_registers h
  refine forall₄_congr fun field hf r hr => ?_
  obtain ⟨realized, component, hr', hc, hs⟩ := hreg rfl field hf
  rw [hr] at hr'
  cases hr'
  constructor
  · rintro ⟨component', -, hs', ha⟩
    rw [hs', admissible_iff] at ha
    exact ha
  · intro hb
    exact ⟨component, hc, hs, by rw [hs, admissible_iff]; exact hb⟩

/-- A vtable of one field for component 7. -/
theorem insertVTable_named {v : Metor.Impl.Proto.VTable} {field : Metor.Impl.Proto.Field}
    {r : Metor.Impl.Proto.RealizedField} (hf : v.fields = [field]) (hr : v.realizeField none 9 field = .ok r)
    (hid : r.componentId = 7) (ha : plain.allocates (ComponentSchema.size ⟨r.ty, r.shape⟩ * 1024 % 2 ^ 64)) :
    ∃ db', named.insertVTable plain 9 1 v = (.ok (), db') := by
  rw [DB.insertVTable, hf]
  simp only [DB.insertFields, hr, hid, show UInt64.ofNat 7 = 7 from rfl, insertComponent_named ha]
  exact ⟨_, rfl⟩

theorem accepted_admissible_inserted : ∃ db' : DB Encoded String,
    named.insertVTable plain 9 1 vtable = (.ok (), db') ∧
    ∀ field ∈ vtable.fields, ∀ r, vtable.realizeField none 9 field = .ok r →
      ∃ component, db'.state.components.lookup (.ofNat r.componentId) = some component ∧
        component.schema = ⟨r.ty, r.shape⟩ ∧ Admissible component.schema := by
  have hr : vtable.realizeField none 9 ⟨0, 8, 4⟩ = .ok ⟨7, [1], .f64, 0, none, none⟩ := by decide +kernel
  obtain ⟨db', h⟩ := insertVTable_named rfl hr rfl (by decide)
  refine ⟨db', h, (accepted_admissible_iff h).mpr fun field hf r hr' => ?_⟩
  rw [List.mem_singleton.mp hf, hr] at hr'
  cases hr'
  decide

/-- An array of no `f64`. -/
def emptyVTable : Metor.Impl.Proto.VTable where
  ops := [.data 0 8, .component 0, .data 8 8, .data 16 8, .schema 2 3 1]
  fields := [⟨0, 0, 4⟩]
  data := ⟨0, i64Bytes 7 ++ i64Bytes 10 ++ i64Bytes 0⟩

/-- The WAL of a component without elements has no bytes. -/
theorem empty_admitted : ¬ ∀ (db db' : DB Encoded String) (fuel : Nat) (id : UInt16) (vtable : Metor.Impl.Proto.VTable),
    db.insertVTable plain fuel id vtable = (.ok (), db') →
      ∀ field ∈ vtable.fields, ∀ r, vtable.realizeField none fuel field = .ok r → Admissible ⟨r.ty, r.shape⟩ := by
  intro h
  have hr : emptyVTable.realizeField none 9 ⟨0, 0, 4⟩ = .ok ⟨7, [0], .f64, 0, none, none⟩ := by decide +kernel
  obtain ⟨db', hi⟩ := insertVTable_named rfl hr rfl (by decide)
  have ha := h named db' 9 1 emptyVTable hi ⟨0, 0, 4⟩ (List.mem_singleton_self _) _ hr
  exact absurd (admissible_iff.mp ha).1 (by decide)

end Metor.Proof.Db

/-!
## The records of a table

What a field pushes has the length of the schema its vtable gives, and that is
the schema of the component it registered (`applyFields_pushed`). So in every
state of a running database a table pushes only what `persist` expects, and
only where its vtable may (`contents_irrelevant`).
-/

namespace Metor.Proof.Db

open Metor.Lib Metor.Impl.Db Metor.Impl.Sink Metor.Spec.Register Metor.Spec.Sink Metor.Spec.VTable
open Metor.Impl (Proto.View Proto.VTable Proto.Field Proto.ComponentView ComponentSchema)
open Metor.Proof.Component (length_record)
open Metor.Proof.VTable (agrees_of_realizeField realizeField_agrees)

/-! ## One record -/

/-- A grant is as long as was asked for, and within the ring. -/
theorem tryGrant_range {head head' : Metor.Impl.Disruptor.WriteHead} {readers : List Nat} {max len : Nat}
    {range : Metor.Impl.Disruptor.Range}
    (h : Metor.Impl.Disruptor.tryGrant head readers max len = .ok (head', range)) :
    range.stop = range.start + len ∧ range.stop ≤ max := by
  simp only [Metor.Impl.Disruptor.tryGrant, Metor.Impl.Disruptor.reserve] at h
  split at h
  · cases h
  · split at h
    · cases h
    · split at h
      · cases h; dsimp only; omega
      · split at h <;> (cases h; dsimp only; omega)

/-- It pushes the record, or nothing. -/
theorem pushBuf_pushed {wal wal' : Wal} {timestamp : Int} {valueBuf : Bytes}
    (h : wal.pushBuf timestamp valueBuf = .ok wal') :
    ∃ records, Pushed wal wal' records ∧ ∀ r ∈ records, r = Metor.Impl.record timestamp valueBuf := by
  rw [Wal.pushBuf] at h
  split at h
  · cases h
  · split at h
    · cases h
    · split at h
      next => cases h; exact ⟨[], (List.append_nil _).symm, by simp⟩
      next head range hg =>
        cases h
        obtain ⟨hlen, hle⟩ := tryGrant_range hg
        have hrec : (Metor.Impl.record timestamp valueBuf).length = valueBuf.length + 8 := length_record rfl
        have hslice : slice (overwrite wal.ring.ringbuf range.start (Metor.Impl.record timestamp valueBuf))
            range.start range.stop = Metor.Impl.record timestamp valueBuf := by
          rw [hlen, ← hrec]
          refine slice_overwrite_self ?_
          rw [hrec, ← hlen]
          exact hle
        refine ⟨[Metor.Impl.record timestamp valueBuf], ?_, by simp⟩
        show (wal.ring.log ++ [(_ : Metor.Impl.Disruptor.Write)]).map (·.bytes) = _
        rw [List.map_append, List.map_singleton]
        dsimp only
        rw [hslice]

/-! ## One table -/

variable {v : Proto.VTable} {table : Proto.View} {fuel : Nat} {sink sink' : DBSink} {res : Eval Metor.Impl.Sink.Error Unit}

theorem pushed_trans {wal₁ wal₂ wal₃ : Wal} {records records' : List Bytes} (h : Pushed wal₁ wal₂ records)
    (h' : Pushed wal₂ wal₃ records') : Pushed wal₁ wal₃ (records ++ records') := by
  unfold Pushed at *
  rw [h', h, List.append_assoc]

theorem applyValue_pushed {id : UInt64} {value : Proto.ComponentView} {timestamp : Option Int}
    (h : sink.applyValue id value timestamp = .ok sink') :
    sink'.components = sink.components ∧
      ∀ id', ∃ records, Pushed (sink.wals id') (sink'.wals id') records ∧
        ∀ r ∈ records, id' = id ∧ r.length = value.bytes.length + 8 := by
  simp only [DBSink.applyValue] at h
  split at h
  · cases h
  · split at h
    · cases h
    next wal hw =>
      cases h
      refine ⟨rfl, fun id' => ?_⟩
      by_cases e : id' = id
      · subst e
        obtain ⟨records, hp, hr⟩ := pushBuf_pushed hw
        refine ⟨records, by simpa only [Function.update_self] using hp, fun r hmem => ⟨rfl, ?_⟩⟩
        rw [hr r hmem]
        exact length_record rfl
      · exact ⟨[], by simp only [Function.update_of_ne e, Pushed, List.append_nil], by simp⟩

/-- A table pushes what is expected, over a vtable whose components are all there. -/
theorem applyFields_pushed {fuel' : Nat} {fields : List Proto.Field} (hf : ∀ field ∈ fields, field ∈ v.fields)
    (hreg : ∀ field ∈ fields, Registers sink.components fuel' v field)
    (h : applyFields v table fuel fields sink = (res, sink')) (id : UInt64) :
    ∃ records, Pushed (sink.wals id) (sink'.wals id) records ∧ ∀ r ∈ records, Expected sink v id r := by
  have hnone : ∃ records, Pushed (sink.wals id) (sink.wals id) records ∧ ∀ r ∈ records, Expected sink v id r :=
    ⟨[], (List.append_nil _).symm, by simp⟩
  induction fields generalizing sink with
  | nil => cases h; exact hnone
  | cons field fields ih =>
    obtain ⟨hfield, hfields⟩ := List.forall_mem_cons.mp hf
    obtain ⟨⟨realized, component, hr, hc, hs⟩, hreg⟩ := List.forall_mem_cons.mp hreg
    rw [applyFields] at h
    split at h
    · cases h; exact hnone
    · cases h; exact hnone
    next realized' hr' =>
      have ha := agrees_of_realizeField hr hr'
      obtain ⟨view, hview, -, -, hlen⟩ := ha.view
      rw [hview] at h
      dsimp only at h
      split at h
      · cases h; exact hnone
      next sink₁ happ =>
        obtain ⟨hcomp, hpush⟩ := applyValue_pushed happ
        obtain ⟨records, hp, hrec⟩ := hpush id
        obtain ⟨records', hp', hrec'⟩ := ih hfields (hcomp ▸ hreg) h ⟨[], (List.append_nil _).symm, by simp⟩
        refine ⟨records ++ records', pushed_trans hp hp', fun r hmem => ?_⟩
        rcases List.mem_append.mp hmem with hmem | hmem
        · obtain ⟨rfl, hl⟩ := hrec r hmem
          rw [ha.componentId]
          refine ⟨⟨fuel', field, hfield, realized, hr, rfl⟩, component, hc, ?_⟩
          rw [hl, hlen, hs, ComponentSchema.size, Nat.mod_eq_of_lt ha.fits]
        · obtain ⟨hreg', component', hc', hl'⟩ := hrec' r hmem
          exact ⟨hreg', component', hcomp ▸ hc', hl'⟩

/-! ## Every table -/

variable {B M : Type} {pc : Platform B M}

/-- A field that realizes without a table means the same with each; and in a running database a
table pushes records of the length of its component only, into components its vtable registered. -/
theorem contents_irrelevant {db₀ db : DB B M} (h₀ : Started pc db₀) (h : Run (step pc) (fun _ _ => True) db₀ db) :
    (∀ (v : Proto.VTable) (fuel : Nat), ∀ field ∈ v.fields, ∀ r, v.realizeField none fuel field = .ok r →
      ∀ table : Proto.View, (v.realizeField (some table) fuel field).ErrOr (Agrees r)) ∧
    ∀ (sink : DBSink) (id : UInt16) (table : Proto.View) (fuel : Nat), sink.components = db.state.components →
      ∀ cid, ∃ records,
        Pushed (sink.wals cid) ((Metor.Impl.Sink.sink db.state.vtableRegistry id table fuel sink).2.wals cid) records ∧
          ∀ r ∈ records, ∃ vtable, db.state.vtableRegistry.lookup id = some vtable ∧ Expected sink vtable cid r := by
  refine ⟨fun v fuel field _ r hr table => realizeField_agrees hr table, fun sink id table fuel hs cid => ?_⟩
  rw [Metor.Impl.Sink.sink]
  split
  · exact ⟨[], (List.append_nil _).symm, by simp⟩
  next vtable hv =>
    obtain ⟨fuel', hreg⟩ := run_sound h₀ h id vtable hv
    obtain ⟨records, hp, hr⟩ := applyFields_pushed (fun _ hf => hf) (hs ▸ hreg) Prod.mk.eta.symm cid
    exact ⟨records, hp, fun r hmem => ⟨vtable, hv, hr r hmem⟩⟩

/-- A table of eight bytes for the vtable of `inserted`, and WALs with room for it. -/
def eightBytes : Proto.View := ⟨0, List.replicate 8 0⟩

def roomy : DBSink where
  components := inserted.state.components
  wals := fun _ => ⟨0, Metor.Impl.Disruptor.new 64⟩
  empty := fun _ => true
  lastUpdated := 0
  sunkNewTimeSeries := false
  tableReceived := 5

theorem contents_irrelevant_inserted : (vtable.realizeField (some eightBytes) 9 ⟨0, 8, 4⟩).ErrOr
      (Agrees ⟨7, [1], .f64, 0, none, none⟩) ∧
    ∃ records, Pushed (roomy.wals 7)
        ((Metor.Impl.Sink.sink inserted.state.vtableRegistry 1 eightBytes 9 roomy).2.wals 7) records ∧
      ∀ r ∈ records, ∃ vtable, inserted.state.vtableRegistry.lookup 1 = some vtable ∧ Expected roomy vtable 7 r := by
  have h := contents_irrelevant (.inl ⟨_, _, withTimeStep_created⟩)
    (.snoc (.snoc .refl trivial step_named) trivial step_inserted)
  refine ⟨h.1 vtable 9 ⟨0, 8, 4⟩ (List.mem_singleton_self _) _ ?_ eightBytes, h.2 roomy 1 eightBytes 9 rfl 7⟩
  decide +kernel

end Metor.Proof.Db
