import Metor.Proof.VTable.Terminates

/-!
# Realizing without a table and with one

Without a table, an operation that reads the table has no bytes. So whatever
else is read comes from the data of the vtable, and is read alike with every
table (`realize_alike`): a field that realizes without a table realizes to the
same component and schema with any, or to an error (`realizeField_agrees`).
-/

namespace Metor.Proof.VTable

open Metor.Lib Metor.Impl.Proto Metor.Spec.VTable Metor.Proof.View

variable {v : VTable} {table : Option View} {fuel : Nat} {field : Field} {r : OpRef} {op op' : RealizedOp}

/-! ## Operations -/

/-- Equal, but for the bytes of the table. -/
inductive Alike : RealizedOp → RealizedOp → Prop
  | same (op : RealizedOp) : Alike op op
  | table (slice : Option View) (range : Nat × Nat) : Alike (.table none range) (.table slice range)
  | timestamp (t t' : Option Int) (range : Option (Nat × Nat)) (arg : OpRef) :
    Alike (.timestamp ⟨t, range, arg⟩) (.timestamp ⟨t', range, arg⟩)

/-- An operation with bytes, though there is no table. -/
theorem Alike.of_asSlice {s : View} (h : Alike op op') (hs : op.asSlice = some s) : op' = op := by
  cases h with
  | same => rfl
  | table slice range => cases hs
  | timestamp t t' range arg => cases hs

theorem Alike.asTableRange (h : Alike op op') : op'.asTableRange = op.asTableRange := by
  cases h <;> rfl

theorem asSlice_of_asComponentId {id : Nat} (h : op.asComponentId = some id) : ∃ s, op.asSlice = some s := by
  obtain ⟨s, hs, -⟩ := Option.bind_eq_some_iff.mp h
  exact ⟨s, hs⟩

theorem asSlice_of_asPrimTy {ty : PrimType} (h : op.asPrimTy = some ty) : ∃ s, op.asSlice = some s := by
  obtain ⟨s, hs, -⟩ := Option.bind_eq_some_iff.mp h
  exact ⟨s, hs⟩

theorem realize_alike (h : v.realize none fuel r = .ok op) (table : View) :
    (v.realize (some table) fuel r).ErrOr (Alike op) := by
  induction fuel generalizing r op with
  | zero => cases h
  | succ fuel ih =>
    rw [VTable.realize] at h ⊢
    obtain ⟨o, ho, h⟩ := Eval.bind_eq_ok.mp h
    rw [ho, Eval.ok_bind]
    cases o with
    | data offset len => exact .inr ⟨op, h, .same op⟩
    | table offset len =>
      cases h
      cases hs : table.get offset (offset + len) with
      | none => exact .inl ⟨_, by simp only [hs]; rfl⟩
      | some s => exact .inr ⟨_, by simp only [hs]; rfl, .table _ _⟩
    | none => exact .inr ⟨op, h, .same op⟩
    | component c =>
      obtain ⟨op₁, h₁, h⟩ := Eval.bind_eq_ok.mp h
      obtain ⟨id, hid, h⟩ := Eval.bind_eq_ok.mp h
      have hid := Eval.okOr_eq_ok.mp hid
      obtain ⟨s, hs⟩ := asSlice_of_asComponentId hid
      refine (ih h₁).bind fun op' ha => ?_
      rw [ha.of_asSlice hs, hid]
      exact .inr ⟨op, h, .same op⟩
    | schema ty dim arg =>
      obtain ⟨op₁, h₁, h⟩ := Eval.bind_eq_ok.mp h
      obtain ⟨t, ht, h⟩ := Eval.bind_eq_ok.mp h
      obtain ⟨op₂, h₂, h⟩ := Eval.bind_eq_ok.mp h
      obtain ⟨s₂, hs₂, h⟩ := Eval.bind_eq_ok.mp h
      have ht := Eval.okOr_eq_ok.mp ht
      have hs₂ := Eval.okOr_eq_ok.mp hs₂
      obtain ⟨s, hs⟩ := asSlice_of_asPrimTy ht
      refine (ih h₁).bind fun op' ha => ?_
      rw [ha.of_asSlice hs, ht, Eval.okOr_some, Eval.ok_bind]
      refine (ih h₂).bind fun op' ha => ?_
      rw [ha.of_asSlice hs₂, hs₂, Eval.okOr_some, Eval.ok_bind]
      exact .inr ⟨op, h, .same op⟩
    | timestamp source arg =>
      obtain ⟨op₁, h₁, h⟩ := Eval.bind_eq_ok.mp h
      have hop : ∃ t, op = .timestamp ⟨t, op₁.asTableRange, arg⟩ := by
        split at h
        · obtain ⟨t, -, h⟩ := Eval.bind_eq_ok.mp h
          cases h
          exact ⟨_, rfl⟩
        · cases h
          exact ⟨_, rfl⟩
      obtain ⟨t, rfl⟩ := hop
      refine (ih h₁).bind fun op' ha => ?_
      rw [← ha.asTableRange]
      split
      next data _ =>
        cases ht : readTimestamp data with
        | running => exact absurd ht (readTimestamp_ne_running data)
        | err e => exact .inl ⟨e, rfl⟩
        | ok t' => exact .inr ⟨_, rfl, .timestamp _ _ _ _⟩
      next => exact .inr ⟨_, rfl, .timestamp _ _ _ _⟩
    | ext arg id data =>
      obtain ⟨op₁, h₁, h⟩ := Eval.bind_eq_ok.mp h
      obtain ⟨s, hs, h⟩ := Eval.bind_eq_ok.mp h
      have hs := Eval.okOr_eq_ok.mp hs
      refine (ih h₁).bind fun op' ha => ?_
      rw [ha.of_asSlice hs, hs]
      exact .inr ⟨op, h, .same op⟩

/-! ## Fields -/

theorem finish_agrees {id : Nat} {ts ts' : Option RealizedTimestamp} {sch : Option RealizedSchema}
    {result : RealizedField} (h : VTable.finish none field id ts sch = .ok result) (table : View) :
    (VTable.finish (some table) field id ts' sch).ErrOr (Agrees result) := by
  obtain ⟨s, hs, h⟩ := Eval.bind_eq_ok.mp h
  cases h
  obtain rfl := Eval.okOr_eq_ok.mp hs
  simp only [VTable.finish, Eval.okOr_some, Eval.ok_bind]
  cases hd : table.get field.offset (field.offset + field.len) with
  | none => exact .inl ⟨_, rfl⟩
  | some data =>
    rw [Eval.okOr_some, Eval.ok_bind]
    cases hv : ComponentView.tryFromBytesShape data s.dim s.ty with
    | running => exact absurd hv (tryFromBytesShape_ne_running data s.dim s.ty)
    | err e => exact .inl ⟨e, rfl⟩
    | ok view =>
      obtain ⟨hty, hshape, hlen, hlt⟩ := tryFromBytesShape_eq hv
      exact .inr ⟨⟨id, s.dim, s.ty, field.offset, some view, ts'.bind (·.timestamp)⟩, rfl, rfl, rfl, rfl,
        ⟨view, rfl, hty, hshape, hlen⟩, hlt⟩

theorem fieldLoop_agrees {rounds : Nat} {ts ts' : Option RealizedTimestamp} {sch : Option RealizedSchema}
    {result : RealizedField} (h : v.fieldLoop none fuel field rounds r ts sch = .ok result) (table : View) :
    (v.fieldLoop (some table) fuel field rounds r ts' sch).ErrOr (Agrees result) := by
  induction rounds generalizing r ts ts' sch with
  | zero => cases h
  | succ rounds ih =>
    rw [VTable.fieldLoop] at h ⊢
    obtain ⟨op, hop, h⟩ := Eval.bind_eq_ok.mp h
    refine (realize_alike hop table).bind fun op' ha => ?_
    cases ha with
    | same =>
      cases op with
      | component id => exact finish_agrees h table
      | schema s => exact ih h
      | timestamp t => exact ih h
      | ext e => exact ih h
      | data => cases h
      | table => cases h
      | none => cases h
    | table slice range => cases h
    | timestamp t t' range arg => exact ih h

/-- A field that realizes without a table means the same with every table it realizes with. -/
theorem realizeField_agrees {result : RealizedField} (h : v.realizeField none fuel field = .ok result) (table : View) :
    (v.realizeField (some table) fuel field).ErrOr (Agrees result) :=
  fieldLoop_agrees h table

theorem fieldLoop_mono {fuel fuel' : Nat} (h : fuel ≤ fuel') {rounds rounds' : Nat} (hr : rounds ≤ rounds')
    (field : Field) (r : OpRef) (ts : Option RealizedTimestamp) (sch : Option RealizedSchema) :
    (v.fieldLoop table fuel field rounds r ts sch).Le (v.fieldLoop table fuel' field rounds' r ts sch) := by
  induction rounds generalizing rounds' r ts sch with
  | zero => exact .running
  | succ rounds ih =>
    obtain ⟨rounds', rfl⟩ : ∃ n, rounds' = n + 1 := ⟨rounds' - 1, by omega⟩
    refine (realize_mono v table r h).bind fun op => ?_
    cases op with
    | schema s => exact ih (by omega) s.arg ts (some s)
    | timestamp t => exact ih (by omega) t.arg (some t) sch
    | ext e => exact ih (by omega) e.arg ts sch
    | _ => exact .rfl

theorem realizeField_mono {fuel fuel' : Nat} (h : fuel ≤ fuel') (field : Field) :
    (v.realizeField table fuel field).Le (v.realizeField table fuel' field) :=
  fieldLoop_mono h h field field.arg none none

/-- However much fuel each of the two is given. -/
theorem agrees_of_realizeField {fuel' : Nat} {result result' : RealizedField} {t : View}
    (h : v.realizeField none fuel field = .ok result) (h' : v.realizeField (some t) fuel' field = .ok result') :
    Agrees result result' := by
  have hmax : v.realizeField none (max fuel fuel') field = .ok result :=
    ((realizeField_mono (Nat.le_max_left ..) field).eq_of_ne_running (by rw [h]; simp)).trans h
  have hmax' : v.realizeField (some t) (max fuel fuel') field = .ok result' :=
    ((realizeField_mono (Nat.le_max_right ..) field).eq_of_ne_running (by rw [h']; simp)).trans h'
  rcases realizeField_agrees hmax t with ⟨e, he⟩ | ⟨r, hr, ha⟩
  · rw [hmax'] at he; cases he
  · rw [hmax'] at hr; cases hr; exact ha

end Metor.Proof.VTable
