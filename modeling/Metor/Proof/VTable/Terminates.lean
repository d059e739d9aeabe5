import Mathlib.Data.Finset.Lattice.Fold
import Metor.Lib.Acyclic
import Metor.Proof.View
import Metor.Spec.VTable

/-!
# `realize` computes the denotation of an operation

More fuel does not change an outcome (`realize_mono`), and with enough fuel
`realize` gives just the value the rules of `Realizes` give
(`realizes_iff`). Two runs with outcomes agree, so a denotation is unique
(`Realizes.unique`).
-/

namespace Metor.Proof.VTable

open Metor.Lib Metor.Impl.Proto Metor.Spec.VTable

variable {v : VTable} {table : Option View} {fuel : Nat} {r : OpRef} {op : RealizedOp}

theorem realize_mono (v : VTable) (table : Option View) (r : OpRef) {fuel fuel' : Nat} (h : fuel ≤ fuel') :
    (v.realize table fuel r).Le (v.realize table fuel' r) := by
  induction fuel generalizing r fuel' with
  | zero => exact .running
  | succ fuel ih =>
    obtain ⟨fuel', rfl⟩ : ∃ n, fuel' = n + 1 := ⟨fuel' - 1, by omega⟩
    have ih : ∀ r, (v.realize table fuel r).Le (v.realize table fuel' r) := fun r => ih r (by omega)
    refine Eval.Le.bind .rfl fun op => ?_
    cases op with
    | component c => exact (ih c).bind fun _ => .rfl
    | schema ty dim arg =>
      exact (ih ty).bind fun _ => Eval.Le.bind .rfl fun _ => (ih dim).bind fun _ => .rfl
    | timestamp source arg => exact (ih source).bind fun _ => .rfl
    | ext arg id data => exact (ih data).bind fun _ => .rfl
    | _ => exact .rfl

theorem realize_eq (h : v.realize table fuel r ≠ .running) {fuel' : Nat} (hf : fuel ≤ fuel') :
    v.realize table fuel' r = v.realize table fuel r :=
  (realize_mono v table r hf).eq_of_ne_running h

theorem realize_eq_ok (h : v.realize table fuel r = .ok op) {fuel' : Nat} (hf : fuel ≤ fuel') :
    v.realize table fuel' r = .ok op :=
  (realize_eq (by rw [h]; nofun) hf).trans h

/-- A value that `realize` returns is derived by the rules. -/
theorem realizes_of_ok (h : v.realize table fuel r = .ok op) : Realizes v table r op := by
  induction fuel generalizing r op with
  | zero => cases h
  | succ fuel ih =>
    obtain ⟨o, ho, h⟩ := Eval.bind_eq_ok.mp h
    have ho := Eval.okOr_eq_ok.mp ho
    cases o with
    | data offset len =>
      obtain ⟨s, hs, h⟩ := Eval.bind_eq_ok.mp h
      cases h
      exact .data ho (Eval.okOr_eq_ok.mp hs)
    | table offset len =>
      cases htable : table with
      | none => rw [htable] at h; cases h; exact .noTable ho rfl
      | some t =>
        rw [htable] at h
        obtain ⟨s, hs, h⟩ := Eval.bind_eq_ok.mp h
        cases h
        exact .table ho rfl (Eval.okOr_eq_ok.mp hs)
    | none => cases h; exact .none ho
    | component c =>
      obtain ⟨op', hop, h⟩ := Eval.bind_eq_ok.mp h
      obtain ⟨id, hid, h⟩ := Eval.bind_eq_ok.mp h
      cases h
      exact .component ho (ih hop) (Eval.okOr_eq_ok.mp hid)
    | schema ty dim arg =>
      obtain ⟨tyOp, hty, h⟩ := Eval.bind_eq_ok.mp h
      obtain ⟨t, ht, h⟩ := Eval.bind_eq_ok.mp h
      obtain ⟨dimOp, hdim, h⟩ := Eval.bind_eq_ok.mp h
      obtain ⟨s, hs, h⟩ := Eval.bind_eq_ok.mp h
      obtain ⟨d, hd, h⟩ := Eval.bind_eq_ok.mp h
      cases h
      exact .schema ho (ih hty) (Eval.okOr_eq_ok.mp ht) (ih hdim) (Eval.okOr_eq_ok.mp hs) hd
    | timestamp source arg =>
      obtain ⟨op', hop, h⟩ := Eval.bind_eq_ok.mp h
      cases hs : op'.asSlice with
      | none => simp only [hs] at h; cases h; exact .noTimestamp ho (ih hop) hs
      | some s =>
        simp only [hs] at h
        obtain ⟨t, ht, h⟩ := Eval.bind_eq_ok.mp h
        cases h
        exact .timestamp ho (ih hop) hs ht
    | ext arg id data =>
      obtain ⟨op', hop, h⟩ := Eval.bind_eq_ok.mp h
      obtain ⟨s, hs, h⟩ := Eval.bind_eq_ok.mp h
      cases h
      exact .ext ho (ih hop) (Eval.okOr_eq_ok.mp hs)

/-- With enough fuel, `realize` returns what the rules derive. -/
theorem ok_of_realizes (h : Realizes v table r op) : ∃ fuel, v.realize table fuel r = .ok op := by
  induction h with
  | data ho hs => exact ⟨1, by simp [VTable.realize, VTable.getOp, ho, hs]⟩
  | table ho ht hs => subst ht; exact ⟨1, by simp [VTable.realize, VTable.getOp, ho, hs]⟩
  | noTable ho ht => subst ht; exact ⟨1, by simp [VTable.realize, VTable.getOp, ho]⟩
  | none ho => exact ⟨1, by simp [VTable.realize, VTable.getOp, ho]⟩
  | component ho _ hid ih =>
    obtain ⟨fuel, ih⟩ := ih
    exact ⟨fuel + 1, by simp [VTable.realize, VTable.getOp, ho, ih, hid]⟩
  | schema ho _ ht _ hs hd ih₁ ih₂ =>
    obtain ⟨fuel₁, ih₁⟩ := ih₁
    obtain ⟨fuel₂, ih₂⟩ := ih₂
    have h₁ := realize_eq_ok ih₁ (Nat.le_max_left fuel₁ fuel₂)
    have h₂ := realize_eq_ok ih₂ (Nat.le_max_right fuel₁ fuel₂)
    exact ⟨max fuel₁ fuel₂ + 1, by simp [VTable.realize, VTable.getOp, ho, h₁, h₂, ht, hs, hd]⟩
  | timestamp ho _ hs ht ih =>
    obtain ⟨fuel, ih⟩ := ih
    exact ⟨fuel + 1, by simp [VTable.realize, VTable.getOp, ho, ih, hs, ht]⟩
  | noTimestamp ho _ hs ih =>
    obtain ⟨fuel, ih⟩ := ih
    exact ⟨fuel + 1, by simp [VTable.realize, VTable.getOp, ho, ih, hs]⟩
  | ext ho _ hs ih =>
    obtain ⟨fuel, ih⟩ := ih
    exact ⟨fuel + 1, by simp [VTable.realize, VTable.getOp, ho, ih, hs]⟩

theorem realizes_iff : Realizes v table r op ↔ ∃ fuel, v.realize table fuel r = .ok op :=
  ⟨ok_of_realizes, fun ⟨_, h⟩ => realizes_of_ok h⟩

/-- An operation that denotes a value never realizes to another outcome. -/
theorem realize_of_realizes (h : Realizes v table r op) (fuel : Nat) :
    v.realize table fuel r = .running ∨ v.realize table fuel r = .ok op := by
  obtain ⟨fuel', h'⟩ := ok_of_realizes h
  rcases Nat.le_total fuel fuel' with hle | hle
  · exact (realize_mono v table r hle).imp_right fun e => e.trans h'
  · exact .inr (realize_eq_ok h' hle)

theorem realizes_unique {op' : RealizedOp} (h : Realizes v table r op) (h' : Realizes v table r op') : op = op' := by
  obtain ⟨fuel, e⟩ := ok_of_realizes h
  rcases realize_of_realizes h' fuel with e' | e' <;> rw [e] at e' <;> cases e'
  rfl

end Metor.Proof.VTable

/-!
## When realizing a vtable terminates

`realize` calls itself on the operands of an operation (`Calls`), and the loop
of `realize_fields` goes from an operation that realizes without error to its
argument (`Leads`). A call is out of fuel just when one it makes is
(`realize_eq_running`), so realizing terminates just when there is no cycle
for either to run into (`terminates_iff`). Each call takes a frame of the stack:
within a number of frames realizing returns just when no chain of calls is
longer, and no loop goes round (`returns_iff`).
-/

namespace Metor.Proof.VTable

open Relation Metor.Lib Metor.Impl.Proto Metor.Spec.VTable Metor.Proof.View

/-- Realizing any operation, and every field, comes to an end. -/
def Terminates (v : VTable) (table : Option View) : Prop :=
  (∀ r, ∃ fuel, v.realize table fuel r ≠ .running) ∧
  ∀ f ∈ v.fields, ∃ fuel, v.realizeField table fuel f ≠ .running

section
variable (v : VTable) (table : Option View)

/-- The bytes of a data or table operation. -/
def leafSlice (r : OpRef) : Option View :=
  match v.ops[r]? with
  | some (.data offset len) => v.data.get offset (offset + len)
  | some (.table offset len) => table.bind fun t => t.get offset (offset + len)
  | _ => none

/-- A leaf that holds the discriminant of a primitive type. -/
def HasPrimType (r : OpRef) : Prop := ∃ s ty, leafSlice v table r = some s ∧ primTypeOfBytes s.bytes = some ty

/-- The operands an operation has `realize` called on; the dimensions of a schema only once its type is found. -/
def OpCalls : Op → OpRef → Prop
  | .component c, r' => r' = c
  | .schema ty dim _, r' => r' = ty ∨ (HasPrimType v table ty ∧ r' = dim)
  | .timestamp source _, r' => r' = source
  | .ext _ _ data, r' => r' = data
  | _, _ => False

/-- `realize` on `r` calls `realize` on `r'`. -/
def Calls (r r' : OpRef) : Prop := ∃ o, v.ops[r]? = some o ∧ OpCalls v table o r'

/-- The operation has all it needs to realize without error. -/
inductive Sound : OpRef → Prop
  | data {r offset len} : v.ops[r]? = some (.data offset len) → (leafSlice v table r).isSome → Sound r
  | table {r offset len} : v.ops[r]? = some (.table offset len) → table = none ∨ (leafSlice v table r).isSome → Sound r
  | none {r} : v.ops[r]? = some .none → Sound r
  | component {r c s} : v.ops[r]? = some (.component c) → leafSlice v table c = some s → s.bytes.length = 8 → Sound r
  | schema {r ty dim arg s} : v.ops[r]? = some (.schema ty dim arg) → HasPrimType v table ty →
      leafSlice v table dim = some s → s.addr % 8 = 0 → s.bytes.length % 8 = 0 → Sound r
  | timestamp {r source arg} : v.ops[r]? = some (.timestamp source arg) → Sound source →
      (∀ s, leafSlice v table source = some s → s.bytes.length = 8) → Sound r
  | ext {r arg id data} : v.ops[r]? = some (.ext arg id data) → (leafSlice v table data).isSome → Sound r

/-- What a field's loop goes on with after `r`. -/
inductive Leads : OpRef → OpRef → Prop
  | schema {r ty dim arg} : v.ops[r]? = some (.schema ty dim arg) → Sound v table r → Leads r arg
  | timestamp {r source arg} : v.ops[r]? = some (.timestamp source arg) → Sound v table r → Leads r arg
  | ext {r arg id data} : v.ops[r]? = some (.ext arg id data) → Sound v table r → Leads r arg

/-- No operation needs itself to realize, and no field's arguments come round to where they were. -/
structure NoCycle : Prop where
  calls : ∀ r, ¬ TransGen (Calls v table) r r
  leads : ∀ f ∈ v.fields, ∀ r, ReflTransGen (Leads v table) f.arg r → ¬ TransGen (Leads v table) r r

end

variable {v : VTable} {table : Option View} {fuel : Nat} {r r' : OpRef} {op : RealizedOp}

/-! ## Slices, and operations that realize -/

theorem asSlice_of_realizes (h : Realizes v table r op) : op.asSlice = leafSlice v table r := by
  cases h <;> simp [RealizedOp.asSlice, leafSlice, *]

theorem realizes_of_leafSlice {s : View} (h : leafSlice v table r = some s) :
    ∃ op, Realizes v table r op ∧ op.asSlice = some s := by
  simp only [leafSlice] at h
  split at h
  · next ho => exact ⟨_, .data ho h, rfl⟩
  · next ho =>
    obtain ⟨t, rfl, hs⟩ := Option.bind_eq_some_iff.mp h
    exact ⟨_, .table ho rfl hs, rfl⟩
  · cases h

theorem hasPrimType_iff : HasPrimType v table r ↔ ∃ op ty, Realizes v table r op ∧ op.asPrimTy = some ty := by
  constructor
  · rintro ⟨s, ty, hs, hty⟩
    obtain ⟨op, hop, e⟩ := realizes_of_leafSlice hs
    exact ⟨op, ty, hop, by rw [RealizedOp.asPrimTy, e]; exact hty⟩
  · rintro ⟨op, ty, hop, hty⟩
    rw [RealizedOp.asPrimTy, asSlice_of_realizes hop] at hty
    obtain ⟨s, hs, hty⟩ := Option.bind_eq_some_iff.mp hty
    exact ⟨s, ty, hs, hty⟩

theorem asComponentId_isSome {s : View} (h : op.asSlice = some s) :
    op.asComponentId.isSome ↔ s.bytes.length = 8 := by
  rw [RealizedOp.asComponentId, h, Option.bind_some]
  split <;> simp [*]

/-- A sound operation has a denotation. -/
theorem Sound.realizes (h : Sound v table r) : ∃ op, Realizes v table r op := by
  induction h with
  | data _ hs =>
    obtain ⟨s, hs⟩ := Option.isSome_iff_exists.mp hs
    exact (realizes_of_leafSlice hs).imp fun _ h => h.1
  | table ho hs =>
    rcases hs with ht | hs
    · exact ⟨_, .noTable ho ht⟩
    · obtain ⟨s, hs⟩ := Option.isSome_iff_exists.mp hs
      exact (realizes_of_leafSlice hs).imp fun _ h => h.1
  | none ho => exact ⟨_, .none ho⟩
  | component ho hs hl =>
    obtain ⟨op, hop, e⟩ := realizes_of_leafSlice hs
    obtain ⟨id, hid⟩ := Option.isSome_iff_exists.mp ((asComponentId_isSome e).mpr hl)
    exact ⟨_, .component ho hop hid⟩
  | schema ho hty hs ha hl =>
    obtain ⟨tyOp, ty, htyOp, hty⟩ := hasPrimType_iff.mp hty
    obtain ⟨dimOp, hdim, e⟩ := realizes_of_leafSlice hs
    exact ⟨_, .schema ho htyOp hty hdim e (by rw [View.asU64s, if_neg (by omega), if_neg (by omega)])⟩
  | timestamp ho _ hl ih =>
    obtain ⟨op, hop⟩ := ih
    cases e : op.asSlice with
    | none => exact ⟨_, .noTimestamp ho hop e⟩
    | some s => exact ⟨_, .timestamp ho hop e (if_pos (hl s (asSlice_of_realizes hop ▸ e)))⟩
  | ext ho hs =>
    obtain ⟨s, hs⟩ := Option.isSome_iff_exists.mp hs
    obtain ⟨op, hop, e⟩ := realizes_of_leafSlice hs
    exact ⟨_, .ext ho hop e⟩

theorem sound_of_realizes (h : Realizes v table r op) : Sound v table r := by
  induction h with
  | data ho hs => exact .data ho (by simp [leafSlice, ho, hs])
  | table ho ht hs => exact .table ho (.inr (by simp [leafSlice, ho, ht, hs]))
  | noTable ho ht => exact .table ho (.inl ht)
  | none ho => exact .none ho
  | @component r c op id ho hop hid ih =>
    cases e : op.asSlice with
    | none => rw [RealizedOp.asComponentId, e] at hid; cases hid
    | some s =>
      have hl := (asComponentId_isSome e).mp (by rw [hid]; rfl)
      exact .component ho (asSlice_of_realizes hop ▸ e) hl
  | @schema r ty dim arg tyOp dimOp t s d ho hty ht hdim hs hd ih₁ ih₂ =>
    have hs := asSlice_of_realizes hdim ▸ hs
    rw [View.asU64s] at hd
    split at hd
    · cases hd
    split at hd
    · cases hd
    exact .schema ho (hasPrimType_iff.mpr ⟨_, _, hty, ht⟩) hs (by omega) (by omega)
  | @timestamp r source arg op s t ho hop hs ht ih =>
    refine .timestamp ho ih fun s' hs' => ?_
    rw [← asSlice_of_realizes hop, hs] at hs'
    cases hs'
    rw [readTimestamp] at ht
    split at ht
    · assumption
    · cases ht
  | noTimestamp ho hop hs ih =>
    refine .timestamp ho ih fun s' hs' => ?_
    rw [← asSlice_of_realizes hop, hs] at hs'
    cases hs'
  | ext ho hop hs => exact .ext ho (by rw [← asSlice_of_realizes hop, hs]; rfl)

theorem leads_iff (h : Realizes v table r op) : argOf op = some r' ↔ Leads v table r r' := by
  have hsound := sound_of_realizes h
  constructor
  · intro e
    cases h <;> cases e
    · exact .schema (by assumption) hsound
    · exact .timestamp (by assumption) hsound
    · exact .timestamp (by assumption) hsound
    · exact .ext (by assumption) hsound
  · intro e
    cases e <;> cases h <;> simp_all [argOf]

/-! ## `realize` -/

theorem asU64s_ne_running (s : View) : s.asU64s ≠ .running := by
  rw [View.asU64s]
  split
  · nofun
  · split <;> nofun

theorem readTimestamp_ne_running (s : View) : readTimestamp s ≠ .running := by
  rw [readTimestamp]
  split <;> nofun

/-- `realize` is out of fuel just when a call it makes is. -/
theorem realize_eq_running : v.realize table (fuel + 1) r = .running ↔
    ∃ r', Calls v table r r' ∧ v.realize table fuel r' = .running := by
  rw [VTable.realize, VTable.getOp]
  cases ho : v.ops[r]? with
  | none => simp [Calls, ho]
  | some o =>
    have hcalls : ∀ r', Calls v table r r' ↔ OpCalls v table o r' := fun r' => by simp [Calls, ho]
    simp only [hcalls, Eval.okOr_some, Eval.ok_bind]
    cases o with
    | data offset len => simp [OpCalls, Eval.bind_eq_running_iff, Eval.okOr_ne_running]
    | table offset len =>
      cases table <;> simp [OpCalls, Eval.bind_eq_running_iff, Eval.okOr_ne_running]
    | none => simp [OpCalls]
    | component c =>
      rw [Eval.bind_eq_running_iff fun op => by simp [Eval.bind_eq_running_iff, Eval.okOr_ne_running]]
      simp [OpCalls]
    | schema ty dim arg =>
      have hdim : ∀ t : PrimType, (do
          let op ← v.realize table fuel dim
          let slice ← Eval.okOr Error.invalidOp op.asSlice
          let dim ← slice.asU64s
          return RealizedOp.schema ⟨dim, t, arg⟩) = Eval.running ↔ v.realize table fuel dim = .running := fun t =>
        Eval.bind_eq_running_iff fun op => by
          rw [Ne, Eval.bind_eq_running_iff fun s => by
            rw [Ne, Eval.bind_eq_running_iff fun _ => by simp]; exact asU64s_ne_running s]
          exact Eval.okOr_ne_running
      simp only [Eval.bind_eq_running, hdim, Eval.okOr_ne_running, Eval.okOr_eq_ok, false_or, OpCalls]
      -- The dimensions are called on only after the type, which must be a leaf, has realized.
      constructor
      · rintro (h | ⟨op, hop, t, ht, h⟩)
        · exact ⟨ty, .inl rfl, h⟩
        · exact ⟨dim, .inr ⟨hasPrimType_iff.mpr ⟨op, t, realizes_of_ok hop, ht⟩, rfl⟩, h⟩
      · rintro ⟨_, rfl | ⟨hty, rfl⟩, h⟩
        · exact .inl h
        · obtain ⟨op, t, hop, ht⟩ := hasPrimType_iff.mp hty
          exact (realize_of_realizes hop fuel).imp_right fun e => ⟨op, e, t, ht, h⟩
    | timestamp source arg =>
      rw [Eval.bind_eq_running_iff fun op => by
        cases op.asSlice with
        | none => simp
        | some s => exact fun h => readTimestamp_ne_running s ((Eval.bind_eq_running_iff fun _ => by simp).mp h)]
      simp [OpCalls]
    | ext arg id data =>
      rw [Eval.bind_eq_running_iff fun op => by simp [Eval.bind_eq_running_iff, Eval.okOr_ne_running]]
      simp [OpCalls]

/-- A walk that does not end is a walk of calls that never return. -/
theorem realize_running_of_cycle (h : TransGen (Calls v table) r r) (fuel : Nat) : v.realize table fuel r = .running := by
  induction fuel generalizing r with
  | zero => rfl
  | succ fuel ih =>
    obtain ⟨r', hr, hr'⟩ := TransGen.head'_iff.mp h
    exact realize_eq_running.mpr ⟨r', hr, ih (TransGen.tail' hr' hr)⟩

/-- Enough fuel for all the calls an operation makes. -/
theorem exists_fuel_calls (o : Op)
    (h : ∀ r', OpCalls v table o r' → ∃ fuel, v.realize table fuel r' ≠ .running) :
    ∃ fuel, ∀ r', OpCalls v table o r' → v.realize table fuel r' ≠ .running := by
  cases o with
  | component c => simpa [OpCalls] using h
  | schema ty dim arg =>
    obtain ⟨fuel₁, h₁⟩ := h ty (.inl rfl)
    by_cases hty : HasPrimType v table ty
    · obtain ⟨fuel₂, h₂⟩ := h dim (.inr ⟨hty, rfl⟩)
      refine ⟨max fuel₁ fuel₂, ?_⟩
      rintro _ (rfl | ⟨-, rfl⟩)
      · rwa [realize_eq h₁ (Nat.le_max_left _ _)]
      · rwa [realize_eq h₂ (Nat.le_max_right _ _)]
    · refine ⟨fuel₁, ?_⟩
      rintro _ (rfl | ⟨hty', -⟩)
      · exact h₁
      · exact absurd hty' hty
  | timestamp source arg => simpa [OpCalls] using h
  | ext arg id data => simpa [OpCalls] using h
  | _ => exact ⟨0, nofun⟩

theorem realize_terminates (h : ∀ r, ¬ TransGen (Calls v table) r r) (r : OpRef) :
    ∃ fuel, v.realize table fuel r ≠ .running := by
  have hacc : Acc (fun b a => Calls v table a b) r :=
    acc_of_acyclic (Set.finite_lt_nat v.ops.length)
      (fun a b ⟨o, ho, _⟩ => (List.getElem?_eq_some_iff.mp ho).1) fun y _ => h y
  induction hacc with
  | intro r _ ih =>
    cases ho : v.ops[r]? with
    | none => exact ⟨1, fun e => by obtain ⟨_, ⟨o, ho', _⟩, _⟩ := realize_eq_running.mp e; simp [ho] at ho'⟩
    | some o =>
      obtain ⟨fuel, hf⟩ := exists_fuel_calls o fun r' hr' => ih r' ⟨o, ho, hr'⟩
      refine ⟨fuel + 1, fun e => ?_⟩
      obtain ⟨r', ⟨o', ho', hr'⟩, e⟩ := realize_eq_running.mp e
      rw [ho, Option.some.injEq] at ho'
      exact hf r' (ho' ▸ hr') e

/-- One bound for all operations. -/
theorem exists_fuel (h : ∀ r, ∃ fuel, v.realize table fuel r ≠ .running) :
    ∃ N, ∀ r fuel, N ≤ fuel → v.realize table fuel r ≠ .running := by
  choose f hf using h
  refine ⟨(Finset.range v.ops.length).sup f + 1, fun r fuel hle => ?_⟩
  by_cases hr : r < v.ops.length
  · have := Finset.le_sup (f := f) (Finset.mem_range.mpr hr)
    rw [realize_eq (hf r) (by omega)]
    exact hf r
  · obtain ⟨fuel, rfl⟩ : ∃ n, fuel = n + 1 := ⟨fuel - 1, by omega⟩
    intro e
    obtain ⟨_, ⟨o, ho, _⟩, _⟩ := realize_eq_running.mp e
    rw [List.getElem?_eq_none (Nat.le_of_not_lt hr)] at ho
    cases ho

/-! ## The loop of `realize_fields` -/

theorem finish_ne_running (table : Option View) (f : Field) (id : Nat) (ts : Option RealizedTimestamp)
    (sch : Option RealizedSchema) : VTable.finish table f id ts sch ≠ .running := by
  intro h
  rcases Eval.bind_eq_running.mp h with h | ⟨schema, -, h⟩
  · exact Eval.okOr_ne_running h
  cases table with
  | none => cases h
  | some t =>
    rcases Eval.bind_eq_running.mp h with h | ⟨data, -, h⟩
    · exact Eval.okOr_ne_running h
    rcases Eval.bind_eq_running.mp h with h | ⟨view, -, h⟩
    · exact tryFromBytesShape_ne_running _ _ _ h
    · cases h

section
variable {f : Field} {rounds : Nat} {ts : Option RealizedTimestamp} {sch : Option RealizedSchema}

/-- The loop goes on with the argument of what it realized. -/
theorem fieldLoop_next (f : Field) (rounds : Nat) (ts : Option RealizedTimestamp) (sch : Option RealizedSchema)
    (h : v.realize table fuel r = .ok op) (ha : argOf op = some r') :
    ∃ ts' sch', v.fieldLoop table fuel f (rounds + 1) r ts sch = v.fieldLoop table fuel f rounds r' ts' sch' := by
  rw [VTable.fieldLoop, h]
  cases op <;> cases ha
  · exact ⟨ts, _, rfl⟩
  · exact ⟨_, sch, rfl⟩
  · exact ⟨ts, sch, rfl⟩

/-- Without an argument it ends. -/
theorem fieldLoop_stop (h : v.realize table fuel r ≠ .running)
    (ha : ∀ op, v.realize table fuel r = .ok op → argOf op = none) :
    v.fieldLoop table fuel f (rounds + 1) r ts sch ≠ .running := by
  rw [VTable.fieldLoop]
  cases e : v.realize table fuel r with
  | running => exact absurd e h
  | err => nofun
  | ok op =>
    have := ha op e
    cases op with
    | component id => exact finish_ne_running _ _ _ _ _
    | data | table | none => nofun
    | _ => cases this

theorem fieldLoop_running_of_cycle {y : OpRef} (hr : ReflTransGen (Leads v table) r y)
    (hy : TransGen (Leads v table) y y) (rounds : Nat) (ts : Option RealizedTimestamp)
    (sch : Option RealizedSchema) : v.fieldLoop table fuel f rounds r ts sch = .running := by
  induction rounds generalizing r ts sch with
  | zero => rfl
  | succ rounds ih =>
    obtain ⟨r', hl, hr'⟩ : ∃ r', Leads v table r r' ∧ ReflTransGen (Leads v table) r' y := by
      rcases ReflTransGen.cases_head hr with rfl | h
      · exact TransGen.head'_iff.mp hy
      · exact h
    have hsound : Sound v table r := by cases hl <;> assumption
    obtain ⟨op, hop⟩ := hsound.realizes
    rcases realize_of_realizes hop fuel with e | e
    · rw [VTable.fieldLoop, e]; rfl
    · obtain ⟨ts', sch', e'⟩ := fieldLoop_next _ _ _ _ e ((leads_iff hop).mpr hl)
      rw [e']
      exact ih hr' ts' sch'

theorem fieldLoop_terminates {N : Nat} (hN : ∀ r fuel, N ≤ fuel → v.realize table fuel r ≠ .running)
    (hr : ∀ y, ReflTransGen (Leads v table) r y → ¬ TransGen (Leads v table) y y) :
    ∃ R, ∀ rounds fuel ts sch, R ≤ rounds → N ≤ fuel → v.fieldLoop table fuel f rounds r ts sch ≠ .running := by
  have hacc : Acc (fun b a => Leads v table a b) r :=
    acc_of_acyclic (Set.finite_lt_nat v.ops.length) (fun a b h => by
      cases h <;> exact (List.getElem?_eq_some_iff.mp (by assumption)).1) hr
  induction hacc with
  | intro r _ ih =>
    have hop : ∀ fuel op, N ≤ fuel → v.realize table fuel r = .ok op → ∀ r', argOf op = some r' ↔ Leads v table r r' :=
      fun fuel op _ e r' => leads_iff (realizes_of_ok e)
    by_cases hl : ∃ r', Leads v table r r'
    · obtain ⟨r', hl⟩ := hl
      obtain ⟨R, hR⟩ := ih r' hl fun y hy => hr y (.head hl hy)
      refine ⟨R + 1, fun rounds fuel ts sch hle hf => ?_⟩
      obtain ⟨rounds, rfl⟩ : ∃ n, rounds = n + 1 := ⟨rounds - 1, by omega⟩
      cases e : v.realize table fuel r with
      | running => exact absurd e (hN r fuel hf)
      | err => rw [VTable.fieldLoop, e]; nofun
      | ok op =>
        obtain ⟨ts', sch', e'⟩ := fieldLoop_next f rounds ts sch e
          ((hop fuel op hf e r').mpr hl)
        rw [e']
        exact hR rounds fuel ts' sch' (by omega) hf
    · refine ⟨1, fun rounds fuel ts sch hle hf => ?_⟩
      obtain ⟨rounds, rfl⟩ : ∃ n, rounds = n + 1 := ⟨rounds - 1, by omega⟩
      refine fieldLoop_stop (hN r fuel hf) fun op e => ?_
      cases ha : argOf op with
      | none => rfl
      | some r' => exact absurd ⟨r', (hop fuel op hf e r').mp ha⟩ hl

end

/-- Realizing a vtable over a table terminates just when no operation needs
itself and no field's arguments go round in a cycle. -/
theorem terminates_iff (v : VTable) (table : Option View) : Terminates v table ↔ NoCycle v table := by
  constructor
  · intro ⟨hr, hf⟩
    refine ⟨fun r hc => ?_, fun f hfm r hl hc => ?_⟩
    · obtain ⟨fuel, h⟩ := hr r
      exact h (realize_running_of_cycle hc fuel)
    · obtain ⟨fuel, h⟩ := hf f hfm
      exact h (fieldLoop_running_of_cycle hl hc fuel none none)
  · intro h
    have hr := realize_terminates h.calls
    obtain ⟨N, hN⟩ := exists_fuel hr
    refine ⟨hr, fun f hf => ?_⟩
    obtain ⟨R, hR⟩ := fieldLoop_terminates (f := f) hN (h.leads f hf)
    exact ⟨max N R, hR _ _ _ _ (Nat.le_max_right _ _) (Nat.le_max_left _ _)⟩

/-! ## The stack -/

/-- With a stack of `frames` calls of `realize`, realizing any operation returns, and so does realizing every field. -/
def Returns (v : VTable) (table : Option View) (frames : Nat) : Prop :=
  (∀ r, v.realize table frames r ≠ .running) ∧
  ∀ f ∈ v.fields, ∃ rounds, v.fieldLoop table frames f rounds f.arg none none ≠ .running

/-- From `r` on there are so many operations one after another, each an operand of the one before it. -/
def Deep (v : VTable) (table : Option View) : (calls : Nat) → OpRef → Prop
  | 0, _ => True
  | calls + 1, r => ∃ r', Calls v table r r' ∧ Deep v table calls r'

/-- No operation needs a call of `realize` too many, and no field's arguments come round to where they were. -/
structure Bounded (v : VTable) (table : Option View) (frames : Nat) : Prop where
  calls : ∀ r, ¬ Deep v table frames r
  leads : ∀ f ∈ v.fields, ∀ r, ReflTransGen (Leads v table) f.arg r → ¬ TransGen (Leads v table) r r

theorem realize_running_iff {frames : Nat} : v.realize table frames r = .running ↔ Deep v table frames r := by
  induction frames generalizing r with
  | zero => exact iff_of_true rfl trivial
  | succ frames ih =>
    rw [realize_eq_running, Deep]
    exact exists_congr fun r' => and_congr_right fun _ => ih

/-- Realizing a vtable over a table returns within so many frames just when no chain of operands is
as long, and no field's arguments go round in a cycle. -/
theorem returns_iff (v : VTable) (table : Option View) (frames : Nat) :
    Returns v table frames ↔ Bounded v table frames := by
  constructor
  · intro ⟨hr, hf⟩
    refine ⟨fun r hd => hr r (realize_running_iff.mpr hd), fun f hfm r hl hc => ?_⟩
    obtain ⟨rounds, h⟩ := hf f hfm
    exact h (fieldLoop_running_of_cycle hl hc rounds none none)
  · intro h
    have hr : ∀ r, v.realize table frames r ≠ .running := fun r e => h.calls r (realize_running_iff.mp e)
    have hN : ∀ r fuel, frames ≤ fuel → v.realize table fuel r ≠ .running := fun r fuel hle => by
      rw [realize_eq (hr r) hle]
      exact hr r
    refine ⟨hr, fun f hf => ?_⟩
    obtain ⟨R, hR⟩ := fieldLoop_terminates (f := f) hN (h.leads f hf)
    exact ⟨R, hR R frames none none (Nat.le_refl _) (Nat.le_refl _)⟩

/-- A chain of component operations, each the operand of the one before it. -/
def chain (n : Nat) : VTable := ⟨(List.range n).map fun i => .component (i + 1), [⟨0, 8, 0⟩], ⟨0, []⟩⟩

theorem chain_ops {n : Nat} {o : Op} (h : (chain n).ops[r]? = some o) : r < n ∧ o = .component (r + 1) := by
  obtain ⟨hr, rfl⟩ := List.getElem?_eq_some_iff.mp h
  have hr' : r < n := by rwa [chain, List.length_map, List.length_range] at hr
  exact ⟨hr', by simp [chain]⟩

theorem chain_calls {n : Nat} (h : r < n) : Calls (chain n) table r (r + 1) :=
  ⟨.component (r + 1), by simp [chain, h], rfl⟩

/-- However large the stack, a vtable without cycles exhausts it. -/
theorem chain_exhausts (frames : Nat) (table : Option View) :
    NoCycle (chain frames) table ∧ ¬ Returns (chain frames) table frames := by
  have hcalls : ∀ {r r'}, TransGen (Calls (chain frames) table) r r' → r < r' := by
    intro r r' h
    have hstep : ∀ {r r'}, Calls (chain frames) table r r' → r < r' := by
      rintro r r' ⟨o, ho, hc⟩
      obtain ⟨-, rfl⟩ := chain_ops ho
      rw [show r' = r + 1 from hc]
      exact Nat.lt_succ_self r
    induction h with
    | single h => exact hstep h
    | tail _ h ih => exact Nat.lt_trans ih (hstep h)
  have hleads : ∀ {r r'}, ¬ Leads (chain frames) table r r' := by
    intro r r' h
    cases h <;> cases (chain_ops (by assumption)).2
  have hdeep : ∀ calls r : Nat, r + calls ≤ frames → Deep (chain frames) table calls r := by
    intro calls
    induction calls with
    | zero => exact fun _ _ => trivial
    | succ calls ih =>
      intro r hle
      have hlt : r < frames := by omega
      have hle' : r + 1 + calls ≤ frames := by omega
      exact ⟨r + 1, chain_calls hlt, ih (r + 1) hle'⟩
  refine ⟨⟨fun r hc => Nat.lt_irrefl r (hcalls hc), fun _ _ r _ hc => ?_⟩, fun h => ?_⟩
  · obtain ⟨r', hl, -⟩ := TransGen.head'_iff.mp hc
    exact hleads hl
  · exact ((returns_iff _ _ _).mp h).calls 0 (hdeep frames 0 (Nat.le_of_eq (Nat.zero_add frames)))

/-- A component operation that is its own operand returns with no stack. -/
theorem self_reference_diverges : ¬ ∀ (v : VTable) (table : Option View), ∃ frames, Returns v table frames := by
  intro h
  obtain ⟨frames, hf, -⟩ := h ⟨[.component 0], [⟨0, 8, 0⟩], ⟨0, []⟩⟩ none
  exact hf 0 (realize_running_of_cycle (.single ⟨.component 0, rfl, rfl⟩) frames)

end Metor.Proof.VTable
