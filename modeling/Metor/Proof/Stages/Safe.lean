import Metor.Proof.Db.Sink
import Metor.Proof.RealTime
import Metor.Proof.Stages.Compile
import Metor.Proof.Stages.Mean
import Metor.Proof.VTable.Builder

/-!
# Plans that do not panic

A plan that is compiled for a field is safe exactly when the place of its
timestamp has 8 bytes, the field of a mean can be cast to elements that can be
divided, and the stream of a fixed rate can sleep and go on to its next tick
(`safe_iff`). For the one direction each stage keeps what the next iteration
needs of it (`StageOk`); for the other, a record, or as many as a window has,
bring the panic about.
-/

namespace Metor.Proof.Stages

open Metor.Lib Metor.Impl.Proto Metor.Impl.Stages Metor.Spec.VTable
open Metor.Impl (ComponentSchema)
open Metor.Impl.Db (DB)
open Metor.Proof.VTable (exists_of_forall₂ realizes_of_ok)
open Metor.Proof.Db (Encoded plain named insertVTable_named insertVTable_registers)
open Metor.Impl.FieldTable (Shard headerOffset)
open Metor.Impl.VTableStream (copies grantBytes)
open Metor.Impl.Streams (FixedRateOp FixedRateStreamState)

variable {fl : Floats} {addr len size : Nat} {shard : Shard} {ty : PrimType} {round : Round} {buf : Buf}
  {source : StreamStage} {states : StreamStates}

/-! ## Copies -/

/-- The fields of a plan lie in the table, and are as long as what is copied to them. -/
structure Room (len size : Nat) (shard : Shard) : Prop where
  value : shard.value.start ≤ shard.value.stop ∧ shard.value.stop ≤ len ∧ shard.value.stop - shard.value.start = size
  timestamp : ∀ f ∈ shard.timestamp, f.start ≤ f.stop ∧ f.stop ≤ len ∧ f.stop - f.start = 8

theorem copyFromSlice_eq {f : Metor.Impl.VTableStream.Field} {bytes : Bytes} (h : f.start ≤ f.stop)
    (hf : f.stop ≤ len) (hb : f.stop - f.start = bytes.length) (hl : buf.length = headerOffset + len) :
    copyFromSlice buf f bytes = some (overwrite buf (headerOffset + f.start) bytes) ∧
      (overwrite buf (headerOffset + f.start) bytes).length = buf.length := by
  constructor
  · rw [copyFromSlice, if_pos ⟨h, by omega, hb.symm⟩]
  · exact length_overwrite (by omega)

/-- A record is copied to fields that have room for it. -/
theorem copyAll_copies {r : Int × Bytes} (h : Room len size shard) (hr : IsRecord size r)
    (hl : buf.length = headerOffset + len) :
    ∃ buf', copyAll buf (copies shard.value shard.timestamp r) = some buf' ∧ buf'.length = buf.length := by
  obtain ⟨h₁, h₂, h₃⟩ := h.value
  obtain ⟨he, hle⟩ := copyFromSlice_eq h₁ h₂ (h₃.trans hr.2.symm) hl
  rw [copyAll, copies, List.foldlM_cons, he, Option.bind_eq_bind, Option.bind_some]
  cases ht : shard.timestamp with
  | none => exact ⟨_, rfl, hle⟩
  | some f =>
    obtain ⟨h₁, h₂, h₃⟩ := h.timestamp f ht
    obtain ⟨he', hle'⟩ := copyFromSlice_eq h₁ h₂ (h₃.trans (length_i64Bytes r.1).symm) (hle.trans hl)
    simp only [Option.map_some, Option.toList_some, List.foldlM_cons, List.foldlM_nil, he', Option.bind_eq_bind,
      Option.bind_some]
    exact ⟨_, rfl, hle'.trans hle⟩

/-- A timestamp is not copied to a field of another length. -/
theorem copyAll_eq_none {r : Int × Bytes} {f : Metor.Impl.VTableStream.Field} (ht : shard.timestamp = some f)
    (h : f.stop - f.start ≠ 8) : copyAll buf (copies shard.value shard.timestamp r) = none := by
  rw [copyAll, copies, List.foldlM_cons, Option.bind_eq_bind, Option.bind_eq_none_iff]
  intro buf' _
  rw [ht, Option.map_some, Option.toList_some, List.foldlM_cons, copyFromSlice,
    if_neg (fun hc => h (by rw [← hc.2.2, length_i64Bytes]))]
  rfl

/-! ## Sources -/

/-- A stage that hands on the values of a component, from a stream that never stops it. -/
inductive Going (states : StreamStates) (size : Nat) : StreamStage → Prop
  | realTime : Going states size (.realTime size)
  | fixedRate (op : FixedRateOp) (h : ∀ st, states.can op.streamId st →
      st.frequency ≠ 0 ∧ st.currentTick + (st.timeStep.toNat / 1000 : Nat) < 2 ^ 63) :
      Going states size (.fixedRate size op)

section

variable {sleeping playing : FixedRateStreamState} {nearest : Option (Int × Bytes)}

theorem sleepTime_ne_none : sleeping.sleepTime ≠ none ↔ sleeping.frequency ≠ 0 := by
  rw [FixedRateStreamState.sleepTime]
  split <;> simp [*]

theorem nextTick_ne_none : playing.nextTick playing.currentTick ≠ none ↔
    playing.currentTick + (playing.timeStep.toNat / 1000 : Nat) < 2 ^ 63 := by
  rw [FixedRateStreamState.nextTick]
  split
  · exact iff_of_true (Option.some_ne_none _) ‹_›
  · exact iff_of_false (not_not_intro rfl) ‹_›

/-- A stage that can sleep and go on copies the nearest sample, if there is one. -/
theorem fixedRateNext_eq (shard : Shard) (buf : Buf) (hs : sleeping.sleepTime ≠ none)
    (hp : playing.nextTick playing.currentTick ≠ none) : fixedRateNext shard sleeping playing nearest buf =
      nearest.elim (some buf) fun r => copyAll buf (copies shard.value shard.timestamp r) := by
  obtain ⟨time, hs⟩ := Option.ne_none_iff_exists'.mp hs
  obtain ⟨tick, hp⟩ := Option.ne_none_iff_exists'.mp hp
  cases nearest with
  | none =>
    simp only [fixedRateNext, hs, Option.bind_eq_bind, Option.bind_some]
    rfl
  | some r =>
    simp only [fixedRateNext, hs, hp, Option.bind_eq_bind, Option.bind_some, Option.pure_def, Option.elim_some]
    exact Option.bind_fun_some _

/-- One that copied a sample could sleep and go on. -/
theorem of_fixedRateNext {r : Int × Bytes} (h : fixedRateNext shard sleeping playing (some r) buf ≠ none) :
    sleeping.sleepTime ≠ none ∧ playing.nextTick playing.currentTick ≠ none := by
  obtain ⟨buf', h⟩ := Option.ne_none_iff_exists'.mp h
  obtain ⟨time, hs, h⟩ := Option.bind_eq_some_iff.mp h
  obtain ⟨buf'', -, h⟩ := Option.bind_eq_some_iff.mp h
  obtain ⟨tick, hp, -⟩ := Option.bind_eq_some_iff.mp h
  exact ⟨Option.ne_none_iff_exists'.mpr ⟨time, hs⟩, Option.ne_none_iff_exists'.mpr ⟨tick, hp⟩⟩

end

/-- What a source copies: a record, if it is handed one. -/
theorem source_next (fl : Floats) (addr : Nat) (shard : Shard) (ty : PrimType) (buf : Buf) (h : Going states size source)
    (hv : Round.Valid size round) (ha : round.Among states) :
    (∃ r, IsRecord size r ∧ source.next fl addr shard ty round buf =
      (copyAll buf (copies shard.value shard.timestamp r)).map fun buf => .ok true source buf) ∨
    (round.nearest = none ∧ source.next fl addr shard ty round buf = some (.ok true source buf)) := by
  cases h with
  | realTime =>
    obtain ⟨r, rs, hg, hrec⟩ := hv.grant
    have hr := hrec r (List.mem_cons_self)
    refine .inl ⟨r, hr, ?_⟩
    rw [StreamStage.next, hg, RealTime.next_records _ _ hr]
  | fixedRate op hgo =>
    obtain ⟨hsleeping, hplaying⟩ := ha op.streamId
    have heq := @fixedRateNext_eq _ _ round.nearest shard buf (sleepTime_ne_none.mpr (hgo _ hsleeping).1)
      (nextTick_ne_none.mpr (hgo _ hplaying).2)
    rw [StreamStage.next, heq]
    cases hn : round.nearest with
    | none => exact .inr ⟨rfl, rfl⟩
    | some r => exact .inl ⟨r, hv.nearest r hn, rfl⟩

/-- A round with one record of zeros, and these states of streams. -/
def zeroRound (size : Nat) (streams : UInt64 → FixedRateStreamState) : Round :=
  let r := (0, List.replicate size 0)
  ⟨grantBytes [r], streams, streams, some r, fun _ buf => buf⟩

theorem zeroRound_valid (size : Nat) (streams : UInt64 → FixedRateStreamState) :
    Round.Valid size (zeroRound size streams) := by
  have h : IsRecord size (0, List.replicate size 0) := ⟨show IsI64 0 by decide, List.length_replicate⟩
  constructor
  · exact ⟨_, [], rfl, by simpa using h⟩
  · rintro r ⟨rfl⟩
    exact h
  · exact fun _ _ => rfl

theorem zeroRound_among {streams : UInt64 → FixedRateStreamState} (h : ∀ id, states.can id (streams id)) :
    (zeroRound size streams).Among states := fun id => ⟨h id, h id⟩

/-! ## Iterations -/

/-- The means of a plan can read and write its field, of `size` bytes. -/
structure Castable (addr size : Nat) (shard : Shard) (ty : PrimType) : Prop where
  divides : ty.size ∣ size
  lt : size < 2 ^ 64
  aligned : (addr + headerOffset + shard.value.start) % ty.size = 0
  ne_bool : ty ≠ .bool

/-- What a stage keeps from one iteration to the next. -/
def StageOk (states : StreamStates) (addr size : Nat) (shard : Shard) (ty : PrimType) : StreamStage → Prop
  | .mean stage => Castable addr size shard ty ∧ MeanInv ty size stage
  | source => Going states size source

theorem stageOk_of_going (h : Going states size source) : StageOk states addr size shard ty source := by
  cases h with
  | realTime => exact .realTime
  | fixedRate op h => exact .fixedRate op h

theorem Castable.readable (h : Castable addr size shard ty) {bytes : Bytes} (hb : bytes.length = size) :
    Readable ty ⟨addr + headerOffset + shard.value.start, bytes⟩ :=
  ⟨hb ▸ h.divides, hb ▸ h.lt, h.aligned, h.ne_bool⟩

/-- The bytes of the field. -/
def fieldOf (shard : Shard) (buf : Buf) : Bytes :=
  slice buf (headerOffset + shard.value.start) (headerOffset + shard.value.stop)

theorem length_fieldOf (h : Room len size shard) (hl : buf.length = headerOffset + len) : (fieldOf shard buf).length = size := by
  obtain ⟨h₁, h₂, h₃⟩ := h.value
  rw [fieldOf, length_slice (by omega)]
  omega

/-- A mean works on the bytes of the field. -/
theorem mean_next {stage : MeanStage} (h : Room len size shard) (hl : buf.length = headerOffset + len) :
    (StreamStage.mean stage).next fl addr shard ty round buf =
      (stage.next fl ⟨addr + headerOffset + shard.value.start, fieldOf shard buf⟩ ty).map fun (finished, stage, bytes) =>
        .ok finished (.mean stage) (overwrite buf (headerOffset + shard.value.start) bytes) := by
  obtain ⟨h₁, h₂, -⟩ := h.value
  rw [StreamStage.next, if_pos ⟨h₁, by omega⟩]
  rfl

/-- What a mean makes of its accumulator is one like the field. -/
theorem meanInv_next (fl : Floats) {stage : MeanStage} {f : View} (h : Readable ty f) (hs : MeanInv ty f.bytes.length stage) :
    ∃ finished stage' bytes, stage.next fl f ty = some (finished, stage', bytes) ∧ MeanInv ty f.bytes.length stage' ∧
      bytes.length = f.bytes.length := by
  have hl := length_accOf hs
  have hadd : (addBytes fl ty (accOf f.bytes.length stage) f.bytes).length = f.bytes.length := by
    rw [length_addBytes (by rw [hl]; exact h.divides) hl.symm, hl]
  rw [next_eq fl h hs]
  by_cases hw : stage.window.toNat ≤ stage.count + 1
  · rw [if_pos hw]
    refine ⟨_, _, _, rfl, ⟨?_, by dsimp only; omega⟩, ?_⟩
    · rintro a ⟨rfl⟩
      exact ⟨rfl, List.length_replicate⟩
    · rw [length_divBytes h.ne_bool (by rw [hadd]; exact h.divides), hadd]
  · rw [if_neg hw]
    refine ⟨_, _, _, rfl, ⟨?_, by dsimp only; omega⟩, rfl⟩
    rintro a ⟨rfl⟩
    exact ⟨rfl, hadd⟩

theorem stage_next_ok (fl : Floats) {stage : StreamStage} (h : StageOk states addr size shard ty stage) (hroom : Room len size shard)
    (hv : Round.Valid size round) (ha : round.Among states) (hl : buf.length = headerOffset + len) :
    ∃ finished stage' buf', stage.next fl addr shard ty round buf = some (.ok finished stage' buf') ∧
      StageOk states addr size shard ty stage' ∧ buf'.length = buf.length := by
  have of_source : Going states size stage → ∃ finished stage' buf',
      stage.next fl addr shard ty round buf = some (.ok finished stage' buf') ∧
        StageOk states addr size shard ty stage' ∧ buf'.length = buf.length := by
    intro hs
    rcases source_next fl addr shard ty buf hs hv ha with ⟨r, hr, he⟩ | ⟨-, he⟩
    · obtain ⟨buf', hc, hb⟩ := copyAll_copies hroom hr hl
      exact ⟨true, stage, buf', by rw [he, hc, Option.map_some], h, hb⟩
    · exact ⟨true, stage, buf, he, h, rfl⟩
  match stage with
  | .realTime _ | .fixedRate _ _ => exact of_source h
  | .mean stage =>
    obtain ⟨hc, hs⟩ := h
    have hf := length_fieldOf hroom hl
    obtain ⟨finished, stage', bytes, he, hs', hb⟩ := meanInv_next fl (hc.readable hf) (hf ▸ hs)
    refine ⟨finished, .mean stage', _, by rw [mean_next hroom hl, he, Option.map_some], ⟨hc, hf ▸ hs'⟩, ?_⟩
    obtain ⟨h₁, h₂, h₃⟩ := hroom.value
    exact length_overwrite (by simp only [hb] at *; omega)

theorem iterate_ok (fl : Floats) (k : Nat) {stages : List StreamStage} (h : ∀ stage ∈ stages, StageOk states addr size shard ty stage)
    (hroom : Room len size shard) (hv : Round.Valid size round) (ha : round.Among states)
    (hl : buf.length = headerOffset + len) :
    ∃ finished stages' buf', iterate fl addr shard ty round k stages buf = some (some (finished, stages', buf')) ∧
      (∀ stage ∈ stages', StageOk states addr size shard ty stage) ∧ buf'.length = buf.length := by
  induction stages generalizing k buf with
  | nil => exact ⟨true, [], buf, rfl, by simp, rfl⟩
  | cons stage stages ih =>
    obtain ⟨hs, hss⟩ := List.forall_mem_cons.mp h
    have hlo := hv.others k buf
    obtain ⟨finished, stage', buf', he, hs', hb⟩ := stage_next_ok fl hs hroom hv ha (hlo.trans hl)
    obtain ⟨finished', stages', buf'', he', hss', hb'⟩ := ih (k + 1) hss (hb.trans (hlo.trans hl))
    refine ⟨finished && finished', stage' :: stages', buf'', ?_, List.forall_mem_cons.mpr ⟨hs', hss'⟩, hb'.trans (hb.trans hlo)⟩
    simp only [iterate, he, he', Option.bind_eq_bind, Option.bind_some]
    rfl

theorem run_ok {plan : Plan} {rounds : List Round} (h : ∀ stage ∈ plan.stages, StageOk states addr size plan.shard plan.primType stage)
    (hroom : Room len size plan.shard) (hv : ∀ round ∈ rounds, Round.Valid size round ∧ round.Among states)
    (hl : buf.length = headerOffset + len) : plan.run fl addr buf rounds ≠ none := by
  induction rounds generalizing plan buf with
  | nil => simp [Plan.run]
  | cons round rounds ih =>
    obtain ⟨⟨hr, ha⟩, hrs⟩ := List.forall_mem_cons.mp hv
    obtain ⟨finished, stages', buf', he, hss, hb⟩ := iterate_ok fl 0 h hroom hr ha hl
    have hss' : ∀ stage ∈ ({ plan with stages := stages' } : Plan).stages, StageOk states addr size plan.shard plan.primType stage := hss
    obtain ⟨values, hvalues⟩ := Option.ne_none_iff_exists'.mp (ih hss' hroom hrs (hb.trans hl))
    simp only [Plan.run, he, hvalues, Option.bind_eq_bind, Option.bind_some]
    split <;> simp

/-! ## Panics -/

/-- An iteration panics if its first stage does, or the one after its source. -/
theorem run_eq_none {plan : Plan} {rounds : List Round}
    (h : iterate fl addr plan.shard plan.primType round 0 plan.stages buf = none) :
    plan.run fl addr buf (round :: rounds) = none := by
  rw [Plan.run, h]
  rfl

theorem iterate_source {k : Nat} {stages : List StreamStage} {result : Option (Bool × List StreamStage × Buf)}
    (hs : Going states size source) (hv : Round.Valid size round) (ha : round.Among states)
    (h : iterate fl addr shard ty round k (source :: stages) buf = some result) :
    ∃ buf' result', iterate fl addr shard ty round (k + 1) stages buf' = some result' ∧
      result = result'.map fun r => (true && r.1, source :: r.2.1, r.2.2) := by
  obtain ⟨next, hn, h⟩ := Option.bind_eq_some_iff.mp h
  have hnext : ∃ buf', next = .ok true source buf' := by
    rcases source_next fl addr shard ty _ hs hv ha with ⟨r, -, he⟩ | ⟨-, he⟩
    · obtain ⟨buf', -, rfl⟩ := Option.map_eq_some_iff.mp (he.symm.trans hn)
      exact ⟨buf', rfl⟩
    · exact ⟨_, Option.some.inj (hn.symm.trans he)⟩
  obtain ⟨buf', rfl⟩ := hnext
  obtain ⟨result', hr', h⟩ := Option.bind_eq_some_iff.mp h
  refine ⟨buf', result', hr', ?_⟩
  cases result' with
  | none => exact (Option.some.inj h).symm
  | some r => exact (Option.some.inj h).symm

/-- Means do not end a plan, and each makes its own step. -/
theorem iterate_means {k : Nat} {means : List MeanStage} {result : Option (Bool × List StreamStage × Buf)}
    (h : iterate fl addr shard ty round k (means.map .mean) buf = some result) :
    ∃ finished means' buf', result = some (finished, means'.map .mean, buf') ∧
      List.Forall₂ (fun stage stage' => ∃ f finished bytes, stage.next fl f ty = some (finished, stage', bytes) ∧
        f.addr = addr + headerOffset + shard.value.start) means means' := by
  induction means generalizing k buf result with
  | nil =>
    cases h
    exact ⟨true, [], buf, rfl, .nil⟩
  | cons stage means ih =>
    obtain ⟨next, hn, h⟩ := Option.bind_eq_some_iff.mp h
    have hnext : ∃ f finished stage' bytes buf', stage.next fl f ty = some (finished, stage', bytes) ∧
        f.addr = addr + headerOffset + shard.value.start ∧ next = .ok finished (.mean stage') buf' := by
      rw [StreamStage.next] at hn
      split at hn
      · obtain ⟨⟨finished, stage', bytes⟩, hs, rfl⟩ := Option.map_eq_some_iff.mp hn
        exact ⟨_, finished, stage', bytes, _, hs, rfl, rfl⟩
      · cases hn
    obtain ⟨f, finished, stage', bytes, buf', hs, hf, rfl⟩ := hnext
    obtain ⟨result', hr, h⟩ := Option.bind_eq_some_iff.mp h
    obtain ⟨finished', means', buf'', rfl, hm⟩ := ih hr
    exact ⟨finished && finished', stage' :: means', buf'', (Option.some.inj h).symm, .cons ⟨f, finished, bytes, hs, hf⟩ hm⟩

/-- An iteration of a source and means that does not panic. -/
theorem iterate_plan {means : List MeanStage} (hs : Going states size source) (hv : Round.Valid size round)
    (ha : round.Among states)
    (h : iterate fl addr shard ty round 0 (source :: means.map .mean) buf ≠ none) :
    ∃ finished means' buf',
      iterate fl addr shard ty round 0 (source :: means.map .mean) buf = some (some (finished, source :: means'.map .mean, buf')) ∧
      List.Forall₂ (fun stage stage' => ∃ f finished bytes, stage.next fl f ty = some (finished, stage', bytes) ∧
        f.addr = addr + headerOffset + shard.value.start) means means' := by
  obtain ⟨result, hr⟩ := Option.ne_none_iff_exists'.mp h
  obtain ⟨buf', result', hr', rfl⟩ := iterate_source hs hv ha hr
  obtain ⟨finished, means', buf'', rfl, hm⟩ := iterate_means hr'
  exact ⟨_, means', buf'', hr, hm⟩

/-- A mean over booleans goes on within its window only. -/
theorem count_le_of_run {plan : Plan} {stage : MeanStage} {means : List MeanStage} {rounds : List Round}
    (hs : Going states size source) (hp : plan.stages = source :: (stage :: means).map .mean) (hty : plan.primType = .bool)
    (hv : ∀ round ∈ rounds, Round.Valid size round ∧ round.Among states) (hc : stage.count ≤ stage.window.toNat)
    (h : plan.run fl addr buf rounds ≠ none) : stage.count + rounds.length ≤ stage.window.toNat := by
  induction rounds generalizing plan stage means buf with
  | nil => exact hc
  | cons round rounds ih =>
    obtain ⟨⟨hr, ha⟩, hrs⟩ := List.forall_mem_cons.mp hv
    have hi : iterate fl addr plan.shard plan.primType round 0 plan.stages buf ≠ none := fun he => h (run_eq_none he)
    rw [hp] at hi
    obtain ⟨finished, means', buf', he, hm⟩ := iterate_plan hs hr ha hi
    cases hm with
    | @cons _ stage' _ means' hstep hm =>
      obtain ⟨f, finished', bytes, hn, -⟩ := hstep
      rw [hty] at hn
      obtain ⟨hw, hcount, hlt⟩ := next_of_bool hn
      let plan' : Plan := { plan with stages := source :: (stage' :: means').map .mean }
      have hty' : plan'.primType = .bool := hty
      have hrun : plan'.run fl addr buf' rounds ≠ none := by
        intro hnone
        apply h
        rw [Plan.run, hp, he, Option.bind_eq_bind, Option.bind_some]
        exact (congrArg (Option.bind · _) hnone).trans (Option.bind_none _)
      have hle := ih rfl hty' hrs (by rw [hw]; exact hlt.le) hrun
      rw [hw, hcount] at hle
      rw [List.length_cons]
      omega

/-! ## Compiled plans -/

section

variable {msgs : Msgs} {components : UInt64 → Option ComponentSchema} {v : VTable}
  {ops : List RealizedOp} {field : Metor.Impl.Proto.Field} {plan : Plan} {c : ComponentSchema}

theorem size_dvd (c : ComponentSchema) : c.primType.size ∣ c.size := by
  have h : c.primType.size ∣ 2 ^ 64 := by cases c.primType <;> decide
  exact (Nat.dvd_mod_iff h).mpr (Nat.dvd_mul_left _ _)

theorem plan_size (h : Compiled msgs components v field plan ops c source) : plan.size = c.size := by
  rw [Plan.size, h.stages]
  cases h.isSource <;> rfl

theorem room_of_compiled (h : Compiled msgs components v field plan ops c source) (hf : field ∈ v.fields)
    (ht : ∀ range ∈ rangeOf ops, range.2 - range.1 = 8) : Room (tableLen v) c.size plan.shard := by
  constructor
  · obtain ⟨h₁, h₂⟩ := shard_inTable h hf .value _ rfl
    refine ⟨h₁, h₂, ?_⟩
    rw [h.shard, h.size]
    exact Nat.add_sub_cancel_left _ _
  · intro f hft
    obtain ⟨h₁, h₂⟩ := shard_inTable h hf .timestamp _ hft
    rw [h.shard] at hft
    obtain ⟨range, hr, rfl⟩ := Option.map_eq_some_iff.mp hft
    exact ⟨h₁, h₂, ht range hr⟩

theorem going_iff (h : Compiled msgs components v field plan ops c source) :
    Going states c.size source ↔ Timely msgs states ops := by
  rw [h.source_eq, sourceOf, Timely]
  cases fixedRateOf msgs ops with
  | none => exact iff_of_true .realTime fun op hop => (by cases hop)
  | some op =>
    refine ⟨fun hg op' hop' => ?_, fun ht => .fixedRate op (ht op rfl)⟩
    cases hop'
    cases hg with
    | fixedRate _ h => exact h

theorem safe_of_usable (h : Compiled msgs components v field plan ops c source) (hf : field ∈ v.fields)
    (hu : Usable msgs addr field ops c) (htime : Timely msgs states ops) : Safe fl states addr (tableLen v) plan := by
  obtain ⟨ht, hm⟩ := hu
  intro buf rounds hl hv
  rw [plan_size h] at hv
  have hroom := room_of_compiled h hf ht
  refine run_ok ?_ hroom hv hl
  rw [h.stages, h.primType, h.shard]
  refine List.forall_mem_cons.mpr ⟨stageOk_of_going ((going_iff h).mpr htime), fun stage hs => ?_⟩
  obtain ⟨w, hw, rfl⟩ := List.mem_map.mp hs
  obtain ⟨hb, ha⟩ := hm (List.ne_nil_of_mem hw)
  exact ⟨⟨size_dvd c, Nat.mod_lt _ (by decide), ha, hb⟩, meanInv_new _ _ w⟩

/-- The packet before the first send. -/
def zeroBuf (v : VTable) : Buf := List.replicate (headerOffset + tableLen v) 0

section

variable {streams : UInt64 → FixedRateStreamState}

/-- Records of zeros make a plan panic that is not usable. -/
theorem usable_of_runs (h : Compiled msgs components v field plan ops c source) (hg : Going states c.size source)
    (hst : ∀ id, states.can id (streams id))
    (hrun : ∀ n, plan.run fl addr (zeroBuf v) (List.replicate n (zeroRound c.size streams)) ≠ none) :
    Usable msgs addr field ops c := by
  have hvalid := zeroRound_valid c.size streams
  have hamong := @zeroRound_among c.size states streams hst
  have hiter : iterate fl addr plan.shard plan.primType (zeroRound c.size streams) 0 plan.stages (zeroBuf v) ≠ none :=
    fun he => hrun 1 (run_eq_none he)
  have hmeans : plan.stages = source :: ((windowsOf msgs ops).map MeanStage.new).map .mean := by
    rw [h.stages, List.map_map]
    rfl
  rw [Usable]
  constructor
  · intro range hr
    by_contra hne
    apply hiter
    have ht : plan.shard.timestamp = some (toField range) := by
      rw [h.shard]
      exact congrArg (Option.map toField) hr
    have hsrc : ∀ buf, source.next fl addr plan.shard plan.primType (zeroRound c.size streams) buf = none := by
      intro buf
      rcases source_next fl addr plan.shard plan.primType buf hg hvalid hamong with ⟨r, -, he⟩ | ⟨hn, -⟩
      · rw [he, copyAll_eq_none ht hne, Option.map_none]
      · simp [zeroRound] at hn
    rw [h.stages, iterate, hsrc]
    rfl
  · intro hw
    obtain ⟨w, ws, hws⟩ := List.exists_cons_of_ne_nil hw
    constructor
    · -- one record more than the window has
      intro hb
      have hp : plan.stages = source :: (MeanStage.new w :: ws.map MeanStage.new).map .mean := by
        rw [hmeans, hws, List.map_cons]
      have hrounds : ∀ round ∈ List.replicate (w.toNat + 1) (zeroRound c.size streams),
          Round.Valid c.size round ∧ round.Among states := by
        intro round hr
        rw [List.eq_of_mem_replicate hr]
        exact ⟨hvalid, hamong⟩
      have hle := count_le_of_run hg hp (h.primType.trans hb) hrounds (Nat.zero_le _) (hrun (w.toNat + 1))
      rw [List.length_replicate] at hle
      exact absurd hle (by simp only [MeanStage.new]; omega)
    · by_contra hne
      rw [hmeans] at hiter
      obtain ⟨finished, means', buf', -, hm⟩ := iterate_plan hg hvalid hamong hiter
      rw [hws, List.map_cons] at hm
      cases hm with
      | cons hstep _ =>
        obtain ⟨f, finished', bytes, hn, hf⟩ := hstep
        rw [h.shard] at hf
        rw [next_of_unaligned (by rw [hf, h.primType]; exact hne)] at hn
        cases hn

end

theorem runs_of_safe (h : Compiled msgs components v field plan ops c source) (hs : Safe fl states addr (tableLen v) plan)
    {streams : UInt64 → FixedRateStreamState} (hst : ∀ id, states.can id (streams id)) (n : Nat) :
    plan.run fl addr (zeroBuf v) (List.replicate n (zeroRound c.size streams)) ≠ none := by
  refine hs _ _ List.length_replicate fun round hr => ?_
  rw [plan_size h, List.eq_of_mem_replicate hr]
  exact ⟨zeroRound_valid c.size streams, zeroRound_among hst⟩

/-- A stage that finds its stream in a state that stops it makes the plan panic. -/
theorem timely_of_safe (h : Compiled msgs components v field plan ops c source)
    (hs : Safe fl states addr (tableLen v) plan) : Timely msgs states ops := by
  intro op hop st hst
  have hcan : ∀ id, states.can id (Function.update states.first op.streamId st id) := by
    intro id
    by_cases hid : id = op.streamId
    · rw [hid, Function.update_self]
      exact hst
    · rw [Function.update_of_ne hid]
      exact states.can_first id
  have hrun := runs_of_safe h hs hcan 1
  have hsource : source = .fixedRate c.size op := by
    rw [h.source_eq, sourceOf, show fixedRateOf msgs ops = some op from hop]
    rfl
  have hnext : fixedRateNext plan.shard st st (some (0, List.replicate c.size 0)) (zeroBuf v) ≠ none := by
    intro hnone
    refine hrun (run_eq_none ?_)
    have hself : (Function.update states.first op.streamId st) op.streamId = st := Function.update_self _ _ _
    rw [h.stages, hsource, iterate, StreamStage.next]
    simp only [zeroRound, hself, hnone, Option.map_none, Option.bind_eq_bind, Option.bind_none]
  exact (of_fixedRateNext hnext).imp sleepTime_ne_none.mp nextTick_ne_none.mp

theorem safe_iff (h : Compiled msgs components v field plan ops c source) (hf : field ∈ v.fields) :
    Safe fl states addr (tableLen v) plan ↔ Usable msgs addr field ops c ∧ Timely msgs states ops := by
  refine ⟨fun hs => ?_, fun hu => safe_of_usable h hf hu.1 hu.2⟩
  have htime := timely_of_safe h hs
  exact ⟨usable_of_runs h ((going_iff h).mpr htime) states.can_first (runs_of_safe h hs states.can_first), htime⟩

end

/-! ## One field -/

/-- Integers of few bits, and no floating point. -/
def smallInts : Floats where
  addF32 _ _ := List.replicate 4 0
  addF64 _ _ := List.replicate 8 0
  divF32 _ _ := List.replicate 4 0
  divF64 _ _ := List.replicate 8 0
  divInt _ n count := n.tdiv count
  length_addF32 _ _ := List.length_replicate
  length_addF64 _ _ := List.length_replicate
  length_divF32 _ _ := List.length_replicate
  length_divF64 _ _ := List.length_replicate

/-- The varint of a `u16`. -/
def varint (n : Nat) : Bytes :=
  if n < 128 then [.ofNat n]
  else if n < 16384 then [.ofNat (n % 128 + 128), .ofNat (n / 128)]
  else [.ofNat (n % 128 + 128), .ofNat (n / 128 % 128 + 128), .ofNat (n / 16384)]

def ofVarint (bytes : Bytes) : Nat := bytes.foldr (fun b n => b.toNat % 128 + 128 * n) 0

theorem ofVarint_varint {n : Nat} (h : n < 2 ^ 16) : ofVarint (varint n) = n := by
  unfold varint
  split
  · simp only [ofVarint, List.foldr_cons, List.foldr_nil, UInt8.toNat_ofNat']
    omega
  · split <;>
    · simp only [ofVarint, List.foldr_cons, List.foldr_nil, UInt8.toNat_ofNat']
      omega

/-- A millisecond after another, 60 times a second -/
def rate : FixedRateOp := ⟨1, ⟨.earliest, 1000000, 60⟩⟩

def rateBytes : Bytes := [1, 0, 192, 132, 61, 60]

/-- `fnv1a_hash_str_16_xor` and postcard, with one fixed rate. -/
def meanMsgs : Msgs where
  hash name :=
    let hash := name.toList.foldl (fun hash c => (hash ^^^ BitVec.ofNat 32 c.toNat) * 0x01000193#32) 0x811c9dc5#32
    (hash >>> 16 ^^^ hash &&& 0xffff#32).toNat
  meanOp := ⟨fun op => varint op.window.toNat, fun bytes => some ⟨.ofNat (ofVarint bytes)⟩⟩
  fixedRateOp := ⟨fun op => if op = rate then rateBytes else [], fun bytes => if bytes = rateBytes then some rate else none⟩

/-- Nobody sets the state of a stream to another frequency, or to a tick that is far away. -/
def calmStates : StreamStates where
  can _ st := st.frequency = 60 ∧ st.timeStep = 1000000 ∧ st.currentTick < 2 ^ 62
  first _ := .new 1000000 0 60
  can_first _ := ⟨rfl, rfl, by decide⟩

/-- A vtable with one field of an `f64` for component 7, and 4 bytes for its timestamp. -/
def short : VTable where
  ops := [.data 0 8, .component 0, .data 8 8, .data 16 8, .schema 2 3 1, .table 0 4, .timestamp 5 4]
  fields := [⟨4, 8, 6⟩]
  data := ⟨0, i64Bytes 7 ++ i64Bytes 10 ++ i64Bytes 1⟩

/-- A vtable of one field for component 7 is accepted. -/
theorem exists_inserted {v : VTable} {field : Metor.Impl.Proto.Field} {offset : Nat} (hf : v.fields = [field])
    (hr : v.realizeField none 9 field = .ok ⟨7, [1], .f64, offset, none, none⟩) :
    ∃ db' : DB Encoded String, named.insertVTable plain 9 1 v = (.ok (), db') ∧ schemas db' 7 = some ⟨.f64, [1]⟩ := by
  have ha : plain.allocates (ComponentSchema.size ⟨.f64, [1]⟩ * 1024 % 2 ^ 64) := by decide
  obtain ⟨db', h⟩ := insertVTable_named hf hr rfl ha
  obtain ⟨-, -, hreg⟩ := insertVTable_registers h
  obtain ⟨realized, component, hr', hc, hsch⟩ := hreg rfl field (by rw [hf]; exact List.mem_singleton_self _)
  rw [hr] at hr'
  cases hr'
  refine ⟨db', h, ?_⟩
  rw [schemas, show (7 : UInt64) = .ofNat 7 from rfl, hc, Option.map_some, hsch]

theorem chain_short : Chain short 6 [.timestamp ⟨none, some (0, 4), 4⟩, .schema ⟨[1], .f64, 1⟩] 7 := by
  have h (r : OpRef) (op : RealizedOp) (h : short.realize none 9 r = .ok op) := realizes_of_ok h
  refine .cons (h 6 _ (by decide +kernel)) rfl ?_
  exact .cons (h 4 _ (by decide +kernel)) rfl (.component (h 1 _ (by decide +kernel)))

/-- A vtable with one field of the means of two `f64`s of component 7 at a fixed rate, with the time of the last. -/
def rated : VTable where
  ops := [.data 0 8, .component 0, .data 8 8, .data 16 8, .schema 2 3 8, .table 0 8, .timestamp 5 4, .data 25 6,
    .ext 1 meanMsgs.fixedRateBehaviorId 7, .data 24 1, .ext 6 meanMsgs.meanOpId 9]
  fields := [⟨8, 8, 10⟩]
  data := ⟨0, i64Bytes 7 ++ i64Bytes 10 ++ i64Bytes 1 ++ [2] ++ rateBytes⟩

def ratedOps : List RealizedOp :=
  [.ext ⟨meanMsgs.meanOpId, ⟨24, [2]⟩, 6⟩, .timestamp ⟨none, some (0, 8), 4⟩, .schema ⟨[1], .f64, 8⟩,
    .ext ⟨meanMsgs.fixedRateBehaviorId, ⟨25, rateBytes⟩, 1⟩]

theorem realize_rated : rated.realize none 9 10 = .ok (.ext ⟨meanMsgs.meanOpId, ⟨24, [2]⟩, 6⟩) ∧
    rated.realize none 9 6 = .ok (.timestamp ⟨none, some (0, 8), 4⟩) ∧
    rated.realize none 9 4 = .ok (.schema ⟨[1], .f64, 8⟩) ∧
    rated.realize none 9 8 = .ok (.ext ⟨meanMsgs.fixedRateBehaviorId, ⟨25, rateBytes⟩, 1⟩) ∧
    rated.realize none 9 1 = .ok (.component 7) := by decide +kernel

theorem chain_rated : Chain rated 10 ratedOps 7 := by
  obtain ⟨h₁, h₂, h₃, h₄, h₅⟩ := realize_rated
  exact .cons (realizes_of_ok h₁) rfl (.cons (realizes_of_ok h₂) rfl (.cons (realizes_of_ok h₃) rfl
    (.cons (realizes_of_ok h₄) rfl (.component (realizes_of_ok h₅)))))

theorem compile_rated {components : UInt64 → Option ComponentSchema} (hc : components 7 = some ⟨.f64, [1]⟩) :
    ∃ plan, compile meanMsgs components rated 9 ⟨8, 8, 10⟩ = .ok plan := by
  obtain ⟨h₁, h₂, h₃, h₄, h₅⟩ := realize_rated
  have hne : meanMsgs.fixedRateBehaviorId ≠ meanMsgs.meanOpId := by decide +kernel
  have hmean : meanMsgs.meanOp.fromBytes [2] = some ⟨2⟩ := by decide +kernel
  have hrate : meanMsgs.fixedRateOp.fromBytes rateBytes = some rate := by decide +kernel
  have hfind : ∀ rounds, ∃ found, find meanMsgs components rated 9 (rounds + 4)
      (.ext ⟨meanMsgs.meanOpId, ⟨24, [2]⟩, 6⟩) ⟨[], none, none, none⟩ = .ok found ∧
        found.source = some ⟨.f64, [1]⟩ ∧ found.schema = some ([1], .f64) := by
    intro rounds
    simp only [find, Impl.Stages.realize, h₂, h₃, h₄, h₅, hne, hmean, hrate, getComponent, if_true, if_false,
      Eval.ok_bind, Eval.okOr_some, Eval.pure_eq, show UInt64.ofNat 7 = 7 from rfl, hc]
    exact ⟨_, rfl, rfl, rfl⟩
  obtain ⟨found, hfound, hsource, hschema⟩ := hfind 65531
  simp only [compile, Impl.Stages.realize, h₁, hfound, hsource, hschema, Eval.ok_bind, Eval.okOr_some]
  exact ⟨_, rfl⟩

end Metor.Proof.Stages
