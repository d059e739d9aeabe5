import Metor.Proof.Stages.Safe
import Metor.Spec.Pipeline

/-!
# The values of a plan

The means of a plan are windows that are each fed with what the one before it
leaves in the field: `MeanStage::next` is `Window.feed` (`next_refines`), an
iteration is `pipe` (`iterate_refines`), and the values of a run are `outputs`
over what the source alone gives (`run_refines`).
-/

namespace Metor.Proof.Stages

open Metor.Lib Metor.Impl.Proto Metor.Impl.Stages
open Metor.Impl.FieldTable (Shard headerOffset)
open Metor.Impl.VTableStream (copies)

variable {fl : Floats} {ty : PrimType} {addr len size : Nat} {shard : Shard} {round : Round} {buf buf' : Buf}

/-! ## One mean -/

/-- A stage holds the sum of what is pending in its window. -/
structure Refines (fl : Floats) (ty : PrimType) (size : Nat) (stage : MeanStage) (w : Window Bytes) : Prop where
  inv : MeanInv ty size stage
  window : w.size = windowSize stage.window
  count : stage.count = w.pending.length
  acc : accOf size stage = w.pending.foldl (addBytes fl ty) (List.replicate size 0)

theorem refines_new (fl : Floats) (ty : PrimType) (size : Nat) (window : UInt16) :
    Refines fl ty size (.new window) ⟨windowSize window, []⟩ :=
  ⟨meanInv_new ty size window, rfl, rfl, rfl⟩

theorem next_refines {f : View} {stage : MeanStage} {w : Window Bytes} (h : Readable ty f)
    (hs : Refines fl ty f.bytes.length stage w) :
    ∃ stage', stage.next fl f ty = some ((w.feed (meanOf fl ty f.bytes.length) f.bytes).1, stage',
        (w.feed (meanOf fl ty f.bytes.length) f.bytes).2.2) ∧
      Refines fl ty f.bytes.length stage' (w.feed (meanOf fl ty f.bytes.length) f.bytes).2.1 ∧
      (w.feed (meanOf fl ty f.bytes.length) f.bytes).2.2.length = f.bytes.length := by
  obtain ⟨finished, stage', bytes, he, hinv, hlen⟩ := meanInv_next fl h hs.inv
  have hsum : addBytes fl ty (accOf f.bytes.length stage) f.bytes =
      (w.pending ++ [f.bytes]).foldl (addBytes fl ty) (List.replicate f.bytes.length 0) := by
    rw [hs.acc, List.foldl_append]
    rfl
  have hmean : meanOf fl ty f.bytes.length (w.pending ++ [f.bytes]) =
      divBytes fl ty (addBytes fl ty (accOf f.bytes.length stage) f.bytes) (stage.count + 1) := by
    rw [meanOf, hsum, hs.count, List.length_append, List.length_singleton]
  have hnext := next_eq fl h hs.inv
  rw [he] at hnext
  have hw := hs.window
  have hc := hs.count
  unfold windowSize at hw
  by_cases hle : stage.window.toNat ≤ stage.count + 1
  · rw [if_pos hle] at hnext
    cases hnext
    rw [Window.feed, if_pos (by omega)]
    exact ⟨_, by rw [he, hmean], ⟨hinv, hs.window, rfl, rfl⟩, by rw [hmean]; exact hlen⟩
  · rw [if_neg hle] at hnext
    cases hnext
    rw [Window.feed, if_neg (by omega)]
    refine ⟨_, he, ⟨hinv, hs.window, ?_, hsum⟩, rfl⟩
    rw [hc, List.length_append, List.length_singleton]

/-! ## One iteration -/

theorem fieldOf_overwrite (h : Room len size shard) (hl : buf.length = headerOffset + len) {bytes : Bytes}
    (hb : bytes.length = size) :
    fieldOf shard (overwrite buf (headerOffset + shard.value.start) bytes) = bytes ∧
      (overwrite buf (headerOffset + shard.value.start) bytes).length = buf.length := by
  obtain ⟨h₁, h₂, h₃⟩ := h.value
  have hstop : headerOffset + shard.value.stop = headerOffset + shard.value.start + bytes.length := by omega
  constructor
  · rw [fieldOf, hstop, slice_overwrite_self (by omega)]
  · exact length_overwrite (by omega)

theorem fieldOf_others (hq : round.Quiet shard) (k : Nat) : fieldOf shard (round.others k buf) = fieldOf shard buf := hq k buf

theorem iterate_refines {k : Nat} {means : List MeanStage} {ws : List (Window Bytes)} (hroom : Room len size shard)
    (hc : means ≠ [] → Castable addr size shard ty) (hv : Round.Valid size round) (hq : round.Quiet shard)
    (hl : buf.length = headerOffset + len) (h : List.Forall₂ (Refines fl ty size) means ws) :
    ∃ means' buf', iterate fl addr shard ty round k (means.map .mean) buf =
        some (some ((pipe (meanOf fl ty size) ws (fieldOf shard buf)).1, means'.map .mean, buf')) ∧
      List.Forall₂ (Refines fl ty size) means' (pipe (meanOf fl ty size) ws (fieldOf shard buf)).2.1 ∧
      fieldOf shard buf' = (pipe (meanOf fl ty size) ws (fieldOf shard buf)).2.2 ∧ buf'.length = buf.length := by
  induction h generalizing k buf with
  | nil => exact ⟨[], buf, rfl, .nil, rfl, rfl⟩
  | @cons stage w means ws hs _ ih =>
    have hcast := hc (List.cons_ne_nil _ _)
    have hlo := (hv.others k buf).trans hl
    have hfield : fieldOf shard (round.others k buf) = fieldOf shard buf := fieldOf_others hq k
    have hsize := length_fieldOf hroom hlo
    have hread := hcast.readable hsize
    obtain ⟨stage', he, hs', hb⟩ := next_refines hread (hsize.symm ▸ hs)
    simp only [hsize] at he hs' hb
    rw [hfield] at he hs' hb
    obtain ⟨hf, hl'⟩ := fieldOf_overwrite hroom hlo hb
    obtain ⟨means', buf', he', hm, hf', hl''⟩ := ih (k := k + 1) (fun _ => hcast) (hl'.trans hlo)
    rw [hf] at he' hm hf'
    refine ⟨stage' :: means', buf', ?_, .cons hs' hm, hf', hl''.trans (hl'.trans (hv.others k buf))⟩
    simp only [List.map_cons, iterate, mean_next hroom hlo, hfield, he, Option.map_some, Option.bind_eq_bind,
      Option.bind_some, he', pipe]
    rfl

/-! ## The source -/

/-- What a record leaves in the field does not depend on the packet. -/
theorem exists_copyAll {r : Int × Bytes} (h : Room len size shard) (hr : IsRecord size r) :
    ∃ value, ∀ buf : Buf, buf.length = headerOffset + len →
      ∃ buf', copyAll buf (copies shard.value shard.timestamp r) = some buf' ∧ fieldOf shard buf' = value ∧
        buf'.length = buf.length := by
  obtain ⟨h₁, h₂, h₃⟩ := h.value
  have hcopy : ∀ buf : Buf, buf.length = headerOffset + len → copyFromSlice buf shard.value r.2 =
      some (overwrite buf (headerOffset + shard.value.start) r.2) :=
    fun buf hl => (copyFromSlice_eq h₁ h₂ (h₃.trans hr.2.symm) hl).1
  cases ht : shard.timestamp with
  | none =>
    refine ⟨r.2, fun buf hl => ?_⟩
    obtain ⟨hf, hl'⟩ := fieldOf_overwrite h hl hr.2
    refine ⟨_, ?_, hf, hl'⟩
    simp only [copyAll, copies, Option.map_none, Option.toList_none, List.foldlM_cons, List.foldlM_nil, hcopy buf hl,
      Option.bind_eq_bind, Option.bind_some, Option.pure_def]
  | some f =>
    obtain ⟨t₁, t₂, t₃⟩ := h.timestamp f ht
    let zeros : Buf := List.replicate (headerOffset + len) 0
    have hzeros : zeros.length = headerOffset + len := List.length_replicate
    let left (buf : Buf) : Buf :=
      overwrite (overwrite buf (headerOffset + shard.value.start) r.2) (headerOffset + f.start) (i64Bytes r.1)
    refine ⟨fieldOf shard (left zeros), fun buf hl => ?_⟩
    obtain ⟨hf, hl'⟩ := fieldOf_overwrite h hl hr.2
    obtain ⟨hf₀, hl₀⟩ := fieldOf_overwrite h hzeros hr.2
    obtain ⟨htime, hl''⟩ := copyFromSlice_eq t₁ t₂ (t₃.trans (length_i64Bytes r.1).symm) (hl'.trans hl)
    refine ⟨left buf, ?_, slice_overwrite_congr ?_ ?_ (hf.trans hf₀.symm), hl''.trans hl'⟩
    · simp only [copyAll, copies, Option.map_some, Option.toList_some, List.foldlM_cons, List.foldlM_nil, hcopy buf hl,
        htime, Option.bind_eq_bind, Option.bind_some, Option.pure_def]
      rfl
    · rw [length_i64Bytes, hl', hl]
      omega
    · rw [length_i64Bytes, hl₀, hzeros]
      omega

/-- The first record of the grant is what a real-time source copies. -/
theorem realTime_next (fl : Floats) (addr : Nat) (shard : Shard) (ty : PrimType) (hv : Round.Valid size round) : ∃ r, IsRecord size r ∧ ∀ buf,
    (StreamStage.realTime size).next fl addr shard ty round buf =
      (copyAll buf (copies shard.value shard.timestamp r)).map fun buf => .ok true (.realTime size) buf := by
  obtain ⟨r, rs, hg, hrec⟩ := hv.grant
  have hr := hrec r List.mem_cons_self
  refine ⟨r, hr, fun buf => ?_⟩
  rw [StreamStage.next, hg, RealTime.next_records _ _ hr]

/-! ## Runs -/

theorem run_cons (plan : Plan) {finished : Bool} {stages : List StreamStage} (rounds : List Round)
    (h : iterate fl addr plan.shard plan.primType round 0 plan.stages buf = some (some (finished, stages, buf'))) :
    plan.run fl addr buf (round :: rounds) = (({ plan with stages := stages } : Plan).run fl addr buf' rounds).map fun values =>
      if finished then fieldOf plan.shard buf' :: values else values := by
  rw [Plan.run, h, Option.bind_eq_bind, Option.bind_some]
  cases hrun : ({ plan with stages := stages } : Plan).run fl addr buf' rounds with
  | none => simp only [hrun, Option.bind_eq_bind, Option.bind_none, Option.map_none]
  | some values =>
    simp only [hrun, Option.bind_eq_bind, Option.bind_some, Option.map_some]
    split <;> rfl

/-- What the plan gives are the windows of what its source alone gives. -/
theorem run_refines {means : List MeanStage} {ws : List (Window Bytes)} {rounds : List Round} (hroom : Room len size shard)
    (hc : means ≠ [] → Castable addr size shard ty) (hv : ∀ round ∈ rounds, Round.Valid size round ∧ round.Quiet shard)
    (hl : buf.length = headerOffset + len) (hl' : buf'.length = headerOffset + len)
    (h : List.Forall₂ (Refines fl ty size) means ws) :
    ∃ values, (⟨[.realTime size], shard, ty⟩ : Plan).run fl addr buf' rounds = some values ∧ values.length = rounds.length ∧
      (⟨.realTime size :: means.map .mean, shard, ty⟩ : Plan).run fl addr buf rounds =
        some (outputs (meanOf fl ty size) ws values) := by
  induction rounds generalizing means ws buf buf' with
  | nil => exact ⟨[], rfl, rfl, rfl⟩
  | cons round rounds ih =>
    obtain ⟨⟨hr, hq⟩, hrs⟩ := List.forall_mem_cons.mp hv
    obtain ⟨r, hrec, hnext⟩ := realTime_next fl addr shard ty hr
    obtain ⟨value, hcopy⟩ := exists_copyAll hroom hrec
    obtain ⟨buf₁, hbuf₁, hf₁, hl₁⟩ := hcopy _ ((hr.others 0 buf).trans hl)
    obtain ⟨buf₁', hbuf₁', hf₁', hl₁'⟩ := hcopy _ ((hr.others 0 buf').trans hl')
    have hl₂ := hl₁.trans ((hr.others 0 buf).trans hl)
    obtain ⟨means', buf₂, he, hm, hf, hl₃⟩ := iterate_refines (k := 1) hroom hc hr hq hl₂ h
    have hc' : means' ≠ [] → Castable addr size shard ty := by
      intro hne
      refine hc fun hnil => hne ?_
      subst hnil
      cases h
      cases hm
      rfl
    obtain ⟨values, hvalues, hlen, hrun⟩ := ih hc' hrs (hl₃.trans hl₂) (hl₁'.trans ((hr.others 0 buf').trans hl')) hm
    have hi' : iterate fl addr shard ty round 0 [.realTime size] buf' = some (some (true, [.realTime size], buf₁')) := by
      simp only [iterate, hnext, hbuf₁', Option.map_some, Option.bind_eq_bind, Option.bind_some, Bool.and_true]
      rfl
    have hi : iterate fl addr shard ty round 0 (.realTime size :: means.map .mean) buf =
        some (some ((pipe (meanOf fl ty size) ws value).1, .realTime size :: means'.map .mean, buf₂)) := by
      simp only [iterate, hnext, hbuf₁, Option.map_some, Option.bind_eq_bind, Option.bind_some, he, hf₁, Bool.true_and]
      rfl
    refine ⟨value :: values, ?_, congrArg (· + 1) hlen, ?_⟩
    · refine (run_cons ⟨[.realTime size], shard, ty⟩ rounds hi').trans ?_
      rw [hvalues, Option.map_some, if_pos rfl, hf₁']
    · refine (run_cons ⟨.realTime size :: means.map .mean, shard, ty⟩ rounds hi).trans ?_
      rw [hf₁] at hrun hf
      rw [hrun, Option.map_some, outputs_cons, hf]

end Metor.Proof.Stages
