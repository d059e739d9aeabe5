import Metor.Impl.ComponentValue
import Metor.Impl.Db
import Metor.Impl.FieldTable
import Metor.Impl.Streams

/-!
# Plans of a vtable stream (`libs/db/src/vtable_stream.rs`)

`handle_vtable_stream` compiles each field of a vtable to a plan: the stages
that `handle_plan` runs, one after the other, in each iteration. A stage reads
and writes the fields of the plan in the table packet, whose buffer is at some
address. What a source stage waits for is handed to it: a grant of the WAL, or
the nearest sample of the time series and what it reads of its stream's state.
Other tasks may write to the packet before each stage. `none` is a panic, also
where an addition overflows, as overflows are checked.
-/

namespace Metor.Impl.Stages

open Metor.Lib Metor.Impl.Proto Metor.Impl.FieldTable
open Metor.Impl.VTableStream (Copy)
open Metor.Impl.Streams (FixedRateOp FixedRateStreamState)

/-! ## Messages -/

structure MeanOp where
  window : UInt16
  deriving DecidableEq, Repr

/-- The messages of extensions: `fnv1a_hash_str_16_xor`, which `Msg::ID` applies to the name of a type, and
`postcard`. -/
structure Msgs where
  hash : String → Nat
  meanOp : Db.Codec Bytes MeanOp
  fixedRateOp : Db.Codec Bytes FixedRateOp

namespace Msgs

/-- `MeanOp::ID` -/
def meanOpId (msgs : Msgs) : Nat := msgs.hash "MeanOp"

/-- `FixedRateBehavior::ID` -/
def fixedRateBehaviorId (msgs : Msgs) : Nat := msgs.hash "FixedRateBehavior"

/-- `FixedRateOp::ID` -/
def fixedRateOpId (msgs : Msgs) : Nat := msgs.hash "FixedRateOp"

end Msgs

/-! ## Stages -/

structure MeanStage where
  window : UInt16
  acc : Option ComponentValue
  count : Nat
  deriving DecidableEq, Repr

def MeanStage.new (window : UInt16) : MeanStage := ⟨window, none, 0⟩

/-- `size` is `component.schema.size()` of the stage's component. -/
inductive StreamStage
  | realTime (size : Nat)
  | fixedRate (size : Nat) (op : FixedRateOp)
  | mean (stage : MeanStage)
  deriving DecidableEq, Repr

/-- The buffer of the table packet. -/
abbrev Buf := Bytes

/-- `with_buf` with a `copy_from_slice` into the field. -/
def copyFromSlice (buf : Buf) (f : VTableStream.Field) (bytes : Bytes) : Option Buf :=
  if f.start ≤ f.stop ∧ headerOffset + f.stop ≤ buf.length ∧ bytes.length = f.stop - f.start then
    some (overwrite buf (headerOffset + f.start) bytes)
  else none

def copyAll (buf : Buf) (copies : List Copy) : Option Buf :=
  copies.foldlM (fun buf copy => copyFromSlice buf copy.field copy.bytes) buf

/-- What an iteration comes upon. -/
structure Round where
  /-- What `Reader::next` gives. -/
  grant : Bytes
  /-- The state of each stream as a `FixedRateStage` reads its frequency. -/
  sleeping : UInt64 → FixedRateStreamState
  /-- The state of each stream as a `FixedRateStage` reads its tick. -/
  playing : UInt64 → FixedRateStreamState
  /-- What `binary_search_nearest` gives; nothing also when the stream is gone. -/
  nearest : Option (Int × Bytes)
  /-- What the other tasks make of the packet before the stage of this number. -/
  others : Nat → Buf → Buf

/-- `FixedRateStage::next`, on the states of its stream and with the nearest sample. -/
def fixedRateNext (shard : Shard) (sleeping playing : FixedRateStreamState) (nearest : Option (Int × Bytes)) (buf : Buf) :
    Option Buf := do
  let _ ← sleeping.sleepTime
  match nearest with
  | none => return buf
  | some (timestamp, data) => do
    let buf ← copyAll buf
      (⟨shard.value, data⟩ :: (shard.timestamp.map fun f => ⟨f, i64Bytes timestamp⟩).toList)
    let _ ← playing.nextTick playing.currentTick
    return buf

variable (fl : Floats)

/-- `MeanStage::next`, on the bytes of the field at `addr`: whether it is finished, the stage, and the field. -/
def MeanStage.next (stage : MeanStage) (f : View) (ty : PrimType) : Option (Bool × MeanStage × Bytes) :=
  let len := f.bytes.length / ty.size
  match ComponentView.tryFromBytesShape f [len] ty with
  | .ok view => do
    let acc ← (stage.acc.getD (.zeros [len] ty)).addView fl view
    let count := stage.count + 1
    if 2 ^ 16 ≤ count then none
    else if count ≥ stage.window.toNat then
      let acc ← acc.div fl count
      if acc.bytes.length = f.bytes.length then
        return (true, { stage with acc := some acc.fillZeros, count := 0 }, acc.bytes)
      else none
    else return (count = 0, { stage with acc := some acc, count := count }, f.bytes)
  | _ => none

/-- What came of a stage: `Err` ends the plan. -/
inductive Next
  | ok (finished : Bool) (stage : StreamStage) (buf : Buf)
  | err
  deriving DecidableEq, Repr

/-- `StreamStage::next` -/
def StreamStage.next (addr : Nat) (shard : Shard) (ty : PrimType) (round : Round) (buf : Buf) : StreamStage → Option Next
  | .realTime size =>
    match VTableStream.RealTimeStage.next size shard.value shard.timestamp round.grant with
    | .ok (finished, copies) => (copyAll buf copies).map fun buf => .ok finished (.realTime size) buf
    | .error _ => some .err
  | .fixedRate size op =>
    (fixedRateNext shard (round.sleeping op.streamId) (round.playing op.streamId) round.nearest buf).map fun buf =>
      .ok true (.fixedRate size op) buf
  | .mean stage =>
    let f := shard.value
    if f.start ≤ f.stop ∧ headerOffset + f.stop ≤ buf.length then
      let bytes := slice buf (headerOffset + f.start) (headerOffset + f.stop)
      (stage.next fl ⟨addr + headerOffset + f.start, bytes⟩ ty).map fun (finished, stage, bytes) =>
        .ok finished (.mean stage) (overwrite buf (headerOffset + f.start) bytes)
    else none

/-! ## `handle_plan` -/

structure Plan where
  stages : List StreamStage
  shard : Shard
  primType : PrimType
  deriving DecidableEq, Repr

/-- The stages of one iteration, from that of number `k` on; every stage runs, whatever the ones before it
returned. -/
def iterate (addr : Nat) (shard : Shard) (ty : PrimType) (round : Round) :
    (k : Nat) → List StreamStage → Buf → Option (Option (Bool × List StreamStage × Buf))
  | _, [], buf => some (some (true, [], buf))
  | k, stage :: stages, buf => do
    match ← stage.next fl addr shard ty round (round.others k buf) with
    | .err => return none
    | .ok stageFinished stage buf =>
      match ← iterate addr shard ty round (k + 1) stages buf with
      | none => return none
      | some (finished, stages, buf) => return some (stageFinished && finished, stage :: stages, buf)

/-- The iterations of `handle_plan` in some rounds: the bytes of the field at each `set_written`. -/
def Plan.run (addr : Nat) (plan : Plan) (buf : Buf) : List Round → Option (List Bytes)
  | [] => some []
  | round :: rounds => do
    match ← iterate fl addr plan.shard plan.primType round 0 plan.stages buf with
    | none => return []
    | some (finished, stages, buf) =>
      let values ← Plan.run addr { plan with stages := stages } buf rounds
      let f := plan.shard.value
      if finished then return slice buf (headerOffset + f.start) (headerOffset + f.stop) :: values
      else return values

/-! ## Compiling a vtable -/

inductive Error
  | impeller (e : Proto.Error)
  | componentNotFound (id : UInt64)
  | postcard
  deriving DecidableEq, Repr

/-- The plan under construction, the table range of the timestamp and the schema found so far. -/
structure Found where
  plan : List StreamStage
  source : Option ComponentSchema
  timestamp : Option VTableStream.Field
  schema : Option (List Nat × PrimType)
  deriving DecidableEq, Repr

variable (msgs : Msgs) (components : UInt64 → Option ComponentSchema) (v : VTable) (fuel : Nat)

/-- `vtable.realize(..)?` -/
def realize (r : OpRef) : Eval Error RealizedOp :=
  match v.realize none fuel r with
  | .running => .running
  | .err e => .err (.impeller e)
  | .ok op => .ok op

/-- The schemas of the components that `get_component` knows. -/
def schemas {B M : Type} (db : Db.DB B M) (id : UInt64) : Option ComponentSchema := (db.state.components.lookup id).map (·.schema)

/-- `get_component(..).ok_or(ComponentNotFound)?` -/
def getComponent (id : Nat) : Eval Error ComponentSchema := .okOr (.componentNotFound (.ofNat id)) (components (.ofNat id))

/-- The loop `'find`, with the rounds that are left. -/
def find : (rounds : Nat) → RealizedOp → Found → Eval Error Found
  | 0, _, found => .ok found
  | rounds + 1, op, found =>
    match op with
    | .component id => do
      let component ← getComponent components id
      return { found with plan := .realTime component.size :: found.plan, source := some component }
    | .schema s => do
      let op ← realize v fuel s.arg
      find rounds op { found with schema := some (s.dim, s.ty) }
    | .timestamp t => do
      let op ← realize v fuel t.arg
      find rounds op { found with timestamp := (t.range.map fun r => ⟨r.1, r.2⟩).or found.timestamp }
    | .ext e =>
      if e.id = msgs.meanOpId then do
        let mean ← .okOr .postcard (msgs.meanOp.fromBytes e.data.bytes)
        let op ← realize v fuel e.arg
        find rounds op { found with plan := found.plan ++ [.mean (.new mean.window)] }
      else if e.id = msgs.fixedRateBehaviorId then do
        let op ← .okOr .postcard (msgs.fixedRateOp.fromBytes e.data.bytes)
        match ← realize v fuel e.arg with
        | .component id => do
          let component ← getComponent components id
          return { found with plan := .fixedRate component.size op :: found.plan, source := some component }
        | _ => .err (.impeller .invalidOp)
      else .err (.impeller .invalidOp)
    | _ => .err (.impeller .invalidOp)

/-- The plan of one field. The first stage has a component if the loop came to one. -/
def compile (field : Proto.Field) : Eval Error Plan := do
  let op ← realize v fuel field.arg
  let found ← find msgs components v fuel 65535 op ⟨[], none, none, none⟩
  let component ← .okOr (.impeller .invalidOp) found.source
  match found.schema with
  | some (shape, ty) =>
    if component.dim ≠ shape ∨ component.primType ≠ ty then .err (.impeller .invalidOp)
    else if component.size ≠ field.len then .err (.impeller .invalidOp)
    else return ⟨found.plan, ⟨⟨field.offset, field.offset + field.len⟩, found.timestamp⟩, component.primType⟩
  | none =>
    if component.size ≠ field.len then .err (.impeller .invalidOp)
    else return ⟨found.plan, ⟨⟨field.offset, field.offset + field.len⟩, found.timestamp⟩, component.primType⟩

/-- `handle_vtable_stream`, up to the first send: the plans it spawns. -/
def handleVTableStream : List Proto.Field → Eval Error (List Plan)
  | [] => .ok []
  | field :: fields => do
    let plan ← compile msgs components v fuel field
    let plans ← handleVTableStream fields
    return plan :: plans

/-- `table_len` -/
def tableLen : Nat :=
  let fieldEnds := v.fields.map fun f => f.offset + f.len
  let opEnds := v.ops.map fun op =>
    match op with
    | .table offset len => offset + len
    | _ => 0
  (fieldEnds ++ opEnds).max?.getD 0

end Metor.Impl.Stages
