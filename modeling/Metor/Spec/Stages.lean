import Metor.Impl.Stages
import Metor.Impl.VTableStream
import Metor.Spec.VTable

/-!
# What a real-time stream shows

The records that persistence appends, each copied to the fields of the stream.
-/

namespace Metor.Impl.VTableStream

open Metor.Lib

/-- The records that `persist` hands to `push_buf`, out of the bytes of one read. -/
def parsed (size : Nat) (buf : Bytes) : List (Int × Bytes) :=
  let msgSize := size + 8
  if msgSize ≤ buf.length then
    let msg := buf.take msgSize
    (i64OfBytes (msg.take 8), msg.drop 8) :: parsed size (buf.drop msgSize)
  else []
termination_by buf.length
decreasing_by simp only [List.length_drop]; omega

/-- A record, written to the field and to the field of its timestamp. -/
def copies (shard : Field) (timestampShard : Option Field) (r : Int × Bytes) : List Copy :=
  ⟨shard, r.2⟩ :: (timestampShard.map fun f => ⟨f, i64Bytes r.1⟩).toList

/-- A grant of consecutive records. -/
def grantBytes (recs : List (Int × Bytes)) : Bytes := recs.flatMap fun r => record r.1 r.2

/-- Records as `push_buf` writes them: at least one in each grant. -/
structure Grants (size : Nat) (grants : List (List (Int × Bytes))) : Prop where
  ne_nil : ∀ g ∈ grants, g ≠ []
  valid : ∀ g ∈ grants, ∀ r ∈ g, IsI64 r.1 ∧ r.2.length = size

/-- The stream shows what `persist` appends. -/
def SameRecords (size : Nat) (shard : Field) (timestampShard : Option Field) (grants : List Bytes) : Prop :=
  handlePlan size shard timestampShard grants = (grants.flatMap (parsed size)).flatMap (copies shard timestampShard)

end Metor.Impl.VTableStream

/-!
## What the plans of a vtable stream are given

`Chain` is the way from a field down to its component; a plan is compiled from
the operations on it. A plan is safe if no iteration panics, whatever the
source is handed and whatever the other tasks write to the packet.
-/

namespace Metor.Impl.Stages

open Metor.Lib Metor.Impl.Proto Metor.Impl.FieldTable Metor.Spec.VTable
open Metor.Impl.VTableStream (grantBytes)
open Metor.Impl.Streams (FixedRateOp FixedRateStreamState)

/-- The operations from `r` on, down to the component `id`. -/
inductive Chain (v : VTable) : OpRef → List RealizedOp → Nat → Prop
  | component {r id} : Realizes v none r (.component id) → Chain v r [] id
  | cons {r r' op ops id} : Realizes v none r op → argOf op = some r' → Chain v r' ops id → Chain v r (op :: ops) id

/-- The place in the table of the innermost timestamp that has one. -/
def rangeOf : List RealizedOp → Option (Nat × Nat)
  | [] => none
  | .timestamp t :: ops => (rangeOf ops).or t.range
  | _ :: ops => rangeOf ops

/-- The innermost schema. -/
def schemaOf : List RealizedOp → Option (List Nat × PrimType)
  | [] => none
  | .schema s :: ops => (schemaOf ops).or (some (s.dim, s.ty))
  | _ :: ops => schemaOf ops

/-- The window of a mean. -/
def windowOf (msgs : Msgs) : RealizedOp → Option UInt16
  | .ext e => if e.id = msgs.meanOpId then (msgs.meanOp.fromBytes e.data.bytes).map (·.window) else none
  | _ => none

/-- The windows of the means, from the outside in. -/
def windowsOf (msgs : Msgs) (ops : List RealizedOp) : List UInt16 := ops.filterMap (windowOf msgs)

def rateOf (msgs : Msgs) : RealizedOp → Option FixedRateOp
  | .ext e =>
    if e.id = msgs.meanOpId then none
    else if e.id = msgs.fixedRateBehaviorId then msgs.fixedRateOp.fromBytes e.data.bytes
    else none
  | _ => none

/-- The fixed rate above the component. -/
def fixedRateOf (msgs : Msgs) (ops : List RealizedOp) : Option FixedRateOp := ops.findSome? (rateOf msgs)

/-- `component.schema.size()` of the source. -/
def Plan.size (plan : Plan) : Nat :=
  match plan.stages with
  | .realTime size :: _ | .fixedRate size _ :: _ => size
  | _ => 0

/-- A record of a component whose values have this many bytes. -/
def IsRecord (size : Nat) (r : Int × Bytes) : Prop := IsI64 r.1 ∧ r.2.length = size

/-- What can come upon an iteration: a grant holds whole records, and nobody moves the packet. -/
structure Round.Valid (size : Nat) (round : Round) : Prop where
  grant : ∃ r rs, round.grant = grantBytes (r :: rs) ∧ ∀ r' ∈ r :: rs, IsRecord size r'
  nearest : ∀ r ∈ round.nearest, IsRecord size r
  others : ∀ k buf, (round.others k buf).length = buf.length

/-! ## Means of windows -/

section

variable (fl : Floats) (ty : PrimType)

/-- Element by element. -/
def addBytes (acc value : Bytes) : Bytes :=
  (List.zipWith (addElem fl ty) (Proto.elements ty.size acc) (Proto.elements ty.size value)).flatten

def divBytes (acc : Bytes) (count : Nat) : Bytes :=
  ((Proto.elements ty.size acc).map fun r => divElem fl ty r count).flatten

/-- The mean of values of `len` bytes. -/
def meanOf (len : Nat) (values : List Bytes) : Bytes :=
  divBytes fl ty (values.foldl (addBytes fl ty) (List.replicate len 0)) values.length

end

/-! ## Safety -/

/-- The states that the stream of an id can come to have while the plans run, whoever sets them. There is one that a
stage finds or makes. -/
structure StreamStates where
  can : UInt64 → FixedRateStreamState → Prop
  first : UInt64 → FixedRateStreamState
  can_first : ∀ id, can id (first id)

/-- A stage comes upon such states. -/
def Round.Among (states : StreamStates) (round : Round) : Prop :=
  ∀ id, states.can id (round.sleeping id) ∧ states.can id (round.playing id)

/-- In a packet at `addr` with a table of `len` bytes, no stage of the plan panics: it writes within the packet, copies
as many bytes as the field has, and divides and adds what can be. -/
def Safe (fl : Floats) (states : StreamStates) (addr len : Nat) (plan : Plan) : Prop :=
  ∀ buf rounds, buf.length = headerOffset + len →
    (∀ round ∈ rounds, Round.Valid plan.size round ∧ round.Among states) → plan.run fl addr buf rounds ≠ none

/-- The place of the innermost timestamp has the 8 bytes of one, and a mean has a type that can be divided and a field
that is aligned for it. -/
def Usable (msgs : Msgs) (addr : Nat) (field : Proto.Field) (ops : List RealizedOp) (c : ComponentSchema) : Prop :=
  (∀ range ∈ rangeOf ops, range.2 - range.1 = 8) ∧
    (windowsOf msgs ops ≠ [] → c.primType ≠ .bool ∧ (addr + headerOffset + field.offset) % c.primType.size = 0)

/-- The stream of a fixed rate never has a frequency of zero, nor a tick whose next one overflows. -/
def Timely (msgs : Msgs) (states : StreamStates) (ops : List RealizedOp) : Prop :=
  ∀ op ∈ fixedRateOf msgs ops, ∀ st, states.can op.streamId st →
    st.frequency ≠ 0 ∧ st.currentTick + (st.timeStep.toNat / 1000 : Nat) < 2 ^ 63

end Metor.Impl.Stages
