import Metor.Impl.Component

/-!
# Streams of a vtable (`libs/db/src/vtable_stream.rs`)

A plan fills one field of the table that is sent next, and the field of its
timestamp if there is one. What a stage does to the table are the copies it
makes into fields. `handle_vtable_stream` has checked that a field is as long
as a value of its component.
-/

namespace Metor.Impl.VTableStream

open Metor.Lib

/-- `Field`: its `range` of the table. -/
structure Field where
  start : Nat
  stop : Nat
  deriving DecidableEq, Repr

/-- A `copy_from_slice` into the field. -/
structure Copy where
  field : Field
  bytes : Bytes
  deriving DecidableEq, Repr

inductive Error
  | badMessage
  deriving DecidableEq, Repr

/-- `RealTimeStage::next`, handed the grant `buf`: whether it is finished, and its copies. `size` is
`component.schema.size()`. -/
def RealTimeStage.next (size : Nat) (shard : Field) (timestampShard : Option Field) (buf : Bytes) :
    Except Error (Bool × List Copy) :=
  let msgSize := size + 8
  if msgSize ≤ buf.length then
    let msg := buf.take msgSize
    if 8 ≤ msg.length then
      let timestamp := i64OfBytes (msg.take 8)
      let data := msg.drop 8
      .ok (true, ⟨shard, data⟩ :: (timestampShard.map fun f => ⟨f, i64Bytes timestamp⟩).toList)
    else .error .badMessage
  else .ok (false, [])

/-- `handle_plan` of a real-time stage, which is handed these grants one after the other: the copies
it makes. An error ends it. -/
def handlePlan (size : Nat) (shard : Field) (timestampShard : Option Field) : List Bytes → List Copy
  | [] => []
  | buf :: grants =>
    match RealTimeStage.next size shard timestampShard buf with
    | .ok (_, copies) => copies ++ handlePlan size shard timestampShard grants
    | .error _ => []

end Metor.Impl.VTableStream
