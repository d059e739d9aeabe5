import Metor.Impl.FixedStream
import Metor.Impl.GetTimeSeries
import Metor.Impl.Visitor
import Metor.Lib.Layout
import Metor.Lib.Run
import Metor.Spec.Series
import Metor.Spec.VTable

/-!
# Tables of a fixed-rate stream: what they should say

`Describes`: the vtable reads off the table just what was written to it.
`Reachable` are the series that a component can have at any time, between the
steps of its writer and after it was opened from any listing of its directory.
-/

namespace Metor.Impl.Visitor

open Metor.Lib Metor.Impl.Proto

/-! ## The samples written, and where -/

/-- A sample in the body of a table. -/
structure Written where
  componentId : Nat
  schema : ComponentSchema
  timestampAt : Nat
  valueAt : Nat
  timestamp : Int
  value : Bytes
  deriving DecidableEq, Repr

/-- What `populate_table` writes; the places are those after the header of 8 bytes. -/
def written (timestamp : Int) : LenPacket → List Component → List Written
  | _, [] => []
  | table, entity :: rest =>
    match nearest entity timestamp with
    | none => written timestamp table rest
    | some nearest =>
      let stamped := table.pushAligned 8 (i64Bytes nearest.timestamp)
      let padded := stamped.padForType entity.schema.primType
      let value := nearest.data.getD []
      ⟨entity.componentId, entity.schema, stamped.inner.length - 8 - 8, padded.inner.length - 8, nearest.timestamp, value⟩ ::
        written timestamp (padded.extendFromSlice value) rest

/-- The item of `realize_fields` for a sample. -/
def Written.item (w : Written) : RealizedField :=
  ⟨w.componentId, w.schema.dim, w.schema.primType, w.valueAt, some ⟨w.schema.primType, w.schema.dim, w.value⟩,
    some w.timestamp⟩

/-- Where a field finds its timestamp and its value. -/
def placeOf (f : FieldBuilder) : Option (Nat × Nat) :=
  match f.arg with
  | .timestamp _ (.table _ offset _) _ => some (offset, f.offset)
  | _ => none

/-- The vtable finds the samples where they were written, and reads them off the body and nothing else. -/
def Describes (components : List Component) (timestamp : Int) (table : LenPacket) : Prop :=
  ∃ populated body, (populateTable components table.clear timestamp).map Prod.fst = some populated ∧
    populated.body = some body ∧
    (vtableFields components).map placeOf =
      (written timestamp table.clear components).map (fun w => some (w.timestampAt, w.valueAt)) ∧
    ∀ dataAddr addr, dataAddr % 8 = 0 → addr % 8 = 0 → ∃ fuel, ∀ fuel' ≥ fuel,
      (vtable components dataAddr).fields.map ((vtable components dataAddr).realizeField (some ⟨addr, body⟩) fuel') =
        (written timestamp table.clear components).map fun w => .ok w.item

/-! ## Components -/

/-- A value that a table with this schema can hold. -/
def IsValue (schema : ComponentSchema) (value : Bytes) : Prop :=
  ∃ buf view, ComponentView.tryFromBytesShape buf schema.dim schema.primType = .ok view ∧ view.bytes = value

/-- The series of a component, at any time: a push may have added a node or written its data only. -/
inductive Reachable (schema : ComponentSchema) : TimeSeries → Prop
  | create : Reachable schema []
  | createNode {list t value node} : Reachable schema list → IsValue schema value →
      list.createNode (toString t) t value.length = .ok node → Reachable schema (node :: list)
  | pushData {head prev value data} : Reachable schema (head :: prev) → IsValue schema value →
      head.data.write 1 value = .ok data → Reachable schema ({ head with data := data } :: prev)
  | push {list t value} : Reachable schema list → IsI64 t → IsValue schema value →
      Reachable schema (list.tryPushBuf t value).2
  | reopen {list list' : TimeSeries} : Reachable schema list → list'.Subperm list → Reachable schema list'

structure Component.Valid (c : Component) : Prop where
  id_lt : c.componentId < 2 ^ 64
  dim_lt : ∀ d ∈ c.schema.dim, d < 2 ^ 64
  series : Reachable c.schema c.timeSeries

/-! ## When the two functions agree -/

/-- The components the vtable has a field for. -/
def listed (components : List Component) : List Component := components.filter fun c => !c.timeSeries.isEmpty

/-- The walk of `binary_search_nearest` stops at the node. -/
def StopsAt (t : Int) (n : TimeSeriesNode) : Prop := n.timestamps ≠ [] ∧ (n.first ≤ t ∨ n.last < t)

/-- The component has samples, and the walk comes to no node without samples. -/
def Component.Sampled (c : Component) (timestamp : Int) : Prop :=
  ∃ start, c.timeSeries.startTimestamp = some start ∧
    ∀ k (hk : k < c.timeSeries.length), c.timeSeries[k].timestamps = [] →
      ∃ j, ∃ hj : j < k, StopsAt (max start timestamp) c.timeSeries[j]

/-- A sample's end in a body, when it is written from `offset` on. -/
def slotEnd (offset : Nat) (c : Component) : Nat :=
  roundUp (roundUp offset 8 + 8) c.schema.primType.alignment + c.schema.size

/-- The length of a body with a sample of each component. -/
def bodySize (components : List Component) : Nat := components.foldl slotEnd 0

/-- The bytes of the leaves of each field: a type, dimensions and an id. -/
def leafBytes (components : List Component) : Nat := (components.map fun c => 16 + 8 * c.schema.dim.length).sum

/-- Every component that the vtable has a field for has a sample to write, and the packet fits its length. -/
structure Sampled (components : List Component) (timestamp : Int) : Prop where
  sampled : ∀ c ∈ listed components, c.Sampled timestamp
  size : 4 + bodySize (listed components) < 2 ^ 32

end Metor.Impl.Visitor

/-!
## `GetTimeSeries`: what it should answer

The earliest samples of the range, as many as the limit allows.
-/

namespace Metor.Impl.GetTimeSeries

open Metor.Lib Metor.Impl.Proto

/-- The timestamps of a range, oldest first. -/
def rangeTimestamps (slices : List (List Int × Bytes)) : List Int := slices.reverse.flatMap Prod.fst

/-- The values of a range, oldest first. -/
def rangeData (slices : List (List Int × Bytes)) : Bytes := slices.reverse.flatMap Prod.snd

/-- The earliest `len` timestamps and their values, the number of bytes the packet says it has, and
no slot left unwritten. -/
def Answers (size : Nat) (slices : List (List Int × Bytes)) (limit : Option Nat) (id : UInt8 × UInt8) (reqId : UInt8)
    (pkt : LenPacket) : Prop :=
  ∃ dest p, copySlices size slices limit = some dest ∧ dest.left = 0 ∧ reply size slices limit id reqId pkt = some p ∧
    p.inner.drop 8 = leBytes 8 (replyLen slices limit) ++
      (((rangeTimestamps slices).take (replyLen slices limit)).flatMap i64Bytes ++
        (rangeData slices).take (replyLen slices limit * size)) ∧
    p.inner.length = 4 + p.pktLen

/-- How many of the newest samples are not sent. -/
def toSkip (slices : List (List Int × Bytes)) (limit : Option Nat) : Nat := rangeLen slices - replyLen slices limit

/-- Nothing is skipped, or everything is, or the newest slice that has samples has more than are
skipped and is left with as many again, or is the only one. -/
def SkipsInFirst (slices : List (List Int × Bytes)) (toSkip : Nat) : Prop :=
  toSkip = 0 ∨ rangeLen slices ≤ toSkip ∨
    ∃ l, (slices.map fun s => s.1.length).find? (fun l => decide (0 < l)) = some l ∧ toSkip < l ∧
      (2 * toSkip ≤ l ∨ rangeLen slices = l)

/-- The bytes of the packet: header, count, timestamps and values. -/
def replySize (size : Nat) (slices : List (List Int × Bytes)) (limit : Option Nat) : Nat :=
  4 + (8 + replyLen slices limit * 8 + replyLen slices limit * size)

end Metor.Impl.GetTimeSeries

/-!
## The tables of a fixed-rate stream: what they should say

`TablesDecode`: each table that was sent is read with the vtable sent last
before it, and each field of that vtable gives a sample that `populate_table`
wrote. `Steady` are the steps after which it does.
-/

namespace Metor.Impl.FixedStream

open Metor.Lib Metor.Impl.Proto Metor.Impl.Visitor

/-! ## Reading the stream -/

/-- The vtable sent last, and the components it has fields for. -/
def lastVtable : List Sent → Option (List Nat × List FieldBuilder)
  | [] => none
  | .vtableMsg listed fields :: _ => some (listed, fields)
  | _ :: sent => lastVtable sent

/-- Each field of the vtable is found where a sample was written, and read as that sample. -/
def Decodes (fields : List FieldBuilder) (table : LenPacket) (samples : List Written) : Prop :=
  ∃ body, table.body = some body ∧ ∀ k < fields.length, ∃ w ∈ samples,
    fields[k]?.map placeOf = some (some (w.timestampAt, w.valueAt)) ∧
    ∀ dataAddr addr, dataAddr % 8 = 0 → addr % 8 = 0 → ∃ fuel, ∀ fuel' ≥ fuel,
      (Proto.vtable fields dataAddr).fields[k]?.map
        ((Proto.vtable fields dataAddr).realizeField (some ⟨addr, body⟩) fuel') = some (.ok w.item)

/-- Of what was sent, the last first, each table decodes. -/
def TablesDecode : List Sent → Prop
  | [] => True
  | .table timestamp components table :: sent =>
    (∃ listed fields, lastVtable sent = some (listed, fields) ∧
      Decodes fields table (written timestamp table.clear components)) ∧ TablesDecode sent
  | _ :: sent => TablesDecode sent

/-! ## When it decodes -/

/-- The components of the stream that are not empty. -/
def State.listed (s : State) : List Nat := s.db.which (!·.timeSeries.isEmpty) s.stream.components

/-- The components of the stream that have a sample for a table. -/
def State.sampled (s : State) (timestamp : Int) : List Nat :=
  s.db.which (fun c => (nearest c timestamp).isSome) s.stream.components

/-- The components that a table written now is going to be read for: those of the last vtable if the
count of fields stays, and otherwise those of the vtable that is then sent. -/
def State.readFor (s : State) (timestamp : Int) : List Nat :=
  if s.stream.currentFieldCount = some (s.sampled timestamp).length then
    ((lastVtable s.stream.sent).map Prod.fst).getD []
  else s.listed

/-- Each of them has a sample, and the table and the data of its vtable fit their lengths. -/
def State.Complete (s : State) (timestamp : Int) : Prop :=
  (∀ i ∈ s.readFor timestamp, i ∈ s.sampled timestamp) ∧
    4 + bodySize (s.db.view (s.sampled timestamp)) < 2 ^ 32 ∧ leafBytes (s.db.view (s.sampled timestamp)) < 2 ^ 32

/-- The next step of `persist` makes the first node of the time series. -/
def Live.begins (l : Live) : Bool :=
  match l.persist with
  | .push _ _ => l.isEmpty
  | _ => false

/-- The table is written, and its vtable is still to be sent. -/
def Stream.Renews (s : Stream) : Prop :=
  match s.pc with
  | .compare _ fields => s.currentFieldCount ≠ some fields
  | .sendVtableAgain _ _ => True
  | _ => False

/-- Tables are written when each component they are read for has a sample, and no time series of the
stream begins between a table and its vtable. -/
def Steady (s : State) : Act → Prop
  | .stream .next =>
    match s.stream.pc with
    | .populate timestamp => s.Complete timestamp
    | _ => True
  | .db (.persist i) => s.stream.Renews → i ∈ s.stream.components → (s.db.components[i]?.any Live.begins) = false
  | _ => True

instance (s : Stream) : Decidable s.Renews :=
  match h : s.pc with
  | .compare _ fields => decidable_of_iff (s.currentFieldCount ≠ some fields) (by rw [Stream.Renews, h])
  | .sendVtableAgain _ _ => isTrue (by rw [Stream.Renews, h]; trivial)
  | .start | .opened | .top | .readGen _ | .clone _ _ | .sendVtable _ _ | .populate _ | .sendTable _ =>
    isFalse (by rw [Stream.Renews, h]; exact id)

instance (s : State) (timestamp : Int) : Decidable (s.Complete timestamp) := inferInstanceAs (Decidable (_ ∧ _))

instance (s : State) : DecidablePred (Steady s)
  | .stream .next =>
    match h : s.stream.pc with
    | .populate timestamp => decidable_of_iff (s.Complete timestamp) (by rw [Steady, h])
    | .start | .opened | .top | .readGen _ | .clone _ _ | .sendVtable _ _ | .compare _ _ | .sendVtableAgain _ _
    | .sendTable _ => isTrue (by rw [Steady, h]; trivial)
  | .stream (.clone _) | .stream (.play _) => isTrue trivial
  | .db (.persist _) => inferInstanceAs (Decidable (_ → _ → _))
  | .db (.insertField _ _) | .db .startTable | .db (.applyValue _ _ _ _ _) | .db (.endTable _ _) => isTrue trivial

end Metor.Impl.FixedStream
