import Metor.Impl.Arrow
import Metor.Spec.Series

/-!
# Export to Arrow: what is expected

The rows of the batches of a component are its samples, one after the other:
the time, and the elements of the value. `Lawful` is what the `arrow` crate
does with a buffer, and `Exportable` when the rows are right.
-/

namespace Metor.Impl.Arrow

open Metor.Lib Metor.Impl.Proto

variable {A B : Type} (arrow : Arrow A B)

/-- Bit `i` of a buffer, counted from the lowest of its first byte. -/
def bit (buffer : Bytes) (i : Nat) : Bool := (buffer.getD (i / 8) 0).toNat.testBit (i % 8)

/-- Arrays are views of their buffers, which must be long enough. A list array has as many rows as its values have
whole lists; of a size below 0 there is none. The columns of a batch are equally long. -/
structure Lawful : Prop where
  primitive : ∀ width buffer len, len * width ≤ buffer.length → ∃ a, arrow.primitive width buffer len = some a ∧
    arrow.len a = len ∧ ∀ i < len, arrow.value a i = [.native (Lib.slice buffer (i * width) ((i + 1) * width))]
  boolean : ∀ buffer len, len ≤ 8 * buffer.length → ∃ a, arrow.boolean buffer len = some a ∧
    arrow.len a = len ∧ ∀ i < len, arrow.value a i = [.bool (bit buffer i)]
  fixedSizeList : ∀ size < 2 ^ 31, ∀ values, ∃ a, arrow.fixedSizeList (Int.ofNat size) values = some a ∧
    (0 < size → arrow.len a = arrow.len values / size) ∧ (arrow.len values = 0 → arrow.len a = 0) ∧
    ∀ i < arrow.len a, arrow.value a i = (List.range size).flatMap fun j => arrow.value values (i * size + j)
  negative : ∀ size < 0, ∀ values, arrow.fixedSizeList size values = none
  slice : ∀ a offset len, offset + len ≤ arrow.len a → ∃ s, arrow.slice a offset len = some s ∧
    arrow.len s = len ∧ ∀ i < len, arrow.value s i = arrow.value a (offset + i)
  tryNew : ∀ columns rows, columns ≠ [] → (∀ c ∈ columns, arrow.len c.2 = rows) →
    ∃ b, arrow.tryNew columns = some b ∧ arrow.numRows b = rows ∧ arrow.columns b = columns.map Prod.snd

/-! ## Rows -/

/-- The elements of each column. -/
abbrev Row := List (List Scalar)

def rows (b : B) : List Row :=
  (List.range (arrow.numRows b)).map fun i => (arrow.columns b).map fun a => arrow.value a i

/-- The time in the first column. -/
def timeOf : Row → Int
  | [.native bytes] :: _ => i64OfBytes bytes
  | _ => 0

/-- Element `k` of stored bytes. -/
def stored (ty : PrimType) (data : Bytes) (k : Nat) : Scalar :=
  if ty = .bool then .bool (data.getD k 0 != 0) else .native (Lib.slice data (k * ty.size) ((k + 1) * ty.size))

/-- The elements of a value. -/
def elementsOf (ty : PrimType) (value : Bytes) : List Scalar :=
  (List.range (value.length / ty.size)).map fun k => stored ty value k

/-- The row of a sample. -/
def rowOf (ty : PrimType) (sample : Int × Bytes) : Row := [[.native (i64Bytes sample.1)], elementsOf ty sample.2]

/-- One row for each stored sample, in the order of time. Without a batch there are no rows. -/
def Exports (schema : ComponentSchema) (list : TimeSeries) (batches : Option (Option (List B))) : Prop :=
  ∃ written, batches = some written ∧
    (written.getD []).flatMap arrow.rows = list.samples.map (rowOf schema.primType) ∧
    (((written.getD []).flatMap arrow.rows).map timeOf).Pairwise (· ≤ ·)

/-! ## When the rows are right -/

/-- The nodes of a component of this schema: the data has an element of `schema.size()` bytes for each timestamp, and
perhaps more, for which the index had no room. -/
structure Holds (schema : ComponentSchema) (node : TimeSeriesNode) : Prop where
  elementSize : node.elementSize = schema.size
  data : ∃ rest, node.data.data.length = (node.timestamps.length + rest) * schema.size
  timestamps : ∀ t ∈ node.timestamps, IsI64 t

/-- The lists of a column: the number of elements fits an `i32`, and is that of the stored values. -/
def ListsFit (schema : ComponentSchema) (node : TimeSeriesNode) : Prop :=
  schema.dim.prod % 2 ^ 32 < 2 ^ 31 ∧ (node.timestamps ≠ [] →
    0 < schema.dim.prod % 2 ^ 32 ∧ schema.dim.prod % 2 ^ 32 * schema.primType.size = schema.size)

/-- Of the first `n` bytes, byte `k` is not 0 just when bit `k` of them all is set. -/
def Packed (data : Bytes) (n : Nat) : Prop := ∀ k < n, bit data k = (data.getD k 0 != 0)

/-- Lists fit, the bytes of a `bool` component are their own bits, and no sample is later than one of an older node. -/
structure Exportable (schema : ComponentSchema) (list : TimeSeries) : Prop where
  lists : schema.dim ≠ [] → ∀ node ∈ list, ListsFit schema node
  bools : schema.primType = .bool → ∀ node ∈ list, Packed node.data.data (node.timestamps.length * schema.size)
  sorted : ∀ node ∈ list, node.timestamps.Pairwise (· ≤ ·)
  across : list.Pairwise fun newer older => ∀ t ∈ newer.timestamps, ∀ u ∈ older.timestamps, t ≤ u

end Metor.Impl.Arrow
