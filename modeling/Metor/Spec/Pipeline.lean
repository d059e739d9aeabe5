import Metor.Lib.Saturating
import Metor.Lib.Windows
import Metor.Spec.Stages
import Metor.Spec.VTable

/-!
# What a field expression means as a stream

An `Expr` is a field expression of `vtable::builder`: a component under
schemas, timestamps and means. Its stream is the source's, with the means over
it from the innermost to the outermost, each over the completed windows of the
one before. `Preserved` says that the plan of a field has the stages for that
and gives these values; `Faithful` is when it does.
-/

namespace Metor.Impl.Stages

open Metor.Lib Metor.Impl.Proto Metor.Impl.FieldTable
open Metor.Impl.Streams (FixedRateOp)

/-- What a timestamp is read from: a part of the table, or data of the vtable. -/
inductive Stamp
  | table (offset len : Nat)
  | data (timestamp : Int)
  deriving DecidableEq, Repr

inductive Expr
  | component (id : UInt64)
  | schema (ty : PrimType) (dim : List Nat) (arg : Expr)
  | timestamp (source : Stamp) (arg : Expr)
  | mean (op : MeanOp) (arg : Expr)
  | fixedRate (op : FixedRateOp) (id : UInt64)
  deriving DecidableEq, Repr

/-- The node of a timestamp's source. -/
inductive Stamp.Builds : Stamp → OpBuilder → Prop
  | table (a offset len : Nat) : Builds (.table offset len) (.table a offset len)
  | data {t : Int} (a : Nat) : IsI64 t → Builds (.data t) (.data a 8 (i64Bytes t))

/-- The nodes that `component`, `schema`, `timestamp` and `ext` make of an expression, at some addresses. -/
inductive Expr.Builds (msgs : Msgs) : Expr → OpBuilder → Prop
  | component (a d : Nat) (id : UInt64) : Builds msgs (.component id) (.ofComponent a d id.toNat)
  | schema {e : Expr} {arg : OpBuilder} {dim : List Nat} (a t d : Nat) (ty : PrimType) : (∀ n ∈ dim, n < 2 ^ 64) →
      Builds msgs e arg → Builds msgs (.schema ty dim e) (.ofSchema a t d ty dim arg)
  | timestamp {e : Expr} {source : Stamp} {node arg : OpBuilder} (a : Nat) : source.Builds node → Builds msgs e arg →
      Builds msgs (.timestamp source e) (.timestamp a node arg)
  | mean {e : Expr} {arg : OpBuilder} (a d : Nat) (op : MeanOp) : Builds msgs e arg →
      Builds msgs (.mean op e) (.ext a msgs.meanOpId (.data d 1 (msgs.meanOp.toAllocvec op)) arg)
  | fixedRate (a d a' d' : Nat) (op : FixedRateOp) (id : UInt64) : Builds msgs (.fixedRate op id)
      (.ext a msgs.fixedRateOpId (.data d 1 (msgs.fixedRateOp.toAllocvec op)) (.ofComponent a' d' id.toNat))

/-- What is written with `postcard` is read back, and the ids of the messages differ. -/
structure Msgs.Lawful (msgs : Msgs) : Prop where
  meanOp : ∀ op, msgs.meanOp.fromBytes (msgs.meanOp.toAllocvec op) = some op
  mean_ne_fixedRate : msgs.fixedRateOpId ≠ msgs.meanOpId
  behavior_ne_mean : msgs.fixedRateBehaviorId ≠ msgs.meanOpId
  behavior_ne_fixedRate : msgs.fixedRateBehaviorId ≠ msgs.fixedRateOpId

namespace Expr

def componentId : Expr → UInt64
  | component id | fixedRate _ id => id
  | schema _ _ arg | timestamp _ arg | mean _ arg => arg.componentId

def source (size : Nat) : Expr → StreamStage
  | component _ => .realTime size
  | fixedRate op _ => .fixedRate size op
  | schema _ _ arg | timestamp _ arg | mean _ arg => arg.source size

def isFixedRate : Expr → Bool
  | component _ => false
  | fixedRate _ _ => true
  | schema _ _ arg | timestamp _ arg | mean _ arg => arg.isFixedRate

/-- The windows of the means, from the innermost to the outermost. -/
def means : Expr → List UInt16
  | component _ | fixedRate _ _ => []
  | schema _ _ arg | timestamp _ arg => arg.means
  | mean op arg => arg.means ++ [op.window]

/-- The innermost schema. -/
def innerSchema : Expr → Option (List Nat × PrimType)
  | component _ | fixedRate _ _ => none
  | schema ty dim arg => arg.innerSchema.or (some (dim, ty))
  | timestamp _ arg | mean _ arg => arg.innerSchema

/-- The place in the table of the innermost timestamp that has one. -/
def innerRange : Expr → Option (Nat × Nat)
  | component _ | fixedRate _ _ => none
  | timestamp (.table offset len) arg => arg.innerRange.or (some (offset, offset + len))
  | timestamp (.data _) arg | schema _ _ arg | mean _ arg => arg.innerRange

/-- How many operations there are above the component. -/
def depth : Expr → Nat
  | component _ => 0
  | fixedRate _ _ => 1
  | schema _ _ arg | timestamp _ arg | mean _ arg => arg.depth + 1

end Expr

/-- A window of none is over with its first value. -/
def windowSize (window : UInt16) : Nat := max window.toNat 1

/-- The other tasks do not write to the plan's field. -/
def Round.Quiet (shard : Shard) (round : Round) : Prop :=
  ∀ k buf, slice (round.others k buf) (headerOffset + shard.value.start) (headerOffset + shard.value.stop) =
    slice buf (headerOffset + shard.value.start) (headerOffset + shard.value.stop)

variable (fl : Floats) (msgs : Msgs) (components : UInt64 → Option ComponentSchema) (v : VTable) (addr : Nat)
  (field : Proto.Field) (e : Expr) (c : ComponentSchema)

/-- The field compiles to a plan of the source and the means, from the innermost to the outermost, and the plan gives
the means of what the source alone gives, each over the completed windows of the one before. -/
def Preserved : Prop :=
  ∃ fuel plan, compile msgs components v fuel field = .ok plan ∧
    plan.stages = e.source c.size :: e.means.map (fun w => .mean (.new w)) ∧
    ∀ buf rounds, buf.length = headerOffset + tableLen v →
      (∀ round ∈ rounds, Round.Valid c.size round ∧ round.Quiet plan.shard) →
        ∃ values, ({ plan with stages := [e.source c.size] } : Plan).run fl addr buf rounds = some values ∧
          plan.run fl addr buf rounds =
            some (composed (meanOf fl c.primType c.size) (e.means.map windowSize) values)

/-- When the plan does so. -/
structure Faithful : Prop where
  realTime : e.isFixedRate = false
  /-- The windows read the same from both ends. -/
  palindrome : e.means.reverse = e.means
  oneLarge : ((e.means.map windowSize).filter (1 < ·)).length ≤ 1
  depth : e.depth < 65535
  size : c.size = field.len
  dims : e.innerSchema ≠ none → v.data.addr % 8 = 0
  stamp : ∀ range ∈ e.innerRange, range.2 - range.1 = 8
  mean : e.means ≠ [] → c.primType ≠ .bool ∧ (addr + headerOffset + field.offset) % c.primType.size = 0

end Metor.Impl.Stages

/-!
## What a windowed mean should be

The values of a field as rows of integers, and the mean of a window of rows:
element by element the sum, divided and rounded toward zero. `SumsUp` is when a
column of a window survives being summed in the element's own width.
-/

namespace Metor.Impl.Stages

open Metor.Lib Metor.Impl.Proto

/-- `MeanStage::next` on each value of a field at `addr`: what the field has whenever the stage is finished. -/
def MeanStage.run (fl : Floats) (addr : Nat) (ty : PrimType) (stage : MeanStage) : List Bytes → Option (List Bytes × MeanStage)
  | [] => some ([], stage)
  | value :: values => do
    let (finished, stage, bytes) ← stage.next fl ⟨addr, value⟩ ty
    let (means, stage) ← run fl addr ty stage values
    return (if finished then bytes :: means else means, stage)

/-! ## Integers -/

/-- An integer type. -/
def IsInt (ty : PrimType) : Prop := ty ≠ .bool ∧ ty ≠ .f32 ∧ ty ≠ .f64

instance (ty : PrimType) : Decidable (IsInt ty) := inferInstanceAs (Decidable (_ ∧ _))

/-- `MIN` -/
def lowest : PrimType → Int
  | .i8 => -2 ^ 7
  | .i16 => -2 ^ 15
  | .i32 => -2 ^ 31
  | .i64 => -2 ^ 63
  | _ => 0

/-- `MAX` -/
def highest : PrimType → Int
  | .u8 => 2 ^ 8 - 1
  | .u16 => 2 ^ 16 - 1
  | .u32 => 2 ^ 32 - 1
  | .u64 => 2 ^ 64 - 1
  | .i8 => 2 ^ 7 - 1
  | .i16 => 2 ^ 15 - 1
  | .i32 => 2 ^ 31 - 1
  | .i64 => 2 ^ 63 - 1
  | _ => 0

/-- The integer of an element. -/
def intOf (ty : PrimType) (bytes : Bytes) : Int := if lowest ty < 0 then signedOf bytes else leNat bytes

/-- The integers of a value. -/
def ints (ty : PrimType) (value : Bytes) : List Int := (Proto.elements ty.size value).map (intOf ty)

/-- The `f64` division is exact for sums below `2 ^ 53`. -/
def DividesExactly (fl : Floats) : Prop := ∀ ty n count, n.natAbs < 2 ^ 53 → 0 < count → fl.divInt ty n count = n.tdiv count

/-! ## Means -/

/-- Element `i` of each row. -/
def column (rows : List (List Int)) (i : Nat) : List Int := rows.map (·.getD i 0)

/-- The mean of rows of `n` integers. -/
def exactMean (n : Nat) (rows : List (List Int)) : List Int :=
  (List.range n).map fun i => (column rows i).sum.tdiv rows.length

/-- The rows of the window of number `k`. -/
def windowAt (w : Nat) (rows : List (List Int)) (k : Nat) : List (List Int) := (rows.drop (k * w)).take w

/-- The means of all windows, each within what it is the mean of. -/
structure AreMeans (w n : Nat) (rows means : List (List Int)) : Prop where
  exact : means = windowed (exactMean n) w rows
  between : ∀ k mean, means[k]? = some mean → ∀ i < n, ∀ lo hi : Int,
    (∀ x ∈ column (windowAt w rows k) i, lo ≤ x ∧ x ≤ hi) → lo ≤ mean.getD i 0 ∧ mean.getD i 0 ≤ hi

/-- No partial sum of the column leaves the type's range; or its integers have one sign, and the quotient of their sum is
no further from zero than that of the type's `MIN` or `MAX`. -/
def SumsUp (ty : PrimType) (xs : List Int) : Prop :=
  (∀ k ≤ xs.length, lowest ty ≤ (xs.take k).sum ∧ (xs.take k).sum ≤ highest ty) ∨
    OneSigned xs ∧ (lowest ty).tdiv xs.length ≤ xs.sum.tdiv xs.length ∧ xs.sum.tdiv xs.length ≤ (highest ty).tdiv xs.length

/-- A property of every column of every whole window. -/
def EachColumn (w n : Nat) (rows : List (List Int)) (p : List Int → Prop) : Prop :=
  ∀ k, (k + 1) * w ≤ rows.length → ∀ i < n, p (column (windowAt w rows k) i)

end Metor.Impl.Stages
