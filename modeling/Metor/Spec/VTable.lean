import Metor.Impl.Builder
import Metor.Impl.VTable

/-!
# What the operations of a vtable denote

`Realizes v table r op`: the operation at `r` denotes `op` over the table.
There is one rule for each case of `VTable::realize` that gives a value.
-/

namespace Metor.Spec.VTable

open Metor.Lib Metor.Impl.Proto

inductive Realizes (v : VTable) (table : Option View) : OpRef → RealizedOp → Prop
  | data {r offset len s} : v.ops[r]? = some (.data offset len) → v.data.get offset (offset + len) = some s →
      Realizes v table r (.data s)
  | table {r offset len t s} : v.ops[r]? = some (.table offset len) → table = some t →
      t.get offset (offset + len) = some s → Realizes v table r (.table (some s) (offset, offset + len))
  | noTable {r offset len} : v.ops[r]? = some (.table offset len) → table = none →
      Realizes v table r (.table none (offset, offset + len))
  | none {r} : v.ops[r]? = some .none → Realizes v table r .none
  | component {r c op id} : v.ops[r]? = some (.component c) → Realizes v table c op → op.asComponentId = some id →
      Realizes v table r (.component id)
  | schema {r ty dim arg tyOp dimOp t s d} : v.ops[r]? = some (.schema ty dim arg) → Realizes v table ty tyOp →
      tyOp.asPrimTy = some t → Realizes v table dim dimOp → dimOp.asSlice = some s → s.asU64s = .ok d →
      Realizes v table r (.schema ⟨d, t, arg⟩)
  | timestamp {r source arg op s t} : v.ops[r]? = some (.timestamp source arg) → Realizes v table source op →
      op.asSlice = some s → readTimestamp s = .ok t →
      Realizes v table r (.timestamp ⟨some t, op.asTableRange, arg⟩)
  | noTimestamp {r source arg op} : v.ops[r]? = some (.timestamp source arg) → Realizes v table source op →
      op.asSlice = Option.none → Realizes v table r (.timestamp ⟨.none, op.asTableRange, arg⟩)
  | ext {r arg id data op s} : v.ops[r]? = some (.ext arg id data) → Realizes v table data op →
      op.asSlice = some s → Realizes v table r (.ext ⟨id, s, arg⟩)

/-- The argument of an operation: what a field's loop goes on with. -/
def argOf : RealizedOp → Option OpRef
  | .schema s => some s.arg
  | .timestamp t => some t.arg
  | .ext e => some e.arg
  | _ => none

/-- What a table may give for a field that realizes to `r` without one: the same component and
schema, and a value of just their length. -/
structure Agrees (r r' : RealizedField) : Prop where
  componentId : r'.componentId = r.componentId
  ty : r'.ty = r.ty
  shape : r'.shape = r.shape
  view : ∃ view, r'.view = some view ∧ view.ty = r.ty ∧ view.shape = r.shape ∧
    view.bytes.length = r.shape.prod * r.ty.size
  fits : r.shape.prod * r.ty.size < 2 ^ 64

end Metor.Spec.VTable

/-!
## What a builder expression means

`OpBuilder.eval` reads an expression directly, without a vtable: a leaf is its
bytes or its part of the table, and the other nodes read their operands.
`FieldBuilder.eval` follows the arguments of a field down to a component; the
innermost schema and timestamp are the ones that count. A slice at address 0
is aligned for every type, so none of this fails for its alignment.
-/

namespace Metor.Impl.Proto

open Metor.Lib

/-- The operations an operation refers to. -/
def Op.refs : Op → List OpRef
  | .component c => [c]
  | .schema ty dim arg => [ty, dim, arg]
  | .timestamp source arg => [source, arg]
  | .ext arg _ d => [arg, d]
  | _ => []

namespace OpBuilder

/-- The nodes of an expression. -/
def nodes : OpBuilder → List OpBuilder
  | e@(.data ..) | e@(.table ..) => [e]
  | e@(.component _ c) => e :: c.nodes
  | e@(.schema _ ty dim arg) => e :: (ty.nodes ++ dim.nodes ++ arg.nodes)
  | e@(.timestamp _ source arg) => e :: (source.nodes ++ arg.nodes)
  | e@(.ext _ _ d arg) => e :: (arg.nodes ++ d.nodes)

/-- `op` is the operation for a node: it has the node's own values, and refers to its operands by
where `At` says they are. -/
def Encodes (data : Bytes) (At : Nat → OpRef → Prop) : OpBuilder → Op → Prop
  | .data _ _ bytes, .data offset len =>
    len = bytes.length ∧ offset + len ≤ data.length ∧ slice data offset (offset + len) = bytes
  | .table _ offset len, .table offset' len' => offset' = offset ∧ len' = len
  | .component _ c, .component r => At c.addr r
  | .schema _ ty dim arg, .schema r₁ r₂ r₃ => At ty.addr r₁ ∧ At dim.addr r₂ ∧ At arg.addr r₃
  | .timestamp _ source arg, .timestamp r₁ r₂ => At source.addr r₁ ∧ At arg.addr r₂
  | .ext _ id d arg, .ext r₁ id' r₂ => id' = id ∧ At arg.addr r₁ ∧ At d.addr r₂
  | _, _ => False

end OpBuilder

/-- The nodes of a list of fields. -/
def nodesOf (fields : List FieldBuilder) : List OpBuilder := fields.flatMap fun f => f.arg.nodes

/-- The expressions of the fields share nodes by their addresses: an address is that of one node.
The alignment of a data node is that of its type. -/
structure Dag (fields : List FieldBuilder) : Prop where
  inj : ∀ e ∈ nodesOf fields, ∀ e' ∈ nodesOf fields, e.addr = e'.addr → e = e'
  align : ∀ addr align data, .data addr align data ∈ nodesOf fields → 0 < align

/-- The references and the offsets into a vtable of these operations and data fit in 32 bits. -/
structure Fits (ops : List Op) (data : Bytes) : Prop where
  ops_le : ops.length ≤ 2 ^ 32
  data_lt : data.length < 2 ^ 32

/-! ## What each node makes of its operands

An operand is read as the bytes it stands for, if it stands for any. -/

def componentOf (operand : Eval Error (Option Bytes)) : Eval Error Nat := do
  let bytes ← operand
  .okOr .invalidOp (bytes.bind fun bs => if bs.length = 8 then some (leNat bs) else none)

def schemaOf (ty dim : Eval Error (Option Bytes)) : Eval Error (List Nat × PrimType) := do
  let bytes ← ty
  let ty ← .okOr .invalidOp (bytes.bind primTypeOfBytes)
  let bytes ← dim
  let bytes ← .okOr .invalidOp bytes
  let dim ← View.asU64s ⟨0, bytes⟩
  return (dim, ty)

def timestampOf (source : Eval Error (Option Bytes)) : Eval Error (Option Int) := do
  match ← source with
  | some bytes => do
    let t ← readTimestamp ⟨0, bytes⟩
    return some t
  | none => return none

def extOf (data : Eval Error (Option Bytes)) : Eval Error Unit := do
  let bytes ← data
  let _ ← .okOr .invalidOp bytes
  return ()

namespace OpBuilder

/-- The bytes of a leaf; the other nodes have none, but must read their operands without error. A
part of the table has none while there is no table. -/
def eval (table : Option Bytes) : OpBuilder → Eval Error (Option Bytes)
  | .data _ _ bytes => return some bytes
  | .table _ offset len =>
    match table with
    | some t => do
      let v ← .okOr .bufferUnderflow ((View.mk 0 t).get offset (offset + len))
      return some v.bytes
    | none => return none
  | .component _ c => do
    let _ ← componentOf (c.eval table)
    return none
  | .schema _ ty dim _ => do
    let _ ← schemaOf (ty.eval table) (dim.eval table)
    return none
  | .timestamp _ source _ => do
    let _ ← timestampOf (source.eval table)
    return none
  | .ext _ _ d _ => do
    let _ ← extOf (d.eval table)
    return none

end OpBuilder

/-- What a field comes down to: a component, the innermost timestamp and the innermost schema. -/
structure Meaning where
  componentId : Nat
  timestamp : Option Int
  schema : Option (List Nat × PrimType)
  deriving DecidableEq, Repr

/-- The arguments of an expression, down to a component. -/
def OpBuilder.meaning (table : Option Bytes) :
    OpBuilder → (timestamp : Option Int) → (schema : Option (List Nat × PrimType)) → Eval Error Meaning
  | .component _ c, t, s => do
    let id ← componentOf (c.eval table)
    return ⟨id, t, s⟩
  | .schema _ ty dim arg, t, _ => do
    let s ← schemaOf (ty.eval table) (dim.eval table)
    arg.meaning table t (some s)
  | .timestamp _ source arg, _, s => do
    let t ← timestampOf (source.eval table)
    arg.meaning table t s
  | .ext _ _ d arg, t, s => do
    let _ ← extOf (d.eval table)
    arg.meaning table t s
  | e, _, _ => do
    let _ ← e.eval table
    .err .invalidOp

/-- The item of a field that means `m`. -/
def FieldBuilder.item (f : FieldBuilder) (table : Option Bytes) (m : Meaning) : Eval Error RealizedField := do
  let (dim, ty) ← .okOr .schemaNotFound m.schema
  match table with
  | some t => do
    let data ← .okOr .bufferUnderflow ((View.mk 0 t).get f.offset (f.offset + f.len))
    let view ← ComponentView.tryFromBytesShape ⟨0, data.bytes⟩ dim ty
    return ⟨m.componentId, dim, ty, f.offset, some view, m.timestamp⟩
  | none => return ⟨m.componentId, dim, ty, f.offset, none, m.timestamp⟩

def FieldBuilder.eval (f : FieldBuilder) (table : Option Bytes) : Eval Error RealizedField := do
  let m ← f.arg.meaning table none none
  f.item table m

/-- The field's range is in the table, and holds elements for the shape; those of a `bool` are 0 or 1. -/
structure FieldBuilder.Holds (f : FieldBuilder) (t : Bytes) (dim : List Nat) (ty : PrimType) (n : Nat) : Prop where
  product : checkedProduct dim = .ok n
  size : n * ty.size < 2 ^ 64
  elems : n * ty.size ≤ f.len
  range : f.offset + f.len ≤ t.length
  bool : ty = .bool → ∀ b ∈ slice t f.offset (f.offset + n * ty.size), b ≤ 1

/-- The byte views that are cast to words or elements are aligned for them. -/
structure Aligned (v : VTable) (table : Option View) (fields : List FieldBuilder) : Prop where
  dataDims : ∀ ty dim arg offset len, .schema ty dim arg ∈ v.ops → v.ops[dim]? = some (.data offset len) →
    (v.data.addr + offset) % 8 = 0
  tableDims : ∀ t, table = some t → ∀ ty dim arg offset len, .schema ty dim arg ∈ v.ops →
    v.ops[dim]? = some (.table offset len) → (t.addr + offset) % 8 = 0
  fields : ∀ t, table = some t → ∀ f ∈ fields, ∀ m, f.arg.meaning (table.map (·.bytes)) none none = .ok m →
    ∀ dim ty, m.schema = some (dim, ty) → (t.addr + f.offset) % ty.alignment = 0

end Metor.Impl.Proto

/-!
## The order in which a builder emits its nodes

An `Emitter` is a builder of vtables up to what the Rust and the C++ builder
differ in: the width of the positions they store, and which operand of an
extension they visit first. `plain` stores positions as they are. `emitted`
lists the nodes of the fields in the order in which their operations are
emitted, and `Narrow` says when all positions are below a bound.
-/

namespace Metor.Impl.Proto

open Metor.Lib

/-- The casts of a builder, and the order of its visits. -/
structure Emitter where
  /-- A position that is stored. -/
  cast : Nat → Nat
  /-- A stored reference that is copied into an operation or a field. -/
  recast : Nat → Nat
  /-- Whether the data of an extension is visited before its argument. -/
  dataFirst : Bool

namespace Emitter

def rust : Emitter := ⟨asU32, id, false⟩

def cpp : Emitter := ⟨Cpp.asU16, Cpp.asU16, true⟩

/-- A builder without casts. -/
def plain (dataFirst : Bool) : Emitter := ⟨id, id, dataFirst⟩

def pushData (m : Emitter) (b : VTableBuilder) (align : Nat) (data : Bytes) : VTableBuilder × Op :=
  let padding := (align - b.data.length % align) % align
  let padded := b.data ++ List.replicate padding 0
  ({ b with data := padded ++ data }, .data (m.cast padded.length) (m.cast data.length))

def memo (m : Emitter) (b : VTableBuilder) (id : Nat) (op : VTableBuilder → VTableBuilder × Op) : VTableBuilder × OpRef :=
  match b.visited.lookup id with
  | some r => (b, r)
  | none =>
    let (b, op) := op b
    let opRef := m.cast b.ops.length
    ({ b with ops := b.ops ++ [op], visited := (id, opRef) :: b.visited }, opRef)

def visit (m : Emitter) : OpBuilder → VTableBuilder → VTableBuilder × OpRef
  | .data id align data, b => m.memo b id fun b => m.pushData b align data
  | .table id offset len, b => m.memo b id fun b => (b, .table offset len)
  | .component id componentId, b => m.memo b id fun b =>
    let (b, componentId) := m.visit componentId b
    (b, .component (m.recast componentId))
  | .schema id ty dim arg, b => m.memo b id fun b =>
    let (b, ty) := m.visit ty b
    let (b, dim) := m.visit dim b
    let (b, arg) := m.visit arg b
    (b, .schema (m.recast ty) (m.recast dim) (m.recast arg))
  | .timestamp id timestamp arg, b => m.memo b id fun b =>
    let (b, source) := m.visit timestamp b
    let (b, arg) := m.visit arg b
    (b, .timestamp (m.recast source) (m.recast arg))
  | .ext id extId data arg, b => m.memo b id fun b =>
    if m.dataFirst then
      let (b, data) := m.visit data b
      let (b, arg) := m.visit arg b
      (b, .ext (m.recast arg) extId (m.recast data))
    else
      let (b, arg) := m.visit arg b
      let (b, data) := m.visit data b
      (b, .ext (m.recast arg) extId (m.recast data))

def pushField (m : Emitter) (b : VTableBuilder) (field : FieldBuilder) : VTableBuilder :=
  let (b, arg) := m.visit field.arg b
  { b with fields := b.fields ++ [⟨field.offset, field.len, m.recast arg⟩] }

def build (m : Emitter) (fields : List FieldBuilder) : VTableBuilder := fields.foldl m.pushField .empty

def vtable (m : Emitter) (fields : List FieldBuilder) (addr : Nat) : VTable :=
  ⟨(m.build fields).ops, (m.build fields).fields, ⟨addr, (m.build fields).data⟩⟩

end Emitter

namespace OpBuilder

/-- The nodes of an expression, operands first. -/
def order (dataFirst : Bool) : OpBuilder → List OpBuilder
  | e@(.data ..) | e@(.table ..) => [e]
  | e@(.component _ c) => c.order dataFirst ++ [e]
  | e@(.schema _ ty dim arg) => ty.order dataFirst ++ dim.order dataFirst ++ arg.order dataFirst ++ [e]
  | e@(.timestamp _ source arg) => source.order dataFirst ++ arg.order dataFirst ++ [e]
  | e@(.ext _ _ d arg) =>
    (if dataFirst then d.order dataFirst ++ arg.order dataFirst else arg.order dataFirst ++ d.order dataFirst) ++ [e]

/-- Where the data of a node starts, after `n` bytes. -/
def dataStart (n align : Nat) : Nat := n + (align - n % align) % align

/-- Where it ends. -/
def dataEnd (n : Nat) : OpBuilder → Nat
  | .data _ align bytes => dataStart n align + bytes.length
  | _ => n

end OpBuilder

/-- The nodes that have an operation, and one more, if it has none. -/
def emit (E : List OpBuilder) (e : OpBuilder) : List OpBuilder := if e.addr ∈ E.map OpBuilder.addr then E else E ++ [e]

/-- The nodes of the fields, each where its address is met first. -/
def emitted (dataFirst : Bool) (fields : List FieldBuilder) : List OpBuilder :=
  (fields.flatMap fun f => f.arg.order dataFirst).foldl emit []

/-- The references to these operations, and the offsets and the lengths of their data, are below the bound. -/
structure Narrow (bound : Nat) (E : List OpBuilder) : Prop where
  length_le : E.length ≤ bound
  data : ∀ E₁ a align data E₂, E = E₁ ++ .data a align data :: E₂ →
    OpBuilder.dataStart (E₁.foldl OpBuilder.dataEnd 0) align < bound ∧ data.length < bound

end Metor.Impl.Proto

/-!
## What a vtable says of a field

`Said` is a realized operation without where the vtable keeps its data and its
other operations. The `trail` of a field lists its operations down to the
component, with the timestamps and the extensions; `describe` adds its place in
the table and what `realize_fields` gives for it.
-/

namespace Metor.Impl.Proto

open Metor.Lib Metor.Spec.VTable

inductive Said
  | data (bytes : Bytes)
  | table (slice : Option View) (range : Nat × Nat)
  | component (componentId : Nat)
  | schema (dim : List Nat) (ty : PrimType)
  | timestamp (timestamp : Option Int) (range : Option (Nat × Nat))
  | ext (id : Nat) (bytes : Bytes)
  | none
  deriving DecidableEq, Repr

def RealizedOp.said : RealizedOp → Said
  | .data v => .data v.bytes
  | .table slice range => .table slice range
  | .component id => .component id
  | .schema s => .schema s.dim s.ty
  | .timestamp t => .timestamp t.timestamp t.range
  | .ext e => .ext e.id e.data.bytes
  | .none => .none

/-- The operations from `r` on, down to one without an argument. -/
def VTable.trail (v : VTable) (table : Option View) (fuel : Nat) : (rounds : Nat) → OpRef → Eval Error (List Said)
  | 0, _ => .running
  | rounds + 1, r => do
    let op ← v.realize table fuel r
    match argOf op with
    | some arg => do
      let rest ← v.trail table fuel rounds arg
      return op.said :: rest
    | none => return [op.said]

/-- What a vtable says of a field over a table. -/
structure Description where
  offset : Nat
  len : Nat
  trail : Eval Error (List Said)
  field : Eval Error RealizedField
  deriving DecidableEq, Repr

def VTable.describe (v : VTable) (table : Option View) (fuel : Nat) (f : Field) : Description :=
  ⟨f.offset, f.len, v.trail table fuel fuel f.arg, v.realizeField table fuel f⟩

/-- A data node starts at a word, in the data of the nodes `E`. -/
def StartsAtWord (E : List OpBuilder) (e : OpBuilder) : Prop :=
  ∃ E₁ a align data E₂, e = .data a align data ∧ E = E₁ ++ e :: E₂ ∧
    OpBuilder.dataStart (E₁.foldl OpBuilder.dataEnd 0) align % 8 = 0

/-- The dimensions of a schema start at words for both builders, or for neither. -/
def DimsAlike (fields : List FieldBuilder) : Prop :=
  ∀ a ty dim arg, .schema a ty dim arg ∈ nodesOf fields →
    (StartsAtWord (emitted true fields) dim ↔ StartsAtWord (emitted false fields) dim)

/-- The data nodes that are dimensions are aligned for their words, as `schema` makes them. -/
def WordDims (fields : List FieldBuilder) : Prop :=
  ∀ a ty a' align bytes arg, .schema a ty (.data a' align bytes) arg ∈ nodesOf fields → align % 8 = 0

end Metor.Impl.Proto
