import Metor.Impl.Eql.Context
import Metor.Impl.TimeSeries

/-!
# From expressions to SQL (`Expr::to_sql` in `libs/db/eql/src/lib.rs`)

The text of a query, and the tables that `DB::as_session_context`
(`libs/db/src/arrow/mod.rs`) registers for the queries to run on.

Integers of the machine wrap, as in a release build.
-/

namespace Metor.Impl.Eql

/-- `replace(".", "_")` -/
def replaceDots (name : Str) : Str := name.map fun c => if c = '.' then '_' else c

/-- The text of a number. -/
def showNat (n : Nat) : Str := Nat.toDigits 10 n

/-- `join(sep)` of texts. -/
def joinWith (sep : Str) (texts : List Str) : Str := sep.intercalate texts

/-- `BTreeSet::insert`, on the elements in their order. -/
def btreeInsert (name : Str) : List Str → List Str
  | [] => [name]
  | n :: names =>
    if name < n then name :: n :: names
    else if name = n then n :: names
    else n :: btreeInsert name names

/-- The value in an `i64` of an integer. -/
def wrapI64 (n : Int) : Int := n.bmod 18446744073709551616

namespace Expr

variable {F : Type} (lang : Lang F)

def toField : Expr F → Except Error Str
  | .componentPart component => .ok (replaceDots component.name)
  | .time _ => .ok (str "time")
  | .fft e => do
    let e ← toField e
    return str "fft(" ++ e ++ str ")"
  | .fftFreq e => do
    let e ← toField e
    return str "fftfreq(" ++ e ++ str ")"
  | .binaryOp left right op => do
    let left ← toField left
    let right ← toField right
    return str "(" ++ left ++ str " " ++ op.toStr ++ str " " ++ right ++ str ")"
  | .arrayAccess (.componentPart part) index =>
    if part.component.isSome then
      .ok (replaceDots part.name ++ str "[" ++ showNat ((index + 1) % 18446744073709551616) ++ str "]")
    else .error (.invalidFieldAccess (str "array access on non-component"))
  | .arrayAccess _ _ => .error (.invalidFieldAccess (str "array access on non-component"))
  | .floatLiteral f => .ok (lang.floats.display f)
  | _ => .error (.invalidFieldAccess (str "unsupported expression type for field "))

def toTable : Expr F → Except Error Str
  | .componentPart component => .ok (replaceDots component.name)
  | .time component => .ok (replaceDots component.name)
  | .fftFreq e => toTable e
  | .fft e => toTable e
  | .binaryOp left _ _ => toTable left
  | .arrayAccess (.componentPart part) _ => .ok (replaceDots part.name)
  | .arrayAccess _ _ => .error (.invalidFieldAccess (str "array access on non-component"))
  | _ => .error (.invalidFieldAccess (str "unsupported expression type for table "))

def toQualifiedField : Expr F → Except Error Str
  | .fft e => do
    let e ← toQualifiedField e
    return str "fft(" ++ e ++ str ")"
  | .fftFreq e => do
    let e ← toQualifiedField e
    return str "fftfreq(" ++ e ++ str ")"
  | .binaryOp left right op => do
    let left ← toQualifiedField left
    let right ← toQualifiedField right
    return str "(" ++ left ++ str " " ++ op.toStr ++ str " " ++ right ++ str ")"
  | .floatLiteral f => .ok (lang.floats.display f)
  | e => do
    let table ← toTable e
    let field ← toField lang e
    return table ++ str "." ++ field

def toColumnName : Expr F → Option Str
  | .fft e => do
    let e ← toColumnName e
    return str "fft(" ++ e ++ str ")"
  | .fftFreq e => do
    let e ← toColumnName e
    return str "fftfreq(" ++ e ++ str ")"
  | .componentPart e => some e.name
  | .arrayAccess (.componentPart c) index => do
    let c ← c.component
    let name ← c.elementNames[index]?
    return c.name ++ str "." ++ name
  | .arrayAccess e index => do
    let e ← toColumnName e
    return e ++ str "[" ++ showNat index ++ str "]"
  | _ => none

def toSelectPart (e : Expr F) : Except Error Str :=
  match toColumnName e with
  | some columnName => do
    let field ← toQualifiedField lang e
    return field ++ str " as '" ++ columnName ++ str "'"
  | none => toQualifiedField lang e

mutual

def toSqlTimeField : Expr F → Except Error Str
  | .tuple elements => firstTimeField elements
  | e => (toTable e).map fun table => table ++ str ".time"

/-- The time of the first element of a tuple. -/
def firstTimeField : List (Expr F) → Except Error Str
  | [] => .error (.invalidFieldAccess (str "empty tuple"))
  | e :: _ => toSqlTimeField e

end

/-- `duration_micros` -/
def durationMicros (duration : Int) : Int := wrapI64 (duration.tdiv 1000)

/-- The first table and the joins of the others. -/
def fromClause : List Str → Str
  | [] => []
  | firstTable :: tables =>
    firstTable ++ tables.flatMap fun table =>
      str " JOIN " ++ table ++ str " ON " ++ firstTable ++ str ".time = " ++ table ++ str ".time"

/-- `Expr::to_sql` -/
def toSql (context : Context) : Expr F → Except Error Str
  | .tuple elements =>
    if elements = [] then .error (.invalidFieldAccess (str "empty tuple"))
    else do
      let tables ← elements.mapM toTable
      let tableNames := tables.foldl (fun names name => btreeInsert name names) []
      let selectParts ← elements.mapM (toSelectPart lang)
      return str "select " ++ joinWith (str ", ") selectParts ++ str " from " ++ fromClause tableNames
  | .binaryOp left right op => do
    let leftTableName ← toTable left
    let rightTableName ← toTable right
    let leftSelectPart ← toQualifiedField lang left
    let rightSelectPart ← toQualifiedField lang right
    let select := str "select " ++ leftSelectPart ++ str " " ++ op.toStr ++ str " " ++ rightSelectPart
    if leftTableName = rightTableName then
      return select ++ str " from " ++ leftTableName
    else
      return select ++ str " from " ++ leftTableName ++ str " join " ++ rightTableName ++ str " on " ++
        leftTableName ++ str ".time = " ++ rightTableName ++ str ".time"
  | .last e duration => do
    let sql ← toSql context e
    let lowerBound := lang.displayMicros (wrapI64 (context.lastTimestamp - durationMicros duration))
    let timeField ← toSqlTimeField e
    return sql ++ str " where " ++ timeField ++ str " >= to_timestamp(" ++ lowerBound ++ str ")"
  | .first e duration => do
    let sql ← toSql context e
    let upperBound := lang.displayMicros (wrapI64 (context.earliestTimestamp + durationMicros duration))
    let timeField ← toSqlTimeField e
    return sql ++ str " where " ++ timeField ++ str " <= to_timestamp(" ++ upperBound ++ str ")"
  | .stringLiteral _ => .error (.invalidFieldAccess (str "cannot convert string literal to SQL"))
  | e => do
    let selectPart ← toSelectPart lang e
    let table ← toTable e
    return str "select " ++ selectPart ++ str " from " ++ table

end Expr

/-- `Context::sql` -/
def Context.sql {F : Type} (lang : Lang F) (ctx : Context) (query : Str) : Except Error Str := do
  let e ← ctx.parseStr lang query
  e.toSql lang ctx

/-! ## The tables of `as_session_context` -/

/-- A component of the database, with its metadata. -/
structure Stored where
  component : Component
  timeSeries : TimeSeries

/-- A table and the columns of its schema. -/
structure Table where
  name : Str
  columns : List Str
  deriving DecidableEq, Repr

/-- The fields of the schema of `as_record_batch`. -/
def recordBatchFields (name : Str) (_node : TimeSeriesNode) : List Str := [str "time", name]

/-- The schema of `as_mem_table`, that of the first batch. -/
def asMemTable (name : Str) (list : TimeSeries) : Option (List Str) := (list.map (recordBatchFields name)).head?

/-- `DB::as_session_context` -/
def asSessionContext (components : List Stored) : List Table :=
  components.filterMap fun c => (asMemTable c.component.name c.timeSeries).map fun columns => ⟨c.component.name, columns⟩

end Metor.Impl.Eql
