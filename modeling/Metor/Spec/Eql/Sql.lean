import Metor.Impl.Eql.Sql
import Metor.Spec.Eql.Context

/-!
# SQL queries

`Query` is a query as a structure, `render` its text, and `Expr.query` the query
that an expression means. `leaves` and `heads` are what an expression reads, and
the parts of it that the translation takes its tables from.
-/

namespace Metor.Impl.Eql

namespace Sql

/-- A qualified field, or what is computed of such. -/
inductive Term
  | column (table column : Str)
  | element (table column : Str) (index : Nat)
  /-- the function with its bracket -/
  | call (f : Str) (e : Term)
  | binary (l r : Term) (op : BinaryOp)
  | number (text : Str)
  deriving DecidableEq

namespace Term

def render : Term → Str
  | column t c => t ++ str "." ++ c
  | element t c index => t ++ str "." ++ (c ++ str "[" ++ showNat index ++ str "]")
  | call f e => f ++ e.render ++ str ")"
  | binary l r op => str "(" ++ l.render ++ str " " ++ op.toStr ++ str " " ++ r.render ++ str ")"
  | number text => text

/-- The tables and columns that a term names. -/
def columns : Term → List (Str × Str)
  | column t c => [(t, c)]
  | element t c _ => [(t, c)]
  | call _ e => e.columns
  | binary l r _ => l.columns ++ r.columns
  | number _ => []

end Term

/-- A column of the result. -/
inductive Item
  | term (e : Term)
  | named (e : Term) (name : Str)
  /-- without brackets around it -/
  | bare (l r : Term) (op : BinaryOp)
  deriving DecidableEq

namespace Item

def render : Item → Str
  | term e => e.render
  | named e name => e.render ++ str " as '" ++ name ++ str "'"
  | bare l r op => l.render ++ str " " ++ op.toStr ++ str " " ++ r.render

def columns : Item → List (Str × Str)
  | term e => e.columns
  | named e _ => e.columns
  | bare l r _ => l.columns ++ r.columns

end Item

/-- The words of a join, which the two places that write one spell differently. -/
inductive Case
  | upper | lower
  deriving DecidableEq

def Case.join : Case → Str
  | upper => str " JOIN "
  | lower => str " join "

def Case.on : Case → Str
  | upper => str " ON "
  | lower => str " on "

/-- A join with a table, on the times of two tables. -/
structure Join where
  words : Case
  table : Str
  left : Str
  right : Str
  deriving DecidableEq

def Join.render (j : Join) : Str :=
  j.words.join ++ j.table ++ j.words.on ++ j.left ++ str ".time = " ++ j.right ++ str ".time"

/-- A bound of the time of a table. -/
structure TimeBound where
  table : Str
  comparison : Str
  bound : Str
  deriving DecidableEq

def TimeBound.render (b : TimeBound) : Str :=
  str " where " ++ (b.table ++ str ".time") ++ b.comparison ++ b.bound ++ str ")"

end Sql

open Sql

structure Query where
  items : List Item
  table : Str
  joins : List Join
  bounds : List TimeBound
  deriving DecidableEq

namespace Query

def render (q : Query) : Str :=
  str "select " ++ joinWith (str ", ") (q.items.map Item.render) ++ str " from " ++ q.table ++
    q.joins.flatMap Join.render ++ q.bounds.flatMap TimeBound.render

/-- The tables of `from` and the joins. -/
def tables (q : Query) : List Str := q.table :: q.joins.map Join.table

/-- The tables and columns of the selected fields. -/
def selected (q : Query) : List (Str × Str) := q.items.flatMap Item.columns

/-- All tables and columns that the query names. -/
def columns (q : Query) : List (Str × Str) :=
  q.selected ++ q.joins.flatMap (fun j => [(j.left, str "time"), (j.right, str "time")]) ++
    q.bounds.map (fun b => (b.table, str "time"))

/-- Each table is joined on time with the first. -/
def JoinsOnTime (q : Query) : Prop := ∀ j ∈ q.joins, j.left = q.table ∧ j.right = j.table

/-- The tables of `from` and the joins are those of the selected fields. -/
def FromReadTables (q : Query) : Prop := (∀ t, t ∈ q.tables ↔ t ∈ q.selected.map Prod.fst) ∧ q.JoinsOnTime

end Query

namespace Expr

variable {F : Type} (lang : Lang F)

/-- The term of an expression. -/
def term : Expr F → Except Error Term
  | .componentPart part => .ok (.column (replaceDots part.name) (replaceDots part.name))
  | .time c => .ok (.column (replaceDots c.name) (str "time"))
  | .fft e => e.term.map (.call (str "fft("))
  | .fftFreq e => e.term.map (.call (str "fftfreq("))
  | .binaryOp left right op => do
    let l ← left.term
    let r ← right.term
    return .binary l r op
  | .floatLiteral f => .ok (.number (lang.floats.display f))
  | .arrayAccess (.componentPart part) index =>
    if part.component.isSome then
      .ok (.element (replaceDots part.name) (replaceDots part.name) ((index + 1) % 18446744073709551616))
    else .error (.invalidFieldAccess (str "array access on non-component"))
  | .arrayAccess _ _ => .error (.invalidFieldAccess (str "array access on non-component"))
  | _ => .error (.invalidFieldAccess (str "unsupported expression type for table "))

/-- The column of the result that an expression is. -/
def item (e : Expr F) : Except Error Item :=
  match e.toColumnName with
  | some name => (e.term lang).map fun t => .named t name
  | none => (e.term lang).map .term

mutual

/-- The table whose time is bounded. -/
def timeTable : Expr F → Except Error Str
  | .tuple elements => firstTable elements
  | e => e.toTable

def firstTable : List (Expr F) → Except Error Str
  | [] => .error (.invalidFieldAccess (str "empty tuple"))
  | e :: _ => timeTable e

end

/-- The query of the tables of a tuple. -/
def joined (items : List Item) : List Str → Query
  | [] => ⟨items, [], [], []⟩
  | table :: tables => ⟨items, table, tables.map fun t => ⟨.upper, t, table, t⟩, []⟩

/-- The query of an expression. -/
def query (context : Context) : Expr F → Except Error Query
  | .tuple elements =>
    if elements = [] then .error (.invalidFieldAccess (str "empty tuple"))
    else do
      let tables ← elements.mapM toTable
      let items ← elements.mapM (item lang)
      return joined items (tables.foldl (fun names name => btreeInsert name names) [])
  | .binaryOp left right op => do
    let leftTable ← left.toTable
    let rightTable ← right.toTable
    let l ← left.term lang
    let r ← right.term lang
    let joins := if leftTable = rightTable then [] else [⟨.lower, rightTable, leftTable, rightTable⟩]
    return ⟨[.bare l r op], leftTable, joins, []⟩
  | .last e duration => do
    let q ← query context e
    let table ← e.timeTable
    let bound := lang.displayMicros (wrapI64 (context.lastTimestamp - durationMicros duration))
    return { q with bounds := q.bounds ++ [⟨table, str " >= to_timestamp(", bound⟩] }
  | .first e duration => do
    let q ← query context e
    let table ← e.timeTable
    let bound := lang.displayMicros (wrapI64 (context.earliestTimestamp + durationMicros duration))
    return { q with bounds := q.bounds ++ [⟨table, str " <= to_timestamp(", bound⟩] }
  | .stringLiteral _ => .error (.invalidFieldAccess (str "cannot convert string literal to SQL"))
  | e => do
    let i ← e.item lang
    let table ← e.toTable
    return ⟨[i], table, [], []⟩

end Expr

/-! ## What an expression reads -/

namespace Expr

variable {F : Type}

/-- An expression of component parts, array accesses, times, numbers, `fft`, `fftfreq` and operators. -/
def Plain : Expr F → Prop
  | componentPart _ | time _ | floatLiteral _ => True
  | arrayAccess e _ | fft e | fftFreq e => e.Plain
  | binaryOp left right _ => left.Plain ∧ right.Plain
  | _ => False

/-- The references and numbers of an expression from the left, each reference with its table. -/
def leaves : Expr F → List (Option Str)
  | componentPart part => [some (replaceDots part.name)]
  | time c => [some (replaceDots c.name)]
  | floatLiteral _ => [none]
  | arrayAccess e _ | fft e | fftFreq e => e.leaves
  | binaryOp left right _ => left.leaves ++ right.leaves
  | _ => []

/-- The table of the leftmost reference, if there is no number before it. -/
def leftmost (e : Expr F) : Option Str := e.leaves.head?.join

/-- Elements are accessed of parts that are components. -/
def AccessesComponents : Expr F → Prop
  | arrayAccess (componentPart part) _ => part.component.isSome
  | arrayAccess _ _ => False
  | fft e | fftFreq e => e.AccessesComponents
  | binaryOp left right _ => left.AccessesComponents ∧ right.AccessesComponents
  | _ => True

/-- The columns of the result. -/
def elements : Expr F → List (Expr F)
  | tuple es => es
  | e => [e]

/-- The leftmost references of the elements of a tuple, of the two sides of an operator, or of another expression. -/
def heads : Expr F → List (Option Str)
  | tuple es => es.map leftmost
  | binaryOp left right _ => [left.leftmost, right.leftmost]
  | e => [e.leftmost]

/-- An expression that refers to a component, or a tuple of such. -/
def Reads : Expr F → Prop
  | tuple es => es ≠ [] ∧ ∀ e ∈ es, e.Plain ∧ ∃ t, some t ∈ e.leaves
  | e => e.Plain ∧ ∃ t, some t ∈ e.leaves

/-- No element starts with a number, and every reference is to the table of a leftmost one. -/
structure Covered (e : Expr F) : Prop where
  accesses : ∀ x ∈ e.elements, x.AccessesComponents
  heads : ∀ h ∈ e.heads, h.isSome
  covered : ∀ x ∈ e.elements, ∀ t, some t ∈ x.leaves → some t ∈ e.heads

end Expr

/-- The query that `Context::sql` writes. -/
def Context.query {F : Type} (lang : Lang F) (ctx : Context) (text : Str) : Except Error Query := do
  let e ← ctx.parseStr lang text
  e.query lang ctx

/-! ## The names of the catalogue -/

/-- The table is registered with this column. -/
def Registered (tables : List Table) (table column : Str) : Prop :=
  ∃ t ∈ tables, t.name = table ∧ column ∈ t.columns

section
variable {F : Type} (lang : Lang F) (componentId : Str → UInt64) (stored : List Stored)

/-- The context of the components. -/
def contextOf (earliest last : Int) : Context :=
  Context.fromLeaves componentId (stored.map Stored.component) earliest last

/-- Each query that is translated names registered tables and columns, and each component has a table of its own. -/
structure NamesAgree (earliest last : Int) : Prop where
  registered : ∀ text sql, (contextOf componentId stored earliest last).sql lang text = .ok sql →
    ∃ q : Query, sql = q.render ∧ (contextOf componentId stored earliest last).query lang text = .ok q ∧
      (∀ t ∈ q.tables, ∃ table ∈ asSessionContext stored, table.name = t) ∧
      ∀ x ∈ q.columns, Registered (asSessionContext stored) x.1 x.2
  distinct : ∀ c ∈ stored.map Stored.component, ∀ d ∈ stored.map Stored.component, c ≠ d →
    (Expr.componentPart ⟨c.name, c.id, some c, fun _ => none⟩ : Expr F).toTable ≠
      (Expr.componentPart ⟨d.name, d.id, some d, fun _ => none⟩ : Expr F).toTable

/-- No two names differ in dots and underscores only, and each part at the top of the tree that the grammar can name is a
component with data, below which nothing is found but what its own fields hide. -/
structure TopLevel (earliest last : Int) : Prop where
  distinct : (stored.map fun c => replaceDots c.component.name).Nodup
  top : ∀ s part, (contextOf componentId stored earliest last).componentParts s = some part → ¬ Src.StartsWithBool s →
    ∃ c ∈ stored, part.component = some c.component ∧ c.timeSeries ≠ [] ∧
      ∀ n, (part.children n).isSome → n = str "time" ∨ n ∈ c.component.elementNames

end

/-- The text reads as the tuple of these expressions, and its SQL selects a column for each. -/
def ReadsAsTuple {F : Type} (lang : Lang F) (text : Str) (as : List (AstNode F)) : Prop :=
  Grammar.expr lang.xid lang.floats text = some (.tuple as) ∧
    ∀ (ctx : Context) sql, ctx.sql lang text = .ok sql →
      ∃ q, ctx.query lang text = .ok q ∧ sql = q.render ∧ q.items.length = as.length

end Metor.Impl.Eql
