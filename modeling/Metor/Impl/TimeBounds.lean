import Metor.Impl.Component
import Metor.Impl.MsgLog

/-!
# The time bounds of a database (`libs/db/src/lib.rs`)

`earliest_timestamp` is fixed when a database is created or opened;
`last_updated` is raised after each push to a component or to a message log.
The pushes to any number of components and logs, the tasks that persist and the
streams that read along take their steps in any order; each component and each
log has a ring of its own as its WAL.
-/

namespace Metor.Impl.TimeBounds

open Metor.Lib
open Metor.Impl.Disruptor (Record Wal WalAct)

def i64Max : Int := -i64Min - 1

/-! ## Pushing to a component -/

/-- A component, and the connections that push to it. -/
structure Pushed where
  component : Component
  wal : Wal
  /-- Past the comparison with `last_timestamp`. -/
  checked : List Record
  /-- Committed, with `last_timestamp` still to raise. -/
  committed : List Int
  deriving DecidableEq, Repr

inductive PushedAct
  | check (timestamp : Int) (value : Bytes)
  /-- `try_grant` is called. -/
  | load (i : Nat)
  /-- A later step of a writer, or one of a stream's reader. -/
  | wal (a : WalAct)
  | updateMax (i : Nat)
  /-- `persist` polls its reader. -/
  | next
  /-- The rest of its round: the loop, and the grant is dropped. -/
  | persist
  deriving DecidableEq, Repr

namespace Pushed

/-- `Component::create`; a capacity wraps. -/
def create (size : Nat) : Pushed := ⟨.create size, .new (size * 1024 % 2 ^ 64), [], []⟩

def encode (r : Record) : Bytes := record r.1 r.2

/-- The steps of `push_buf` and `persist`; a value is as long as the component's schema says. -/
def step (s : Pushed) : PushedAct → Option Pushed
  | .check timestamp value =>
    if IsI64 timestamp ∧ value.length = s.component.size then
      if timestamp < s.component.lastTimestamp then some s
      else some { s with checked := s.checked ++ [(timestamp, value)] }
    else none
  | .load i => do
    let r ← s.checked[i]?
    let wal ← s.wal.step encode (.load r)
    return { s with wal := wal, checked := s.checked.eraseIdx i }
  | .wal a =>
    if a.loaded = none then
      (s.wal.step encode a).map fun wal =>
        { s with wal := wal, committed := s.committed ++ (s.wal.committed a).toList.map Prod.fst }
    else none
  | .updateMax i => s.committed[i]?.map fun timestamp =>
    { s with
      component.lastTimestamp := max s.component.lastTimestamp timestamp
      committed := s.committed.eraseIdx i }
  | .next => s.wal.next.map fun wal => { s with wal := wal }
  | .persist => do
    let buf ← s.wal.held
    let wal ← s.wal.release
    return { s with wal := wal, component.timeSeries := parseLoop s.component.size buf s.component.timeSeries }

end Pushed

/-! ## The database -/

/-- Components and message logs are numbered as they come. -/
structure DB where
  earliestTimestamp : Int
  lastUpdated : Int
  components : List Pushed
  msgLogs : List Msg.Ring
  /-- The pushes that have returned, with `last_updated` still to raise. -/
  updates : List Int
  deriving DecidableEq, Repr

/-! ## Creating and opening -/

/-- `DB::with_time_step` -/
def DB.create (now : Int) : DB := ⟨now, i64Min, [], [], []⟩

/-- What is found below the directory of a database: the nodes of each component, with the size of its
schema, and of each message log, in the order they are listed. -/
structure Directory where
  components : List (Nat × List TimeSeriesNode)
  msgLogs : List (List Msg.MsgLogNode)
  deriving DecidableEq, Repr

/-- The variables of `DB::open`. -/
structure Opening where
  components : List Pushed
  msgLogs : List Msg.Ring
  lastUpdated : Int
  startTimestamp : Int
  deriving DecidableEq, Repr

/-- `Component::open` -/
def openComponent (size : Nat) (entries : List TimeSeriesNode) : Component :=
  let timeSeries := TimeSeries.open entries
  ⟨size, (timeSeries.latest.map (·.timestamp)).getD i64Min, timeSeries⟩

/-- `MsgLog::open` -/
def openMsgLog (entries : List Msg.MsgLogNode) : Msg.MsgLog := entries.foldl (fun list node => node :: list) []

/-- `MsgLog::first_timestamp` -/
def firstTimestamp (list : Msg.MsgLog) : Option Int := (list.filterMap fun node => node.timestamps.head?).min?

/-- The two comparisons for what was opened. -/
def Opening.seen (acc : Opening) (latest first : Option Int) : Opening :=
  { acc with
    lastUpdated := latest.elim acc.lastUpdated fun timestamp => max timestamp acc.lastUpdated
    startTimestamp := first.elim acc.startTimestamp fun timestamp => min acc.startTimestamp timestamp }

/-- The round of the first loop. -/
def Opening.component (acc : Opening) (dir : Nat × List TimeSeriesNode) : Opening :=
  let component := openComponent dir.1 dir.2
  let acc := acc.seen (component.timeSeries.latest.map (·.timestamp)) component.timeSeries.startTimestamp
  { acc with components := acc.components ++ [⟨component, .new (dir.1 * 256 % 2 ^ 64), [], []⟩] }

/-- The round of the second loop. -/
def Opening.msgLog (acc : Opening) (dir : List Msg.MsgLogNode) : Opening :=
  let msgLog := openMsgLog dir
  let acc := acc.seen (msgLog.latest.map (·.timestamp)) (firstTimestamp msgLog)
  { acc with msgLogs := acc.msgLogs ++ [⟨msgLog, .new Msg.walSize⟩] }

/-- `DB::open`, at the time `now`. -/
def DB.open (now : Int) (dir : Directory) : DB :=
  let acc := dir.components.foldl Opening.component ⟨[], [], i64Min, i64Max⟩
  let acc := dir.msgLogs.foldl Opening.msgLog acc
  { earliestTimestamp := if acc.startTimestamp = i64Max then now else acc.startTimestamp
    lastUpdated := acc.lastUpdated
    components := acc.components
    msgLogs := acc.msgLogs
    updates := [] }

/-! ## Steps -/

inductive Act
  /-- `insert_component` of a new one. -/
  | insertComponent (size : Nat)
  /-- `get_or_insert_msg_log` of a new one. -/
  | insertMsgLog
  /-- A step of `apply_value`, `persist` or a stream, at the component `i`. -/
  | component (i : Nat) (act : PushedAct)
  /-- A step of `push_msg` or `persist`, at the message log `i`. -/
  | msgLog (i : Nat) (act : Msg.RingAct)
  /-- `last_updated.update_max` -/
  | updateMax (j : Nat)
  deriving DecidableEq, Repr

/-- The sample whose `push_buf` returns without an error at the step from `s` to `t`; it also does so when the grant is
refused. -/
def returned (s : Pushed) (act : PushedAct) (t : Pushed) : Option Int :=
  match act with
  | .wal .reserve => if t.wal.writing = none then s.wal.writing.map Prod.fst else none
  | .updateMax i => s.committed[i]?
  | _ => none

/-- The message whose `push` is to return without an error after this step. -/
def returnedMsg (s : Msg.Ring) : Msg.RingAct → Option Int
  | .wal a => (s.wal.committed a).map Prod.fst
  | .next | .persist => none

def step (db : DB) : Act → Option DB
  | .insertComponent size => some { db with components := db.components ++ [.create size] }
  | .insertMsgLog => some { db with msgLogs := db.msgLogs ++ [.new] }
  | .component i act => do
    let pushed ← db.components[i]?
    let pushed' ← pushed.step act
    return { db with
      components := db.components.set i pushed'
      updates := db.updates ++ (returned pushed act pushed').toList }
  | .msgLog i act => do
    let msgLog ← db.msgLogs[i]?
    let msgLog' ← msgLog.step act
    return { db with msgLogs := db.msgLogs.set i msgLog', updates := db.updates ++ (returnedMsg msgLog act).toList }
  | .updateMax j => db.updates[j]?.map fun timestamp =>
    { db with lastUpdated := max db.lastUpdated timestamp, updates := db.updates.eraseIdx j }

end Metor.Impl.TimeBounds
