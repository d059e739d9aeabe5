import Metor.Impl.TimeBounds
import Metor.Lib.Run

/-!
# Time bounds that enclose the data
-/

namespace Metor.Impl.TimeBounds

open Metor.Lib

/-- A timestamp in a component's time series or in a message log. -/
def Stored (db : DB) (t : Int) : Prop :=
  (∃ p ∈ db.components, ∃ n ∈ p.component.timeSeries, t ∈ n.timestamps) ∨
    ∃ l ∈ db.msgLogs, ∃ n ∈ l.list, t ∈ n.timestamps

def Encloses (db : DB) : Prop := ∀ t, Stored db t → db.earliestTimestamp ≤ t ∧ t ≤ db.lastUpdated

/-- How a database comes about. -/
inductive Start
  | create (now : Int)
  | open (now : Int) (dir : Directory)

def Start.db : Start → DB
  | .create now => .create now
  | .open now dir => .open now dir

namespace Directory

variable (dir : Directory)

/-- The timestamps in the nodes. -/
def timestamps : List Int :=
  (dir.components.flatMap fun c => c.2.flatMap (·.timestamps)) ++ dir.msgLogs.flatMap fun l => l.flatMap (·.timestamps)

/-- The first timestamp of each node. -/
def firsts : List Int :=
  (dir.components.flatMap fun c => c.2.filterMap (·.timestamps.head?)) ++
    dir.msgLogs.flatMap fun l => l.filterMap (·.timestamps.head?)

/-- The last timestamp of each node that is listed last. -/
def lasts : List Int :=
  (dir.components.filterMap fun c => c.2.getLast?.bind (·.timestamps.getLast?)) ++
    dir.msgLogs.filterMap fun l => l.getLast?.bind (·.timestamps.getLast?)

end Directory

/-- Some node begins with the least timestamp of the directory, and some node that is listed last ends
with the greatest. -/
def Start.Sound : Start → Prop
  | .create _ => True
  | .open now dir => IsI64 now ∧ ∀ t ∈ dir.timestamps, (∃ f ∈ dir.firsts, f ≤ t) ∧ ∃ l ∈ dir.lasts, t ≤ l

end Metor.Impl.TimeBounds
