import Metor.Impl.LineTree

/-!
# The history of a plot (`handle_time_series` in `libs/metor-ui/src/ui/plot/data.rs`)

A page of samples is a list of timestamps and one of the values of all
elements, sample by sample. Each element of a component has a line. The lines
of a component are those of the keys from 0 on, as they are always added in
order.
-/

namespace Metor.Impl.Plot

/-- `RequestState::Returned` -/
structure Returned where
  len : Nat
  lastTimestamp : Option Int
  deriving DecidableEq, Repr

/-- `PlotDataComponent` -/
structure PlotDataComponent where
  lines : List LineTree
  requestStates : Int → Option Returned

/-- The timestamps and data of an `OwnedTimeSeries` -/
structure TimeSeries (T : Type) where
  timestamps : List Int
  data : List T

variable {T : Type}

/-- An element in `process_time_series` -/
def processElement (asF32 : T → F32) (series : TimeSeries T) (len : Nat) (plotData : PlotDataComponent) (i : Nat) :
    Option PlotDataComponent := do
  let values := (stepBy len (series.data.drop i)).map asF32
  let line := plotData.lines.getD i .default
  let line ← match line.fromIter series.timestamps values with
    | none => some line
    | some (line, chunk) => line.insert chunk
  return { plotData with
    lines := if i < plotData.lines.length then plotData.lines.set i line else plotData.lines ++ [line] }

/-- `process_time_series` -/
def processTimeSeries (asF32 : T → F32) (series : TimeSeries T) (len : Nat) (plotData : PlotDataComponent) :
    Option PlotDataComponent :=
  (List.range len).foldlM (processElement asF32 series len) plotData

/-- `next_range` -/
def nextRange (start stop : Int) (component : PlotDataComponent) : Option (Int × Int) :=
  match component.lines.head? with
  | none => some (start, stop)
  | some line => do
    let range ← Interval.ii start stop
    match (line.overlapping range).head? with
    | none => return (start, stop)
    | some (_, chunk) => return (if chunk.summary.startTimestamp ≤ start then chunk.summary.endTimestamp else start, stop)

/-- `handle_time_series`: the component, and the range that is requested next -/
def handleTimeSeries (asF32 : T → F32) (len : Nat) (series : TimeSeries T) (start stop : Int) (plotData : PlotDataComponent) :
    Option (PlotDataComponent × Option (Int × Int)) := do
  let returned : Returned := ⟨series.timestamps.length, series.timestamps.getLast?⟩
  let plotData := { plotData with
    requestStates := fun key => if key = start then some returned else plotData.requestStates key }
  let plotData ← processTimeSeries asF32 series len plotData
  match series.timestamps.getLast? with
  | none => return (plotData, none)
  | some lastTimestamp =>
    if stop ≤ lastTimestamp then return (plotData, none)
    else
      let start := lastTimestamp
      if stop ≤ start ∨ series.timestamps.length < chunkLen then return (plotData, none)
      else
        let range ← nextRange start stop plotData
        return (plotData, some range)

end Metor.Impl.Plot
