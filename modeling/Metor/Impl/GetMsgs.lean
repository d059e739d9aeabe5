import Metor.Impl.MsgLog

/-!
# `GetMsgs` (`handle_packet` in `libs/db/src/lib.rs`, `msg_log_2.rs`)

`get_range` looks for the two ends of a range, and the handler goes from the
node of the start to the older ones, until it has collected `limit` messages.
-/

namespace Metor.Impl.Msg

open Metor.Lib

/-- `range` is `start..=stop`. -/
structure MsgLogNodeSlice where
  node : AtomicNode MsgLogNode
  start : Nat
  stop : Nat
  deriving DecidableEq, Repr

/-- `&timestamps[start..=end]`, the end clipped to the last timestamp; `none` is a panic. -/
def MsgLogNodeSlice.timestamps (s : MsgLogNodeSlice) : Option (List Int) :=
  let ts := s.node.value.timestamps
  let stop := if s.stop ≥ ts.length then ts.length - 1 else s.stop
  if s.start ≤ stop + 1 ∧ stop + 1 ≤ ts.length then some (slice ts s.start (stop + 1)) else none

/-- `msgs` -/
def MsgLogNodeSlice.msgs (s : MsgLogNodeSlice) : List (Int × Bytes) :=
  let stop := min s.stop (s.node.value.timestamps.length - 1)
  (List.range' s.start (stop + 1 - s.start)).filterMap fun i => do
    let timestamp ← s.node.value.timestamps[i]?
    let msg ← s.node.value.bufs.getMsg i
    return (timestamp, msg)

structure MsgLogSlice where
  start : MsgRef
  stop : MsgRef
  deriving DecidableEq, Repr

/-- `as_iter`: the nodes from the start's node on, which are the older ones. -/
def MsgLogSlice.asIter (s : MsgLogSlice) : List MsgLogNodeSlice :=
  (atomicStackIter s.start.node.chain).map fun node =>
    { node := node
      start := if node.ptrEq s.start.node then s.start.index else 0
      stop := if node.ptrEq s.stop.node then s.stop.index else node.value.timestamps.length - 1 }

/-- `len` -/
def MsgLogSlice.len (s : MsgLogSlice) : Option Nat :=
  (s.asIter.mapM MsgLogNodeSlice.timestamps).map fun tss => (tss.map List.length).sum

/-- `get_range` -/
def MsgLog.getRange (list : MsgLog) (start stop : Int) : Option MsgLogSlice := do
  let start ← list.binarySearchNearest start false
  let stop ← list.binarySearchNearest stop true
  return { start := start, stop := stop }

/-! ## The handler -/

/-- `GetMsgs`; the range is `start..stop`. -/
structure GetMsgs where
  msgId : UInt16
  start : Int
  stop : Int
  limit : Option Nat
  deriving DecidableEq, Repr

/-- `collected.len() >= limit`, if there is a limit. -/
def reached (limit : Option Nat) (collected : List (Int × Bytes)) : Bool := limit.any fun limit => limit ≤ collected.length

/-- The inner loop, over the messages of a slice. -/
def collectMsgs (limit : Option Nat) (collected : List (Int × Bytes)) : List (Int × Bytes) → List (Int × Bytes)
  | [] => collected
  | msg :: msgs =>
    let collected := collected ++ [msg]
    if reached limit collected then collected else collectMsgs limit collected msgs

/-- The outer loop, over the slices. -/
def collectSlices (limit : Option Nat) (collected : List (Int × Bytes)) : List (List (Int × Bytes)) → List (Int × Bytes)
  | [] => collected
  | msgs :: slices =>
    let collected := collectMsgs limit collected msgs
    if reached limit collected then collected else collectSlices limit collected slices

/-- The data of the `MsgBatch`. -/
def MsgLog.batch (list : MsgLog) (start stop : Int) (limit : Option Nat) : List (Int × Bytes) :=
  match list.getRange start stop with
  | none => []
  | some slice => collectSlices limit [] (slice.asIter.map MsgLogNodeSlice.msgs)

/-- The handler; `none` is `MsgNotFound`. -/
def handleGetMsgs (msgLogs : UInt16 → Option MsgLog) (req : GetMsgs) : Option (List (Int × Bytes)) :=
  (msgLogs req.msgId).map fun msgLog => msgLog.batch req.start req.stop req.limit

end Metor.Impl.Msg
