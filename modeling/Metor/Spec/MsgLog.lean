import Metor.Impl.GetMsgs
import Metor.Spec.Series

/-!
# What a message log answers

The four readers of a log search its nodes by halves. `Queryable` is what they
should find of the messages that were persisted. `handed` is what the loop of
`persist` hands to `persist_msg` out of a read of the WAL, and `readAll` what
iterating `read_msg` gives. `insertAll` are inserts into one `BufLog`, and
`accepted` the messages that it has room for.
-/

namespace Metor.Impl.Msg

open Metor.Lib

/-- A reference to a message of the log, with the message's own timestamp. -/
def MsgRef.Stored (r : MsgRef) (list : MsgLog) : Prop :=
  r.node.chain <:+ list ∧ r.node.value.timestamps[r.index]? = some r.timestamp ∧ r.data.isSome

structure MsgLog.Queryable (list : MsgLog) : Prop where
  sorted : ∀ n ∈ list, n.timestamps.Pairwise (· ≤ ·)
  /-- The timestamp of every message is found. -/
  get : ∀ n ∈ list, ∀ t ∈ n.timestamps, ∃ r, list.get t = some r ∧ r.timestamp = t ∧ r.Stored list
  /-- No message is later than the latest. -/
  latest : ∀ n ∈ list, ∀ t ∈ n.timestamps, ∃ r, list.latest = some r ∧ t ≤ r.timestamp ∧ r.Stored list

/-- A message is pushed with a timestamp no earlier than those that were taken before. -/
def InTimeOrder (s : State) : Act → Prop
  | .push t _ => (∀ r ∈ s.wal, r.1 ≤ t) ∧ ∀ n ∈ s.list, ∀ u ∈ n.timestamps, u ≤ t
  | .walFull | .persist _ => True

instance (s : State) : (a : Act) → Decidable (InTimeOrder s a)
  | .push _ _ => inferInstanceAs (Decidable (_ ∧ _))
  | .walFull | .persist _ => isTrue trivial

/-! ## Records -/

/-- The records that the loop `'parse` of `persist` hands on. -/
def handed (buf : Bytes) : List (Int × Bytes) :=
  if 8 + 4 ≤ buf.length then
    let timestamp := i64OfBytes (buf.take 8)
    let buf := buf.drop 8
    let msgLen := leNat (buf.take 4)
    let buf := buf.drop 4
    if buf.length < msgLen then [] else (timestamp, buf.take msgLen) :: handed (buf.drop msgLen)
  else []
termination_by buf.length
decreasing_by simp only [List.length_drop]; omega

theorem length_readMsg {buf rest : Bytes} {t : Int} {msg : Bytes} (h : readMsg buf = some (rest, t, msg)) :
    rest.length < buf.length := by
  simp only [readMsg] at h
  split at h
  · cases h
  split at h
  · cases h
  split at h
  · cases h
  · cases h
    simp only [List.length_drop]
    omega

/-- The records that `read_msg` reads one after another, and the bytes it leaves. -/
def readAll (buf : Bytes) : List (Int × Bytes) × Bytes :=
  if h : (readMsg buf).isSome then
    let r := (readMsg buf).get h
    let later := readAll r.1
    (r.2 :: later.1, later.2)
  else ([], buf)
termination_by buf.length
decreasing_by exact length_readMsg (Option.eq_some_of_isSome h)

/-! ## Storage -/

/-- A message is shorter than a `u32` counts. -/
abbrev Message := { m : Bytes // m.length < 2 ^ 32 }

/-- An empty log of buffers. -/
def BufLog.new : BufLog := ⟨.withSize MsgLogNode.fileSize (), .withSize MsgLogNode.fileSize ()⟩

/-- An insert into the log, with the messages that were inserted so far. -/
def insertNext (s : List Bytes × BufLog) (m : Bytes) : List Bytes × BufLog :=
  match s.2.insertMsg m with
  | (.ok (), b) => (s.1 ++ [m], b)
  | (.error _, b) => (s.1, b)

/-- The inserts, one after the other: the messages of those that succeed, and the log. -/
def insertAll (msgs : List Message) : List Bytes × BufLog := (msgs.map Subtype.val).foldl insertNext ([], .new)

/-- The bytes of the messages that do not fit in an entry. -/
def longBytes (kept : List Bytes) : Bytes := (kept.filter (12 < ·.length)).flatten

/-- There is room for another message: for its entry, and for its bytes if they are not in the entry. -/
def HasRoom (kept : List Bytes) (m : Bytes) : Prop :=
  AppendLog.bareHeaderSize + (kept.length + 1) * 16 ≤ MsgLogNode.fileSize + 1 ∧
    (m.length ≤ 12 ∨ AppendLog.bareHeaderSize + (longBytes kept).length + m.length ≤ MsgLogNode.fileSize + 1)

instance (kept : List Bytes) (m : Bytes) : Decidable (HasRoom kept m) := inferInstanceAs (Decidable (_ ∧ _))

/-- The messages that there is room for when they come. -/
def accepted (msgs : List Message) : List Bytes :=
  (msgs.map Subtype.val).foldl (fun kept m => if HasRoom kept m then kept ++ [m] else kept) []

/-- Every message that was inserted is found, and exactly the long ones have an offset. -/
structure Stored (kept : List Bytes) (b : BufLog) : Prop where
  getMsg : ∀ i < kept.length, b.getMsg i = kept[i]?
  offset : ∀ (i : Nat) (buf : UmbraBuf) (m : Bytes), b.offsets.data[i]? = some buf → kept[i]? = some m →
    (buf.getOffset.isSome ↔ 12 < m.length)

/-- Where the `i`th message begins among the long ones. -/
def beginsAt (kept : List Bytes) (i : Nat) : Nat := (longBytes (kept.take i)).length

/-- No message has exactly 12 bytes, and no long one begins where 32 bits do not reach, unless the bytes before
happen to be the same. -/
structure Reached (kept : List Bytes) : Prop where
  twelve : ∀ m ∈ kept, m.length ≠ 12
  low : ∀ (i : Nat) (m : Bytes), kept[i]? = some m → 12 < m.length → beginsAt kept i < 2 ^ 32 ∨
    slice (longBytes kept) (beginsAt kept i % 2 ^ 32) (beginsAt kept i % 2 ^ 32 + m.length) = m

end Metor.Impl.Msg

/-!
## `GetMsgs`: what it should answer

The earliest messages of the range, as many as the limit allows.
-/

namespace Metor.Impl.Msg

open Metor.Lib

/-- A message log of which each timestamp has its message, and whose timestamps do not decrease, within a node and
from each node to the newer ones. A node may be empty. -/
structure MsgLog.Ordered (list : MsgLog) : Prop where
  sorted : ∀ n ∈ list, n.timestamps.Pairwise (· ≤ ·)
  stored : ∀ n ∈ list, ∀ i < n.timestamps.length, (n.bufs.getMsg i).isSome
  across : list.Pairwise fun new old => ∀ x ∈ old.timestamps, ∀ y ∈ new.timestamps, x ≤ y

/-- The messages of a node, each with its timestamp. -/
def MsgLogNode.messages (n : MsgLogNode) : List (Int × Bytes) :=
  (List.range n.timestamps.length).filterMap fun i => do
    let timestamp ← n.timestamps[i]?
    let msg ← n.bufs.getMsg i
    return (timestamp, msg)

/-- The messages of a log, in the order they were stored in. -/
def MsgLog.messages (list : MsgLog) : List (Int × Bytes) := list.reverse.flatMap MsgLogNode.messages

/-- Those with a timestamp of the range. -/
def MsgLog.wanted (list : MsgLog) (a b : Int) : List (Int × Bytes) :=
  list.messages.filter fun m => decide (a ≤ m.1 ∧ m.1 ≤ b)

/-- As many as the limit allows. -/
def upToLimit {α : Type} (limit : Option Nat) (xs : List α) : List α := limit.elim xs fun limit => xs.take limit

/-- The reply to a request is the messages of its range in the order of time, each once, or the first of these if
there is a limit. -/
def AnswersGetMsgs (list : MsgLog) (a b : Int) (limit : Option Nat) (batch : List (Int × Bytes)) : Prop :=
  ∃ all, all.Perm (list.wanted a b) ∧ all.Pairwise (fun x y => x.1 ≤ y.1) ∧ batch = upToLimit limit all

/-! ## Which requests are answered -/

/-- The timestamps of the node in the range. -/
def MsgLogNode.within (n : MsgLogNode) (a b : Int) : List Int := n.timestamps.filter fun t => decide (a ≤ t ∧ t ≤ b)

/-- `k` ends before `t`, and the last message of the node after it is nearer to `t` than the first of `k`. -/
def Nearer (newer : MsgLog) (k : MsgLogNode) (t : Int) : Prop :=
  k.last < t ∧ ∃ p ∈ newer.getLast?, (p.last - t).natAbs < (k.first - t).natAbs

/-- The node has as many messages of the range as are asked for, or no other node has one and none is older. -/
def Enough (newer : MsgLog) (k : MsgLogNode) (older : MsgLog) (a b : Int) (limit : Option Nat) : Prop :=
  (∃ n ∈ limit, n ≤ (k.within a b).length) ∨ (∀ n ∈ older, n.timestamps = []) ∧ ∀ p ∈ newer, b < p.first

/-- The messages asked for are all of the time `a`: the first is the last of `k` with that time, and the others are
those of the older nodes, from the newest node on. -/
def Ties (list : MsgLog) (k : MsgLogNode) (older : MsgLog) (a b : Int) (limit : Option Nat) : Prop :=
  a ∈ k.timestamps ∧ (limit = some 1 ∨
    ((∀ t ∈ k.within a b, t = a) ∧
      upToLimit (limit.map (· - 1)) (older.flatMap MsgLogNode.timestamps) =
        List.replicate ((upToLimit limit (list.wanted a b)).length - 1) a))

/-- The request is answered from the node `k`, the newest that starts at or before `a`. -/
def AnsweredWithin (newer : MsgLog) (k : MsgLogNode) (older : MsgLog) (a b : Int) (limit : Option Nat) : Prop :=
  ¬ Nearer newer k a ∧
    if limit = some 0 then k.within a b = []
    else
      ((newer ++ k :: older).flatMap MsgLogNode.timestamps).count a ≤ 1 ∧ Enough newer k older a b limit ∨
        Ties (newer ++ k :: older) k older a b limit

/-- The request is answered from the node `k` that starts after `a`: it is the oldest, or nearer than the one before. -/
def AnsweredAfter (newer : MsgLog) (k : MsgLogNode) (older : MsgLog) (a b : Int) (limit : Option Nat) : Prop :=
  (older = [] ∨ ∃ j ∈ older.head?, j.timestamps ≠ [] ∧ Nearer (newer ++ [k]) j a) ∧
    k.first ≤ b ∧ limit ≠ some 0 ∧ Enough newer k older a b limit

/-- The log is empty, or the search for `a` ends in a node from which the request is answered, or comes to an empty
node and there is nothing to answer. -/
def Answerable (list : MsgLog) (a b : Int) (limit : Option Nat) : Prop :=
  list = [] ∨ ∃ newer k older, list = newer ++ k :: older ∧ (∀ p ∈ newer, p.timestamps ≠ [] ∧ a < p.first) ∧
    if k.timestamps = [] then limit = some 0 ∨ list.wanted a b = []
    else if k.first ≤ a then AnsweredWithin newer k older a b limit
    else AnsweredAfter newer k older a b limit

end Metor.Impl.Msg

/-!
## Range queries: what is expected

A client may ask for any range, also one that ends before it starts. No slice
of the answer is out of bounds, and a range that ends before it starts has
nothing in it.
-/

namespace Metor.Impl

/-- `get_range` and what is read of the slices panic nowhere, and the slices of a range `a..b` with `b < a` are
empty. -/
def TimeSeries.RangeSafe (list : TimeSeries) (a b : Int) : Prop :=
  ∀ s, list.getRange a b = some s →
    (∀ n ∈ s.asIter, n.timestamps.isSome ∧ n.data.isSome) ∧ s.len.isSome ∧
      (b < a → s.len = some 0 ∧ ∀ n ∈ s.asIter, n.data = some [])

def Msg.MsgLog.RangeSafe (list : MsgLog) (a b : Int) : Prop :=
  ∀ s, list.getRange a b = some s →
    (∀ n ∈ s.asIter, n.timestamps.isSome) ∧ s.len.isSome ∧
      (b < a → s.len = some 0 ∧ ∀ n ∈ s.asIter, n.msgs = [])

/-- The range does not end before it starts, or the search for its start comes to the oldest node, and that has
up to `a`, one sample of that very time not counted, as many samples as up to `b`, or one if it starts after `b`. -/
def Rangeable {α : Type} (timestamps : α → List Int) (first last : α → Int) (stack : List α) (a b : Int) : Prop :=
  a ≤ b ∨ stack = [] ∨ ∃ newer k, stack = newer ++ [k] ∧ (∀ p ∈ newer, a < first p) ∧
    (last k < a → ∀ p ∈ newer.getLast?, (first k - a).natAbs ≤ (last p - a).natAbs) ∧
    ((timestamps k).erase a).countP (fun x => decide (x ≤ a)) =
      max 1 ((timestamps k).countP fun x => decide (x ≤ b))

end Metor.Impl
