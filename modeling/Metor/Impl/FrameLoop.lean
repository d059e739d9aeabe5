import Metor.Impl.Frame

/-!
# The loop of `FrameDecoder::push` (`libs/metor-proto/frame/src/lib.rs`)

One iteration of the loop, with the position `n` that the source keeps, over a
buffer and a `cobs::decode_in_place` of which nothing is known: they may answer
and change the buffer as they like, and differently each time.
-/

namespace Metor.Impl.Frame

open Metor.Lib

/-- What the loop calls. -/
structure Calls (B : Type) where
  asSlice : B → Bytes
  /-- whether it was `Ok` -/
  extendFromSlice : B → Bytes → B × Bool
  clear : B → B
  /-- `cobs::decode_in_place(as_mut_slice)` -/
  decodeInPlace : B → B × Option Nat

/-- How an iteration ends. -/
inductive Iteration (B : Type)
  | next (d : FrameDecoder B) (n : Nat)
  | returns (d : FrameDecoder B) (frame : Option Bytes)
  /-- `[..len]` of a shorter slice -/
  | panics

variable {B : Type}

/-- `FrameDecoder::clear` -/
def Calls.clearDecoder (calls : Calls B) (frame : B) : FrameDecoder B := ⟨calls.clear frame, .finding⟩

/-- The body of the loop, for `while let Some(data) = data.get(n..)`. -/
def iterate (calls : Calls B) (chunk : Bytes) (d : FrameDecoder B) (n : Nat) : Iteration B :=
  let data := chunk.drop n
  if chunk.length < n ∨ data = [] then .returns d none
  else
    match d.state with
    | .finding =>
      match FrameDecoder.findZero data with
      | none => .next d (n + data.length)
      | some frameStart => .next ⟨d.frame, .building⟩ (n + (frameStart + 1))
    | .building =>
      match FrameDecoder.findZero data with
      | some frameEnd =>
        if frameEnd ≥ 255 then .next (calls.clearDecoder d.frame) (n + (frameEnd + 1))
        else
          let frame := (calls.extendFromSlice d.frame (data.take frameEnd)).1
          let n := n + (frameEnd - 1)
          match calls.decodeInPlace frame with
          | (frame, none) => .next (calls.clearDecoder frame) n
          | (frame, some len) =>
            if len = 0 then .next (calls.clearDecoder frame) n
            else if len ≤ (calls.asSlice frame).length then
              .returns ⟨frame, .decoded⟩ (some ((calls.asSlice frame).take len))
            else .panics
      | none =>
        match calls.extendFromSlice d.frame data with
        | (frame, true) => .next ⟨frame, .building⟩ (n + data.length)
        | (frame, false) => .returns (calls.clearDecoder frame) none
    | .decoded => .next (calls.clearDecoder d.frame) n

/-- At most `fuel` iterations; iteration `k` makes the calls `calls k`. -/
def iterations (calls : Nat → Calls B) (chunk : Bytes) : (fuel k : Nat) → FrameDecoder B → Nat → Iteration B
  | 0, _, d, n => .next d n
  | fuel + 1, k, d, n =>
    match iterate (calls k) chunk d n with
    | .next d n => iterations calls chunk fuel (k + 1) d n
    | .returns d frame => .returns d frame
    | .panics => .panics

/-- The calls are those of a `Buf<u8>`, and of a decoding that leaves its result at the start of the buffer. -/
structure Realizes [Buf B] (calls : Calls B) (decode : Bytes → Option Bytes) : Prop where
  extend_some : ∀ {b b' other}, Buf.extendFromSlice b other = some b' → calls.extendFromSlice b other = (b', true)
  extend_none : ∀ {b other}, Buf.extendFromSlice b other = none → calls.extendFromSlice b other = (b, false)
  clear : ∀ b, calls.clear b = Buf.clear b
  clear_decoded : ∀ b, calls.clear (calls.decodeInPlace b).1 = Buf.clear b
  decode_none : ∀ {b}, decode (Buf.asSlice b) = none → (calls.decodeInPlace b).2 = none
  decode_some : ∀ {b out}, decode (Buf.asSlice b) = some out → (calls.decodeInPlace b).2 = some out.length ∧
    (calls.asSlice (calls.decodeInPlace b).1).take out.length = out

end Metor.Impl.Frame
