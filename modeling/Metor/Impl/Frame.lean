import Metor.Lib.Slice

/-!
# Frames on a serial line (`libs/metor-proto/frame`, `libs/metor-proto/src/buf.rs`)

A frame is what stands between two zeros. The decoder looks for a zero,
collects the bytes up to the next one in its buffer, and decodes them in place.
`push` takes one chunk of the stream and returns at the first frame it decodes;
what is left of the chunk is dropped.

The decoding of the bytes between two zeros is a parameter (the crate `cobs`):
the first `len` bytes that `decode_in_place` leaves in the buffer, or nothing
where it fails.
-/

namespace Metor.Impl.Frame

open Metor.Lib

/-- `Buf<u8>`, as far as the decoder uses it. Where it is full,
`extend_from_slice` fails and the buffer stays as it is. -/
class Buf (B : Type) where
  default : B
  asSlice : B → Bytes
  extendFromSlice : B → Bytes → Option B
  clear : B → B
  asSlice_default : asSlice default = []
  asSlice_extendFromSlice : ∀ {b other b'}, extendFromSlice b other = some b' →
    asSlice b' = asSlice b ++ other
  asSlice_clear : ∀ b, asSlice (clear b) = []

/-- `alloc::vec::Vec<u8>` -/
instance : Buf Bytes where
  default := []
  asSlice b := b
  extendFromSlice b other := some (b ++ other)
  clear _ := []
  asSlice_default := rfl
  asSlice_extendFromSlice h := (Option.some.inj h).symm
  asSlice_clear _ := rfl

/-- `heapless::Vec<u8, N>` -/
def HeaplessVec (N : Nat) : Type := { b : Bytes // b.length ≤ N }

instance (N : Nat) : DecidableEq (HeaplessVec N) := inferInstanceAs (DecidableEq { b : Bytes // b.length ≤ N })

instance (N : Nat) : Buf (HeaplessVec N) where
  default := ⟨[], Nat.zero_le N⟩
  asSlice b := b.1
  extendFromSlice b other := if h : (b.1 ++ other).length ≤ N then some ⟨b.1 ++ other, h⟩ else none
  clear _ := ⟨[], Nat.zero_le N⟩
  asSlice_default := rfl
  asSlice_extendFromSlice h := by
    split at h
    · rw [← Option.some.inj h]
    · exact absurd h (by simp)
  asSlice_clear _ := rfl

inductive FrameDecoderState
  | finding | building | decoded
  deriving DecidableEq, Repr

structure FrameDecoder (B : Type) where
  frame : B
  state : FrameDecoderState
  deriving DecidableEq

namespace FrameDecoder

variable {B : Type} [Buf B]

/-- `FrameDecoder::default` -/
def default : FrameDecoder B := ⟨Buf.default, .finding⟩

/-- `clear` -/
def clear (d : FrameDecoder B) : FrameDecoder B := ⟨Buf.clear d.frame, .finding⟩

/-- The position of the first zero. -/
def findZero (data : Bytes) : Option Nat := data.findIdx? (· == 0)

/-- The buffer after an `extend_from_slice` whose result is ignored. -/
def extendOrKeep (frame : B) (other : Bytes) : B := (Buf.extendFromSlice frame other).getD frame

theorem findZero_lt {data : Bytes} {i : Nat} (h : findZero data = some i) :
    i < data.length := by
  obtain ⟨hi, _⟩ := List.findIdx?_eq_some_iff_getElem.mp h
  exact hi

/-- The loop of `push` on the part of the chunk from `n` on. -/
def pushFrom (decode : Bytes → Option Bytes) (d : FrameDecoder B) (data : Bytes) :
    FrameDecoder B × Option Bytes :=
  if _hd : data = [] then (d, none)
  else
    match _hs : d.state with
    | .finding =>
      match _hz : findZero data with
      | none => (d, none)
      | some frameStart => pushFrom decode ⟨d.frame, .building⟩ (data.drop (frameStart + 1))
    | .building =>
      match _hz : findZero data with
      | some frameEnd =>
        if frameEnd ≥ 255 then pushFrom decode d.clear (data.drop (frameEnd + 1))
        else
          let frame := extendOrKeep d.frame (data.take frameEnd)
          match decode (Buf.asSlice frame) with
          | none => pushFrom decode (clear ⟨frame, .building⟩) (data.drop (frameEnd - 1))
          | some out =>
            if out.length = 0 then pushFrom decode (clear ⟨frame, .building⟩) (data.drop (frameEnd - 1))
            else (⟨frame, .decoded⟩, some out)
      | none =>
        match Buf.extendFromSlice d.frame data with
        | some frame => (⟨frame, .building⟩, none)
        | none => (d.clear, none)
    | .decoded => pushFrom decode d.clear data
termination_by 2 * data.length + if d.state = .finding then 0 else 1
decreasing_by
  all_goals have hpos := List.length_pos_of_ne_nil _hd
  all_goals try have hi := findZero_lt _hz
  all_goals simp only [List.length_drop, _hs, clear, if_true, if_false, reduceCtorEq]
  all_goals omega

/-- `push` -/
def push (decode : Bytes → Option Bytes) (d : FrameDecoder B) (data : Bytes) :
    FrameDecoder B × Option Bytes :=
  pushFrom decode d data

end FrameDecoder

end Metor.Impl.Frame
