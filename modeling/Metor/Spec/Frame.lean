import Metor.Impl.Frame
import Metor.Impl.Io
import Metor.Lib.Cobs
import Metor.Lib.Run

/-!
# Frames on a serial line: what is sent and what is received

Each payload is sent as a zero, its encoding and a zero, and the stream arrives
in chunks. The decoder should return the payloads whatever the chunks are, and
nothing that was not between two zeros of the stream.
-/

namespace Metor.Impl.Frame

open Metor.Lib

/-- What the decoder relies on of the crate `cobs`, for the payloads that are short enough for a frame. -/
structure CobsLaws (encode : Bytes → Bytes) (decode : Bytes → Option Bytes) : Prop where
  decode_encode : ∀ p, 1 ≤ p.length → p.length ≤ 253 → decode (encode p) = some p
  zero_notMem : ∀ p, 1 ≤ p.length → p.length ≤ 253 → 0 ∉ encode p
  length_le : ∀ p, 1 ≤ p.length → p.length ≤ 253 → (encode p).length ≤ 254
  decode_nil : ∀ out ∈ decode [], out = []

theorem cobsLaws : CobsLaws Cobs.encode Cobs.decode where
  decode_encode _ _ hp := Cobs.decode_encode (by omega)
  zero_notMem _ _ hp := Cobs.zero_notMem_encode (by omega)
  length_le p _ hp := by rw [Cobs.length_encode]; omega
  decode_nil out h := (Option.some.inj h).symm

/-! ## The stream and its chunks -/

/-- A byte of the stream, and whether it is the closing delimiter of a frame. -/
abbrev Sent := UInt8 × Bool

/-- The frame of a payload. -/
def sent (encode : Bytes → Bytes) (payload : Bytes) : List Sent :=
  (0, false) :: (encode payload).map (·, false) ++ [(0, true)]

/-- The stream of the payloads. -/
def stream (encode : Bytes → Bytes) (payloads : List Bytes) : List Sent := payloads.flatMap (sent encode)

/-- The bytes of a chunk. -/
def bytes (chunk : List Sent) : Bytes := chunk.map Prod.fst

/-- The closing delimiters of a chunk. -/
def closings (chunk : List Sent) : Nat := (chunk.filter (·.2)).length

/-- A closing delimiter of the chunk is its last byte. -/
def ClosesLast (chunk : List Sent) : Prop := ∀ x ∈ chunk.dropLast, x.2 = false

instance (chunk : List Sent) : Decidable (ClosesLast chunk) :=
  inferInstanceAs (Decidable (∀ x ∈ chunk.dropLast, x.2 = false))

/-- The frames that `push` returns, called once for each chunk. -/
def frames {B : Type} [Buf B] (decode : Bytes → Option Bytes) (d : FrameDecoder B) : List Bytes → List Bytes
  | [] => []
  | chunk :: chunks => (d.push decode chunk).2.toList ++ frames decode (d.push decode chunk).1 chunks

/-! ## What a frame was read from -/

/-- The frame is the decoding of all the bytes between two consecutive zeros of the stream. -/
def Genuine (decode : Bytes → Option Bytes) (stream frame : Bytes) : Prop :=
  ∃ before run after, stream = before ++ 0 :: run ++ 0 :: after ∧ 0 ∉ run ∧ decode run = some frame

/-- Where the chunk closes the frame that is held, its last part fits in the buffer, or what is held has no frame of
its own. -/
def Room {B : Type} [Buf B] (decode : Bytes → Option Bytes) (d : FrameDecoder B) (data : Bytes) : Prop :=
  d.state = .building → ∀ frameEnd ∈ FrameDecoder.findZero data, frameEnd < 255 →
    (Buf.extendFromSlice d.frame (data.take frameEnd)).isSome ∨ ∀ out ∈ decode (Buf.asSlice d.frame), out = []

/-- A decoder, the stream so far and the frames returned. -/
structure Reception (B : Type) where
  decoder : FrameDecoder B
  stream : Bytes
  frames : List Bytes
  deriving DecidableEq

namespace Reception

variable {B : Type} [Buf B]

def init : Reception B := ⟨.default, [], []⟩

/-- One call of `push`. -/
def step (decode : Bytes → Option Bytes) (s : Reception B) (chunk : Bytes) : Option (Reception B) :=
  let (decoder, out) := s.decoder.push decode chunk
  some ⟨decoder, s.stream ++ chunk, s.frames ++ out.toList⟩

end Reception

end Metor.Impl.Frame

/-!
## Length-delimited reading: what it is for

A stream of frames, each the length of a payload and the payload, is read back
payload by payload (`Faithful`), in whatever pieces it arrives.
-/

namespace Metor.Impl.Io

open Metor.Lib

/-- A frame: its length, of type `L`, and that many bytes. -/
def frame (L : Length) (payload : Bytes) : Bytes := leBytes L.size payload.length ++ payload

namespace LengthDelReader

/-- What the reader has not handed out yet: the bytes it holds, then those on their way. -/
def held (r : LengthDelReader) : Bytes := r.scratch ++ r.reader.unread

/-- The bytes of the frames still to be received, each with the buffer it is received in. -/
def stream (L : Length) (calls : List (Bytes × Bytes)) : Bytes := calls.flatMap fun c => frame L c.1

/-- Each `recv` returns its frame's payload, and what is held afterwards is the frames after it. -/
def Faithful (L : Length) : LengthDelReader → List (Bytes × Bytes) → Prop
  | _, [] => True
  | r, (payload, buf) :: calls => ∃ slice r', recv L r buf = .ok (slice, r') ∧ slice.deref = some payload ∧
      r'.held = stream L calls ∧ Faithful L r' calls

/-- If the reader holds more than the buffer takes, the bytes read beyond the frame and those left
behind are the same in either order; so it is if there are none of one kind. -/
def InOrder (L : Length) (r : LengthDelReader) (payload buf : Bytes) : Prop :=
  let surplus := slice r.scratch (frame L payload).length buf.length
  let left := r.scratch.drop buf.length
  left ++ surplus = surplus ++ left

instance (L : Length) (r : LengthDelReader) (payload buf : Bytes) : Decidable (InOrder L r payload buf) :=
  inferInstanceAs (Decidable (_ = _))

/-- Every call is made in a state in which it keeps the bytes in order. -/
def AllInOrder (L : Length) : LengthDelReader → List (Bytes × Bytes) → Prop
  | _, [] => True
  | r, (payload, buf) :: calls => InOrder L r payload buf ∧
      ∀ slice r', recv L r buf = .ok (slice, r') → AllInOrder L r' calls

/-- A length that the prefix can hold, and a buffer that the frame fits in -/
structure Fits (L : Length) (payload buf : Bytes) : Prop where
  payload_lt : payload.length < 256 ^ L.size
  le_buf : (frame L payload).length ≤ buf.length
  buf_lt : buf.length < 2 ^ 64

end LengthDelReader

end Metor.Impl.Io
