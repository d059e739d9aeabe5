import Metor.Spec.Frame

/-!
# Frames are what was between two zeros

While the decoder builds a frame, its buffer holds all that came after the last
zero (`Held`). An append that fails between two chunks ends the frame, but one
that fails at the closing zero is ignored, and then what is decoded is only the
part that was held. Where the last part fits (`Room`), `push` returns
the decoding of all that is between two zeros (`pushFrom_genuine`).
-/

namespace Metor.Proof.Frame

open Metor.Lib Metor.Impl.Frame Metor.Impl.Frame.FrameDecoder

section
variable {data : Bytes} {i : Nat}

theorem findZero_some (h : findZero data = some i) :
    data = data.take i ++ 0 :: data.drop (i + 1) ∧ 0 ∉ data.take i := by
  obtain ⟨hi, hz, hlt⟩ := List.findIdx?_eq_some_iff_getElem.mp h
  constructor
  · have e := List.drop_eq_getElem_cons hi
    rw [eq_of_beq hz] at e
    rw [← e, List.take_append_drop]
  · intro hm
    obtain ⟨k, hk, e⟩ := List.mem_take_iff_getElem.mp hm
    exact hlt k (by omega) (by rw [e]; rfl)

theorem findZero_none (h : findZero data = none) : 0 ∉ data := fun hm => by
  have := List.findIdx?_eq_none_iff.mp h 0 hm
  exact absurd this (by decide)

end

variable {B : Type} [Buf B]

/-- What the buffer holds of the stream so far. -/
structure Held (d : FrameDecoder B) (stream : Bytes) : Prop where
  finding : d.state = .finding → Buf.asSlice d.frame = []
  building : d.state = .building →
    ∃ before, stream = before ++ 0 :: Buf.asSlice d.frame ∧ 0 ∉ Buf.asSlice d.frame

theorem held_clear (d : FrameDecoder B) (stream : Bytes) : Held d.clear stream :=
  ⟨fun _ => Buf.asSlice_clear _, fun h => absurd h (by simp [clear])⟩

theorem held_default (stream : Bytes) : Held (FrameDecoder.default : FrameDecoder B) stream :=
  ⟨fun _ => Buf.asSlice_default, fun h => absurd h (by simp [FrameDecoder.default])⟩

theorem held_decoded (frame : B) (stream : Bytes) : Held ⟨frame, .decoded⟩ stream :=
  ⟨fun h => absurd h (by simp), fun h => absurd h (by simp)⟩

/-- The zero found opens a frame. -/
theorem Held.opening {d : FrameDecoder B} {stream : Bytes} (h : Held d stream) (hs : d.state = .finding)
    (stream' : Bytes) : Held (⟨d.frame, .building⟩ : FrameDecoder B) (stream' ++ [0]) := by
  have he := h.finding hs
  refine ⟨fun h => absurd h (by simp), fun _ => ⟨stream', ?_, ?_⟩⟩
  · rw [he]
  · rw [he]; exact List.not_mem_nil

/-- A part without a zero is appended. -/
theorem Held.extend {d : FrameDecoder B} {stream part : Bytes} {frame : B} (h : Held d stream)
    (hs : d.state = .building) (he : Buf.extendFromSlice d.frame part = some frame) (hz : 0 ∉ part) :
    Held (⟨frame, .building⟩ : FrameDecoder B) (stream ++ part) := by
  have hf := Buf.asSlice_extendFromSlice he
  obtain ⟨before, rfl, hb⟩ := h.building hs
  refine ⟨fun h => absurd h (by simp), fun _ => ⟨before, ?_, ?_⟩⟩
  · rw [hf, List.append_assoc, List.cons_append]
  · rw [hf, List.mem_append, not_or]
    exact ⟨hb, hz⟩

section
variable {decode : Bytes → Option Bytes} {d : FrameDecoder B} {data : Bytes}

theorem room_clear : Room decode d.clear data := fun h => absurd h (by simp [clear])

theorem room_opening (h0 : ∀ out ∈ decode [], out = []) (he : Buf.asSlice d.frame = []) :
    Room decode (⟨d.frame, .building⟩ : FrameDecoder B) data := fun _ _ _ _ => .inr (by rw [he]; exact h0)

/-- The frame decoded at the closing zero is genuine. -/
theorem genuine_of_room {stream out : Bytes} {frameEnd : Nat} (h : Held d stream) (hs : d.state = .building)
    (hr : Room decode d data) (hz : findZero data = some frameEnd) (hlt : frameEnd < 255)
    (hd : decode (Buf.asSlice (extendOrKeep d.frame (data.take frameEnd))) = some out) (hout : out ≠ []) :
    Genuine decode (stream ++ data) out := by
  obtain ⟨hsplit, hnz⟩ := findZero_some hz
  have hfits : (Buf.extendFromSlice d.frame (data.take frameEnd)).isSome := by
    rcases hr hs frameEnd hz hlt with hfits | hnone
    · exact hfits
    · cases he : Buf.extendFromSlice d.frame (data.take frameEnd) with
      | none =>
        rw [extendOrKeep, he] at hd
        exact absurd (hnone out hd) hout
      | some frame => rfl
  obtain ⟨frame, he⟩ := Option.isSome_iff_exists.mp hfits
  obtain ⟨before, hb, hm⟩ := (h.extend hs he hnz).building rfl
  rw [extendOrKeep, he] at hd
  refine ⟨before, Buf.asSlice frame, data.drop (frameEnd + 1), ?_, hm, hd⟩
  rw [← hb, List.append_assoc, ← hsplit]

/-- The buffer is in step with the stream, and a frame that is returned is genuine. -/
def Sound (decode : Bytes → Option Bytes) (r : FrameDecoder B × Option Bytes) (stream : Bytes) : Prop :=
  Held r.1 stream ∧ ∀ out ∈ r.2, Genuine decode stream out

theorem sound_none {stream : Bytes} (h : Held d stream) : Sound decode (d, none) stream :=
  ⟨h, fun _ hn => absurd hn (by simp)⟩

theorem Sound.of_drop {r : FrameDecoder B × Option Bytes} {stream : Bytes} {n : Nat}
    (h : Sound decode r ((stream ++ data.take n) ++ data.drop n)) : Sound decode r (stream ++ data) := by
  rwa [List.append_assoc, List.take_append_drop] at h

/-- A chunk keeps the buffer in step with the stream, and a frame it returns is genuine. -/
theorem pushFrom_genuine (h0 : ∀ out ∈ decode [], out = []) {stream : Bytes} (h : Held d stream)
    (hr : Room decode d data) : Sound decode (pushFrom decode d data) (stream ++ data) := by
  fun_induction pushFrom decode d data generalizing stream with
  | case1 d =>
    rw [List.append_nil]
    exact sound_none h
  | case2 d data _ hs hz => exact sound_none ⟨fun _ => h.finding hs, fun hb => absurd (hs.symm.trans hb) (by simp)⟩
  | case3 d data _ hs frameStart hz ih =>
    have hi := findZero_lt hz
    have htake : stream ++ data.take (frameStart + 1) = (stream ++ data.take frameStart) ++ [0] := by
      rw [List.append_assoc, List.append_cancel_left_eq, List.take_add_one]
      obtain ⟨_, hz, _⟩ := List.findIdx?_eq_some_iff_getElem.mp hz
      rw [List.getElem?_eq_getElem hi, eq_of_beq hz]
      rfl
    apply Sound.of_drop (n := frameStart + 1)
    rw [htake]
    exact ih (h.opening hs _) (room_opening h0 (h.finding hs))
  | case4 d data _ hs frameEnd hz hlong ih => exact (ih (held_clear _ _) room_clear).of_drop
  | case5 d data _ hs frameEnd hz hlt frame hnone =>
    rename_i ih
    exact (ih (held_clear _ _) room_clear).of_drop
  | case6 d data _ hs frameEnd hz hlt frame out hd hempty =>
    rename_i ih
    exact (ih (held_clear _ _) room_clear).of_drop
  | case7 d data _ hs frameEnd hz hlt frame out hd =>
    rename_i hout
    refine ⟨held_decoded _ _, fun out' ho => ?_⟩
    obtain rfl := Option.some.inj ho
    refine genuine_of_room h hs hr hz (by omega) hd ?_
    rintro rfl
    exact hout rfl
  | case8 d data _ hs hz frame he => exact sound_none (h.extend hs he (findZero_none hz))
  | case9 d data _ hs hz he => exact sound_none (held_clear _ _)
  | case10 d data _ hs ih => exact ih (held_clear _ _) room_clear

end

/-! ## Receptions -/

/-- The buffer is in step with the stream, and every frame returned so far is genuine. -/
structure Inv (decode : Bytes → Option Bytes) (s : Reception B) : Prop where
  held : Held s.decoder s.stream
  genuine : ∀ frame ∈ s.frames, Genuine decode s.stream frame

theorem genuine_append {decode : Bytes → Option Bytes} {stream frame : Bytes} (h : Genuine decode stream frame)
    (chunk : Bytes) : Genuine decode (stream ++ chunk) frame := by
  obtain ⟨before, run, after, rfl, hz, hd⟩ := h
  exact ⟨before, run, after ++ chunk, by simp, hz, hd⟩

theorem inv_step {decode : Bytes → Option Bytes} (h0 : ∀ out ∈ decode [], out = []) {s t : Reception B}
    {chunk : Bytes} (h : Inv decode s) (hr : Room decode s.decoder chunk) (ht : s.step decode chunk = some t) :
    Inv decode t := by
  have hs : Sound decode (s.decoder.push decode chunk) (s.stream ++ chunk) := pushFrom_genuine h0 h.held hr
  obtain rfl := Option.some.inj ht
  refine ⟨hs.1, fun frame hf => ?_⟩
  rcases List.mem_append.mp hf with hf | hf
  · exact genuine_append (h.genuine frame hf) chunk
  · exact hs.2 frame (Option.mem_toList.mp hf)

/-- Where every frame's last part has room, every frame returned is the decoding of a complete run between two
consecutive zeros of the stream. -/
theorem frames_genuine {decode : Bytes → Option Bytes} (h0 : ∀ out ∈ decode [], out = []) {s : Reception B}
    (h : Run (Reception.step decode) (fun s => Room decode s.decoder) .init s) :
    ∀ frame ∈ s.frames, Genuine decode s.stream frame := by
  have hi : Inv decode (.init : Reception B) := ⟨held_default _, fun _ h => absurd h List.not_mem_nil⟩
  exact (h.invariant (fun hi hr ht => inv_step h0 hi hr ht) hi).genuine

/-- Two chunks, into a buffer of four bytes. -/
theorem frames_genuine_two : Genuine Cobs.decode [0, 2, 1, 2, 2, 0] [1, 0, 2] := by
  let s₁ : Reception (HeaplessVec 4) := ⟨⟨⟨[2, 1], by decide⟩, .building⟩, [0, 2, 1], []⟩
  let s₂ : Reception (HeaplessVec 4) := ⟨⟨⟨[2, 1, 2, 2], by decide⟩, .decoded⟩, [0, 2, 1, 2, 2, 0], [[1, 0, 2]]⟩
  have h₁ : Reception.step Cobs.decode .init [0, 2, 1] = some s₁ := by decide +kernel
  have h₂ : Reception.step Cobs.decode s₁ [2, 2, 0] = some s₂ := by decide +kernel
  have r₁ : Room Cobs.decode (Reception.init : Reception (HeaplessVec 4)).decoder [0, 2, 1] := fun h => by
    exact absurd h (by decide)
  have r₂ : Room Cobs.decode s₁.decoder [2, 2, 0] := fun _ frameEnd hz _ => by
    obtain rfl : 2 = frameEnd := Option.some.inj hz
    exact .inl (by decide)
  have hrun₁ : Run (Reception.step Cobs.decode) (fun s => Room Cobs.decode s.decoder) .init s₁ := .snoc .refl r₁ h₁
  have hrun₂ : Run (Reception.step Cobs.decode) (fun s => Room Cobs.decode s.decoder) .init s₂ := .snoc hrun₁ r₂ h₂
  exact frames_genuine cobsLaws.decode_nil hrun₂ [1, 0, 2] (by decide)

theorem not_genuine_truncated : ¬ Genuine Cobs.decode [0, 2, 1, 2, 2, 0] [1] := by
  rintro ⟨before, run, after, h, hz, hd⟩
  rw [List.append_assoc] at h
  cases before with
  | nil =>
    have h : [2, 1, 2, 2] ++ 0 :: [] = run ++ 0 :: after := (List.cons.inj h).2
    have hz' : 0 ∉ ([2, 1, 2, 2] : Bytes) := by decide
    obtain ⟨rfl, -⟩ := append_cons_inj_of_notMem hz' hz h
    exact absurd hd (by decide)
  | cons b before =>
    have h : ([2, 1, 2, 2, 0] : Bytes) = before ++ (0 :: run ++ 0 :: after) := (List.cons.inj h).2
    have hc := congrArg (List.count 0) h
    simp only [List.count_append, List.cons_append, List.count_cons_self] at hc
    have : List.count 0 ([2, 1, 2, 2, 0] : Bytes) = 1 := by decide
    omega

/-- In a buffer of three bytes the second half of the frame does not fit, and the first is returned. -/
theorem truncated_frame : ¬ ∀ (N : Nat) (s : Reception (HeaplessVec N)),
    Run (Reception.step Cobs.decode) (fun _ _ => True) .init s → ∀ frame ∈ s.frames, Genuine Cobs.decode s.stream frame := by
  intro hall
  let s₁ : Reception (HeaplessVec 3) := ⟨⟨⟨[2, 1], by decide⟩, .building⟩, [0, 2, 1], []⟩
  let s₂ : Reception (HeaplessVec 3) := ⟨⟨⟨[2, 1], by decide⟩, .decoded⟩, [0, 2, 1, 2, 2, 0], [[1]]⟩
  have h₁ : Reception.step Cobs.decode .init [0, 2, 1] = some s₁ := by decide +kernel
  have h₂ : Reception.step Cobs.decode s₁ [2, 2, 0] = some s₂ := by decide +kernel
  have hrun : Run (Reception.step Cobs.decode) (fun _ _ => True) .init s₂ := (Run.refl.snoc trivial h₁).snoc trivial h₂
  exact not_genuine_truncated (hall 3 s₂ hrun [1] (by decide))

end Metor.Proof.Frame
