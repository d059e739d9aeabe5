import Mathlib.Data.List.Induction
import Metor.Spec.Packet

/-!
# Packets round-trip

Whatever is done to a packet, its buffer is the length of the packet, its
header and what was pushed since the last clear (`Holds`, `holds_run`), as long
as the length fits in its four bytes. A packet is parsed from there
(`parse_at`), alone or behind the padding of a grant (`packet_received`).
-/

namespace Metor.Proof.Packet

open Metor.Lib Metor.Impl.Proto

/-- The length in front of a packet. -/
def lenPrefix (c : Contents) : Bytes := leBytes 4 (packetHeaderLen + c.body.length)

/-- The packet without its length. -/
def packetOf (c : Contents) : Bytes := [c.ty.toUInt8, c.id.1, c.id.2, c.reqId] ++ c.body

/-- The buffer of a packet that has the contents. -/
def Holds (p : LenPacket) (c : Contents) : Prop := p.inner = lenPrefix c ++ packetOf c

section
variable {p : LenPacket} {c : Contents}

theorem length_lenPrefix (c : Contents) : (lenPrefix c).length = 4 := length_leBytes 4 _

theorem length_packetOf (c : Contents) : (packetOf c).length = packetHeaderLen + c.body.length := by
  simp [packetOf, packetHeaderLen]
  omega

theorem Holds.length (h : Holds p c) : p.inner.length = 8 + c.body.length := by
  rw [h, List.length_append, length_packetOf, length_lenPrefix, packetHeaderLen]
  omega

theorem Holds.drop (h : Holds p c) : p.inner.drop 4 = packetOf c := by
  rw [h, List.drop_left' (length_lenPrefix c)]

theorem Holds.pktLen (h : Holds p c) (hf : c.Fits) : p.pktLen = packetHeaderLen + c.body.length := by
  rw [LenPacket.pktLen, h, List.take_left' (length_lenPrefix c)]
  exact leNat_leBytes hf

theorem overwrite_length (c : Contents) (rest : Bytes) (n : Nat) :
    overwrite (lenPrefix c ++ rest) 0 (leBytes 4 n) = leBytes 4 n ++ rest := by
  rw [overwrite, List.take_zero, List.nil_append, Nat.zero_add, length_leBytes,
    List.drop_left' (length_lenPrefix c)]

/-- What is appended is pushed, if the length that is written is that of the packet. -/
theorem Holds.append (h : Holds p c) (bytes : Bytes) :
    Holds (p.append bytes (packetHeaderLen + (c.body ++ bytes).length)) { c with body := c.body ++ bytes } := by
  show overwrite (p.inner ++ bytes) 0 _ = _
  rw [h, List.append_assoc, overwrite_length, lenPrefix, packetOf, packetOf, List.append_assoc]

theorem asU32_add {a b : Nat} (h : a + b < 2 ^ 32) : asU32 (a + asU32 b) = a + b := by
  unfold asU32
  omega

theorem Holds.append_asU32 (h : Holds p c) {bytes : Bytes} (hf : Contents.Fits { c with body := c.body ++ bytes }) :
    Holds (p.append bytes (asU32 (p.pktLen + asU32 bytes.length))) { c with body := c.body ++ bytes } := by
  have hlen : (c.body ++ bytes).length = c.body.length + bytes.length := List.length_append
  have hf' : packetHeaderLen + (c.body ++ bytes).length < 2 ^ 32 := hf
  have hc : c.Fits := by unfold Contents.Fits; omega
  rw [h.pktLen hc, asU32_add (by omega), Nat.add_assoc, ← hlen]
  exact h.append bytes

theorem Holds.push (h : Holds p c) {elem : UInt8} (hf : Contents.Fits { c with body := c.body ++ [elem] }) :
    Holds (p.push elem) { c with body := c.body ++ [elem] } := by
  have e : asU32 (p.pktLen + 1) = asU32 (p.pktLen + asU32 [elem].length) := rfl
  rw [LenPacket.push, e]
  exact h.append_asU32 hf

/-- Zeros pushed one after the other. -/
theorem Holds.pushZeros (h : Holds p c) {n : Nat} (hf : Contents.Fits { c with body := c.body ++ List.replicate n 0 }) :
    Holds ((List.range n).foldl (fun p _ => p.push 0) p) { c with body := c.body ++ List.replicate n 0 } := by
  induction n with
  | zero => rw [List.replicate_zero, List.append_nil]; exact h
  | succ n ih =>
    have hf' : packetHeaderLen + (c.body ++ List.replicate (n + 1) 0).length < 2 ^ 32 := hf
    rw [List.length_append, List.length_replicate] at hf'
    have hn := ih (by unfold Contents.Fits; rw [List.length_append, List.length_replicate]; omega)
    rw [List.range_succ, List.foldl_append, List.replicate_succ', ← List.append_assoc]
    refine hn.push ?_
    unfold Contents.Fits
    rw [List.length_append, List.length_append, List.length_replicate, List.length_singleton]
    omega

theorem holds_new (ty : PacketTy) (id : UInt8 × UInt8) : Holds (.new ty id) ⟨ty, id, 0, []⟩ := rfl

theorem holds_ofNew (n : NewPacket) : Holds n.pkt (.ofNew n) := by
  cases n with
  | msgWithTimestamp id timestamp =>
    have hl : (i64Bytes timestamp).length = 8 := length_i64Bytes timestamp
    refine @Holds.append_asU32 _ _ (holds_new .msgWithTimestamp id) (i64Bytes timestamp) ?_
    unfold Contents.Fits packetHeaderLen
    rw [List.nil_append, hl]
    decide
  | _ => rfl

/-- One operation. -/
theorem Holds.apply (h : Holds p c) (op : PacketOp) (hf : (c.apply op).Fits) : Holds (p.apply op) (c.apply op) := by
  have hal (align : Nat) : List.replicate ((align - p.inner.length % align) % align) (0 : UInt8) = c.aligned align := by
    rw [h.length, Contents.aligned]
  cases op with
  | push elem => exact h.push hf
  | pushAligned align val =>
    have e : p.pushAligned align val =
        p.append (c.aligned align ++ val) (asU32 (p.pktLen + asU32 (c.aligned align ++ val).length)) := by
      rw [LenPacket.pushAligned, ← hal, List.length_append, List.length_replicate]
    show Holds (p.pushAligned align val) _
    rw [e]
    exact h.append_asU32 hf
  | extendAligned align vals =>
    show Holds (p.extendAligned align vals) _
    rw [LenPacket.extendAligned, hal]
    exact h.append_asU32 hf
  | extendFromSlice buf => exact h.append_asU32 hf
  | padForType ty =>
    show Holds (p.padForType ty) _
    rw [LenPacket.padForType, h.length]
    exact h.pushZeros hf
  | setRequestId requestId =>
    show p.inner.set 7 requestId = _
    rw [h, List.set_append_right _ _ (by rw [length_lenPrefix]; decide), length_lenPrefix]
    rfl
  | clear =>
    show (overwrite p.inner 0 (leBytes 4 packetHeaderLen)).take (4 + packetHeaderLen) = _
    rw [h, overwrite_length, List.take_append, length_leBytes,
      List.take_of_length_le (by rw [length_leBytes]; omega), Nat.add_sub_cancel_left, packetOf,
      List.take_left' (by rfl)]
    simp [lenPrefix, packetOf, Contents.apply]

end

/-- Any operations, if the packet never gets too long. -/
theorem holds_run (n : NewPacket) (ops : List PacketOp) (hf : ∀ k, (Contents.run n (ops.take k)).Fits) :
    Holds (LenPacket.run n ops) (Contents.run n ops) := by
  induction ops using List.reverseRecOn with
  | nil => exact holds_ofNew n
  | append_singleton ops op ih =>
    have hlen : (ops ++ [op]).take (ops ++ [op]).length = ops ++ [op] := List.take_length
    have hlast := hf (ops ++ [op]).length
    rw [hlen] at hlast
    rw [LenPacket.run, Contents.run, List.foldl_append, List.foldl_append]
    rw [Contents.run, List.foldl_append] at hlast
    refine (ih fun k => ?_).apply op hlast
    have hk := hf (min k ops.length)
    rwa [List.take_append_of_le_length (Nat.min_le_right _ _), ← List.take_take, List.take_length] at hk

/-! ## Parsing -/

theorem ofUInt8?_toUInt8 (ty : PacketTy) : PacketTy.ofUInt8? ty.toUInt8 = some ty := by
  cases ty <;> rfl

theorem sliceFrom_eq {buf : Bytes} {start : Nat} (h : start ≤ buf.length) :
    sliceFrom buf start = some (buf.drop start) := by
  unfold sliceFrom Impl.Io.trySlice
  rw [if_neg (by omega)]
  simp only [Option.getD_none, Nat.le_refl, true_or, not_true_eq_false, if_false, Option.bind_some, Impl.Io.Slice.deref]
  rw [if_pos ⟨h, trivial⟩, slice, List.take_length]

/-- A packet is parsed at its offset, with what is behind its header. -/
theorem parse_at (before : Bytes) (c : Contents) :
    OwnedPacket.parseWithOffset (before ++ packetOf c) before.length = c.received := by
  have hlen : (before ++ packetOf c).length = before.length + (packetHeaderLen + c.body.length) := by
    rw [List.length_append, length_packetOf]
  have hbody : (before ++ packetOf c).drop (packetHeaderLen + before.length) = c.body := by
    rw [Nat.add_comm, ← List.drop_drop, List.drop_left]
    rfl
  have hslice := @sliceFrom_eq (before ++ packetOf c) (packetHeaderLen + before.length) (by omega)
  rw [hbody] at hslice
  have hcons : packetOf c = c.ty.toUInt8 :: c.id.1 :: c.id.2 :: c.reqId :: c.body := rfl
  unfold OwnedPacket.parseWithOffset
  rw [if_neg (by omega), List.drop_left]
  simp only [hslice]
  rw [hcons]
  simp only [ofUInt8?_toUInt8]
  unfold Contents.received
  cases hty : c.ty with
  | msg => rfl
  | table => rfl
  | timeSeries => rfl
  | msgWithTimestamp =>
    show (if c.body.length < 8 then _ else _) = if c.body.length < 8 then _ else _
    by_cases hb : c.body.length < 8
    · rw [if_pos hb, if_pos hb]
    · have hrest := @sliceFrom_eq (before ++ packetOf c) (packetHeaderLen + before.length + 8) (by omega)
      rw [← List.drop_drop, hbody, hcons, hty] at hrest
      rw [if_neg hb, if_neg hb, hrest]

/-- What the consumer gets of a packet that was committed. -/
theorem commit_eq {addr : Nat} {inner : Bytes} {p : LenPacket}
    (hfits : PrimType.padding .u64 addr + p.inner.length ≤ inner.length) :
    (PacketGrantW.new addr inner).bind (·.commitLenPkt p) =
      some (.replicate (PrimType.padding .u64 addr) 0 ++ p.inner) := by
  have hpad : 0 + (List.replicate (PrimType.padding .u64 addr) (0 : UInt8)).length ≤ inner.length := by
    rw [List.length_replicate]; omega
  have hl := length_overwrite hpad
  have htake := take_overwrite hpad
  rw [List.length_replicate, Nat.zero_add, List.take_zero, List.nil_append] at htake
  rw [PacketGrantW.new, if_pos (by omega), Option.bind_some]
  generalize overwrite inner 0 (List.replicate (PrimType.padding .u64 addr) 0) = buf at hl htake
  show (if p.inner.length ≤ buf.length - PrimType.padding .u64 addr then
    some ((overwrite buf (PrimType.padding .u64 addr) p.inner).take (PrimType.padding .u64 addr + p.inner.length))
    else none) = _
  rw [if_pos (by omega), take_overwrite (by omega), htake]

/-- Without a clear what was pushed first stays in front. -/
theorem body_append (n : NewPacket) (ops : List PacketOp) (hc : ∀ op ∈ ops, op ≠ .clear) :
    ∃ rest, (Contents.run n ops).body = (Contents.ofNew n).body ++ rest ∧
      (Contents.run n ops).ty = (Contents.ofNew n).ty ∧ (Contents.run n ops).id = (Contents.ofNew n).id := by
  induction ops using List.reverseRecOn with
  | nil => exact ⟨[], (List.append_nil _).symm, rfl, rfl⟩
  | append_singleton ops op ih =>
    obtain ⟨rest, hb, ht, hi⟩ := ih fun op ho => hc op (List.mem_append_left _ ho)
    have hop := hc op (List.mem_append_right _ List.mem_cons_self)
    rw [Contents.run, List.foldl_append]
    show ∃ rest, ((Contents.run n ops).apply op).body = _ ∧ _
    cases op with
    | clear => exact absurd rfl hop
    | setRequestId requestId => exact ⟨rest, hb, ht, hi⟩
    | _ => exact ⟨rest ++ _, by rw [← List.append_assoc, ← hb]; rfl, ht, hi⟩

theorem received_timestamp {id : UInt8 × UInt8} {timestamp : Int} {ops : List PacketOp} (ht : IsI64 timestamp)
    (hc : ∀ op ∈ ops, op ≠ .clear) :
    (Contents.run (.msgWithTimestamp id timestamp) ops).received =
      .ok (.msg id (Contents.run (.msgWithTimestamp id timestamp) ops).reqId (some timestamp)
        ((Contents.run (.msgWithTimestamp id timestamp) ops).body.drop 8)) := by
  obtain ⟨rest, hb, hty, hid⟩ := body_append (.msgWithTimestamp id timestamp) ops hc
  have hb : (Contents.run (.msgWithTimestamp id timestamp) ops).body = i64Bytes timestamp ++ rest := hb
  have hty : (Contents.run (.msgWithTimestamp id timestamp) ops).ty = .msgWithTimestamp := hty
  have hid : (Contents.run (.msgWithTimestamp id timestamp) ops).id = id := hid
  have hl := length_i64Bytes timestamp
  have hlen : ¬ (i64Bytes timestamp ++ rest).length < 8 := by rw [List.length_append]; omega
  rw [Contents.received, hty, hid, hb]
  show (if (i64Bytes timestamp ++ rest).length < 8 then _ else _) = _
  rw [if_neg hlen, List.take_left' hl, i64OfBytes_i64Bytes ht]

/-- The length in front of a packet is right, and the packet is received with its contents, directly or through a
queue, whatever the address of the grant. The timestamp of a message is the one it was made with, unless it was
cleared. -/
theorem packet_received (n : NewPacket) (ops : List PacketOp) (hf : ∀ k, (Contents.run n (ops.take k)).Fits) :
    (LenPacket.run n ops).pktLen = (LenPacket.run n ops).inner.length - 4 ∧
      OwnedPacket.parse ((LenPacket.run n ops).inner.drop 4) = (Contents.run n ops).received ∧
      (∀ (addr : Nat) (inner : Bytes), PrimType.padding .u64 addr + (LenPacket.run n ops).inner.length ≤ inner.length →
        ∃ grant, (PacketGrantW.new addr inner).bind (·.commitLenPkt (LenPacket.run n ops)) = some grant ∧
          tryRecvPkt addr grant = (Contents.run n ops).received.toOption) ∧
      ∀ id timestamp, n = .msgWithTimestamp id timestamp → IsI64 timestamp → (∀ op ∈ ops, op ≠ .clear) →
        (Contents.run n ops).received =
          .ok (.msg id (Contents.run n ops).reqId (some timestamp) ((Contents.run n ops).body.drop 8)) := by
  have h := holds_run n ops hf
  have hfit := hf ops.length
  rw [List.take_length] at hfit
  refine ⟨?_, ?_, fun addr inner hfits => ⟨_, commit_eq hfits, ?_⟩, ?_⟩
  · rw [h.pktLen hfit, h.length, packetHeaderLen]
    omega
  · rw [h.drop]
    exact parse_at [] _
  · have hlen : (List.replicate (PrimType.padding .u64 addr) 0 ++ lenPrefix (Contents.run n ops)).length =
        4 + PrimType.padding .u64 addr := by
      rw [List.length_append, List.length_replicate, length_lenPrefix, Nat.add_comm]
    rw [tryRecvPkt, h, ← List.append_assoc, ← hlen, parse_at]
    cases (Contents.run n ops).received <;> rfl
  · rintro id timestamp rfl ht hc
    exact received_timestamp ht hc

/-- A message with its timestamp, pushed to, given a request id and committed at an odd address. -/
theorem packet_received_msg :
    OwnedPacket.parse ((LenPacket.run (.msgWithTimestamp (1, 2) 5) [.push 7, .setRequestId 9]).inner.drop 4) =
      .ok (.msg (1, 2) 9 (some 5) [7]) := by
  have hf : ∀ k, (Contents.run (.msgWithTimestamp (1, 2) 5) ([.push 7, .setRequestId 9].take k)).Fits
    | 0 => by decide
    | 1 => by decide
    | k + 2 => by
      rw [List.take_of_length_le (by simp)]
      decide
  exact (packet_received (.msgWithTimestamp (1, 2) 5) [.push 7, .setRequestId 9] hf).2.1

/-- A clear takes the timestamp with it. -/
theorem timestamp_cleared : ¬ ∀ (id : UInt8 × UInt8) (timestamp : Int) (ops : List PacketOp),
    (∀ k, (Contents.run (.msgWithTimestamp id timestamp) (ops.take k)).Fits) →
      ∃ reqId buf, OwnedPacket.parse ((LenPacket.run (.msgWithTimestamp id timestamp) ops).inner.drop 4) =
        .ok (.msg id reqId (some timestamp) buf) := by
  intro hall
  have hf : ∀ k, (Contents.run (.msgWithTimestamp (1, 2) 5) ([.clear].take k)).Fits
    | 0 => by decide
    | k + 1 => by
      rw [List.take_of_length_le (by simp)]
      decide
  obtain ⟨reqId, buf, h⟩ := hall (1, 2) 5 [.clear] hf
  have hp : OwnedPacket.parse ((LenPacket.run (.msgWithTimestamp (1, 2) 5) [.clear]).inner.drop 4) =
      .error .invalidPacket := by decide
  rw [hp] at h
  exact absurd h (by simp)

end Metor.Proof.Packet
