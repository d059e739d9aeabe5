import Metor.Proof.MsgLog.Persist

/-!
# Messages that were inserted are found

`Holds` says what a `BufLog` is after inserts: an entry for each message that
was accepted, and the bytes of the long ones end to end in the data log, before
what was left there when the entries were full. An insert keeps it
(`insert_holds`), and a long message is read from the low 32 bits of where it
begins (`getMsg_long`). `stored_iff` is when that gives every message back.
-/

namespace Metor.Proof.MsgLog

open Metor.Lib Metor.Impl Metor.Impl.Proto Metor.Impl.Msg

variable {kept : List Bytes} {b : BufLog} {m : Bytes}

theorem longBytes_concat (kept : List Bytes) (m : Bytes) :
    longBytes (kept ++ [m]) = longBytes kept ++ if 12 < m.length then m else [] := by
  rw [longBytes, List.filter_append, List.flatten_append, ← longBytes]
  by_cases h : 12 < m.length
  · simp [h]
  · simp [h]

theorem long_of_not_short (h : ¬ m.length ≤ 12) : 12 < m.length := Nat.lt_of_not_le h

/-- The entry of a message that comes after `kept`. -/
def entryOf (kept : List Bytes) (m : Bytes) : UmbraBuf :=
  if h : m.length ≤ 12 then .inline m h
  else .offset m.length (m.take 4) (asU32 (longBytes kept).length) (long_of_not_short h)

/-- The entries are full. -/
def OutOfEntries (kept : List Bytes) : Prop :=
  MsgLogNode.fileSize + 1 < AppendLog.bareHeaderSize + (kept.length + 1) * 16

instance (kept : List Bytes) : Decidable (OutOfEntries kept) := inferInstanceAs (Decidable (_ < _))

structure Holds (kept : List Bytes) (b : BufLog) : Prop where
  offsetsLen : b.offsets.mapLen = MsgLogNode.fileSize + 1
  dataLen : b.dataLog.mapLen = MsgLogNode.fileSize + 1
  count : b.offsets.data.length = kept.length
  entry : ∀ i m, kept[i]? = some m → b.offsets.data[i]? = some (entryOf (kept.take i) m)
  /-- After the bytes of `kept` come those of messages that found the entries full. -/
  bytes : ∃ rest, b.dataLog.data = longBytes kept ++ rest ∧ (rest ≠ [] → OutOfEntries kept)

theorem new_holds : Holds [] .new := ⟨rfl, rfl, rfl, nofun, [], rfl, fun h => absurd rfl h⟩

/-- The log with another entry. -/
theorem entry_concat (h : Holds kept b) (m : Bytes) (i : Nat) (m' : Bytes) (hi : (kept ++ [m])[i]? = some m') :
    (b.offsets.data ++ [entryOf kept m])[i]? = some (entryOf ((kept ++ [m]).take i) m') := by
  rcases Nat.lt_trichotomy i kept.length with hlt | heq | hgt
  · rw [List.getElem?_append_left hlt] at hi
    rw [List.getElem?_append_left (h.count.symm ▸ hlt), h.entry i m' hi, List.take_append_of_le_length (Nat.le_of_lt hlt)]
  · subst heq
    rw [List.getElem?_concat_length] at hi
    obtain rfl := Option.some.inj hi
    rw [← h.count, List.getElem?_concat_length, h.count, List.take_left']
    rfl
  · rw [List.getElem?_eq_none (by simp; omega)] at hi
    cases hi

/-- With room for the entry, the data log has the bytes of `kept` and no others. -/
theorem data_eq_of_room (h : Holds kept b) (hroom : ¬ OutOfEntries kept) : b.dataLog.data = longBytes kept := by
  obtain ⟨rest, hdata, hfull⟩ := h.bytes
  have hrest : rest = [] := Classical.not_not.mp fun hne => hroom (hfull hne)
  rw [hdata, hrest, List.append_nil]

/-- The log after an entry was written. -/
theorem holds_concat (h : Holds kept b) {data : Bytes}
    (hdata : data = longBytes (kept ++ [m])) :
    Holds (kept ++ [m]) ⟨{ b.offsets with data := b.offsets.data ++ [entryOf kept m] }, { b.dataLog with data := data }⟩ where
  offsetsLen := h.offsetsLen
  dataLen := h.dataLen
  count := by
    show (b.offsets.data ++ [entryOf kept m]).length = (kept ++ [m]).length
    rw [List.length_append, List.length_append, h.count, List.length_singleton, List.length_singleton]
  entry := entry_concat h m
  bytes := ⟨[], by rw [List.append_nil]; exact hdata, fun hne => absurd rfl hne⟩

theorem writeEntry_eq (h : Holds kept b) (buf : UmbraBuf) :
    b.offsets.writeAfter AppendLog.bareHeaderSize 16 [buf] =
      if OutOfEntries kept then .error .mapOverflow else .ok { b.offsets with data := b.offsets.data ++ [buf] } := by
  have hmap := h.offsetsLen
  have hcount := h.count
  by_cases hfull : OutOfEntries kept
  · rw [if_pos hfull]
    have : MsgLogNode.fileSize + 1 < AppendLog.bareHeaderSize + (kept.length + 1) * 16 := hfull
    apply writeAfter_of_lt
    rw [List.length_singleton]
    omega
  · rw [if_neg hfull]
    have : ¬ MsgLogNode.fileSize + 1 < AppendLog.bareHeaderSize + (kept.length + 1) * 16 := hfull
    apply writeAfter_of_le
    rw [List.length_singleton]
    omega

/-- A short message is its own entry. -/
theorem insert_short (h : Holds kept b) (hlen : m.length ≤ 12) :
    insertNext (kept, b) m = if OutOfEntries kept then (kept, b)
      else (kept ++ [m], { b with offsets := { b.offsets with data := b.offsets.data ++ [entryOf kept m] } }) := by
  have hentry : entryOf kept m = .inline m hlen := dif_pos hlen
  simp only [insertNext, BufLog.insertMsg, dif_pos hlen, writeEntry_eq h, hentry]
  by_cases hfull : OutOfEntries kept
  · simp only [if_pos hfull]
  · simp only [if_neg hfull]

/-- A long message goes to the data log first. -/
theorem insert_long (h : Holds kept b) (hlen : ¬ m.length ≤ 12) :
    insertNext (kept, b) m =
      if MsgLogNode.fileSize + 1 < AppendLog.bareHeaderSize + b.dataLog.data.length + m.length then (kept, b)
      else if OutOfEntries kept then (kept, { b with dataLog := { b.dataLog with data := b.dataLog.data ++ m } })
      else (kept ++ [m], ⟨{ b.offsets with data := b.offsets.data ++ [entryOf kept m] },
        { b.dataLog with data := b.dataLog.data ++ m }⟩) := by
  have hmap := h.dataLen
  by_cases hfits : MsgLogNode.fileSize + 1 < AppendLog.bareHeaderSize + b.dataLog.data.length + m.length
  · have hw : b.dataLog.writeAfter AppendLog.bareHeaderSize 1 m = .error .mapOverflow := writeAfter_of_lt (by omega)
    simp only [insertNext, BufLog.insertMsg, dif_neg hlen, hw, if_pos hfits]
  have hw : b.dataLog.writeAfter AppendLog.bareHeaderSize 1 m =
      .ok { b.dataLog with data := b.dataLog.data ++ m } := writeAfter_of_le (by omega)
  rw [if_neg hfits]
  simp only [insertNext, BufLog.insertMsg, dif_neg hlen, hw, writeEntry_eq h]
  by_cases hfull : OutOfEntries kept
  · simp only [if_pos hfull]
  · have hentry : entryOf kept m =
        .offset m.length (m.take 4) (asU32 b.dataLog.data.length) (Nat.lt_of_not_le hlen) := by
      rw [data_eq_of_room h hfull]
      exact dif_neg hlen
    simp only [if_neg hfull, hentry]

/-- An insert succeeds just when there is room. -/
theorem insert_holds (h : Holds kept b) (m : Bytes) :
    (insertNext (kept, b) m).1 = (if HasRoom kept m then kept ++ [m] else kept) ∧
      Holds (insertNext (kept, b) m).1 (insertNext (kept, b) m).2 := by
  have hroom : ¬ OutOfEntries kept ↔ AppendLog.bareHeaderSize + (kept.length + 1) * 16 ≤ MsgLogNode.fileSize + 1 := Nat.not_lt
  by_cases hlen : m.length ≤ 12
  · rw [insert_short h hlen]
    by_cases hfull : OutOfEntries kept
    · rw [if_pos hfull, if_neg fun hf => hroom.mpr hf.1 hfull]
      exact ⟨rfl, h⟩
    · rw [if_neg hfull, if_pos ⟨hroom.mp hfull, .inl hlen⟩]
      refine ⟨rfl, holds_concat h ?_⟩
      rw [data_eq_of_room h hfull, longBytes_concat, if_neg (Nat.not_lt.mpr hlen), List.append_nil]
  rw [insert_long h hlen]
  by_cases hbytes : MsgLogNode.fileSize + 1 < AppendLog.bareHeaderSize + b.dataLog.data.length + m.length
  · rw [if_pos hbytes, if_neg]
    · exact ⟨rfl, h⟩
    · rintro ⟨hentries, hshort | hlong⟩
      · exact hlen hshort
      · rw [data_eq_of_room h (hroom.mpr hentries)] at hbytes
        omega
  rw [if_neg hbytes]
  by_cases hfull : OutOfEntries kept
  · rw [if_pos hfull, if_neg fun hf => hroom.mpr hf.1 hfull]
    obtain ⟨rest, hdata, -⟩ := h.bytes
    refine ⟨rfl, h.offsetsLen, h.dataLen, h.count, h.entry, rest ++ m, ?_, fun _ => hfull⟩
    show b.dataLog.data ++ m = _
    rw [hdata, List.append_assoc]
  · have hdata := data_eq_of_room h hfull
    rw [if_neg hfull, if_pos ⟨hroom.mp hfull, .inr (by rw [← hdata]; omega)⟩]
    refine ⟨rfl, holds_concat h ?_⟩
    rw [hdata, longBytes_concat, if_pos (Nat.lt_of_not_le hlen)]

/-- The messages of the inserts that succeed are those that there is room for. -/
theorem insertAll_holds (msgs : List Message) :
    (insertAll msgs).1 = accepted msgs ∧ Holds (insertAll msgs).1 (insertAll msgs).2 := by
  have hfold : ∀ (ms kept : List Bytes) (b : BufLog), Holds kept b →
      (ms.foldl insertNext (kept, b)).1 = ms.foldl (fun kept m => if HasRoom kept m then kept ++ [m] else kept) kept ∧
        Holds (ms.foldl insertNext (kept, b)).1 (ms.foldl insertNext (kept, b)).2 := by
    intro ms
    induction ms with
    | nil => exact fun kept b h => ⟨rfl, h⟩
    | cons m ms ih =>
      intro kept b h
      obtain ⟨he, hh⟩ := insert_holds h m
      rw [List.foldl_cons, List.foldl_cons, ← he]
      exact ih _ _ hh
  exact hfold _ _ _ new_holds

/-! ## Reading -/

theorem take_longBytes {i : Nat} (hi : kept[i]? = some m) (hlong : 12 < m.length) :
    ∃ after, longBytes kept = longBytes (kept.take i) ++ m ++ after := by
  have hlt := (List.getElem?_eq_some_iff.mp hi).1
  have hsplit : kept = kept.take i ++ [m] ++ kept.drop (i + 1) := by
    rw [List.append_assoc, List.singleton_append, ← (List.getElem?_eq_some_iff.mp hi).2, ← List.drop_eq_getElem_cons hlt,
      List.take_append_drop]
  refine ⟨longBytes (kept.drop (i + 1)), ?_⟩
  have hcat : ∀ xs ys, longBytes (xs ++ ys) = longBytes xs ++ longBytes ys := fun xs ys => by
    rw [longBytes, List.filter_append, List.flatten_append, ← longBytes, ← longBytes]
  rw [congrArg longBytes hsplit, hcat, longBytes_concat, if_pos hlong]

/-- A long message is read from the low 32 bits of where it begins. -/
theorem getMsg_long (h : Holds kept b) {i : Nat} (hi : kept[i]? = some m) (hlong : 12 < m.length) :
    b.getMsg i = some (slice (longBytes kept) (beginsAt kept i % 2 ^ 32) (beginsAt kept i % 2 ^ 32 + m.length)) := by
  obtain ⟨rest, hdata, -⟩ := h.bytes
  obtain ⟨after, hbytes⟩ := take_longBytes hi hlong
  have hle : beginsAt kept i % 2 ^ 32 + m.length ≤ (longBytes kept).length := by
    have := Nat.mod_le (beginsAt kept i) (2 ^ 32)
    rw [hbytes, List.length_append, List.length_append, ← beginsAt]
    omega
  have hentry : entryOf (kept.take i) m =
      .offset m.length (m.take 4) (beginsAt kept i % 2 ^ 32) hlong := dif_neg (Nat.not_le.mpr hlong)
  rw [BufLog.getMsg, h.entry i m hi, hentry]
  show (if beginsAt kept i % 2 ^ 32 + m.length ≤ b.dataLog.data.length then _ else none) = _
  rw [hdata, if_pos (by rw [List.length_append]; omega), slice, slice, List.take_append_of_le_length hle]

theorem getMsg_short (h : Holds kept b) {i : Nat} (hi : kept[i]? = some m) (hshort : m.length ≤ 12) :
    b.getMsg i = some m := by
  have hentry : entryOf (kept.take i) m = .inline m hshort := dif_pos hshort
  rw [BufLog.getMsg, h.entry i m hi, hentry]

/-- Where it begins are its own bytes. -/
theorem slice_beginsAt {i : Nat} (hi : kept[i]? = some m) (hlong : 12 < m.length) :
    slice (longBytes kept) (beginsAt kept i) (beginsAt kept i + m.length) = m := by
  obtain ⟨after, hbytes⟩ := take_longBytes hi hlong
  rw [hbytes, beginsAt, slice, List.take_left' (by rw [List.length_append]), List.drop_left]

/-- A message has an offset exactly if it has 12 bytes or more. -/
theorem getOffset_entryOf (kept : List Bytes) (m : Bytes) : (entryOf kept m).getOffset.isSome ↔ 12 ≤ m.length := by
  by_cases hshort : m.length ≤ 12
  · have hentry : entryOf kept m = .inline m hshort := dif_pos hshort
    rw [hentry]
    show (if m.length ≥ 12 then _ else none).isSome = true ↔ _
    split
    · exact iff_of_true rfl ‹_›
    · exact iff_of_false Bool.false_ne_true ‹_›
  · have hentry : entryOf kept m = .offset _ _ _ (Nat.lt_of_not_le hshort) := dif_neg hshort
    rw [hentry]
    show (if m.length ≥ 12 then _ else none).isSome = true ↔ _
    rw [if_pos (by omega)]
    exact iff_of_true rfl (by omega)

theorem stored_iff_reached (h : Holds kept b) : Stored kept b ↔ Reached kept := by
  constructor
  · intro hs
    refine ⟨fun m hm hlen => ?_, fun i m hi hlong => ?_⟩
    · obtain ⟨i, hi⟩ := List.mem_iff_getElem?.mp hm
      have := (hs.offset i _ m (h.entry i m hi) hi).mp ((getOffset_entryOf _ m).mpr hlen.ge)
      omega
    · right
      have hget := hs.getMsg i (List.getElem?_eq_some_iff.mp hi).1
      rw [getMsg_long h hi hlong, hi] at hget
      exact Option.some.inj hget
  · intro hr
    refine ⟨fun i hi => ?_, fun i buf m hbuf hm => ?_⟩
    · have hm : kept[i]? = some kept[i] := List.getElem?_eq_getElem hi
      rw [hm]
      by_cases hshort : kept[i].length ≤ 12
      · exact getMsg_short h hm hshort
      have hlong := Nat.lt_of_not_le hshort
      rw [getMsg_long h hm hlong]
      rcases hr.low i _ hm hlong with hlt | heq
      · rw [Nat.mod_eq_of_lt hlt, slice_beginsAt hm hlong]
      · rw [heq]
    · rw [h.entry i m hm] at hbuf
      obtain rfl := Option.some.inj hbuf
      rw [getOffset_entryOf]
      have := hr.twelve m (List.mem_of_getElem? hm)
      omega

/-- The log gives the messages of the successful inserts back exactly if `Reached` holds of the messages that there
is room for. -/
theorem stored_iff (msgs : List Message) :
    (insertAll msgs).1 = accepted msgs ∧ (Stored (insertAll msgs).1 (insertAll msgs).2 ↔ Reached (accepted msgs)) := by
  obtain ⟨he, hh⟩ := insertAll_holds msgs
  refine ⟨he, ?_⟩
  rw [← he]
  exact stored_iff_reached hh

/-- Messages whose entries and bytes fit in their logs are all accepted. -/
theorem accepted_of_le (msgs : List Message) (hentries : AppendLog.bareHeaderSize + msgs.length * 16 ≤ MsgLogNode.fileSize + 1)
    (hbytes : AppendLog.bareHeaderSize + (msgs.map (·.val.length)).sum ≤ MsgLogNode.fileSize + 1) :
    accepted msgs = msgs.map Subtype.val := by
  have hfold : ∀ (ms : List Message) (kept : List Bytes),
      AppendLog.bareHeaderSize + (kept.length + ms.length) * 16 ≤ MsgLogNode.fileSize + 1 →
      AppendLog.bareHeaderSize + (longBytes kept).length + (ms.map (·.val.length)).sum ≤ MsgLogNode.fileSize + 1 →
      (ms.map Subtype.val).foldl (fun kept m => if HasRoom kept m then kept ++ [m] else kept) kept = kept ++ ms.map Subtype.val := by
    intro ms
    induction ms with
    | nil => exact fun kept _ _ => (List.append_nil kept).symm
    | cons m ms ih =>
      intro kept he hb
      rw [List.map_cons, List.sum_cons] at hb
      rw [List.length_cons] at he
      rw [List.map_cons, List.foldl_cons, if_pos ⟨by omega, .inr (by omega)⟩, ih _ ?_ ?_, List.append_assoc]
      · rfl
      · rw [List.length_append, List.length_singleton]
        omega
      · rw [longBytes_concat, List.length_append]
        split
        · omega
        · rw [List.length_nil]
          omega
  exact hfold msgs [] (by rw [List.length_nil]; omega) (by show AppendLog.bareHeaderSize + 0 + _ ≤ _; omega)

/-- `n` bytes `x`. -/
def manyBytes (n : Nat) (x : UInt8) (h : n < 2 ^ 32) : Message := ⟨List.replicate n x, by rw [List.length_replicate]; exact h⟩

/-- Three messages, the last of which begins at `2 ^ 32 + 12`. -/
def threeMessages : List Message :=
  [manyBytes (2 ^ 32 - 1) 0 (by decide), manyBytes 13 1 (by decide), manyBytes 13 2 (by decide)]

theorem accepted_three : accepted threeMessages =
    [List.replicate (2 ^ 32 - 1) 0, List.replicate 13 1, List.replicate 13 2] := by
  rw [accepted_of_le]
  · rfl
  · decide
  · simp only [threeMessages, manyBytes, List.map_cons, List.map_nil, List.sum_cons, List.sum_nil, List.length_replicate]
    decide

/-- The third reads as bytes of the first. -/
theorem third_not_found : ¬ Stored (insertAll threeMessages).1 (insertAll threeMessages).2 ∧
    (insertAll threeMessages).1[2]? = some (List.replicate 13 2) ∧
    (insertAll threeMessages).2.getMsg 2 = some (List.replicate 13 0) := by
  obtain ⟨he, hh⟩ := insertAll_holds threeMessages
  have hi : (insertAll threeMessages).1[2]? = some (List.replicate 13 2) := by
    rw [he, accepted_three]
    rfl
  suffices hget : (insertAll threeMessages).2.getMsg 2 = some (List.replicate 13 0) by
    refine ⟨fun h => ?_, hi, hget⟩
    have hsame := h.getMsg 2 (List.getElem?_eq_some_iff.mp hi).1
    rw [hget, hi] at hsame
    exact absurd hsame (by decide)
  have hbytes : longBytes [List.replicate (2 ^ 32 - 1) 0, List.replicate 13 1] =
      List.replicate (2 ^ 32 - 1) 0 ++ List.replicate 13 1 := by
    rw [← List.singleton_append, longBytes_concat, if_pos (by rw [List.length_replicate]; decide),
      ← List.nil_append [_], longBytes_concat, if_pos (by rw [List.length_replicate]; decide)]
    rfl
  have htake : (insertAll threeMessages).1.take 2 = [List.replicate (2 ^ 32 - 1) 0, List.replicate 13 1] := by
    rw [he, accepted_three]
    rfl
  have hbegins : beginsAt (insertAll threeMessages).1 2 % 2 ^ 32 = 12 := by
    rw [beginsAt, htake, hbytes, List.length_append, List.length_replicate, List.length_replicate]
    decide
  obtain ⟨after, hafter⟩ := take_longBytes hi (by rw [List.length_replicate]; decide)
  rw [getMsg_long hh hi (by rw [List.length_replicate]; decide), hbegins, hafter, htake, hbytes, List.append_assoc,
    List.append_assoc, slice, List.length_replicate, List.take_append_of_le_length (by rw [List.length_replicate]; decide),
    List.take_replicate, List.drop_replicate]
  rfl

end Metor.Proof.MsgLog
