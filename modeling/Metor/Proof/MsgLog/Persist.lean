import Metor.Spec.MsgLog

/-!
# One encoder and two decoders of records

On any bytes the loop of `persist` and iterating `read_msg` find the same
records, those that the bytes begin with, and leave no whole record
(`codecs_agree`). Both go one record at a time (`handed_some`, `readAll_some`).
-/

namespace Metor.Proof.MsgLog

open Metor.Lib Metor.Impl Metor.Impl.Msg

variable {t : Int} {msg buf rest : Bytes}

/-- The bytes of a record and of what follows it. -/
theorem record_append (t : Int) (msg rest : Bytes) :
    Msg.record t msg ++ rest = i64Bytes t ++ (leBytes 4 msg.length ++ (msg ++ rest)) := by
  simp only [Msg.record, List.append_assoc]

theorem readMsg_record (ht : IsI64 t) (hm : msg.length < 2 ^ 32) (rest : Bytes) :
    readMsg (Msg.record t msg ++ rest) = some (rest, t, msg) := by
  have hlen : leNat (leBytes 4 msg.length) = msg.length := leNat_leBytes hm
  have h₁ : ¬ (Msg.record t msg ++ rest).length < 8 + 4 := by
    rw [record_append]
    simp only [List.length_append, length_i64Bytes, length_leBytes]
    omega
  rw [readMsg, if_neg h₁, record_append]
  simp only [List.take_left' (length_i64Bytes t), List.drop_left' (length_i64Bytes t), List.take_left' (length_leBytes 4 _),
    List.drop_left' (length_leBytes 4 _), hlen, List.take_left, List.drop_left, i64OfBytes_i64Bytes ht]
  rw [if_neg (by simp only [List.length_append, length_leBytes]; omega),
    if_neg (by simp only [List.length_append]; omega)]

/-- What `read_msg` reads is a whole record. -/
theorem record_of_readMsg (h : readMsg buf = some (rest, t, msg)) :
    IsI64 t ∧ msg.length < 2 ^ 32 ∧ buf = Msg.record t msg ++ rest := by
  simp only [readMsg] at h
  split at h
  · cases h
  split at h
  · cases h
  split at h
  · cases h
  next h₁ h₂ h₃ =>
  simp only [List.length_drop] at h₂ h₃
  obtain ⟨rfl, rfl, rfl⟩ : ((buf.drop 8).drop 4).drop (leNat ((buf.drop 8).take 4)) = rest ∧ i64OfBytes (buf.take 8) = t ∧
      ((buf.drop 8).drop 4).take (leNat ((buf.drop 8).take 4)) = msg := by simpa using h
  have ht : (buf.take 8).length = 8 := by rw [List.length_take]; omega
  have hl : ((buf.drop 8).take 4).length = 4 := by rw [List.length_take, List.length_drop]; omega
  have hlt := leNat_lt ((buf.drop 8).take 4)
  rw [hl] at hlt
  have hm : (((buf.drop 8).drop 4).take (leNat ((buf.drop 8).take 4))).length = leNat ((buf.drop 8).take 4) := by
    rw [List.length_take, List.length_drop, List.length_drop]
    omega
  have hle : leBytes 4 (leNat ((buf.drop 8).take 4)) = (buf.drop 8).take 4 := by
    have h := leBytes_leNat ((buf.drop 8).take 4)
    rwa [hl] at h
  refine ⟨?_, by rw [hm]; exact hlt, ?_⟩
  · have hlt8 := leNat_lt (buf.take 8)
    rw [ht] at hlt8
    rw [IsI64, i64OfBytes, i64Min]
    split <;> omega
  · rw [record_append, hm, hle, i64Bytes_i64OfBytes ht, List.take_append_drop, List.take_append_drop,
      List.take_append_drop]

/-! ## The two decoders -/

theorem handed_some (h : readMsg buf = some (rest, t, msg)) : handed buf = (t, msg) :: handed rest := by
  simp only [readMsg] at h
  split at h
  · cases h
  split at h
  · cases h
  split at h
  · cases h
  next h₁ h₂ h₃ =>
  cases h
  rw [handed, if_pos (Nat.le_of_not_lt h₁)]
  exact if_neg h₃

theorem handed_none (h : readMsg buf = none) : handed buf = [] := by
  simp only [readMsg] at h
  split at h
  · next h₁ => rw [handed, if_neg (Nat.not_le.mpr h₁)]
  split at h
  · next h₁ h₂ =>
    rw [List.length_drop] at h₂
    omega
  split at h
  · next h₁ _ h₃ =>
    rw [handed, if_pos (Nat.le_of_not_lt h₁)]
    exact if_pos h₃
  · cases h

theorem readAll_some (h : readMsg buf = some (rest, t, msg)) :
    readAll buf = ((t, msg) :: (readAll rest).1, (readAll rest).2) := by
  rw [readAll, dif_pos (by rw [h]; rfl)]
  simp only [h, Option.get_some]

theorem readAll_none (h : readMsg buf = none) : readAll buf = ([], buf) := by
  rw [readAll, dif_neg (by rw [h]; decide)]

theorem persistLoop_some (h : readMsg buf = some (rest, t, msg)) (list : Msg.MsgLog) :
    persistLoop buf list = persistLoop rest (list.persistMsg t msg).2 := by
  simp only [readMsg] at h
  split at h
  · cases h
  split at h
  · cases h
  split at h
  · cases h
  next h₁ h₂ h₃ =>
  cases h
  rw [persistLoop, if_pos (Nat.le_of_not_lt h₁)]
  exact if_neg h₃

theorem persistLoop_none (h : readMsg buf = none) (list : Msg.MsgLog) : persistLoop buf list = list := by
  simp only [readMsg] at h
  split at h
  · next h₁ => rw [persistLoop, if_neg (Nat.not_le.mpr h₁)]
  split at h
  · next h₁ h₂ =>
    rw [List.length_drop] at h₂
    omega
  split at h
  · next h₁ _ h₃ =>
    rw [persistLoop, if_pos (Nat.le_of_not_lt h₁)]
    exact if_pos h₃
  · cases h

/-- Any bytes are the records that both decoders find, and bytes that begin with no whole record. -/
theorem decode_spec (buf : Bytes) :
    (readAll buf).1 = handed buf ∧ buf = ((handed buf).flatMap fun r => Msg.record r.1 r.2) ++ (readAll buf).2 ∧
      readMsg (readAll buf).2 = none ∧
      ∀ list, persistLoop buf list = (handed buf).foldl (fun list r => (list.persistMsg r.1 r.2).2) list := by
  induction hn : buf.length using Nat.strong_induction_on generalizing buf with
  | _ n ih =>
    cases h : readMsg buf with
    | none =>
      rw [readAll_none h, handed_none h]
      exact ⟨rfl, rfl, h, fun list => persistLoop_none h list⟩
    | some r =>
      obtain ⟨rest, t, msg⟩ := r
      obtain ⟨hr, hb, hrest, hl⟩ := ih rest.length (hn ▸ length_readMsg h) rest rfl
      obtain ⟨-, -, e⟩ := record_of_readMsg h
      rw [readAll_some h, handed_some h]
      refine ⟨by rw [hr], ?_, hrest, fun list => ?_⟩
      · rw [List.flatMap_cons, List.append_assoc, ← hb]
        exact e
      · rw [persistLoop_some h, hl, List.foldl_cons]

theorem readAll_records (recs : List (Int × Bytes)) (h : ∀ r ∈ recs, IsI64 r.1 ∧ r.2.length < 2 ^ 32) :
    readAll (recs.flatMap fun r => Msg.record r.1 r.2) = (recs, []) := by
  induction recs with
  | nil => exact readAll_none (by rw [readMsg]; exact if_pos (by decide))
  | cons r recs ih =>
    obtain ⟨hr, hrecs⟩ := List.forall_mem_cons.mp h
    rw [List.flatMap_cons, readAll_some (readMsg_record hr.1 hr.2 _), ih hrecs]

theorem handed_records (recs : List (Int × Bytes)) (h : ∀ r ∈ recs, IsI64 r.1 ∧ r.2.length < 2 ^ 32) :
    handed (recs.flatMap fun r => Msg.record r.1 r.2) = recs := by
  rw [← (decode_spec _).1, readAll_records recs h]

/-- Both decoders find the records that grants of `push` hold; of any bytes they find the same records, all of them whole,
which are what the log persists. -/
theorem codecs_agree :
    (∀ recs : List (Int × Bytes), (∀ r ∈ recs, IsI64 r.1 ∧ r.2.length < 2 ^ 32) →
      handed (recs.flatMap fun r => Msg.record r.1 r.2) = recs ∧
        readAll (recs.flatMap fun r => Msg.record r.1 r.2) = (recs, [])) ∧
    ∀ buf, (readAll buf).1 = handed buf ∧
      buf = ((handed buf).flatMap fun r => Msg.record r.1 r.2) ++ (readAll buf).2 ∧ readMsg (readAll buf).2 = none ∧
      ∀ list, persistLoop buf list = (handed buf).foldl (fun list r => (list.persistMsg r.1 r.2).2) list := by
  exact ⟨fun recs h => ⟨handed_records recs h, readAll_records recs h⟩, decode_spec⟩

/-- Two records, the second without a byte. -/
theorem codecs_agree_two : readAll (Msg.record (-1) [7, 8] ++ (Msg.record 5 [] ++ [])) = ([(-1, [7, 8]), (5, [])], []) :=
  (codecs_agree.1 [(-1, [7, 8]), (5, [])] (by decide)).2

end Metor.Proof.MsgLog

/-!
## Persisting messages

`insertMsg` adds an entry or leaves the entries as they are (`insertMsg_spec`),
and a node whose offsets have room has room for the timestamp, which is half as
long. So persisting a message adds its timestamp to the newest node, or to a
new one, or is refused (`persistMsg_spec`), and reading the WAL persists its
records one after the other (`persistLoop_records`).
-/

namespace Metor.Proof.MsgLog

open Metor.Lib Metor.Impl Metor.Impl.Proto Metor.Impl.Msg

/-! ## Appending to a log -/

theorem writeAfter_of_le {E α : Type} {header width : Nat} {log : AppendLog E α} {buf : List α}
    (h : header + log.data.length * width + buf.length * width ≤ log.mapLen) :
    log.writeAfter header width buf = .ok { log with data := log.data ++ buf } :=
  if_neg (Nat.not_lt.mpr h)

theorem writeAfter_of_lt {E α : Type} {header width : Nat} {log : AppendLog E α} {buf : List α}
    (h : log.mapLen < header + log.data.length * width + buf.length * width) :
    log.writeAfter header width buf = .error .mapOverflow := if_pos h

/-! ## Entries -/

/-- An entry's message lies in the first `n` bytes of the data log. -/
def Within (n : Nat) : UmbraBuf → Prop
  | .inline _ _ => True
  | .offset len _ offset _ => offset + len ≤ n

theorem Within.mono {m n : Nat} {buf : UmbraBuf} (h : Within m buf) (hmn : m ≤ n) : Within n buf := by
  cases buf with
  | inline data le => exact trivial
  | offset len start offset lt => exact Nat.le_trans h hmn

structure BufInv (b : BufLog) : Prop where
  within : ∀ buf ∈ b.offsets.data, Within b.dataLog.data.length buf
  offsetsLen : b.offsets.mapLen = MsgLogNode.fileSize + 1
  dataLen : b.dataLog.mapLen = MsgLogNode.fileSize + 1

/-- Every entry has its message. -/
theorem getMsg_isSome {b : BufLog} (h : BufInv b) {i : Nat} (hi : i < b.offsets.data.length) : (b.getMsg i).isSome := by
  have hw := h.within _ (List.getElem_mem hi)
  rw [BufLog.getMsg, List.getElem?_eq_getElem hi]
  cases hb : b.offsets.data[i] with
  | inline data le => rfl
  | offset len start offset lt =>
    rw [hb] at hw
    have hw : offset + len ≤ b.dataLog.data.length := hw
    show (if offset + len ≤ b.dataLog.data.length then _ else none).isSome = true
    rw [if_pos hw]
    rfl

theorem writeEntry_spec {b : BufLog} (h : BufInv b) {buf : UmbraBuf} (hbuf : Within b.dataLog.data.length buf) :
    (b.offsets.writeAfter AppendLog.bareHeaderSize 16 [buf] = .error .mapOverflow) ∨
      (b.offsets.writeAfter AppendLog.bareHeaderSize 16 [buf] = .ok { b.offsets with data := b.offsets.data ++ [buf] } ∧
        AppendLog.bareHeaderSize + (b.offsets.data.length + 1) * 16 ≤ MsgLogNode.fileSize + 1 ∧
        BufInv { b with offsets := { b.offsets with data := b.offsets.data ++ [buf] } }) := by
  rcases Nat.lt_or_ge b.offsets.mapLen
    (AppendLog.bareHeaderSize + b.offsets.data.length * 16 + 1 * 16) with hlt | hle
  · exact .inl (writeAfter_of_lt hlt)
  · refine .inr ⟨writeAfter_of_le hle, ?_, fun x hx => ?_, h.offsetsLen, h.dataLen⟩
    · have := h.offsetsLen
      omega
    · rcases List.mem_append.mp hx with hx | hx
      · exact h.within x hx
      · rw [List.mem_singleton.mp hx]
        exact hbuf

/-- A message is refused, and the entries stay as they are, or it is added. -/
theorem insertMsg_spec {b : BufLog} (h : BufInv b) (msg : Bytes) :
    ∃ b', BufInv b' ∧
      ((b.insertMsg msg = (.error .mapOverflow, b') ∧ b'.offsets = b.offsets) ∨
        (b.insertMsg msg = (.ok (), b') ∧ b'.offsets.data.length = b.offsets.data.length + 1 ∧
          AppendLog.bareHeaderSize + (b.offsets.data.length + 1) * 16 ≤ MsgLogNode.fileSize + 1)) := by
  by_cases hlen : msg.length ≤ 12
  · have hbuf : Within b.dataLog.data.length (.inline msg hlen) := trivial
    rcases writeEntry_spec h hbuf with hw | ⟨hw, hroom, hinv⟩
    · refine ⟨b, h, .inl ⟨?_, rfl⟩⟩
      simp only [BufLog.insertMsg, dif_pos hlen, hw]
    · refine ⟨_, hinv, .inr ⟨?_, List.length_append, hroom⟩⟩
      simp only [BufLog.insertMsg, dif_pos hlen, hw]
  rcases Nat.lt_or_ge b.dataLog.mapLen
    (AppendLog.bareHeaderSize + b.dataLog.data.length * 1 + msg.length * 1) with hlt | hle
  · refine ⟨b, h, .inl ⟨?_, rfl⟩⟩
    simp only [BufLog.insertMsg, dif_neg hlen, writeAfter_of_lt hlt]
  have hgrown : b.dataLog.data.length ≤ (b.dataLog.data ++ msg).length := by simp
  have h' : BufInv { b with dataLog := { b.dataLog with data := b.dataLog.data ++ msg } } :=
    ⟨fun buf hb => (h.within buf hb).mono hgrown, h.offsetsLen, h.dataLen⟩
  -- The offset may have lost its high bits; it is then only smaller.
  have hbuf : Within (b.dataLog.data ++ msg).length
      (.offset msg.length (msg.take 4) (asU32 b.dataLog.data.length) (Nat.lt_of_not_le hlen)) := by
    show asU32 b.dataLog.data.length + msg.length ≤ (b.dataLog.data ++ msg).length
    rw [List.length_append]
    exact Nat.add_le_add_right (Nat.mod_le _ _) _
  rcases writeEntry_spec h' hbuf with hw | ⟨hw, hroom, hinv⟩
  · refine ⟨_, h', .inl ⟨?_, rfl⟩⟩
    simp only [BufLog.insertMsg, dif_neg hlen, writeAfter_of_le hle, hw]
  · refine ⟨_, hinv, .inr ⟨?_, List.length_append, hroom⟩⟩
    simp only [BufLog.insertMsg, dif_neg hlen, writeAfter_of_le hle, hw]

/-! ## Nodes -/

structure NodeInv (n : MsgLogNode) : Prop where
  bufs : BufInv n.bufs
  timestampsLen : n.timestampLog.mapLen = MsgLogNode.fileSize + 1
  /-- An entry for each timestamp. -/
  count : n.bufs.offsets.data.length = n.timestamps.length

theorem new_nodeInv (path : String) : NodeInv (.new path) := ⟨⟨nofun, rfl, rfl⟩, rfl, rfl⟩

theorem stored {n : MsgLogNode} (h : NodeInv n) : ∀ i < n.timestamps.length, (n.bufs.getMsg i).isSome :=
  fun _ hi => getMsg_isSome h.bufs (h.count ▸ hi)

/-- The timestamps of each node, newest first. -/
def stamps (list : MsgLog) : List (List Int) := list.map MsgLogNode.timestamps

section
variable {list : MsgLog} {t : Int} {msg : Bytes}

/-- The newest node takes the message, or the log has the timestamps it had. -/
theorem tryPush_spec (h : ∀ n ∈ list, NodeInv n) (t : Int) (msg : Bytes) :
    ∃ list', (∀ n ∈ list', NodeInv n) ∧
      ((list.tryPush t msg = (.ok false, list') ∧ stamps list' = stamps list) ∨
        (list.tryPush t msg = (.ok true, list') ∧
          ∃ ts older, stamps list = ts :: older ∧ stamps list' = (ts ++ [t]) :: older)) := by
  cases list with
  | nil => exact ⟨[], h, .inl ⟨rfl, rfl⟩⟩
  | cons head prev =>
    obtain ⟨hhead, hprev⟩ := List.forall_mem_cons.mp h
    obtain ⟨bufs, hbufs, ⟨hins, hoff⟩ | ⟨hins, hcount, hroom⟩⟩ := insertMsg_spec hhead.bufs msg
    · refine ⟨{ head with bufs := bufs } :: prev, List.forall_mem_cons.mpr ⟨⟨hbufs, hhead.timestampsLen, ?_⟩, hprev⟩,
        .inl ⟨?_, rfl⟩⟩
      · show bufs.offsets.data.length = head.timestamps.length
        rw [hoff, hhead.count]
      · simp only [MsgLog.tryPush, hins]
    · -- Entries are twice as long as timestamps, in logs of the same size.
      have hfits : head.timestampLog.writeAfter AppendLog.bareHeaderSize 8 [t] =
          .ok { head.timestampLog with data := head.timestampLog.data ++ [t] } := writeAfter_of_le (by
        have hlen := hhead.timestampsLen
        have hc : head.bufs.offsets.data.length = head.timestampLog.data.length := hhead.count
        rw [List.length_singleton]
        omega)
      refine ⟨{ head with bufs := bufs, timestampLog := { head.timestampLog with data := head.timestampLog.data ++ [t] } } ::
        prev, List.forall_mem_cons.mpr ⟨⟨hbufs, hhead.timestampsLen, ?_⟩, hprev⟩, .inr ⟨?_, _, _, rfl, rfl⟩⟩
      · show bufs.offsets.data.length = (head.timestamps ++ [t]).length
        rw [hcount, hhead.count, List.length_append, List.length_singleton]
      · simp only [MsgLog.tryPush, hins, hfits]

/-- An empty node has room for any message that came through the WAL. -/
theorem insertMsg_new (path : String) (hmsg : 8 + 4 + msg.length ≤ walSize) :
    ∃ b, (MsgLogNode.new path).bufs.insertMsg msg = (.ok (), b) := by
  by_cases hlen : msg.length ≤ 12
  · exact ⟨_, by simp only [BufLog.insertMsg, dif_pos hlen]; rfl⟩
  · have hw : (MsgLogNode.new path).bufs.dataLog.writeAfter AppendLog.bareHeaderSize 1 msg =
        .ok { (MsgLogNode.new path).bufs.dataLog with data := msg } := writeAfter_of_le (by
      show 16 + 0 * 1 + msg.length * 1 ≤ 1024 * 1024 * 1024 * 8 + 1
      simp only [walSize] at hmsg
      omega)
    exact ⟨_, by simp only [BufLog.insertMsg, dif_neg hlen, hw]; rfl⟩

/-- What persisting a message does to the timestamps: it adds the message's own to the newest node or to a new one, or
none. -/
inductive Persisted (t : Int) (old : List (List Int)) : List (List Int) → Prop
  | within (ts : List Int) (older : List (List Int)) : old = ts :: older → Persisted t old ((ts ++ [t]) :: older)
  | newNode : Persisted t old ([t] :: old)
  | refused : Persisted t old old

theorem persistMsg_spec (h : ∀ n ∈ list, NodeInv n) (t : Int) (hmsg : 8 + 4 + msg.length ≤ walSize) :
    (∀ n ∈ (list.persistMsg t msg).2, NodeInv n) ∧ Persisted t (stamps list) (stamps (list.persistMsg t msg).2) := by
  obtain ⟨list', hlist', ⟨htry, hstamps⟩ | ⟨htry, ts, older, hold, hstamps⟩⟩ := tryPush_spec h t msg
  · by_cases hpath : toString t ∈ list'.map (·.path)
    · have e : list.persistMsg t msg = (.error .alreadyExists, list') := by
        simp only [MsgLog.persistMsg, MsgLog.persistRound, htry, MsgLog.createNode, if_pos hpath]
      rw [e]
      exact ⟨hlist', hstamps ▸ .refused⟩
    · have hnew : ∀ n ∈ MsgLogNode.new (toString t) :: list', NodeInv n :=
        List.forall_mem_cons.mpr ⟨new_nodeInv _, hlist'⟩
      obtain ⟨list'', hlist'', ⟨htry', hstamps'⟩ | ⟨htry', ts, older, hold, hstamps'⟩⟩ := tryPush_spec hnew t msg
      · obtain ⟨b, hb⟩ := insertMsg_new (toString t) hmsg
        have hfits : (MsgLogNode.new (toString t)).timestampLog.writeAfter AppendLog.bareHeaderSize 8 [t] = .ok
            { (MsgLogNode.new (toString t)).timestampLog with data := [t] } :=
          writeAfter_of_le (show 16 + 0 * 8 + 1 * 8 ≤ 1024 * 1024 * 1024 * 8 + 1 by decide)
        simp only [MsgLog.tryPush, hb, hfits] at htry'
        cases htry'
      · have e : list.persistMsg t msg = (.ok (), list'') := by
          simp only [MsgLog.persistMsg, MsgLog.persistRound, htry, MsgLog.createNode, if_neg hpath, htry']
        obtain ⟨rfl, rfl⟩ := List.cons.inj hold
        rw [e]
        refine ⟨hlist'', ?_⟩
        rw [hstamps', ← hstamps]
        exact .newNode
  · have e : list.persistMsg t msg = (.ok (), list') := by
      simp only [MsgLog.persistMsg, MsgLog.persistRound, htry]
    rw [e]
    exact ⟨hlist', hstamps ▸ .within ts older hold⟩

/-! ## The WAL -/

/-- A record that `push` wrote. -/
def Recorded (r : Int × Bytes) : Prop := IsI64 r.1 ∧ 8 + 4 + r.2.length ≤ walSize

theorem persistLoop_nil (list : MsgLog) : persistLoop [] list = list := by
  rw [persistLoop]
  exact if_neg (by decide)

/-- The records of a read are persisted one after the other. -/
theorem persistLoop_records (recs : List (Int × Bytes)) (h : ∀ r ∈ recs, Recorded r) (list : MsgLog) :
    persistLoop (recs.flatMap fun r => Msg.record r.1 r.2) list =
      recs.foldl (fun list r => (list.persistMsg r.1 r.2).2) list := by
  have hrecs : ∀ r ∈ recs, IsI64 r.1 ∧ r.2.length < 2 ^ 32 := by
    intro r hr
    obtain ⟨ht, hl⟩ := h r hr
    refine ⟨ht, ?_⟩
    simp only [walSize] at hl
    omega
  obtain ⟨-, -, -, hl⟩ := decode_spec (recs.flatMap fun r => Msg.record r.1 r.2)
  rw [hl, handed_records recs hrecs]

end

end Metor.Proof.MsgLog
