import Metor.Proof.Visitor.Layout
import Metor.Spec.Visitor

/-!
# Replies to `GetTimeSeries`

The loop takes `timestamps_len` off `to_skip` where it should take off the
samples it passed over, so it keeps `keptLen` samples: never too many
(`keptLen_le`), and all that are wanted only if it need not skip beyond the
newest slice (`keptLen_eq_iff`). What it keeps fills the reply from its end
(`copySlices_spec`), and is the earliest samples if none is missing
(`kept_eq`).
-/

namespace Metor.Proof.GetTimeSeries

open Metor.Lib Metor.Impl.Proto Metor.Impl.GetTimeSeries Metor.Proof.Visitor

/-! ## How many samples are kept -/

/-- The samples kept of slices of these lengths. -/
def keptLen (toSkip : Nat) : List Nat → Nat
  | [] => 0
  | l :: ls => l - toSkip + keptLen (toSkip - (l - toSkip)) ls

theorem keptLen_zero (ls : List Nat) : keptLen 0 ls = ls.sum := by
  induction ls with
  | nil => rfl
  | cons l ls ih => rw [keptLen, List.sum_cons, Nat.zero_sub, ih, Nat.sub_zero]

theorem keptLen_le (toSkip : Nat) (ls : List Nat) : keptLen toSkip ls ≤ ls.sum - toSkip := by
  induction ls generalizing toSkip with
  | nil => exact Nat.zero_le _
  | cons l ls ih =>
    have := ih (toSkip - (l - toSkip))
    rw [keptLen, List.sum_cons]
    rcases Nat.le_total l toSkip with h | h
    · rw [Nat.sub_eq_zero_of_le h, Nat.sub_zero] at this ⊢
      omega
    · omega

/-- If a slice is passed over, as many samples are skipped again after it. -/
theorem keptLen_cons_of_le {toSkip l : Nat} (h : l ≤ toSkip) (ls : List Nat) :
    keptLen toSkip (l :: ls) = keptLen toSkip ls := by
  rw [keptLen, Nat.sub_eq_zero_of_le h, Nat.sub_zero, Nat.zero_add]

/-- All of the older slices are kept if nothing is left to skip. -/
theorem keptLen_eq_sum_iff {toSkip : Nat} {ls : List Nat} : keptLen toSkip ls = ls.sum ↔ toSkip = 0 ∨ ls.sum = 0 := by
  have := keptLen_le toSkip ls
  constructor
  · intro h
    omega
  · rintro (rfl | h)
    · exact keptLen_zero ls
    · omega

theorem keptLen_eq_iff {toSkip : Nat} {ls : List Nat} : keptLen toSkip ls = ls.sum - toSkip ↔
    toSkip = 0 ∨ ls.sum ≤ toSkip ∨
      ∃ l, ls.find? (fun l => decide (0 < l)) = some l ∧ toSkip < l ∧ (2 * toSkip ≤ l ∨ ls.sum = l) := by
  induction ls with
  | nil => simp [keptLen]
  | cons l ls ih =>
    have hle := keptLen_le toSkip ls
    rw [List.sum_cons]
    rcases Nat.eq_zero_or_pos l with rfl | hpos
    · rw [keptLen_cons_of_le (Nat.zero_le _), Nat.zero_add, ih, List.find?_cons_of_neg (by decide)]
    rw [List.find?_cons_of_pos (by simpa using hpos)]
    simp only [Option.some.injEq, exists_eq_left']
    rcases Nat.lt_or_ge toSkip l with h | h
    · have hsum := @keptLen_eq_sum_iff (toSkip - (l - toSkip)) ls
      rw [keptLen]
      omega
    · rw [keptLen_cons_of_le h]
      omega

/-! ## Which samples are kept -/

/-- The timestamps kept, oldest first. -/
def keptTimestamps (toSkip : Nat) : List (List Int × Bytes) → List Int
  | [] => []
  | (timestamps, _) :: slices =>
    keptTimestamps (toSkip - (timestamps.length - toSkip)) slices ++ timestamps.take (timestamps.length - toSkip)

/-- The values kept, oldest first. -/
def keptData (size toSkip : Nat) : List (List Int × Bytes) → Bytes
  | [] => []
  | (timestamps, data) :: slices =>
    keptData size (toSkip - (timestamps.length - toSkip)) slices ++ data.take ((timestamps.length - toSkip) * size)

/-- The lengths of slices. -/
def lens (slices : List (List Int × Bytes)) : List Nat := slices.map fun s => s.1.length

section
variable {size : Nat} {slices : List (List Int × Bytes)}

theorem rangeTimestamps_cons (s : List Int × Bytes) (slices : List (List Int × Bytes)) :
    rangeTimestamps (s :: slices) = rangeTimestamps slices ++ s.1 := by simp [rangeTimestamps]

theorem rangeData_cons (s : List Int × Bytes) (slices : List (List Int × Bytes)) :
    rangeData (s :: slices) = rangeData slices ++ s.2 := by simp [rangeData]

theorem rangeLen_cons (s : List Int × Bytes) (slices : List (List Int × Bytes)) :
    rangeLen (s :: slices) = s.1.length + rangeLen slices := by rw [rangeLen, List.map_cons, List.sum_cons, rangeLen]

theorem length_rangeTimestamps (slices : List (List Int × Bytes)) : (rangeTimestamps slices).length = rangeLen slices := by
  induction slices with
  | nil => rfl
  | cons s slices ih => rw [rangeTimestamps_cons, rangeLen_cons, List.length_append, ih, Nat.add_comm]

theorem length_rangeData (hd : ∀ s ∈ slices, s.2.length = s.1.length * size) :
    (rangeData slices).length = rangeLen slices * size := by
  induction slices with
  | nil => rw [rangeLen, List.map_nil, List.sum_nil, Nat.zero_mul]; rfl
  | cons s slices ih =>
    rw [rangeData_cons, rangeLen_cons, List.length_append, ih fun s hs => hd s (List.mem_cons_of_mem _ hs),
      hd s List.mem_cons_self, Nat.add_mul, Nat.add_comm]

/-- If no sample is missing, those kept are the earliest. -/
theorem kept_eq (hd : ∀ s ∈ slices, s.2.length = s.1.length * size) {toSkip : Nat}
    (h : keptLen toSkip (lens slices) = rangeLen slices - toSkip) :
    keptTimestamps toSkip slices = (rangeTimestamps slices).take (rangeLen slices - toSkip) ∧
    keptData size toSkip slices = (rangeData slices).take ((rangeLen slices - toSkip) * size) := by
  induction slices generalizing toSkip with
  | nil => exact ⟨List.take_nil.symm, List.take_nil.symm⟩
  | cons s slices ih =>
    obtain ⟨timestamps, data⟩ := s
    have hdata : data.length = timestamps.length * size := hd _ List.mem_cons_self
    have ih := @ih fun s hs => hd s (List.mem_cons_of_mem _ hs)
    have hts := length_rangeTimestamps slices
    have hds := length_rangeData fun s hs => hd s (List.mem_cons_of_mem _ hs)
    have hle := keptLen_le (toSkip - (timestamps.length - toSkip)) (lens slices)
    rw [rangeLen_cons, lens, List.map_cons, keptLen, ← lens] at h
    rw [rangeLen_cons, rangeTimestamps_cons, rangeData_cons, keptTimestamps, keptData]
    dsimp only at h ⊢
    rw [show (lens slices).sum = rangeLen slices from rfl] at hle
    obtain ⟨ih₁, ih₂⟩ := @ih (toSkip - (timestamps.length - toSkip)) (by omega)
    rw [ih₁, ih₂]
    rcases Nat.lt_or_ge toSkip timestamps.length with hlt | hge
    · have hall : rangeLen slices - (toSkip - (timestamps.length - toSkip)) = rangeLen slices := by omega
      have e : timestamps.length + rangeLen slices - toSkip = rangeLen slices + (timestamps.length - toSkip) := by omega
      rw [hall, e, List.take_of_length_le hts.le, List.take_of_length_le hds.le, Nat.add_mul]
      refine ⟨?_, ?_⟩
      · rw [← hts, List.take_length_add_append]
      · rw [← hds, List.take_length_add_append]
    · have hall : timestamps.length + rangeLen slices - toSkip = rangeLen slices - toSkip := by omega
      rw [Nat.sub_eq_zero_of_le hge, Nat.sub_zero, Nat.zero_mul, List.take_zero, List.take_zero, List.append_nil,
        List.append_nil, hall]
      refine ⟨?_, ?_⟩
      · rw [List.take_append_of_le_length (by omega)]
      · rw [List.take_append_of_le_length (by rw [hds]; exact Nat.mul_le_mul_right _ (Nat.sub_le _ _))]

/-! ## The loop -/

/-- A list written over the end of the zeros that precede what was written before. -/
theorem overwrite_zeros {α : Type} (zero : α) {n k : Nat} {xs : List α} (hk : xs.length = k) (h : k ≤ n)
    (written : List α) : overwrite (List.replicate n zero ++ written) (n - k) xs =
      List.replicate (n - k) zero ++ (xs ++ written) := by
  rw [overwrite, List.take_append_of_le_length (by rw [List.length_replicate]; omega), List.take_replicate,
    Nat.min_eq_left (Nat.sub_le _ _), hk, Nat.sub_add_cancel h, List.drop_left' (List.length_replicate ..),
    List.append_assoc]

/-- The destination is zeros, as many as there are slots left, and what was written. -/
structure Filled (size : Nat) (dest : Dest) (timestamps : List Int) (data : Bytes) : Prop where
  timestamps : dest.timestamps = List.replicate dest.left 0 ++ timestamps
  data : dest.data = List.replicate (dest.left * size) 0 ++ data

/-- One slice: what is kept of it is written before what was written. -/
theorem copySlice_spec {ts : List Int} {ds : Bytes} (hdata : ds.length = ts.length * size) {dest : Dest}
    {timestamps : List Int} {data : Bytes} (hf : Filled size dest timestamps data)
    (hle : ts.length - dest.toSkip ≤ dest.left) :
    ∃ dest', copySlice size dest (ts, ds) = some dest' ∧ dest'.left = dest.left - (ts.length - dest.toSkip) ∧
      dest'.toSkip = dest.toSkip - (ts.length - dest.toSkip) ∧
      Filled size dest' (ts.take (ts.length - dest.toSkip) ++ timestamps)
        (ds.take ((ts.length - dest.toSkip) * size) ++ data) := by
  have hroom : (ts.length - dest.toSkip) * size ≤ ds.length := by
    rw [hdata]; exact Nat.mul_le_mul_right _ (Nat.sub_le _ _)
  have hts : (ts.take (ts.length - dest.toSkip)).length = ts.length - dest.toSkip := by
    rw [List.length_take]; omega
  have hds : (ds.take ((ts.length - dest.toSkip) * size)).length = (ts.length - dest.toSkip) * size := by
    rw [List.length_take]; omega
  simp only [copySlice]
  rw [if_neg (by omega)]
  by_cases hnil : ts.take (ts.length - dest.toSkip) = []
  · have h0 : ts.length - dest.toSkip = 0 := by rw [← hts, hnil]; rfl
    rw [if_pos (by rw [hnil]; rfl)]
    refine ⟨_, rfl, by dsimp only; omega, rfl, ?_⟩
    rw [hnil, h0, Nat.zero_mul, List.take_zero]
    exact hf
  · rw [if_neg (by simpa using hnil), if_neg (by omega)]
    refine ⟨_, rfl, rfl, rfl, ?_, ?_⟩
    · dsimp only
      rw [hf.timestamps, overwrite_zeros 0 hts (by omega)]
    · dsimp only
      rw [hf.data, Nat.sub_mul, overwrite_zeros 0 hds (Nat.mul_le_mul_right _ (by omega))]

/-- The loop writes what it keeps before what was written. -/
theorem copySlices_spec (hd : ∀ s ∈ slices, s.2.length = s.1.length * size) {dest : Dest} {timestamps : List Int}
    {data : Bytes} (hf : Filled size dest timestamps data) (hle : keptLen dest.toSkip (lens slices) ≤ dest.left) :
    ∃ dest', slices.foldlM (copySlice size) dest = some dest' ∧
      dest'.left = dest.left - keptLen dest.toSkip (lens slices) ∧
      Filled size dest' (keptTimestamps dest.toSkip slices ++ timestamps) (keptData size dest.toSkip slices ++ data) := by
  induction slices generalizing dest timestamps data with
  | nil => exact ⟨dest, rfl, rfl, hf⟩
  | cons s slices ih =>
    obtain ⟨ts, ds⟩ := s
    have hdata : ds.length = ts.length * size := hd _ List.mem_cons_self
    have ih := @ih fun s hs => hd s (List.mem_cons_of_mem _ hs)
    rw [lens, List.map_cons, keptLen, ← lens] at hle ⊢
    rw [keptTimestamps, keptData]
    dsimp only at hle ⊢
    obtain ⟨dest', hcopy, hleft, hskip, hfilled⟩ := copySlice_spec hdata hf (by omega)
    rw [← hskip] at hle ⊢
    obtain ⟨dest'', hrest, hleft', hfilled'⟩ := ih hfilled (by omega)
    refine ⟨dest'', ?_, by omega, ?_⟩
    · rw [List.foldlM_cons, hcopy]
      exact hrest
    · rw [List.append_assoc, List.append_assoc]
      exact hfilled'

end

/-! ## The packet -/

section
variable {p : LenPacket} {bytes : Bytes}

theorem content_writeBody {offset : Nat} (h : offset ≤ (content p).length) :
    content (p.writeBody offset bytes) = overwrite (content p) offset bytes := by
  have hl := length_inner p
  have ht : (p.inner.take (8 + offset)).drop 8 = (content p).take offset := by
    rw [content, List.drop_take, Nat.add_sub_cancel_left]
  have hd : p.inner.drop (8 + offset + bytes.length) = (content p).drop (offset + bytes.length) := by
    rw [content, List.drop_drop, Nat.add_assoc]
  show (overwrite p.inner (8 + offset) bytes).drop 8 = _
  simp only [overwrite, List.append_assoc]
  rw [List.drop_append_of_le_length (by rw [List.length_take]; omega), ht, hd]

theorem pktLen_writeBody {offset : Nat} : (p.writeBody offset bytes).pktLen = p.pktLen := by
  have hl := length_inner p
  show leNat ((overwrite p.inner (8 + offset) bytes).take 4) = leNat (p.inner.take 4)
  simp only [overwrite, List.append_assoc]
  rw [List.take_append_of_le_length (by rw [List.length_take]; omega), List.take_take, Nat.min_eq_left (by omega)]

end

section
variable {size : Nat} {slices : List (List Int × Bytes)} {limit : Option Nat}

theorem length_flatMap_i64Bytes (ts : List Int) : (ts.flatMap i64Bytes).length = ts.length * 8 := by
  induction ts with
  | nil => rfl
  | cons t ts ih => rw [List.flatMap_cons, List.length_append, length_i64Bytes, ih, List.length_cons]; omega

/-- The packet before the samples are written: zeros after the count. -/
def zeroed (len size : Nat) (pkt : LenPacket) : LenPacket :=
  (pkt.clear.extendFromSlice (leBytes 8 len)).append (.replicate (len * 8 + len * size) 0)
    (asU32 (8 + len * 8 + len * size + packetHeaderLen))

theorem zeroed_spec (len size : Nat) (pkt : LenPacket) : Counted (zeroed len size pkt) ∧
    content (zeroed len size pkt) = leBytes 8 len ++ .replicate (len * 8 + len * size) 0 := by
  obtain ⟨hc, hb⟩ := clear_spec pkt
  obtain ⟨-, hb'⟩ := extendFromSlice_spec (leBytes 8 len) hc
  rw [hb, List.nil_append] at hb'
  have hb : content (zeroed len size pkt) = leBytes 8 len ++ .replicate (len * 8 + len * size) 0 := by
    rw [zeroed, content_append, hb']
  refine ⟨?_, hb⟩
  rw [Counted, hb, zeroed, pktLen_append (asU32_lt _), List.length_append, length_leBytes, List.length_replicate,
    packetHeaderLen]
  congr 1
  omega

/-- The samples written over the zeros. -/
theorem content_samples {zeroed : LenPacket} {len n : Nat} {samples : Bytes}
    (h : content zeroed = leBytes 8 len ++ .replicate n 0) (hn : samples.length = n) :
    content (zeroed.writeBody 8 samples) = leBytes 8 len ++ samples := by
  have hcl := congrArg List.length h
  rw [List.length_append, length_leBytes, List.length_replicate] at hcl
  rw [content_writeBody (by omega), overwrite, h, List.take_left' (length_leBytes _ _), hn,
    List.drop_of_length_le (by rw [List.length_append, length_leBytes, List.length_replicate]), List.append_nil]

theorem reply_eq (size : Nat) (slices : List (List Int × Bytes)) (limit : Option Nat) (id : UInt8 × UInt8) (reqId : UInt8)
    (pkt : LenPacket) : reply size slices limit id reqId pkt =
      (zeroed (replyLen slices limit) size (pkt.setHeader .timeSeries id reqId)).body.bind fun _ =>
        (copySlices size slices limit).map fun dest =>
          (zeroed (replyLen slices limit) size (pkt.setHeader .timeSeries id reqId)).writeBody 8
            (dest.timestamps.flatMap i64Bytes ++ dest.data) := by
  simp only [reply, Option.bind_eq_bind, Option.pure_def, Option.map_eq_bind]
  rfl

/-- The loop of the handler: it writes every slot just when none of the newest slice is skipped twice. -/
theorem copySlices_filled (hd : ∀ s ∈ slices, s.2.length = s.1.length * size) (limit : Option Nat) :
    ∃ dest, copySlices size slices limit = some dest ∧ (dest.left = 0 ↔ SkipsInFirst slices (toSkip slices limit)) ∧
      Filled size dest (keptTimestamps (toSkip slices limit) slices) (keptData size (toSkip slices limit) slices) := by
  have hskip : rangeLen slices - toSkip slices limit = replyLen slices limit := by
    have hlen : replyLen slices limit ≤ rangeLen slices := Nat.min_le_left _ _
    rw [toSkip]
    omega
  have hsum : (lens slices).sum - toSkip slices limit = replyLen slices limit := hskip
  have hkept := keptLen_le (toSkip slices limit) (lens slices)
  have hiff := @keptLen_eq_iff (toSkip slices limit) (lens slices)
  rw [hsum] at hkept hiff
  have hstart : Filled size ⟨.replicate (replyLen slices limit) 0, .replicate (replyLen slices limit * size) 0,
      replyLen slices limit, toSkip slices limit⟩ [] [] := ⟨(List.append_nil _).symm, (List.append_nil _).symm⟩
  obtain ⟨dest, hcopy, hleft, hfilled⟩ := copySlices_spec hd hstart hkept
  dsimp only at hleft hfilled
  rw [List.append_nil, List.append_nil] at hfilled
  refine ⟨dest, hcopy, Iff.trans ?_ hiff, hfilled⟩
  omega

/-- With every slot written, the samples are the earliest. -/
theorem earliest_of_filled (hd : ∀ s ∈ slices, s.2.length = s.1.length * size)
    (hs : SkipsInFirst slices (toSkip slices limit)) {dest : Dest} (hleft : dest.left = 0)
    (hf : Filled size dest (keptTimestamps (toSkip slices limit) slices) (keptData size (toSkip slices limit) slices)) :
    dest.timestamps = (rangeTimestamps slices).take (replyLen slices limit) ∧
      dest.data = (rangeData slices).take (replyLen slices limit * size) := by
  have hskip : rangeLen slices - toSkip slices limit = replyLen slices limit := by
    have hlen : replyLen slices limit ≤ rangeLen slices := Nat.min_le_left _ _
    rw [toSkip]
    omega
  obtain ⟨hts, hdata⟩ := kept_eq hd (keptLen_eq_iff.mpr hs)
  rw [hskip] at hts hdata
  constructor
  · rw [hf.timestamps, hleft, List.replicate_zero, List.nil_append, hts]
  · rw [hf.data, hleft, Nat.zero_mul, List.replicate_zero, List.nil_append, hdata]

/-- The reply holds the earliest samples just when none of the newest slice is skipped twice, and the packet fits
its length. -/
theorem answers_iff (hd : ∀ s ∈ slices, s.2.length = s.1.length * size) (limit : Option Nat) (id : UInt8 × UInt8)
    (reqId : UInt8) (pkt : LenPacket) : Answers size slices limit id reqId pkt ↔
      SkipsInFirst slices (toSkip slices limit) ∧ replySize size slices limit < 2 ^ 32 := by
  obtain ⟨dest, hcopy, hiff, hfilled⟩ := copySlices_filled hd limit
  obtain ⟨hcounted, hcontent⟩ := zeroed_spec (replyLen slices limit) size (pkt.setHeader .timeSeries id reqId)
  have hreply := reply_eq size slices limit id reqId pkt
  rw [hcopy, Option.map_some] at hreply
  generalize zeroed (replyLen slices limit) size (pkt.setHeader .timeSeries id reqId) = zeroed at *
  have hcl := congrArg List.length hcontent
  rw [List.length_append, length_leBytes, List.length_replicate] at hcl
  have hbody (body : Bytes) : zeroed.body = some body ↔ content zeroed = body ∧ replySize size slices limit < 2 ^ 32 := by
    rw [body_eq_some hcounted, hcl, replySize, Nat.add_assoc 8]
  constructor
  · rintro ⟨dest', p, hcopy', hleft', hp, -⟩
    cases hcopy.symm.trans hcopy'
    refine ⟨hiff.mp hleft', ?_⟩
    rw [hreply] at hp
    obtain ⟨body, hb, -⟩ := Option.bind_eq_some_iff.mp hp
    exact ((hbody body).mp hb).2
  · rintro ⟨hs, hsize⟩
    have hleft := hiff.mpr hs
    obtain ⟨hts, hdata⟩ := earliest_of_filled hd hs hleft hfilled
    have hlen : (dest.timestamps.flatMap i64Bytes ++ dest.data).length =
        replyLen slices limit * 8 + replyLen slices limit * size := by
      have hle : replyLen slices limit ≤ rangeLen slices := Nat.min_le_left _ _
      have hmul := Nat.mul_le_mul_right size hle
      rw [List.length_append, length_flatMap_i64Bytes, hts, hdata, List.length_take, List.length_take,
        length_rangeTimestamps, length_rangeData hd]
      omega
    have hinner := content_samples hcontent hlen
    rw [(hbody (content zeroed)).mpr ⟨rfl, hsize⟩, Option.bind_some] at hreply
    refine ⟨dest, _, hcopy, hleft, hreply, ?_, ?_⟩
    · rw [← hts, ← hdata]
      exact hinner
    · rw [pktLen_writeBody, hcounted, length_inner, hinner, hcl, List.length_append, length_leBytes, hlen, asU32,
        Nat.mod_eq_of_lt (by rw [replySize, Nat.add_assoc 8] at hsize; exact hsize)]
      omega

end

/-! ## A range of two nodes -/

/-- The limit leaves most of the newer node. -/
theorem answers_two_nodes : Answers 1 [([3, 4, 5], [30, 40, 50]), ([1, 2], [10, 20])] (some 4) (7, 0) 1 (.table (0, 0)) :=
  (answers_iff (by decide) _ _ _ _).mpr ⟨.inr (.inr ⟨3, rfl, by decide, by decide⟩), by decide⟩

/-- The limit leaves nothing of the newer node: the older node is cut short as well, and a slot stays zero. -/
theorem zero_filler_not_answers : ¬ ∀ (size : Nat) (slices : List (List Int × Bytes)) (limit : Option Nat)
    (id : UInt8 × UInt8) (reqId : UInt8) (pkt : LenPacket), (∀ s ∈ slices, s.2.length = s.1.length * size) →
    Answers size slices limit id reqId pkt := by
  intro h
  obtain ⟨dest, _, hcopy, hleft, _⟩ := h 1 [([3], [30]), ([1, 2], [10, 20])] (some 2) (7, 0) 1 (.table (0, 0)) (by decide)
  have e : copySlices 1 [([3], [30]), ([1, 2], [10, 20])] (some 2) = some ⟨[0, 1], [0, 10], 1, 0⟩ := by decide
  cases e.symm.trans hcopy
  exact absurd hleft (by decide)

end Metor.Proof.GetTimeSeries
