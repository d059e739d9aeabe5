import Metor.Proof.Frame.Genuine

/-!
# Frames however the bytes arrive

A chunk is taken one byte after the other (`feedAll`), up to the first frame,
because no stretch of the stream is too long (`push_eq`). As long as the
decoder is in step with the sender (`InStep`) each byte keeps what is to come,
and returns a payload at its closing delimiter; but what follows it in the
chunk is dropped, and with it the opening zero of the next frame
(`chunk_closesLast`, `chunk_not_closesLast`). So all payloads arrive just when
every closing delimiter ends its chunk (`frames_iff`).
-/

namespace Metor.Proof.Frame

open Metor.Lib Metor.Impl.Frame Metor.Impl.Frame.FrameDecoder

/-! ## One byte after the other -/

section
variable (decode : Bytes → Option Bytes)

/-- The frame ends at this byte. -/
def close (frame : Bytes) : FrameDecoder Bytes × Option Bytes :=
  match decode frame with
  | none => (⟨[], .building⟩, none)
  | some out => if out.length = 0 then (⟨[], .building⟩, none) else (⟨frame, .decoded⟩, some out)

/-- One byte of a chunk. A zero that closes no frame opens one. -/
def feed (d : FrameDecoder Bytes) (b : UInt8) : FrameDecoder Bytes × Option Bytes :=
  match d.state with
  | .finding => if b = 0 then (⟨d.frame, .building⟩, none) else (d, none)
  | .building => if b = 0 then close decode d.frame else (⟨d.frame ++ [b], .building⟩, none)
  | .decoded => if b = 0 then (⟨[], .building⟩, none) else (⟨[], .finding⟩, none)

/-- The bytes of a chunk up to the first frame. -/
def feedAll (d : FrameDecoder Bytes) : Bytes → FrameDecoder Bytes × Option Bytes
  | [] => (d, none)
  | b :: bs =>
    match (feed decode d b).2 with
    | none => feedAll (feed decode d b).1 bs
    | some out => ((feed decode d b).1, some out)

end

section
variable {decode : Bytes → Option Bytes} {frame pre rest : Bytes}

theorem feed_skip {b : UInt8} (hb : b ≠ 0) : feed decode ⟨frame, .finding⟩ b = (⟨frame, .finding⟩, none) :=
  if_neg hb

theorem feed_more {b : UInt8} (hb : b ≠ 0) :
    feed decode ⟨frame, .building⟩ b = (⟨frame ++ [b], .building⟩, none) :=
  if_neg hb

/-- Where nothing is decoded, the closing zero opens a frame. -/
theorem feed_close (hd : ∀ out ∈ decode frame, out = []) :
    feed decode ⟨frame, .building⟩ 0 = (⟨[], .building⟩, none) := by
  show close decode frame = _
  unfold close
  cases h : decode frame with
  | none => rfl
  | some out => rw [hd out h]; rfl

theorem feed_frame {out : Bytes} (hd : decode frame = some out) (hout : out ≠ []) :
    feed decode ⟨frame, .building⟩ 0 = (⟨frame, .decoded⟩, some out) := by
  show close decode frame = _
  rw [close, hd]
  exact if_neg fun h => hout (List.length_eq_zero_iff.mp h)

theorem feedAll_cons_none {d d' : FrameDecoder Bytes} {b : UInt8} (h : feed decode d b = (d', none)) :
    feedAll decode d (b :: rest) = feedAll decode d' rest := by
  rw [feedAll, h]

theorem feedAll_cons_some {d d' : FrameDecoder Bytes} {b : UInt8} {out : Bytes}
    (h : feed decode d b = (d', some out)) : feedAll decode d (b :: rest) = (d', some out) := by
  rw [feedAll, h]

theorem feedAll_finding (hz : 0 ∉ pre) :
    feedAll decode ⟨frame, .finding⟩ (pre ++ rest) = feedAll decode ⟨frame, .finding⟩ rest := by
  induction pre with
  | nil => rfl
  | cons b pre ih =>
    rw [List.mem_cons, not_or] at hz
    rw [List.cons_append, feedAll_cons_none (feed_skip (Ne.symm hz.1)), ih hz.2]

theorem feedAll_building (hz : 0 ∉ pre) :
    feedAll decode ⟨frame, .building⟩ (pre ++ rest) = feedAll decode ⟨frame ++ pre, .building⟩ rest := by
  induction pre generalizing frame with
  | nil => rw [List.nil_append, List.append_nil]
  | cons b pre ih =>
    rw [List.mem_cons, not_or] at hz
    rw [List.cons_append, feedAll_cons_none (feed_more (Ne.symm hz.1)), ih hz.2, ← List.append_cons]

theorem feedAll_open : feedAll decode ⟨frame, .finding⟩ (0 :: rest) = feedAll decode ⟨frame, .building⟩ rest := rfl

theorem feedAll_decoded (b : UInt8) :
    feedAll decode ⟨frame, .decoded⟩ (b :: rest) = feedAll decode ⟨[], .finding⟩ (b :: rest) := rfl

end

/-- No stretch that ends at a zero is too long for the decoder. -/
def Short (data : Bytes) : Prop := ∀ run, run ++ [0] <:+: data → 0 ∉ run → run.length < 255

theorem Short.drop {data : Bytes} (h : Short data) (n : Nat) : Short (data.drop n) :=
  fun run hr => h run (hr.trans (List.drop_suffix n data).isInfix)

theorem Short.findZero_lt {data : Bytes} {i : Nat} (h : Short data) (hz : findZero data = some i) : i < 255 := by
  obtain ⟨hsplit, hm⟩ := findZero_some hz
  have hi := FrameDecoder.findZero_lt hz
  have hlt := h (data.take i) ⟨[], data.drop (i + 1), by simpa using hsplit.symm⟩ hm
  rw [List.length_take] at hlt
  omega

/-- A zero that closes no frame is met again, after the byte before it. -/
theorem feedAll_again {decode : Bytes → Option Bytes} {data : Bytes} {i : Nat} (hz : findZero data = some i) :
    feedAll decode ⟨[], .finding⟩ (data.drop (i - 1)) = feedAll decode ⟨[], .building⟩ (data.drop (i + 1)) := by
  obtain ⟨hsplit, hm⟩ := findZero_some hz
  have hi := FrameDecoder.findZero_lt hz
  have hdrop : data.drop (i - 1) = (data.take i).drop (i - 1) ++ 0 :: data.drop (i + 1) := by
    have e := congrArg (List.drop (i - 1)) hsplit
    rwa [List.drop_append_of_le_length (by rw [List.length_take]; omega)] at e
  rw [hdrop, feedAll_finding (fun h => hm (List.mem_of_mem_drop h)), feedAll_open]

theorem push_eq {decode : Bytes → Option Bytes} {d : FrameDecoder Bytes} {data : Bytes} (hs : Short data) :
    d.push decode data = feedAll decode d data := by
  unfold push
  fun_induction pushFrom decode d data with
  | case1 d => rfl
  | case2 d data _ hd hz =>
    obtain ⟨frame, state⟩ := d
    obtain rfl : state = .finding := hd
    have h : feedAll decode ⟨frame, .finding⟩ (data ++ []) = feedAll decode ⟨frame, .finding⟩ [] :=
      feedAll_finding (findZero_none hz)
    rw [List.append_nil] at h
    exact h.symm
  | case3 d data _ hd frameStart hz ih =>
    obtain ⟨frame, state⟩ := d
    obtain rfl : state = .finding := hd
    obtain ⟨hsplit, hm⟩ := findZero_some hz
    rw [ih (hs.drop _)]
    conv => rhs; rw [hsplit]
    rw [feedAll_finding hm, feedAll_open]
  | case4 d data _ hd frameEnd hz hlong ih =>
    have := hs.findZero_lt hz
    omega
  | case5 d data _ hd frameEnd hz hlt frame hnone =>
    rename_i ih
    obtain ⟨held, state⟩ := d
    obtain rfl : state = .building := hd
    obtain ⟨hsplit, hm⟩ := findZero_some hz
    have hnone : decode (held ++ data.take frameEnd) = none := hnone
    rw [ih (hs.drop _)]
    conv => rhs; rw [hsplit]
    rw [feedAll_building hm, feedAll_cons_none (feed_close (by simp [hnone]))]
    exact feedAll_again hz
  | case6 d data _ hd frameEnd hz hlt frame out hout hempty =>
    rename_i ih
    obtain ⟨held, state⟩ := d
    obtain rfl : state = .building := hd
    obtain ⟨hsplit, hm⟩ := findZero_some hz
    have hout : decode (held ++ data.take frameEnd) = some out := hout
    rw [ih (hs.drop _)]
    conv => rhs; rw [hsplit]
    rw [feedAll_building hm, feedAll_cons_none (feed_close (by simpa [hout] using hempty))]
    exact feedAll_again hz
  | case7 d data _ hd frameEnd hz hlt frame out hout =>
    rename_i hne
    obtain ⟨held, state⟩ := d
    obtain rfl : state = .building := hd
    obtain ⟨hsplit, hm⟩ := findZero_some hz
    conv => rhs; rw [hsplit]
    rw [feedAll_building hm]
    exact (feedAll_cons_some (feed_frame hout (fun h => hne (by rw [h]; rfl)))).symm
  | case8 d data _ hd hz frame he =>
    obtain ⟨held, state⟩ := d
    obtain rfl : state = .building := hd
    have he : held ++ data = frame := Option.some.inj he
    have h : feedAll decode ⟨held, .building⟩ (data ++ []) = feedAll decode ⟨held ++ data, .building⟩ [] :=
      feedAll_building (findZero_none hz)
    rw [List.append_nil, he] at h
    exact h.symm
  | case9 d data _ hd hz he => exact absurd he (by simp [Buf.extendFromSlice])
  | case10 d data hne hd ih =>
    obtain ⟨frame, state⟩ := d
    obtain rfl : state = .decoded := hd
    rw [ih hs]
    cases data with
    | nil => exact absurd rfl hne
    | cons b rest => exact (feedAll_decoded b).symm

/-! ## The sender and the decoder -/

/-- Payloads that fit in a frame. -/
def Fits (payloads : List Bytes) : Prop := ∀ p ∈ payloads, 1 ≤ p.length ∧ p.length ≤ 253

/-- What is left of a frame. -/
def restOf (todo : Bytes) (rem : List Sent) : List Sent := todo.map (·, false) ++ (0, true) :: rem

section
variable {encode : Bytes → Bytes} {decode : Bytes → Option Bytes}

/-- The decoder is in step with the sender, of whose stream `rem` is left and from which `payloads` are to come. -/
inductive InStep (encode : Bytes → Bytes) : FrameDecoder Bytes → List Sent → List Bytes → Prop
  | between {d payloads} : d.state ≠ .building → (d.state = .finding → d.frame = []) →
    InStep encode d (stream encode payloads) payloads
  | inside {d todo p payloads} : d.state = .building → encode p = d.frame ++ todo →
    InStep encode d (restOf todo (stream encode payloads)) (p :: payloads)

/-- The decoder is in step, or has missed the start of a frame, or has taken the end of that frame for the start of
another one. -/
inductive Follows (encode : Bytes → Bytes) : FrameDecoder Bytes → List Sent → List Bytes → Prop
  | inStep {d rem payloads} : InStep encode d rem payloads → Follows encode d rem payloads
  | missed {d todo payloads} : d.state ≠ .building → (d.state = .finding → d.frame = []) → 0 ∉ todo →
    Follows encode d (restOf todo (stream encode payloads)) payloads
  | opened {payloads} : Follows encode ⟨[], .building⟩ (stream encode payloads) payloads

theorem stream_cons (p : Bytes) (payloads : List Bytes) :
    stream encode (p :: payloads) = (0, false) :: restOf (encode p) (stream encode payloads) := by
  rw [stream, List.flatMap_cons, sent, restOf, List.cons_append, List.cons_append, List.append_assoc]
  rfl

theorem feed_open {d : FrameDecoder Bytes} (hs : d.state ≠ .building) (he : d.state = .finding → d.frame = []) :
    feed decode d 0 = (⟨[], .building⟩, none) := by
  obtain ⟨frame, state⟩ := d
  cases state with
  | finding => rw [show frame = [] from he rfl]; rfl
  | building => exact absurd rfl hs
  | decoded => rfl

theorem feed_missed {d : FrameDecoder Bytes} {b : UInt8} (hs : d.state ≠ .building)
    (he : d.state = .finding → d.frame = []) (hb : b ≠ 0) : feed decode d b = (⟨[], .finding⟩, none) := by
  obtain ⟨frame, state⟩ := d
  cases state with
  | finding => rw [show frame = [] from he rfl]; exact if_neg hb
  | building => exact absurd rfl hs
  | decoded => exact if_neg hb

/-- A byte keeps the decoder in step. It returns a payload just when it is the closing delimiter of its frame. -/
theorem InStep.feed (h : CobsLaws encode decode) {d : FrameDecoder Bytes} {b : UInt8} {mark : Bool} {rem : List Sent}
    {payloads : List Bytes} (hp : Fits payloads) (hi : InStep encode d ((b, mark) :: rem) payloads) :
    ∃ payloads', InStep encode (Frame.feed decode d b).1 rem payloads' ∧
      payloads = (Frame.feed decode d b).2.toList ++ payloads' ∧
      ((Frame.feed decode d b).2.isSome = mark) ∧ (mark → (Frame.feed decode d b).1.state = .decoded) := by
  generalize hr : (b, mark) :: rem = rem₀ at hi
  cases hi with
  | between hs he =>
    cases payloads with
    | nil => exact absurd hr (by simp [stream])
    | cons p payloads =>
      rw [stream_cons] at hr
      obtain ⟨hbm, rfl⟩ := List.cons.inj hr
      obtain ⟨rfl, rfl⟩ := Prod.mk.inj hbm
      rw [feed_open hs he]
      exact ⟨p :: payloads, .inside rfl rfl, rfl, rfl, by simp⟩
  | @inside todo p payloads hs he =>
    obtain ⟨frame, state⟩ := d
    obtain rfl : state = .building := hs
    obtain ⟨h1, h2⟩ := hp p List.mem_cons_self
    cases todo with
    | nil =>
      obtain ⟨hbm, rfl⟩ := List.cons.inj hr
      obtain ⟨rfl, rfl⟩ := Prod.mk.inj hbm
      have he : encode p = frame := by rwa [List.append_nil] at he
      have hd : decode frame = some p := by rw [← he, h.decode_encode p h1 h2]
      rw [feed_frame hd (fun hnil => by simp [hnil] at h1)]
      exact ⟨payloads, .between (by simp) (by simp), rfl, rfl, fun _ => rfl⟩
    | cons b' todo =>
      obtain ⟨hbm, rfl⟩ := List.cons.inj hr
      obtain ⟨rfl, rfl⟩ := Prod.mk.inj hbm
      have hb : b ≠ 0 := fun hb => h.zero_notMem p h1 h2 (by rw [he, hb]; simp)
      rw [feed_more hb]
      refine ⟨p :: payloads, .inside rfl ?_, rfl, rfl, by simp⟩
      rw [he, List.append_assoc]
      rfl

/-- A byte keeps a decoder that has missed a frame on its way to the next one. -/
theorem Follows.feed (h : CobsLaws encode decode) {d : FrameDecoder Bytes} {b : UInt8} {mark : Bool} {rem : List Sent}
    {payloads : List Bytes} (hp : Fits payloads) (hi : Follows encode d ((b, mark) :: rem) payloads) :
    ∃ payloads', Follows encode (Frame.feed decode d b).1 rem payloads' ∧
      payloads = (Frame.feed decode d b).2.toList ++ payloads' ∧
      ((Frame.feed decode d b).2.isSome → mark ∧ InStep encode (Frame.feed decode d b).1 rem payloads' ∧
        (Frame.feed decode d b).1.state = .decoded) := by
  generalize hr : (b, mark) :: rem = rem₀ at hi
  cases hi with
  | inStep hi =>
    subst hr
    obtain ⟨payloads', hi', e, hm, hd⟩ := hi.feed h hp
    exact ⟨payloads', .inStep hi', e, fun hs => ⟨hm ▸ hs, hi', hd (hm ▸ hs)⟩⟩
  | @missed _ todo _ hs he hz =>
    cases todo with
    | nil =>
      obtain ⟨hbm, rfl⟩ := List.cons.inj hr
      obtain ⟨rfl, rfl⟩ := Prod.mk.inj hbm
      rw [feed_open hs he]
      exact ⟨payloads, .opened, rfl, by simp⟩
    | cons b' todo =>
      obtain ⟨hbm, rfl⟩ := List.cons.inj hr
      obtain ⟨rfl, rfl⟩ := Prod.mk.inj hbm
      rw [List.mem_cons, not_or] at hz
      rw [feed_missed hs he (Ne.symm hz.1)]
      exact ⟨payloads, .missed (by simp) (fun _ => rfl) hz.2, rfl, by simp⟩
  | opened =>
    cases payloads with
    | nil => exact absurd hr (by simp [stream])
    | cons p payloads =>
      rw [stream_cons] at hr
      obtain ⟨hbm, rfl⟩ := List.cons.inj hr
      obtain ⟨rfl, rfl⟩ := Prod.mk.inj hbm
      rw [feed_close h.decode_nil]
      exact ⟨p :: payloads, .inStep (.inside rfl rfl), rfl, by simp⟩

/-! ## Chunks -/

theorem Fits.of_append {a b : List Bytes} (h : Fits (a ++ b)) : Fits b := fun p hp => h p (List.mem_append_right a hp)

theorem closings_le_cons (x : Sent) (c : List Sent) : closings c ≤ closings (x :: c) := by
  unfold closings
  exact List.Sublist.length_le (List.Sublist.filter _ (List.sublist_cons_self x c))

theorem closings_cons_closing (b : UInt8) (c : List Sent) : closings ((b, true) :: c) = closings c + 1 := rfl

theorem closesLast_cons {x : Sent} {c : List Sent} (hne : c ≠ []) :
    ClosesLast (x :: c) ↔ x.2 = false ∧ ClosesLast c := by
  rw [ClosesLast, List.dropLast_cons_of_ne_nil hne, List.forall_mem_cons]
  rfl

theorem closesLast_singleton (x : Sent) : ClosesLast [x] := fun _ hy => absurd hy List.not_mem_nil

/-- What is dropped behind a closing delimiter has the start of the next frame, if it is not empty. -/
theorem InStep.dropped {d : FrameDecoder Bytes} {c rem : List Sent} {payloads : List Bytes} (h : CobsLaws encode decode)
    (hp : Fits payloads) (hi : InStep encode d (c ++ rem) payloads) (hd : d.state = .decoded) (hc : closings c = 0)
    (hne : c ≠ []) : ∃ p payloads', payloads = p :: payloads' ∧ Follows encode d rem payloads' := by
  generalize hr : c ++ rem = rem₀ at hi
  have hmark : ∀ x ∈ c, x.2 ≠ true := List.filter_eq_nil_iff.mp (List.length_eq_zero_iff.mp hc)
  cases hi with
  | inside hs => exact absurd (hd.symm.trans hs) (by simp)
  | between hs he =>
    obtain ⟨x, c, rfl⟩ := List.exists_cons_of_ne_nil hne
    cases payloads with
    | nil => exact absurd hr (by simp [stream])
    | cons p payloads =>
      obtain ⟨h1, h2⟩ := hp p List.mem_cons_self
      rw [stream_cons] at hr
      obtain ⟨-, hr⟩ := List.cons.inj hr
      refine ⟨p, payloads, rfl, ?_⟩
      rcases List.append_eq_append_iff.mp hr with ⟨as, e, hrem⟩ | ⟨as, hcs, e⟩
      · obtain ⟨l₁, l₂, hl, -, rfl⟩ := List.map_eq_append_iff.mp e
        rw [hrem]
        refine .missed hs he fun hz => h.zero_notMem p h1 h2 ?_
        rw [hl]
        exact List.mem_append_right l₁ hz
      · cases as with
        | nil =>
          rw [List.nil_append] at e
          rw [← e]
          exact @Follows.missed encode d [] payloads hs he List.not_mem_nil
        | cons y as =>
          obtain ⟨hy, -⟩ := List.cons.inj e
          refine absurd ?_ (hmark y (by rw [hcs]; simp))
          rw [← hy]

/-- Where the closing delimiter ends the chunk, nothing is lost. -/
theorem chunk_closesLast (h : CobsLaws encode decode) {d : FrameDecoder Bytes} {c rem : List Sent}
    {payloads : List Bytes} (hp : Fits payloads) (hi : InStep encode d (c ++ rem) payloads) (hc : ClosesLast c) :
    ∃ payloads', InStep encode (feedAll decode d (bytes c)).1 rem payloads' ∧
      payloads = (feedAll decode d (bytes c)).2.toList ++ payloads' := by
  induction c generalizing d with
  | nil => exact ⟨payloads, hi, rfl⟩
  | cons x c ih =>
    obtain ⟨b, mark⟩ := x
    obtain ⟨payloads', hi', e, hm, -⟩ := hi.feed h hp
    cases ho : Frame.feed decode d b with
    | mk d' out =>
    rw [ho] at hi' e hm
    cases out with
    | none =>
      obtain rfl : payloads = payloads' := e
      have hc' : ClosesLast c := by
        by_cases hne : c = []
        · rw [hne]; exact fun _ hy => absurd hy List.not_mem_nil
        · exact ((closesLast_cons hne).mp hc).2
      rw [bytes, List.map_cons, feedAll_cons_none ho]
      exact ih hi' hc'
    | some out =>
      have hnil : c = [] := by
        by_contra hne
        exact absurd ((closesLast_cons hne).mp hc).1 (by simp [← hm])
      subst hnil
      rw [bytes, List.map_cons, feedAll_cons_some ho]
      exact ⟨payloads', hi', e⟩

/-- A chunk returns the next payload, or loses it, or neither. -/
theorem chunk_follows (h : CobsLaws encode decode) {d : FrameDecoder Bytes} {c rem : List Sent} {payloads : List Bytes}
    (hp : Fits payloads) (hi : Follows encode d (c ++ rem) payloads) (hc : closings c ≤ 1) :
    ∃ lost payloads', Follows encode (feedAll decode d (bytes c)).1 rem payloads' ∧
      payloads = (feedAll decode d (bytes c)).2.toList ++ lost ++ payloads' := by
  induction c generalizing d with
  | nil => exact ⟨[], payloads, hi, rfl⟩
  | cons x c ih =>
    obtain ⟨b, mark⟩ := x
    obtain ⟨payloads', hi', e, hm⟩ := hi.feed h hp
    cases ho : Frame.feed decode d b with
    | mk d' out =>
    rw [ho] at hi' e hm
    cases out with
    | none =>
      obtain rfl : payloads = payloads' := e
      rw [bytes, List.map_cons, feedAll_cons_none ho]
      exact ih hi' (Nat.le_trans (closings_le_cons _ c) hc)
    | some out =>
      obtain ⟨rfl, hin, hd⟩ := hm rfl
      rw [closings_cons_closing] at hc
      have hc : closings c = 0 := by omega
      rw [bytes, List.map_cons, feedAll_cons_some ho]
      rw [e] at hp
      by_cases hne : c = []
      · subst hne
        exact ⟨[], payloads', hi', by simpa using e⟩
      · obtain ⟨p, payloads'', rfl, hf⟩ := hin.dropped h hp.of_append hd hc hne
        exact ⟨[p], payloads'', hf, by simpa using e⟩

/-- Where the closing delimiter does not end the chunk, the next frame is lost. -/
theorem chunk_not_closesLast (h : CobsLaws encode decode) {d : FrameDecoder Bytes} {c rem : List Sent}
    {payloads : List Bytes} (hp : Fits payloads) (hi : InStep encode d (c ++ rem) payloads) (hc : closings c ≤ 1)
    (hl : ¬ ClosesLast c) :
    ∃ lost payloads', Follows encode (feedAll decode d (bytes c)).1 rem payloads' ∧
      payloads = (feedAll decode d (bytes c)).2.toList ++ lost :: payloads' := by
  induction c generalizing d with
  | nil => exact absurd (fun x hx => absurd hx List.not_mem_nil) hl
  | cons x c ih =>
    obtain ⟨b, mark⟩ := x
    obtain ⟨payloads', hi', e, hm, hdec⟩ := hi.feed h hp
    cases ho : Frame.feed decode d b with
    | mk d' out =>
    rw [ho] at hi' e hm hdec
    have hne : c ≠ [] := by
      intro hnil
      exact hl (hnil ▸ closesLast_singleton _)
    cases out with
    | none =>
      obtain rfl : payloads = payloads' := e
      rw [bytes, List.map_cons, feedAll_cons_none ho]
      exact ih hi' (Nat.le_trans (closings_le_cons _ c) hc) fun hc' => hl ((closesLast_cons hne).mpr ⟨hm.symm, hc'⟩)
    | some out =>
      obtain rfl : true = mark := hm
      rw [closings_cons_closing] at hc
      have hc : closings c = 0 := by omega
      rw [bytes, List.map_cons, feedAll_cons_some ho]
      rw [e] at hp
      obtain ⟨p, payloads'', rfl, hf⟩ := hi'.dropped h hp.of_append (hdec rfl) hc hne
      exact ⟨p, payloads'', hf, e⟩

/-! ## Whole streams -/

theorem short_nil : Short [] := fun run h _ => by
  have := List.eq_nil_of_infix_nil h
  exact absurd this (by simp)

theorem short_frame {enc rest : Bytes} (hz : 0 ∉ enc) (hl : enc.length < 255) (h : Short rest) :
    Short (enc ++ 0 :: rest) := by
  rintro run ⟨s, t, e⟩ hr
  rw [List.append_assoc, List.append_assoc] at e
  rcases List.append_eq_append_iff.mp e with ⟨as, rfl, h₁⟩ | ⟨as, -, h₁⟩
  · rw [List.mem_append, not_or] at hz
    obtain ⟨rfl, -⟩ := append_cons_inj_of_notMem hr hz.2 h₁
    rw [List.length_append] at hl
    omega
  · cases as with
    | nil =>
      obtain ⟨rfl, -⟩ := append_cons_inj_of_notMem hr List.not_mem_nil h₁.symm
      exact Nat.zero_lt_succ _
    | cons x as =>
      refine h run ⟨as, t, ?_⟩ hr
      rw [List.append_assoc, List.append_assoc]
      exact (List.cons.inj h₁).2.symm

theorem short_stream (h : CobsLaws encode decode) {payloads : List Bytes} (hp : Fits payloads) :
    Short (bytes (stream encode payloads)) := by
  induction payloads with
  | nil => exact short_nil
  | cons p payloads ih =>
    obtain ⟨⟨h1, h2⟩, hp⟩ := List.forall_mem_cons.mp hp
    have e : bytes (stream encode (p :: payloads)) = [] ++ 0 :: (encode p ++ 0 :: bytes (stream encode payloads)) := by
      rw [stream_cons, restOf]
      simp [bytes, Function.comp_def]
    have hl := h.length_le p h1 h2
    rw [e]
    exact short_frame List.not_mem_nil (by decide) (short_frame (h.zero_notMem p h1 h2) (by omega) (ih hp))

theorem Short.of_isInfix {a b : Bytes} (h : Short b) (hi : a <:+: b) : Short a := fun run hr => h run (hr.trans hi)

theorem InStep.eq_nil {d : FrameDecoder Bytes} {payloads : List Bytes} (hi : InStep encode d [] payloads) :
    payloads = [] := by
  generalize hr : ([] : List Sent) = rem at hi
  cases hi with
  | between => cases payloads with
    | nil => rfl
    | cons p payloads => rw [stream_cons] at hr; exact absurd hr (by simp)
  | inside => exact absurd hr (by simp [restOf])

/-- Whatever the chunks are, no more payloads are returned than are to come. -/
theorem length_frames_le (h : CobsLaws encode decode) {chunks : List (List Sent)} {d : FrameDecoder Bytes}
    {payloads : List Bytes} (hp : Fits payloads) (hi : Follows encode d chunks.flatten payloads)
    (hs : ∀ c ∈ chunks, Short (bytes c)) (hc : ∀ c ∈ chunks, closings c ≤ 1) :
    (frames decode d (chunks.map bytes)).length ≤ payloads.length := by
  induction chunks generalizing d payloads with
  | nil => exact Nat.zero_le _
  | cons c chunks ih =>
    obtain ⟨hs1, hs⟩ := List.forall_mem_cons.mp hs
    obtain ⟨hc1, hc⟩ := List.forall_mem_cons.mp hc
    rw [List.flatten_cons] at hi
    obtain ⟨lost, payloads', hf, rfl⟩ := chunk_follows h hp hi hc1
    have hle := ih hp.of_append hf hs hc
    rw [List.map_cons, frames, push_eq hs1]
    simp only [List.length_append]
    omega

theorem frames_eq_iff (h : CobsLaws encode decode) {chunks : List (List Sent)} {d : FrameDecoder Bytes}
    {payloads : List Bytes} (hp : Fits payloads) (hi : InStep encode d chunks.flatten payloads)
    (hs : ∀ c ∈ chunks, Short (bytes c)) (hc : ∀ c ∈ chunks, closings c ≤ 1) :
    frames decode d (chunks.map bytes) = payloads ↔ ∀ c ∈ chunks, ClosesLast c := by
  induction chunks generalizing d payloads with
  | nil =>
    rw [hi.eq_nil]
    exact ⟨fun _ c hc => absurd hc List.not_mem_nil, fun _ => rfl⟩
  | cons c chunks ih =>
    obtain ⟨hs1, hs⟩ := List.forall_mem_cons.mp hs
    obtain ⟨hc1, hc⟩ := List.forall_mem_cons.mp hc
    rw [List.flatten_cons] at hi
    rw [List.map_cons, frames, push_eq hs1, List.forall_mem_cons]
    by_cases hl : ClosesLast c
    · obtain ⟨payloads', hi', rfl⟩ := chunk_closesLast h hp hi hl
      rw [List.append_cancel_left_eq, ih hp.of_append hi' hs hc]
      exact (and_iff_right hl).symm
    · obtain ⟨lost, payloads', hf, rfl⟩ := chunk_not_closesLast h hp hi hc1 hl
      refine ⟨fun e => ?_, fun e => absurd e.1 hl⟩
      have hle := length_frames_le h (fun p hm => hp p (by simp [hm])) hf hs hc
      rw [List.append_cancel_left_eq] at e
      rw [e, List.length_cons] at hle
      omega

/-- The payloads arrive, in order and each once, just when every chunk with a closing delimiter ends there. -/
theorem frames_iff (h : CobsLaws encode decode) {payloads : List Bytes}
    (hp : ∀ p ∈ payloads, 1 ≤ p.length ∧ p.length ≤ 253) {chunks : List (List Sent)}
    (hflat : chunks.flatten = stream encode payloads) (hc : ∀ c ∈ chunks, closings c ≤ 1) :
    frames decode (FrameDecoder.default : FrameDecoder Bytes) (chunks.map bytes) = payloads ↔
      ∀ c ∈ chunks, ClosesLast c := by
  have hi : InStep encode FrameDecoder.default chunks.flatten payloads := by
    rw [hflat]
    exact .between (by decide) (fun _ => rfl)
  refine frames_eq_iff h hp hi (fun c hm => ?_) hc
  refine (short_stream h hp).of_isInfix (List.IsInfix.map _ ?_)
  rw [← hflat]
  exact List.infix_of_mem_flatten hm

end

/-- The second frame comes in two chunks, and the first one ends with its chunk. -/
theorem frames_two : frames Cobs.decode (FrameDecoder.default : FrameDecoder Bytes) [[0, 2, 7, 0], [0, 2], [8, 0]] =
    [[7], [8]] := by
  have hp : ∀ p ∈ ([[7], [8]] : List Bytes), 1 ≤ p.length ∧ p.length ≤ 253 := by decide
  let chunks : List (List Sent) :=
    [[(0, false), (2, false), (7, false), (0, true)], [(0, false), (2, false)], [(8, false), (0, true)]]
  have hflat : chunks.flatten = stream Cobs.encode [[7], [8]] := by decide
  have hc : ∀ c ∈ chunks, closings c ≤ 1 := by decide +kernel
  exact (frames_iff cobsLaws hp hflat hc).mpr (by decide +kernel)

/-- The second frame's opening zero comes with the end of the first frame. -/
theorem opening_zero_dropped : ¬ ∀ (payloads : List Bytes) (chunks : List (List Sent)),
    (∀ p ∈ payloads, 1 ≤ p.length ∧ p.length ≤ 253) → chunks.flatten = stream Cobs.encode payloads →
      (∀ c ∈ chunks, closings c ≤ 1) →
        frames Cobs.decode (FrameDecoder.default : FrameDecoder Bytes) (chunks.map bytes) = payloads := by
  intro hall
  have h := hall [[7], [8]]
    [[(0, false), (2, false), (7, false), (0, true), (0, false)], [(2, false), (8, false), (0, true)]]
    (by decide +kernel) (by decide +kernel) (by decide +kernel)
  exact absurd h (by decide +kernel)

end Metor.Proof.Frame
