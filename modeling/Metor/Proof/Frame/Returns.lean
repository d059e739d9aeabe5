import Metor.Impl.FrameLoop

/-!
# `push` returns

An iteration that does not end the loop reads on, or goes back to `Finding`
where it is (`weight_lt`): it never does the latter twice in a row. So
whatever the buffer and the decoding do the loop ends (`push_returns`), and
with those of `Metor.Impl.Frame` it ends with what `push` returns
(`iterations_eq_push`).
-/

namespace Metor.Proof.Frame

open Metor.Lib Metor.Impl.Frame Metor.Impl.Frame.FrameDecoder

variable {B : Type} {chunk : Bytes} {d d' : FrameDecoder B} {n n' : Nat}

/-! ## What is left to do -/

/-- Twice the bytes still to be read, and the step back to `Finding`. -/
def weight (chunk : Bytes) (d : FrameDecoder B) (n : Nat) : Nat :=
  2 * (chunk.length - n) + if d.state = .finding then 0 else 1

theorem weight_finding (chunk : Bytes) (frame : B) (n : Nat) : weight chunk ⟨frame, .finding⟩ n = 2 * (chunk.length - n) := rfl

theorem weight_le (chunk : Bytes) (d : FrameDecoder B) (n : Nat) : weight chunk d n ≤ 2 * (chunk.length - n) + 1 := by
  unfold weight
  split <;> omega

/-- Every iteration leaves less to do. -/
theorem weight_lt {calls : Calls B} (h : iterate calls chunk d n = .next d' n') : weight chunk d' n' < weight chunk d n := by
  unfold iterate at h
  by_cases hend : chunk.length < n ∨ chunk.drop n = []
  · rw [if_pos hend] at h
    exact nomatch h
  rw [if_neg hend] at h
  obtain ⟨hn, hne⟩ := not_or.mp hend
  have hlen := List.length_drop (i := n) (l := chunk)
  have hpos := List.length_pos_of_ne_nil hne
  have hold : 2 * (chunk.length - n) ≤ weight chunk d n := Nat.le_add_right _ _
  cases hs : d.state with
  | finding =>
    simp only [hs] at h
    cases hz : findZero (chunk.drop n) with
    | none =>
      simp only [hz] at h
      obtain ⟨rfl, rfl⟩ := Iteration.next.inj h
      have := weight_le chunk d (n + (chunk.drop n).length)
      omega
    | some frameStart =>
      simp only [hz] at h
      obtain ⟨rfl, rfl⟩ := Iteration.next.inj h
      have := weight_le chunk ⟨d.frame, .building⟩ (n + (frameStart + 1))
      omega
  | building =>
    have hold : weight chunk d n = 2 * (chunk.length - n) + 1 := by
      rw [weight, hs]
      rfl
    simp only [hs] at h
    cases hz : findZero (chunk.drop n) with
    | none =>
      simp only [hz] at h
      rcases hx : calls.extendFromSlice d.frame (chunk.drop n) with ⟨frame, _ | _⟩
      · simp only [hx] at h
        exact nomatch h
      · simp only [hx] at h
        obtain ⟨rfl, rfl⟩ := Iteration.next.inj h
        have := weight_le chunk ⟨frame, .building⟩ (n + (chunk.drop n).length)
        omega
    | some frameEnd =>
      simp only [hz] at h
      by_cases hlong : frameEnd ≥ 255
      · rw [if_pos hlong] at h
        obtain ⟨rfl, rfl⟩ := Iteration.next.inj h
        have := weight_finding chunk (calls.clear d.frame) (n + (frameEnd + 1))
        have : weight chunk (calls.clearDecoder d.frame) (n + (frameEnd + 1)) = _ := this
        omega
      rw [if_neg hlong] at h
      -- the delimiter may be read again, but from `Finding`
      have hclear (frame : B) : weight chunk (calls.clearDecoder frame) (n + (frameEnd - 1)) < weight chunk d n := by
        have : weight chunk (calls.clearDecoder frame) (n + (frameEnd - 1)) = _ := weight_finding chunk _ _
        omega
      rcases hdec : calls.decodeInPlace (calls.extendFromSlice d.frame ((chunk.drop n).take frameEnd)).1 with
        ⟨frame, _ | len⟩
      · simp only [hdec] at h
        obtain ⟨rfl, rfl⟩ := Iteration.next.inj h
        exact hclear frame
      · simp only [hdec] at h
        by_cases hzero : len = 0
        · rw [if_pos hzero] at h
          obtain ⟨rfl, rfl⟩ := Iteration.next.inj h
          exact hclear frame
        · rw [if_neg hzero] at h
          split at h <;> exact nomatch h
  | decoded =>
    simp only [hs] at h
    obtain ⟨rfl, rfl⟩ := Iteration.next.inj h
    have hnew : weight chunk (calls.clearDecoder d.frame) n = _ := weight_finding chunk _ _
    rw [hnew, weight, hs]
    exact Nat.lt_succ_self _

/-- So many iterations are enough. -/
theorem iterations_ne_next (calls : Nat → Calls B) {fuel : Nat} (k : Nat) (h : weight chunk d n < fuel) :
    iterations calls chunk fuel k d n ≠ .next d' n' := by
  induction fuel generalizing k d n with
  | zero => exact absurd h (Nat.not_lt_zero _)
  | succ fuel ih =>
    rw [iterations]
    cases hi : iterate (calls k) chunk d n with
    | next d₁ n₁ =>
      have := weight_lt hi
      exact ih (k + 1) (by omega)
    | returns d₁ frame => exact fun h => nomatch h
    | panics => exact fun h => nomatch h

/-- The loop ends after at most two iterations for each byte of the chunk, and two more. -/
theorem push_returns (calls : Nat → Calls B) (d : FrameDecoder B) (chunk : Bytes) (d' : FrameDecoder B) (n' : Nat) :
    iterations calls chunk (2 * chunk.length + 2) 0 d 0 ≠ .next d' n' := by
  have := weight_le chunk d 0
  exact iterations_ne_next calls 0 (by omega)

/-! ## What it returns -/

section
variable [Buf B] {calls : Calls B} {decode : Bytes → Option Bytes}

/-- The decoder that is left: the same, or one that has a frame and will be cleared. -/
def SameDecoder (d d' : FrameDecoder B) : Prop := d = d' ∨ d.state = .decoded ∧ d'.state = .decoded

theorem clearDecoder_eq (h : Realizes calls decode) (d : FrameDecoder B) : calls.clearDecoder d.frame = d.clear := by
  rw [Calls.clearDecoder, h.clear]
  rfl

/-- One iteration is one step of the recursion of `push`. -/
theorem iterate_eq_pushFrom (h : Realizes calls decode) (chunk : Bytes) (d : FrameDecoder B) (n : Nat) :
    (∃ d' n', iterate calls chunk d n = .next d' n' ∧
      pushFrom decode d (chunk.drop n) = pushFrom decode d' (chunk.drop n')) ∨
    ∃ d', iterate calls chunk d n = .returns d' (pushFrom decode d (chunk.drop n)).2 ∧
      SameDecoder d' (pushFrom decode d (chunk.drop n)).1 := by
  by_cases hend : chunk.length < n ∨ chunk.drop n = []
  · have hnil : chunk.drop n = [] := hend.elim (fun hn => List.drop_eq_nil_of_le (Nat.le_of_lt hn)) id
    refine .inr ⟨d, ?_, ?_⟩
    · rw [iterate, if_pos hend, pushFrom, dif_pos hnil]
    · rw [pushFrom, dif_pos hnil]
      exact .inl rfl
  have hne := (not_or.mp hend).2
  have hlast : chunk.drop (n + (chunk.drop n).length) = [] := by
    rw [List.drop_eq_nil_iff, List.length_drop]
    omega
  have hempty (d : FrameDecoder B) : pushFrom decode d [] = (d, none) := by
    rw [pushFrom, dif_pos rfl]
  obtain ⟨frame, state⟩ := d
  rw [iterate, if_neg hend, pushFrom, dif_neg hne]
  cases state with
  | finding =>
    cases hz : findZero (chunk.drop n) with
    | none =>
      refine .inl ⟨⟨frame, .finding⟩, _, rfl, ?_⟩
      rw [hlast, hempty]
    | some frameStart => exact .inl ⟨⟨frame, .building⟩, _, rfl, congrArg (pushFrom decode _) List.drop_drop⟩
  | building =>
    cases hz : findZero (chunk.drop n) with
    | none =>
      cases hx : Buf.extendFromSlice frame (chunk.drop n) with
      | none =>
        refine .inr ⟨clear ⟨frame, .building⟩, ?_, .inl rfl⟩
        simp only [h.extend_none hx]
        rw [← clearDecoder_eq h]
      | some frame' =>
        refine .inl ⟨⟨frame', .building⟩, n + (chunk.drop n).length, ?_, ?_⟩
        · simp only [h.extend_some hx]
        · rw [hlast, hempty]
    | some frameEnd =>
      simp only
      by_cases hlong : frameEnd ≥ 255
      · rw [if_pos hlong, if_pos hlong]
        refine .inl ⟨clear ⟨frame, .building⟩, n + (frameEnd + 1), ?_, congrArg (pushFrom decode _) List.drop_drop⟩
        rw [← clearDecoder_eq h]
      rw [if_neg hlong, if_neg hlong]
      have hx : (calls.extendFromSlice frame ((chunk.drop n).take frameEnd)).1 =
          extendOrKeep frame ((chunk.drop n).take frameEnd) := by
        cases hx : Buf.extendFromSlice frame ((chunk.drop n).take frameEnd) with
        | none => rw [h.extend_none hx, extendOrKeep, hx]; rfl
        | some frame' => rw [h.extend_some hx, extendOrKeep, hx]; rfl
      have hclear (b : B) : calls.clearDecoder (calls.decodeInPlace b).1 = clear ⟨b, .building⟩ :=
        congrArg (FrameDecoder.mk · .finding) (h.clear_decoded b)
      rw [hx]
      generalize extendOrKeep frame ((chunk.drop n).take frameEnd) = b at *
      rcases hb : calls.decodeInPlace b with ⟨b', answer⟩
      have hcl := hclear b
      rw [hb] at hcl
      cases hdec : decode (Buf.asSlice b) with
      | none =>
        have ha := h.decode_none hdec
        rw [hb] at ha
        obtain rfl : answer = none := ha
        exact .inl ⟨_, _, rfl, hcl ▸ congrArg (pushFrom decode _) List.drop_drop⟩
      | some out =>
        obtain ⟨ha, htake⟩ := h.decode_some hdec
        rw [hb] at ha htake
        obtain rfl : answer = some out.length := ha
        simp only
        by_cases hzero : out.length = 0
        · rw [if_pos hzero, if_pos hzero]
          exact .inl ⟨_, _, rfl, hcl ▸ congrArg (pushFrom decode _) List.drop_drop⟩
        · have htake : (calls.asSlice b').take out.length = out := htake
          have hle : out.length ≤ (calls.asSlice b').length := by
            have := congrArg List.length htake
            rw [List.length_take] at this
            omega
          rw [if_neg hzero, if_neg hzero, if_pos hle, htake]
          exact .inr ⟨_, rfl, .inr ⟨rfl, rfl⟩⟩
  | decoded => exact .inl ⟨clear ⟨frame, .decoded⟩, n, by rw [← clearDecoder_eq h], rfl⟩

/-- The loop with the calls of the model returns what `push` returns. -/
theorem iterations_eq_push (h : Realizes calls decode) (d : FrameDecoder B) (chunk : Bytes) :
    ∃ d', iterations (fun _ => calls) chunk (2 * chunk.length + 2) 0 d 0 = .returns d' (push decode d chunk).2 ∧
      SameDecoder d' (push decode d chunk).1 := by
  have hrun : ∀ fuel k (d : FrameDecoder B) n, weight chunk d n < fuel →
      ∃ d', iterations (fun _ => calls) chunk fuel k d n = .returns d' (pushFrom decode d (chunk.drop n)).2 ∧
        SameDecoder d' (pushFrom decode d (chunk.drop n)).1 := by
    intro fuel
    induction fuel with
    | zero => exact fun k d n hw => absurd hw (Nat.not_lt_zero _)
    | succ fuel ih =>
      intro k d n hw
      rw [iterations]
      obtain ⟨d', n', hi, hpush⟩ | ⟨d', hi, hsame⟩ := iterate_eq_pushFrom h chunk d n
      · have := weight_lt hi
        rw [hi, hpush]
        exact ih (k + 1) d' n' (by omega)
      · exact ⟨d', by rw [hi], hsame⟩
  have := weight_le chunk d 0
  exact hrun (2 * chunk.length + 2) 0 d 0 (by omega)

end

end Metor.Proof.Frame
