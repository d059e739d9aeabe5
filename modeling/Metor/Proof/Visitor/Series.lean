import Metor.Proof.TimeSeries.Search
import Metor.Proof.View
import Metor.Spec.Visitor

/-!
# The sample that is read of a component

In every series that a component can have, a node has an element of the
schema's size for each timestamp (`fed_of_reachable`). So where
`binary_search_nearest` finds a sample (`nearest_isSome_iff`), it is one that
`populate_table` can write and the vtable can describe (`nearest_spec`).
-/

namespace Metor.Proof.Visitor

open Metor.Lib Metor.Impl.Proto Metor.Impl.Visitor Metor.Proof.View
open Metor.Impl hiding Component

variable {list : TimeSeries} {t : Int} {schema : ComponentSchema} {c : Component}

/-! ## `binary_search_nearest`, over any nodes -/

theorem searchLoop_lt {xs : List Int} {x : Int} {fuel base size n : Nat} (h : 0 < size) (hn : base + size ≤ n) :
    searchLoop xs x fuel base size < n := by
  induction fuel generalizing base size with
  | zero => rw [searchLoop]; omega
  | succ fuel ih =>
    rw [searchLoop]
    split
    · refine ih (by omega) ?_
      split <;> omega
    · omega

theorem index_lt {xs : List Int} (h : xs ≠ []) (x : Int) :
    (match binarySearch xs x with
      | .ok i => i
      | .error i => i - 1) < xs.length := by
  have hpos := List.length_pos_iff.mpr h
  have hlt : searchLoop xs x xs.length 0 xs.length < xs.length := searchLoop_lt hpos (by omega)
  rw [binarySearch, if_neg (by omega)]
  by_cases he : xs.getD (searchLoop xs x xs.length 0 xs.length) 0 = x
  · simpa only [he, if_true] using hlt
  · simp only [he, if_false]
    split
    · exact hlt
    · exact (Nat.sub_le _ _).trans_lt hlt

theorem getD_mem {xs : List Int} {i : Nat} {d : Int} (h : i < xs.length) : xs.getD i d ∈ xs := by
  rw [List.getD_eq_getElem?_getD, List.getElem?_eq_getElem h]
  exact List.getElem_mem h

/-- A sample of a node of the list. -/
structure IsSample (list : TimeSeries) (r : TimestampRef) : Prop where
  mem : r.node.value ∈ list
  index_lt : r.index < r.node.value.timestamps.length
  timestamp_mem : r.timestamp ∈ r.node.value.timestamps

theorem searchNodes_isSample {full : TimeSeries} {prevNode : Option TimestampRef} {r : TimestampRef}
    (hp : ∀ p, prevNode = some p → IsSample full p) (hl : ∀ n ∈ list, n ∈ full)
    (h : TimeSeries.searchNodes t true prevNode list = some r) : IsSample full r := by
  induction list generalizing prevNode with
  | nil => exact hp r h
  | cons n rest ih =>
    have hn := hl n List.mem_cons_self
    rw [TimeSeries.searchNodes] at h
    split at h
    · next start stop hs he =>
      have hpos := List.length_pos_of_mem (List.mem_of_head? hs)
      have hfirst : IsSample full ⟨⟨n, rest⟩, start, n.timestamps.length - true.toNat⟩ :=
        ⟨hn, Nat.sub_lt hpos Nat.one_pos, List.mem_of_head? hs⟩
      split at h
      · split at h
        · split at h
          · exact hp r h
          · cases h; exact hfirst
        · cases h; exact hfirst
      split at h
      · refine ih ?_ (fun n hn => hl n (List.mem_cons_of_mem _ hn)) h
        rintro p ⟨⟩
        exact ⟨hn, hpos, List.mem_of_getLast? he⟩
      · cases h
        have hlt := index_lt (List.ne_nil_of_length_pos hpos) t
        exact ⟨hn, hlt, getD_mem hlt⟩
    · cases h

/-- No node without samples comes before one at which the walk stops. -/
def NoGap (t : Int) (list : TimeSeries) : Prop :=
  ∀ k (hk : k < list.length), list[k].timestamps = [] → ∃ j, ∃ hj : j < k, StopsAt t list[j]

theorem noGap_cons {n : TimeSeriesNode} : NoGap t (n :: list) ↔ n.timestamps ≠ [] ∧ (StopsAt t n ∨ NoGap t list) := by
  constructor
  · intro h
    refine ⟨fun hn => ?_, or_iff_not_imp_left.mpr fun hs k hk he => ?_⟩
    · obtain ⟨j, hj, _⟩ := h 0 (by simp) hn
      exact absurd hj (Nat.not_lt_zero j)
    · obtain ⟨j, hj, hstop⟩ := h (k + 1) (by simpa using hk) he
      cases j with
      | zero => exact absurd hstop hs
      | succ j => exact ⟨j, by omega, hstop⟩
  · rintro ⟨hn, h⟩ k hk he
    cases k with
    | zero => exact absurd he hn
    | succ k =>
      rcases h with h | h
      · exact ⟨0, by omega, h⟩
      · obtain ⟨j, hj, hstop⟩ := h k (by simpa using hk) he
        exact ⟨j + 1, by omega, hstop⟩

theorem searchNodes_isSome_iff {prevNode : Option TimestampRef} :
    (TimeSeries.searchNodes t true prevNode list).isSome ↔ (list = [] → prevNode.isSome) ∧ NoGap t list := by
  induction list generalizing prevNode with
  | nil => simp [TimeSeries.searchNodes, NoGap]
  | cons n rest ih =>
    rw [noGap_cons, TimeSeries.searchNodes]
    by_cases hn : n.timestamps = []
    · simp [hn]
    · simp only [TimeSeries.head?_eq_first hn, TimeSeries.getLast?_eq_last hn]
      by_cases h₁ : t > n.last
      · have hs : StopsAt t n := ⟨hn, .inr h₁⟩
        rw [if_pos h₁]
        refine iff_of_true ?_ ⟨fun e => absurd e (List.cons_ne_nil _ _), hn, .inl hs⟩
        split
        · split <;> rfl
        · rfl
      · rw [if_neg h₁]
        by_cases h₂ : t < n.first
        · have hs : ¬ StopsAt t n := fun h => by have := h.2; omega
          rw [if_pos h₂, ih]
          simp [hn, hs]
        · have hs : StopsAt t n := ⟨hn, .inl (by omega)⟩
          rw [if_neg h₂]
          exact iff_of_true rfl ⟨fun e => absurd e (List.cons_ne_nil _ _), hn, .inl hs⟩

/-- A component has a sample for a table just when its walk comes to no gap. -/
theorem nearest_isSome_iff : (nearest c t).isSome ↔ c.Sampled t := by
  rw [nearest, Component.Sampled]
  cases hs : c.timeSeries.startTimestamp with
  | none => simp
  | some start =>
    have hne : c.timeSeries ≠ [] := by rintro e; rw [e] at hs; cases hs
    simp only [Option.bind_eq_bind, Option.bind_some, TimeSeries.binarySearchNearest]
    rw [searchNodes_isSome_iff]
    simp [hne, NoGap]

/-! ## The nodes of a component -/

/-- A node that is fed values of the schema. -/
structure Fed (schema : ComponentSchema) (n : TimeSeriesNode) : Prop where
  value : ∃ v, IsValue schema v ∧ n.elementSize = v.length
  data : n.timestamps.length * n.elementSize ≤ n.data.data.length
  i64 : ∀ t ∈ n.timestamps, IsI64 t
  bool : schema.primType = .bool → ∀ b ∈ n.data.data, b ≤ 1

/-- The size of a value is that of its schema, whose elements can be counted. -/
theorem value_spec {v : Bytes} (h : IsValue schema v) : checkedProduct schema.dim = .ok schema.dim.prod ∧
    schema.dim.prod * schema.primType.size < 2 ^ 64 ∧ v.length = schema.size ∧
    (schema.primType = .bool → ∀ b ∈ v, b ≤ 1) := by
  obtain ⟨buf, view, h, rfl⟩ := h
  obtain ⟨n, hn, h⟩ := Eval.bind_eq_ok.mp h
  obtain rfl := checkedProduct_eq_ok hn
  split at h
  · cases h
  split at h
  · cases h
  split at h
  · cases h
  simp only at h
  split at h
  · cases h
  next hlt _ hle hbool =>
  cases h
  refine ⟨hn, by omega, ?_, fun hty b hb => ?_⟩
  · rw [List.length_take, ComponentSchema.size, Nat.mod_eq_of_lt (by omega)]; omega
  · have := fun hany => hbool ⟨hty, hany⟩
    rw [List.any_eq_true] at this
    exact UInt8.not_lt.mp fun hgt => this ⟨b, hb, by simpa using hgt⟩

theorem Fed.size {n : TimeSeriesNode} (h : Fed schema n) : n.elementSize = schema.size := by
  obtain ⟨v, hv, e⟩ := h.value
  rw [e, (value_spec hv).2.2.1]

/-- More data is one element more at least. -/
theorem fed_write {head : TimeSeriesNode} (h : Fed schema head) {value : Bytes} (hv : IsValue schema value)
    {data : AppendLog Nat UInt8} (hw : head.data.write 1 value = .ok data) :
    Fed schema { head with data := data } ∧
      (head.timestamps.length + 1) * data.extra ≤ data.data.length := by
  have hdata : data = { head.data with data := head.data.data ++ value } := by
    rw [AppendLog.write] at hw
    split at hw <;> cases hw
    rfl
  subst hdata
  have hsize := h.size
  have hle := h.data
  rw [← (value_spec hv).2.2.1] at hsize
  refine ⟨⟨h.value, ?_, h.i64, fun hty b hb => ?_⟩, ?_⟩
  · show head.timestamps.length * head.elementSize ≤ (head.data.data ++ value).length
    rw [List.length_append]; omega
  · exact (List.mem_append.mp hb).elim (h.bool hty b) ((value_spec hv).2.2.2 hty b)
  · show (head.timestamps.length + 1) * head.elementSize ≤ (head.data.data ++ value).length
    rw [List.length_append, Nat.add_mul, hsize, Nat.one_mul, ← hsize]; omega

theorem fed_of_reachable (h : Reachable schema list) : ∀ n ∈ list, Fed schema n := by
  induction h with
  | create => exact nofun
  | @createNode list t value node _ hv hn ih =>
    intro n hmem
    rcases List.mem_cons.mp hmem with rfl | hmem
    · rw [TimeSeries.createNode] at hn
      split at hn <;> cases hn
      exact ⟨⟨value, hv, rfl⟩, by simp [TimeSeriesNode.new, TimeSeriesNode.timestamps, AppendLog.withSize], nofun,
        fun _ => nofun⟩
    · exact ih n hmem
  | @pushData head prev value data _ hv hw ih =>
    intro n hmem
    rcases List.mem_cons.mp hmem with rfl | hmem
    · exact (fed_write (ih head List.mem_cons_self) hv hw).1
    · exact ih n (List.mem_cons_of_mem _ hmem)
  | @push list t value _ ht hv ih =>
    intro n hmem
    cases list with
    | nil => cases hmem
    | cons head prev =>
      have hprev := fun n hn => ih n (List.mem_cons_of_mem _ hn)
      rw [TimeSeries.tryPushBuf] at hmem
      split at hmem
      · exact ih n hmem
      · exact ih n hmem
      · next data hw =>
        obtain ⟨hfed, hle⟩ := fed_write (ih head List.mem_cons_self) hv hw
        simp only at hmem
        split at hmem
        · rcases List.mem_cons.mp hmem with rfl | hmem
          · exact hfed
          · exact hprev n hmem
        · next index hi =>
          rcases List.mem_cons.mp hmem with rfl | hmem
          · rw [AppendLog.write] at hi
            split at hi <;> cases hi
            refine ⟨hfed.value, ?_, fun x hx => ?_, hfed.bool⟩
            · rw [TimeSeriesNode.timestamps, List.length_append, List.length_singleton]; exact hle
            · rcases List.mem_append.mp hx with hx | hx
              · exact hfed.i64 x hx
              · exact List.mem_singleton.mp hx ▸ ht
          · exact hprev n hmem
  | reopen _ hp ih => exact fun n hn => ih n (hp.subset hn)

/-- The series after a push is one that a component can have. -/
theorem reachable_pushBuf {value : Bytes} (h : Reachable schema list) (ht : IsI64 t) (hv : IsValue schema value) :
    Reachable schema (list.pushBuf t value).2 := by
  fun_induction TimeSeries.pushBuf list t value with
  | case1 list e list' he => exact (congrArg Prod.snd he) ▸ h.push ht hv
  | case2 list list' he => exact (congrArg Prod.snd he) ▸ h.push ht hv
  | case3 list list' he e hn => exact h
  | case4 list list' he node hn ih => exact ih (.createNode h hv hn)

/-- What `populate_table` writes of a component. -/
structure Sample (schema : ComponentSchema) (timestamp : Int) (value : Bytes) : Prop where
  i64 : IsI64 timestamp
  product : checkedProduct schema.dim = .ok schema.dim.prod
  lt : schema.dim.prod * schema.primType.size < 2 ^ 64
  length : value.length = schema.size
  bool : schema.primType = .bool → ∀ b ∈ value, b ≤ 1

theorem nearest_spec (hc : c.Valid) {r : TimestampRef} (h : nearest c t = some r) :
    ∃ value, r.data = some value ∧ Sample c.schema r.timestamp value := by
  rw [nearest] at h
  obtain ⟨start, _, h⟩ := Option.bind_eq_some_iff.mp h
  have hr := searchNodes_isSample (fun p hp => by cases hp) (fun n hn => hn) h
  have hfed := fed_of_reachable hc.series _ hr.mem
  obtain ⟨v, hv, _⟩ := hfed.value
  obtain ⟨hprod, hlt, _, _⟩ := value_spec hv
  have hle : (r.index + 1) * r.node.value.elementSize ≤ r.node.value.data.data.length :=
    (Nat.mul_le_mul_right _ hr.index_lt).trans hfed.data
  refine ⟨_, if_pos hle, hfed.i64 _ hr.timestamp_mem, hprod, hlt, ?_, fun hty b hb => ?_⟩
  · rw [length_slice hle, Nat.add_mul, Nat.one_mul, Nat.add_sub_cancel_left, hfed.size]
  · exact hfed.bool hty b (List.mem_of_mem_take (List.mem_of_mem_drop hb))

end Metor.Proof.Visitor
