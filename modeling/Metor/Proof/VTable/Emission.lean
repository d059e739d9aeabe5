import Metor.Proof.VTable.Visit

/-!
# Where a builder stores no position that it truncates

Both builders are emitters (`visit_eq`, `cpp_visit_eq`). A visit of an
expression has the operations of the nodes in `emitted` and their data, however
it casts positions (`visit_emits`); so while these are `Narrow` for the casts,
it is a visit without casts (`visit_plain`).
-/

namespace Metor.Proof.VTable

open Metor.Lib Metor.Impl.Proto

variable {m : Emitter} {b : VTableBuilder} {e x : OpBuilder} {E E' S : List OpBuilder} {U : OpBuilder → Prop}
  {dataFirst : Bool} {bound : Nat} {fields : List FieldBuilder}

/-! ## The builders as emitters -/

theorem visit_eq (e : OpBuilder) (b : VTableBuilder) : VTableBuilder.visit e b = Emitter.rust.visit e b := by
  induction e generalizing b with
  | data | table => rfl
  | component id c ih =>
    simp only [VTableBuilder.visit, Emitter.visit, ih]
    rfl
  | schema id ty dim arg ih₁ ih₂ ih₃ =>
    simp only [VTableBuilder.visit, Emitter.visit, ih₁, ih₂, ih₃]
    rfl
  | timestamp id source arg ih₁ ih₂ =>
    simp only [VTableBuilder.visit, Emitter.visit, ih₁, ih₂]
    rfl
  | ext id extId data arg ih₁ ih₂ =>
    simp only [VTableBuilder.visit, Emitter.visit, ih₁, ih₂]
    rfl

theorem cpp_visit_eq (e : OpBuilder) (b : VTableBuilder) : Impl.Cpp.visit e b = Emitter.cpp.visit e b := by
  induction e generalizing b with
  | data | table => rfl
  | component id c ih =>
    simp only [Impl.Cpp.visit, Emitter.visit, ih]
    rfl
  | schema id ty dim arg ih₁ ih₂ ih₃ =>
    simp only [Impl.Cpp.visit, Emitter.visit, ih₁, ih₂, ih₃]
    rfl
  | timestamp id source arg ih₁ ih₂ =>
    simp only [Impl.Cpp.visit, Emitter.visit, ih₁, ih₂]
    rfl
  | ext id extId data arg ih₁ ih₂ =>
    simp only [Impl.Cpp.visit, Emitter.visit, ih₁, ih₂]
    rfl

theorem build_eq (fields : List FieldBuilder) :
    fields.foldl VTableBuilder.pushField .empty = Emitter.rust.build fields := by
  have h : VTableBuilder.pushField = Emitter.rust.pushField := by
    funext b f
    simp only [VTableBuilder.pushField, Emitter.pushField, visit_eq]
    rfl
  rw [Emitter.build, h]

theorem cpp_build_eq (fields : List FieldBuilder) : fields.foldl Impl.Cpp.pushField .empty = Emitter.cpp.build fields := by
  have h : Impl.Cpp.pushField = Emitter.cpp.pushField := by
    funext b f
    simp only [Impl.Cpp.pushField, Emitter.pushField, cpp_visit_eq]
    rfl
  rw [Emitter.build, h]

/-! ## The order of the nodes -/

theorem mem_order : x ∈ e.order dataFirst ↔ x ∈ e.nodes := by
  induction e with
  | data | table => rfl
  | component id c ih => simp only [OpBuilder.order, OpBuilder.nodes, List.mem_append, List.mem_cons, ih]; simp [or_comm]
  | schema id ty dim arg ih₁ ih₂ ih₃ =>
    simp only [OpBuilder.order, OpBuilder.nodes, List.mem_append, List.mem_cons, ih₁, ih₂, ih₃]
    simp [or_comm]
  | timestamp id source arg ih₁ ih₂ =>
    simp only [OpBuilder.order, OpBuilder.nodes, List.mem_append, List.mem_cons, ih₁, ih₂]
    simp [or_comm]
  | ext id extId data arg ih₁ ih₂ =>
    cases dataFirst <;>
      simp only [OpBuilder.order, OpBuilder.nodes, List.mem_append, List.mem_cons, ih₁, ih₂, if_true, Bool.false_eq_true,
        if_false] <;> grind

theorem nodes_trans (h : x ∈ e.nodes) : ∀ y ∈ x.nodes, y ∈ e.nodes := by
  induction e with
  | data | table => rw [List.mem_singleton.mp h]; exact fun _ hy => hy
  | component id c ih =>
    rcases List.mem_cons.mp h with rfl | h
    · exact fun _ hy => hy
    · exact fun y hy => List.mem_cons_of_mem _ (ih h y hy)
  | schema id ty dim arg ih₁ ih₂ ih₃ =>
    intro y hy
    simp only [OpBuilder.nodes, List.mem_cons, List.mem_append] at h ⊢
    rcases h with rfl | (h | h) | h
    · simpa only [OpBuilder.nodes, List.mem_cons, List.mem_append] using hy
    · exact .inr (.inl (.inl (ih₁ h y hy)))
    · exact .inr (.inl (.inr (ih₂ h y hy)))
    · exact .inr (.inr (ih₃ h y hy))
  | timestamp id source arg ih₁ ih₂ =>
    intro y hy
    simp only [OpBuilder.nodes, List.mem_cons, List.mem_append] at h ⊢
    rcases h with rfl | h | h
    · simpa [OpBuilder.nodes] using hy
    · exact .inr (.inl (ih₁ h y hy))
    · exact .inr (.inr (ih₂ h y hy))
  | ext id extId data arg ih₁ ih₂ =>
    intro y hy
    simp only [OpBuilder.nodes, List.mem_cons, List.mem_append] at h ⊢
    rcases h with rfl | h | h
    · simpa [OpBuilder.nodes] using hy
    · exact .inr (.inl (ih₂ h y hy))
    · exact .inr (.inr (ih₁ h y hy))

/-- The nodes below an expression, in their order. -/
theorem exists_order (e : OpBuilder) (dataFirst : Bool) : ∃ S, e.order dataFirst = S ++ [e] ∧ e ∉ S := by
  cases e with
  | data | table => exact ⟨[], rfl, List.not_mem_nil⟩
  | component id c => exact ⟨_, rfl, fun hx => not_mem_below rfl (mem_order.mp hx)⟩
  | schema id ty dim arg =>
    refine ⟨_, rfl, fun hx => not_mem_below (e := .schema id ty dim arg) rfl ?_⟩
    simpa only [List.mem_append, mem_order] using hx
  | timestamp id source arg =>
    refine ⟨_, rfl, fun hx => not_mem_below (e := .timestamp id source arg) rfl ?_⟩
    simpa only [List.mem_append, mem_order] using hx
  | ext id extId data arg =>
    refine ⟨_, rfl, fun hx => not_mem_below (e := .ext id extId data arg) rfl ?_⟩
    cases dataFirst
    · simpa only [Bool.false_eq_true, if_false, List.mem_append, mem_order] using hx
    · simpa only [if_true, List.mem_append, mem_order, or_comm] using hx

/-! ## The nodes that are emitted -/

theorem emit_prefix_self (E : List OpBuilder) (e : OpBuilder) : E <+: emit E e := by
  rw [emit]
  split
  · exact List.prefix_rfl
  · exact List.prefix_append _ _

theorem prefix_foldl_emit (S E : List OpBuilder) : E <+: S.foldl emit E := by
  induction S generalizing E with
  | nil => exact List.prefix_rfl
  | cons e S ih => exact (emit_prefix_self E e).trans (ih _)

theorem mem_foldl_emit (h : x ∈ S.foldl emit E) : x ∈ E ∨ x ∈ S := by
  induction S generalizing E with
  | nil => exact .inl h
  | cons e S ih =>
    rcases ih h with h | h
    · rw [emit] at h
      split at h
      · exact .inl h
      · rcases List.mem_append.mp h with h | h
        · exact .inl h
        · exact .inr (List.mem_singleton.mp h ▸ List.mem_cons_self)
    · exact .inr (List.mem_cons_of_mem _ h)

theorem foldl_emit_of_subset (h : ∀ x ∈ S, x ∈ E) : S.foldl emit E = E := by
  induction S with
  | nil => rfl
  | cons e S ih =>
    rw [List.foldl_cons, emit, if_pos (List.mem_map_of_mem (h e List.mem_cons_self))]
    exact ih fun x hx => h x (List.mem_cons_of_mem _ hx)

/-- Nodes of `U`, with the nodes below them. -/
structure Closed (U : OpBuilder → Prop) (E : List OpBuilder) : Prop where
  mem : ∀ x ∈ E, U x
  nodes : ∀ x ∈ E, ∀ y ∈ x.nodes, y ∈ E

section
variable (hinj : ∀ x, U x → ∀ y, U y → x.addr = y.addr → x = y)

include hinj in
theorem mem_of_addr (hE : ∀ x ∈ E, U x) (he : U e) (h : e.addr ∈ E.map OpBuilder.addr) : e ∈ E := by
  obtain ⟨x, hx, hxe⟩ := List.mem_map.mp h
  exact hinj x (hE x hx) e he hxe ▸ hx

include hinj in
theorem subset_foldl_emit (hE : ∀ x ∈ E, U x) (hS : ∀ x ∈ S, U x) : ∀ x ∈ S, x ∈ S.foldl emit E := by
  induction S generalizing E with
  | nil => exact nofun
  | cons e S ih =>
    have he : e ∈ emit E e := by
      rw [emit]
      split
      · next h => exact mem_of_addr hinj hE (hS e List.mem_cons_self) h
      · exact List.mem_append_right _ List.mem_cons_self
    have hemit : ∀ x ∈ emit E e, U x := by
      intro x hx
      rcases mem_foldl_emit (S := [e]) hx with hx | hx
      · exact hE x hx
      · exact hS x (List.mem_singleton.mp hx ▸ List.mem_cons_self)
    intro x hx
    rcases List.mem_cons.mp hx with rfl | hx
    · exact (prefix_foldl_emit S _).subset he
    · exact ih hemit (fun x hx => hS x (List.mem_cons_of_mem _ hx)) x hx

include hinj in
theorem Closed.visit (h : Closed U E) (he : ∀ x ∈ e.nodes, U x) (dataFirst : Bool) :
    Closed U ((e.order dataFirst).foldl emit E) where
  mem x hx := (mem_foldl_emit hx).elim (h.mem x) fun hx => he x (mem_order.mp hx)
  nodes x hx y hy := by
    rcases mem_foldl_emit hx with hx | hx
    · exact (prefix_foldl_emit _ _).subset (h.nodes x hx y hy)
    · exact subset_foldl_emit hinj h.mem (fun x hx => he x (mem_order.mp hx)) y
        (mem_order.mpr (nodes_trans (mem_order.mp hx) y hy))

include hinj in
/-- An expression whose node is there already. -/
theorem foldl_emit_known (h : Closed U E) (he : U e) (hk : e.addr ∈ E.map OpBuilder.addr) :
    (e.order dataFirst).foldl emit E = E :=
  foldl_emit_of_subset fun x hx => h.nodes e (mem_of_addr hinj h.mem he hk) x (mem_order.mp hx)

include hinj in
/-- A node that is new comes after the nodes below it. -/
theorem not_mem_foldl_emit (h : Closed U E) (he : ∀ x ∈ e.nodes, U x) (hk : e.addr ∉ E.map OpBuilder.addr)
    (hS : e.order dataFirst = S ++ [e]) : e.addr ∉ (S.foldl emit E).map OpBuilder.addr := by
  intro hmem
  have hU : ∀ x ∈ S, U x := fun x hx => he x (mem_order.mp (hS ▸ List.mem_append_left _ hx))
  have hx := mem_of_addr hinj (fun x hx => (mem_foldl_emit hx).elim (h.mem x) (hU x)) (he e (self_mem_nodes e)) hmem
  rcases mem_foldl_emit hx with hx | hx
  · exact hk (List.mem_map_of_mem hx)
  · obtain ⟨S', hS', hn⟩ := exists_order e dataFirst
    obtain ⟨rfl, -⟩ := List.append_inj' (hS.symm.trans hS') rfl
    exact hn hx

include hinj in
/-- An expression whose node is new. -/
theorem foldl_emit_new (h : Closed U E) (he : ∀ x ∈ e.nodes, U x) (hk : e.addr ∉ E.map OpBuilder.addr)
    (hS : e.order dataFirst = S ++ [e]) : (e.order dataFirst).foldl emit E = S.foldl emit E ++ [e] := by
  rw [hS, List.foldl_append, List.foldl_cons, List.foldl_nil, emit, if_neg (not_mem_foldl_emit hinj h he hk hS)]

end

/-! ## What a builder has after them -/

/-- The builder has an operation for each of these nodes, and their data. -/
structure Emits (b : VTableBuilder) (E : List OpBuilder) : Prop where
  known : ∀ a, (b.visited.lookup a).isSome ↔ a ∈ E.map OpBuilder.addr
  ops : b.ops.length = E.length
  data : b.data.length = E.foldl OpBuilder.dataEnd 0

theorem emits_empty : Emits .empty [] := ⟨fun a => by simp [VTableBuilder.empty], rfl, rfl⟩

theorem length_pushData (m : Emitter) (b : VTableBuilder) (id align : Nat) (data : Bytes) :
    (m.pushData b align data).1.data.length = (OpBuilder.data id align data).dataEnd b.data.length := by
  simp only [Emitter.pushData, OpBuilder.dataEnd, OpBuilder.dataStart, List.length_append, List.length_replicate]

section
variable (hinj : ∀ x, U x → ∀ y, U y → x.addr = y.addr → x = y) (hc : Closed U E) (he : ∀ x ∈ e.nodes, U x)

include hinj hc he in
/-- A new operation, after those of the nodes `S` below. -/
theorem memo_emits (hb : Emits b E) (hS : e.order dataFirst = S ++ [e]) {f : VTableBuilder → VTableBuilder × Op}
    (hknown : ∀ a, ((f b).1.visited.lookup a).isSome ↔ a ∈ (S.foldl emit E).map OpBuilder.addr)
    (hops : (f b).1.ops.length = (S.foldl emit E).length)
    (hdata : (f b).1.data.length = e.dataEnd ((S.foldl emit E).foldl OpBuilder.dataEnd 0)) :
    Emits (m.memo b e.addr f).1 ((e.order dataFirst).foldl emit E) := by
  rw [Emitter.memo]
  cases hl : b.visited.lookup e.addr with
  | some r =>
    rw [foldl_emit_known hinj hc (he e (self_mem_nodes e)) ((hb.known e.addr).mp (by rw [hl]; rfl))]
    exact hb
  | none =>
    have hk : e.addr ∉ E.map OpBuilder.addr := fun h => by simpa [hl] using (hb.known e.addr).mpr h
    rw [foldl_emit_new hinj hc he hk hS]
    refine ⟨fun a => ?_, ?_, ?_⟩
    · rw [List.map_append, List.mem_append, ← hknown a, List.lookup_cons]
      by_cases ha : a = e.addr
      · simp [ha]
      · simp [ha, beq_false_of_ne ha]
    · simp only [List.length_append, List.length_singleton, hops]
    · rw [List.foldl_append, List.foldl_cons, List.foldl_nil]
      exact hdata

include hinj hc he in
theorem visit_emits (hb : Emits b E) : Emits (m.visit e b).1 ((e.order m.dataFirst).foldl emit E) := by
  induction e generalizing b E with
  | data id align data =>
    refine memo_emits (S := []) hinj hc he hb rfl hb.known hb.ops ?_
    rw [length_pushData m b id, hb.data]
    rfl
  | table id offset len => exact memo_emits (S := []) hinj hc he hb rfl hb.known hb.ops hb.data
  | component id c ih =>
    have h := ih hc (fun x hx => he x (List.mem_cons_of_mem _ hx)) hb
    exact memo_emits hinj hc he hb rfl h.known h.ops h.data
  | schema id ty dim arg ih₁ ih₂ ih₃ =>
    have hty : ∀ x ∈ ty.nodes, U x := fun x hx => he x (by simp [OpBuilder.nodes, hx])
    have hdim : ∀ x ∈ dim.nodes, U x := fun x hx => he x (by simp [OpBuilder.nodes, hx])
    have h₁ := ih₁ hc hty hb
    have h₂ := ih₂ (hc.visit hinj hty _) hdim h₁
    have h := ih₃ ((hc.visit hinj hty _).visit hinj hdim _) (fun x hx => he x (by simp [OpBuilder.nodes, hx])) h₂
    rw [← List.foldl_append, ← List.foldl_append, ← List.append_assoc] at h
    exact memo_emits hinj hc he hb rfl h.known h.ops h.data
  | timestamp id source arg ih₁ ih₂ =>
    have hsource : ∀ x ∈ source.nodes, U x := fun x hx => he x (by simp [OpBuilder.nodes, hx])
    have h := ih₂ (hc.visit hinj hsource _) (fun x hx => he x (by simp [OpBuilder.nodes, hx])) (ih₁ hc hsource hb)
    rw [← List.foldl_append] at h
    exact memo_emits hinj hc he hb rfl h.known h.ops h.data
  | ext id extId data arg ih₁ ih₂ =>
    have hdata : ∀ x ∈ data.nodes, U x := fun x hx => he x (by simp [OpBuilder.nodes, hx])
    have harg : ∀ x ∈ arg.nodes, U x := fun x hx => he x (by simp [OpBuilder.nodes, hx])
    cases hd : m.dataFirst with
    | true =>
      have h := ih₂ (hc.visit hinj hdata _) harg (ih₁ hc hdata hb)
      rw [← List.foldl_append, hd] at h
      refine memo_emits hinj hc he hb rfl ?_ ?_ ?_ <;> simp only [hd, if_true]
      exacts [h.known, h.ops, h.data]
    | false =>
      have h := ih₁ (hc.visit hinj harg _) hdata (ih₂ hc harg hb)
      rw [← List.foldl_append, hd] at h
      refine memo_emits hinj hc he hb rfl ?_ ?_ ?_ <;> simp only [hd, Bool.false_eq_true, if_false]
      exacts [h.known, h.ops, h.data]

end

/-! ## No truncation -/

theorem narrow_of_le (h : Narrow bound E') (hE : E <+: E') : Narrow bound E where
  length_le := hE.length_le.trans h.length_le
  data E₁ a align data E₂ e := by
    obtain ⟨X, rfl⟩ := hE
    exact h.data E₁ a align data (E₂ ++ X) (by rw [e, List.append_assoc, List.cons_append])

theorem dataEnd_le (n : Nat) (e : OpBuilder) : n ≤ e.dataEnd n := by
  cases e with
  | data a align data => exact (Nat.le_add_right _ _).trans (Nat.le_add_right _ _)
  | _ => exact le_rfl

theorem le_foldl_dataEnd (E : List OpBuilder) (n : Nat) : n ≤ E.foldl OpBuilder.dataEnd n := by
  induction E generalizing n with
  | nil => exact le_rfl
  | cons e E ih => exact (dataEnd_le n e).trans (ih _)

/-- It is enough that all the data is below the bound. -/
theorem narrow_of_lt (hl : E.length ≤ bound) (hd : E.foldl OpBuilder.dataEnd 0 < bound) : Narrow bound E := by
  refine ⟨hl, fun E₁ a align data E₂ e => ?_⟩
  have h := le_foldl_dataEnd E₂ ((OpBuilder.data a align data).dataEnd (E₁.foldl OpBuilder.dataEnd 0))
  rw [e, List.foldl_append, List.foldl_cons] at hd
  simp only [OpBuilder.dataEnd] at h hd
  omega

/-- The casts of the builder change no position below the bound. -/
def Exact (m : Emitter) (bound : Nat) : Prop := ∀ n < bound, m.cast n = n ∧ m.recast n = n

theorem asU32_of_lt {n : Nat} (h : n < 2 ^ 32) : asU32 n = n := Nat.mod_eq_of_lt h

theorem exact_rust : Exact .rust (2 ^ 32) := fun _ h => ⟨asU32_of_lt h, rfl⟩

theorem exact_cpp : Exact .cpp (2 ^ 16) := fun _ h => ⟨Nat.mod_eq_of_lt h, Nat.mod_eq_of_lt h⟩

/-- What holds between the visits. -/
structure Ready (U : OpBuilder → Prop) (b : VTableBuilder) (E : List OpBuilder) : Prop where
  inv : Inv U b
  closed : Closed U E
  emits : Emits b E

section
variable (hinj : ∀ x, U x → ∀ y, U y → x.addr = y.addr → x = y)

include hinj in
theorem Ready.visit (h : Ready U b E) (he : ∀ x ∈ e.nodes, U x) (dataFirst : Bool) :
    Ready U ((Emitter.plain dataFirst).visit e b).1 ((e.order dataFirst).foldl emit E) where
  inv := (visit_spec hinj he h.inv dataFirst).1.inv
  closed := h.closed.visit hinj he dataFirst
  emits := visit_emits hinj h.closed he h.emits

include hinj in
/-- A reference that a visit returns. -/
theorem visit_lt (h : Ready U b E) (he : ∀ x ∈ e.nodes, U x) (dataFirst : Bool) :
    ((Emitter.plain dataFirst).visit e b).2 < ((e.order dataFirst).foldl emit E).length := by
  obtain ⟨hv, hat⟩ := visit_spec hinj he h.inv dataFirst
  rw [← (h.visit hinj he dataFirst).emits.ops]
  exact hv.inv.lt (he e (self_mem_nodes e)) hat

variable (hm : Exact m bound)

include hinj hm in
/-- A node that is new gets the same operation without casts. -/
theorem memo_plain (hb : Ready U b E) (he : ∀ x ∈ e.nodes, U x) (hS : e.order m.dataFirst = S ++ [e])
    (hn : Narrow bound ((e.order m.dataFirst).foldl emit E)) {f f' : VTableBuilder → VTableBuilder × Op}
    (h : Narrow bound (S.foldl emit E ++ [e]) → f b = f' b ∧ (f' b).1.ops.length = (S.foldl emit E).length) :
    m.memo b e.addr f = (Emitter.plain m.dataFirst).memo b e.addr f' := by
  rw [Emitter.memo, Emitter.memo]
  cases hl : b.visited.lookup e.addr with
  | some r => rfl
  | none =>
    have hk : e.addr ∉ E.map OpBuilder.addr := fun h => by simpa [hl] using (hb.emits.known e.addr).mpr h
    rw [foldl_emit_new hinj hb.closed he hk hS] at hn
    obtain ⟨hf, hlen⟩ := h hn
    have hlt := hn.length_le
    rw [List.length_append, List.length_singleton] at hlt
    have hcast : m.cast (f' b).1.ops.length = (f' b).1.ops.length := (hm _ (by omega)).1
    simp only [hf, hcast]
    rfl

include hinj hm in
/-- An operand of a node that is new. -/
theorem operand_plain (hb : Ready U b E) (he : ∀ x ∈ e.nodes, U x) (hn : Narrow bound (E' ++ [x]))
    (hE : (e.order m.dataFirst).foldl emit E <+: E')
    (ih : Narrow bound ((e.order m.dataFirst).foldl emit E) → m.visit e b = (Emitter.plain m.dataFirst).visit e b) :
    m.visit e b = (Emitter.plain m.dataFirst).visit e b ∧
      m.recast ((Emitter.plain m.dataFirst).visit e b).2 = ((Emitter.plain m.dataFirst).visit e b).2 := by
  have hle : E'.length ≤ bound := (List.prefix_append E' [x]).length_le.trans hn.length_le
  have hr := visit_lt hinj hb he m.dataFirst
  exact ⟨ih (narrow_of_le hn (hE.trans (List.prefix_append _ _))), (hm _ (hr.trans_le (hE.length_le.trans hle))).2⟩

include hinj hm in
/-- While all positions are below the bound a visit casts nothing. -/
theorem visit_plain (hb : Ready U b E) (he : ∀ x ∈ e.nodes, U x)
    (hn : Narrow bound ((e.order m.dataFirst).foldl emit E)) :
    m.visit e b = (Emitter.plain m.dataFirst).visit e b := by
  induction e generalizing b E with
  | data id align data =>
    refine memo_plain (S := []) hinj hm hb he rfl hn fun hn => ⟨?_, hb.emits.ops⟩
    obtain ⟨hs, hl⟩ := hn.data E id align data [] rfl
    rw [← hb.emits.data, OpBuilder.dataStart] at hs
    simp only [Emitter.pushData, Emitter.plain, List.length_append, List.length_replicate, id_eq]
    rw [(hm _ hl).1, (hm _ hs).1]
  | table id offset len => exact memo_plain (S := []) hinj hm hb he rfl hn fun _ => ⟨rfl, hb.emits.ops⟩
  | component id c ih =>
    have hc : ∀ x ∈ c.nodes, U x := fun x hx => he x (List.mem_cons_of_mem _ hx)
    refine memo_plain hinj hm hb he rfl hn fun hn => ⟨?_, (hb.visit hinj hc _).emits.ops⟩
    obtain ⟨h, hr⟩ := operand_plain hinj hm hb hc hn List.prefix_rfl (ih hb hc)
    show ((m.visit c b).1, Op.component (m.recast (m.visit c b).2)) = _
    rw [h, hr]
    rfl
  | schema id ty dim arg ih₁ ih₂ ih₃ =>
    have hty : ∀ x ∈ ty.nodes, U x := fun x hx => he x (by simp [OpBuilder.nodes, hx])
    have hdim : ∀ x ∈ dim.nodes, U x := fun x hx => he x (by simp [OpBuilder.nodes, hx])
    have harg : ∀ x ∈ arg.nodes, U x := fun x hx => he x (by simp [OpBuilder.nodes, hx])
    have hb₁ := hb.visit hinj hty m.dataFirst
    have hb₂ := hb₁.visit hinj hdim m.dataFirst
    refine memo_plain hinj hm hb he rfl hn fun hn => ?_
    rw [List.foldl_append, List.foldl_append] at hn ⊢
    refine ⟨?_, (hb₂.visit hinj harg m.dataFirst).emits.ops⟩
    obtain ⟨h₁, r₁⟩ := operand_plain hinj hm hb hty hn ((prefix_foldl_emit _ _).trans (prefix_foldl_emit _ _)) (ih₁ hb hty)
    obtain ⟨h₂, r₂⟩ := operand_plain hinj hm hb₁ hdim hn (prefix_foldl_emit _ _) (ih₂ hb₁ hdim)
    obtain ⟨h₃, r₃⟩ := operand_plain hinj hm hb₂ harg hn List.prefix_rfl (ih₃ hb₂ harg)
    show ((m.visit arg (m.visit dim (m.visit ty b).1).1).1, Op.schema (m.recast (m.visit ty b).2)
      (m.recast (m.visit dim (m.visit ty b).1).2) (m.recast (m.visit arg (m.visit dim (m.visit ty b).1).1).2)) = _
    rw [h₁, h₂, h₃, r₁, r₂, r₃]
    rfl
  | timestamp id source arg ih₁ ih₂ =>
    have hsource : ∀ x ∈ source.nodes, U x := fun x hx => he x (by simp [OpBuilder.nodes, hx])
    have harg : ∀ x ∈ arg.nodes, U x := fun x hx => he x (by simp [OpBuilder.nodes, hx])
    have hb₁ := hb.visit hinj hsource m.dataFirst
    refine memo_plain hinj hm hb he rfl hn fun hn => ?_
    rw [List.foldl_append] at hn ⊢
    refine ⟨?_, (hb₁.visit hinj harg m.dataFirst).emits.ops⟩
    obtain ⟨h₁, r₁⟩ := operand_plain hinj hm hb hsource hn (prefix_foldl_emit _ _) (ih₁ hb hsource)
    obtain ⟨h₂, r₂⟩ := operand_plain hinj hm hb₁ harg hn List.prefix_rfl (ih₂ hb₁ harg)
    show ((m.visit arg (m.visit source b).1).1, Op.timestamp (m.recast (m.visit source b).2)
      (m.recast (m.visit arg (m.visit source b).1).2)) = _
    rw [h₁, h₂, r₁, r₂]
    rfl
  | ext id extId data arg ih₁ ih₂ =>
    have hdata : ∀ x ∈ data.nodes, U x := fun x hx => he x (by simp [OpBuilder.nodes, hx])
    have harg : ∀ x ∈ arg.nodes, U x := fun x hx => he x (by simp [OpBuilder.nodes, hx])
    refine memo_plain hinj hm hb he rfl hn fun hn => ?_
    cases hd : m.dataFirst with
    | true =>
      have hb₁ := hb.visit hinj hdata m.dataFirst
      have hb₂ := hb₁.visit hinj harg m.dataFirst
      simp only [hd, if_true, List.foldl_append] at hn hb₁ hb₂ ⊢
      refine ⟨?_, hb₂.emits.ops⟩
      obtain ⟨h₁, r₁⟩ := operand_plain hinj hm hb hdata hn (hd ▸ prefix_foldl_emit _ _) (ih₁ hb hdata)
      obtain ⟨h₂, r₂⟩ := operand_plain hinj hm hb₁ harg hn (hd ▸ List.prefix_rfl) (ih₂ hb₁ harg)
      rw [hd] at h₁ h₂ r₁ r₂
      show ((m.visit arg (m.visit data b).1).1, Op.ext (m.recast (m.visit arg (m.visit data b).1).2) extId
        (m.recast (m.visit data b).2)) = _
      rw [h₁, h₂, r₁, r₂]
      rfl
    | false =>
      have hb₁ := hb.visit hinj harg m.dataFirst
      have hb₂ := hb₁.visit hinj hdata m.dataFirst
      simp only [hd, Bool.false_eq_true, if_false, List.foldl_append] at hn hb₁ hb₂ ⊢
      refine ⟨?_, hb₂.emits.ops⟩
      obtain ⟨h₁, r₁⟩ := operand_plain hinj hm hb harg hn (hd ▸ prefix_foldl_emit _ _) (ih₂ hb harg)
      obtain ⟨h₂, r₂⟩ := operand_plain hinj hm hb₁ hdata hn (hd ▸ List.prefix_rfl) (ih₁ hb₁ hdata)
      rw [hd] at h₁ h₂ r₁ r₂
      show ((m.visit data (m.visit arg b).1).1, Op.ext (m.recast (m.visit arg b).2) extId
        (m.recast (m.visit data (m.visit arg b).1).2)) = _
      rw [h₁, h₂, r₁, r₂]
      rfl

end

/-! ## The fields -/

theorem inv_empty (U : OpBuilder → Prop) : Inv U .empty := ⟨nofun, nofun⟩

theorem ready_empty (U : OpBuilder → Prop) : Ready U .empty [] :=
  ⟨inv_empty U, ⟨fun _ h => absurd h List.not_mem_nil, fun _ h => absurd h List.not_mem_nil⟩, emits_empty⟩

section
variable {fs : List FieldBuilder} (hinj : ∀ x, U x → ∀ y, U y → x.addr = y.addr → x = y)

include hinj in
theorem foldl_emits (hU : ∀ x ∈ nodesOf fs, U x) (hc : Closed U E) (hb : Emits b E) :
    Emits (fs.foldl m.pushField b) ((fs.flatMap fun f => f.arg.order m.dataFirst).foldl emit E) := by
  induction fs generalizing b E with
  | nil => exact hb
  | cons f fs ih =>
    have hf : ∀ x ∈ f.arg.nodes, U x := fun x hx => hU x (List.mem_append_left _ hx)
    have h := visit_emits (m := m) hinj hc hf hb
    rw [List.flatMap_cons, List.foldl_append]
    exact ih (fun x hx => hU x (List.mem_append_right _ hx)) (hc.visit hinj hf _) ⟨h.known, h.ops, h.data⟩

include hinj in
theorem foldl_plain (hm : Exact m bound) (hU : ∀ x ∈ nodesOf fs, U x) (hb : Ready U b E)
    (hn : Narrow bound ((fs.flatMap fun f => f.arg.order m.dataFirst).foldl emit E)) :
    fs.foldl m.pushField b = fs.foldl (Emitter.plain m.dataFirst).pushField b := by
  induction fs generalizing b E with
  | nil => rfl
  | cons f fs ih =>
    have hf : ∀ x ∈ f.arg.nodes, U x := fun x hx => hU x (List.mem_append_left _ hx)
    rw [List.flatMap_cons, List.foldl_append] at hn
    have hn' := narrow_of_le hn (prefix_foldl_emit _ _)
    have hv := visit_plain hinj hm hb hf hn'
    have h := hb.visit hinj hf m.dataFirst
    have hr : m.recast ((Emitter.plain m.dataFirst).visit f.arg b).2 = ((Emitter.plain m.dataFirst).visit f.arg b).2 :=
      (hm _ ((visit_lt hinj hb hf m.dataFirst).trans_le hn'.length_le)).2
    have hpush : m.pushField b f = (Emitter.plain m.dataFirst).pushField b f := by
      show (({ (m.visit f.arg b).1 with
        fields := (m.visit f.arg b).1.fields ++ [⟨f.offset, f.len, m.recast (m.visit f.arg b).2⟩] } : VTableBuilder)) = _
      rw [hv, hr]
      rfl
    rw [List.foldl_cons, List.foldl_cons, hpush]
    exact ih (fun x hx => hU x (List.mem_append_right _ hx))
      ⟨⟨h.inv.refs, h.inv.known⟩, h.closed, h.emits.known, h.emits.ops, h.emits.data⟩ hn

end

theorem build_emits (hd : Dag fields) (m : Emitter) : Emits (m.build fields) (emitted m.dataFirst fields) :=
  foldl_emits (U := (· ∈ nodesOf fields)) (fun x hx y hy => hd.inj x hx y hy) (fun _ hx => hx)
    (ready_empty _).closed emits_empty

theorem mem_emitted (hd : Dag fields) (hx : x ∈ nodesOf fields) (dataFirst : Bool) : x ∈ emitted dataFirst fields := by
  obtain ⟨f, hf, hx⟩ := List.mem_flatMap.mp hx
  refine subset_foldl_emit (U := (· ∈ nodesOf fields)) (fun x hx y hy => hd.inj x hx y hy) (ready_empty _).closed.mem
    (fun y hy => ?_) x (List.mem_flatMap.mpr ⟨f, hf, mem_order.mpr hx⟩)
  obtain ⟨g, hg, hy⟩ := List.mem_flatMap.mp hy
  exact List.mem_flatMap.mpr ⟨g, hg, mem_order.mp hy⟩

/-- A builder that truncates no position builds as one without casts. -/
theorem build_plain (hd : Dag fields) (hm : Exact m bound) (hn : Narrow bound (emitted m.dataFirst fields)) :
    m.build fields = (Emitter.plain m.dataFirst).build fields :=
  foldl_plain (U := (· ∈ nodesOf fields)) (fun x hx y hy => hd.inj x hx y hy) hm (fun _ hx => hx) (ready_empty _) hn

theorem vtable_plain (hd : Dag fields) (hn : Narrow (2 ^ 32) (emitted false fields)) (addr : Nat) :
    Impl.Proto.vtable fields addr = (Emitter.plain false).vtable fields addr := by
  rw [Impl.Proto.vtable, build_eq, build_plain hd exact_rust hn]
  rfl

theorem cpp_vtable_plain (hd : Dag fields) (hn : Narrow (2 ^ 16) (emitted true fields)) (addr : Nat) :
    Impl.Cpp.vtable fields addr = (Emitter.plain true).vtable fields addr := by
  rw [Impl.Cpp.vtable, cpp_build_eq, build_plain hd exact_cpp hn]
  rfl

/-- What fits is narrow. -/
theorem narrow_of_fits {addr : Nat} (hd : Dag fields)
    (hf : Fits (Impl.Proto.vtable fields addr).ops (Impl.Proto.vtable fields addr).data.bytes) :
    Narrow (2 ^ 32) (emitted false fields) := by
  have h := build_emits hd .rust
  simp only [Impl.Proto.vtable, build_eq] at hf
  exact narrow_of_lt (h.ops ▸ hf.ops_le) (h.data ▸ hf.data_lt)

end Metor.Proof.VTable
