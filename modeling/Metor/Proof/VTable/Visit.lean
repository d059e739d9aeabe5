import Metor.Spec.VTable

/-!
# What a visit emits

A builder without casts only appends to the operations and the data, and keeps
one operation for each node visited, which encodes the node and refers to
earlier operations only (`visit_spec`); the nodes are those of a list of
fields that share by address.
-/

namespace Metor.Proof.VTable

open Metor.Lib Metor.Impl.Proto

variable {b b₁ b₂ b₃ : VTableBuilder} {e : OpBuilder} {op : Op} {S S' : List OpBuilder} {U : OpBuilder → Prop}
  {dataFirst : Bool}

/-! ## Growth -/

/-- What is appended stays. -/
structure Grows (b b' : VTableBuilder) : Prop where
  ops : b.ops <+: b'.ops
  data : b.data <+: b'.data

theorem Grows.rfl : Grows b b := ⟨List.prefix_rfl, List.prefix_rfl⟩

theorem Grows.trans (h : Grows b₁ b₂) (h' : Grows b₂ b₃) : Grows b₁ b₃ :=
  ⟨h.ops.trans h'.ops, h.data.trans h'.data⟩

/-! ## The invariant -/

/-- The builder knows a node by its address. -/
def At (b : VTableBuilder) (a : Nat) (r : OpRef) : Prop := b.visited.lookup a = some r

/-- What has been emitted: references go down, and each node visited has its operation. -/
structure Inv (U : OpBuilder → Prop) (b : VTableBuilder) : Prop where
  refs : ∀ (i : Nat) (op : Op), b.ops[i]? = some op → ∀ r ∈ op.refs, r < i
  known : ∀ e, U e → ∀ r, At b e.addr r → ∃ op, b.ops[r]? = some op ∧ e.Encodes b.data (At b) op

theorem Inv.lt (h : Inv U b) (hU : U e) {r : OpRef} (hr : At b e.addr r) : r < b.ops.length := by
  obtain ⟨op, hop, _⟩ := h.known e hU r hr
  exact (List.getElem?_eq_some_iff.mp hop).1

/-- `b'` is `b` after a visit of some of the nodes in `S`. -/
structure Visits (U : OpBuilder → Prop) (S : List OpBuilder) (b b' : VTableBuilder) : Prop extends Grows b b' where
  keeps : ∀ a r, At b a r → At b' a r
  fresh : ∀ a r, At b' a r → At b a r ∨ ∃ x ∈ S, x.addr = a
  inv : Inv U b'

theorem Visits.rfl (h : Inv U b) : Visits U S b b := ⟨.rfl, fun _ _ h => h, fun _ _ => .inl, h⟩

theorem Visits.trans (h : Visits U S b₁ b₂) (h' : Visits U S' b₂ b₃) : Visits U (S ++ S') b₁ b₃ where
  toGrows := h.toGrows.trans h'.toGrows
  keeps a r hr := h'.keeps a r (h.keeps a r hr)
  fresh a r hr := by
    rcases h'.fresh a r hr with hr | ⟨x, hx, e⟩
    · exact (h.fresh a r hr).imp_right fun ⟨x, hx, e⟩ => ⟨x, List.mem_append_left _ hx, e⟩
    · exact .inr ⟨x, List.mem_append_right _ hx, e⟩
  inv := h'.inv

/-- An encoding survives more data and more nodes. -/
theorem encodes_mono {d d' : Bytes} {At At' : Nat → OpRef → Prop} (hd : d <+: d') (ha : ∀ a r, At a r → At' a r)
    (h : e.Encodes d At op) : e.Encodes d' At' op := by
  unfold OpBuilder.Encodes at h ⊢
  split at h <;> try exact h.elim
  · obtain ⟨hl, hle, hs⟩ := h
    obtain ⟨rest, rfl⟩ := hd
    refine ⟨hl, by rw [List.length_append]; omega, ?_⟩
    rw [slice, List.take_append_of_le_length hle]
    exact hs
  · exact h
  · exact ha _ _ h
  · exact ⟨ha _ _ h.1, ha _ _ h.2.1, ha _ _ h.2.2⟩
  · exact ⟨ha _ _ h.1, ha _ _ h.2⟩
  · exact ⟨h.1, ha _ _ h.2.1, ha _ _ h.2.2⟩

/-! ## Nodes -/

theorem self_mem_nodes (e : OpBuilder) : e ∈ e.nodes := by
  cases e <;> exact List.mem_cons_self

theorem nodes_length_le {x : OpBuilder} (h : x ∈ e.nodes) : x.nodes.length ≤ e.nodes.length := by
  induction e with
  | data | table => rw [List.mem_singleton.mp h]
  | component id c ih =>
    rcases List.mem_cons.mp h with rfl | h
    · exact le_rfl
    · exact (ih h).trans (by simp [OpBuilder.nodes])
  | schema id ty dim arg ih₁ ih₂ ih₃ =>
    simp only [OpBuilder.nodes, List.mem_cons, List.mem_append] at h
    rcases h with rfl | (h | h) | h
    · exact le_rfl
    · exact (ih₁ h).trans (by simp [OpBuilder.nodes]; omega)
    · exact (ih₂ h).trans (by simp [OpBuilder.nodes]; omega)
    · exact (ih₃ h).trans (by simp [OpBuilder.nodes]; omega)
  | timestamp id source arg ih₁ ih₂ =>
    simp only [OpBuilder.nodes, List.mem_cons, List.mem_append] at h
    rcases h with rfl | h | h
    · exact le_rfl
    · exact (ih₁ h).trans (by simp [OpBuilder.nodes]; omega)
    · exact (ih₂ h).trans (by simp [OpBuilder.nodes]; omega)
  | ext id extId data arg ih₁ ih₂ =>
    simp only [OpBuilder.nodes, List.mem_cons, List.mem_append] at h
    rcases h with rfl | h | h
    · exact le_rfl
    · exact (ih₂ h).trans (by simp [OpBuilder.nodes]; omega)
    · exact (ih₁ h).trans (by simp [OpBuilder.nodes]; omega)

/-- An expression is not below itself. -/
theorem not_mem_below (h : e.nodes = e :: S) : e ∉ S := by
  intro he
  have hlen : e.nodes.length = S.length + 1 := by rw [h, List.length_cons]
  cases e with
  | data | table => simp [OpBuilder.nodes] at h; simp [h] at he
  | component id c =>
    obtain rfl : c.nodes = S := by simpa [OpBuilder.nodes] using h
    have := nodes_length_le he
    omega
  | schema id ty dim arg =>
    obtain rfl : ty.nodes ++ dim.nodes ++ arg.nodes = S := by simpa [OpBuilder.nodes] using h
    simp only [List.mem_append] at he
    simp only [List.length_append] at hlen
    rcases he with (he | he) | he <;> have := nodes_length_le he <;> omega
  | timestamp id source arg =>
    obtain rfl : source.nodes ++ arg.nodes = S := by simpa [OpBuilder.nodes] using h
    simp only [List.length_append] at hlen
    rcases List.mem_append.mp he with he | he <;> have := nodes_length_le he <;> omega
  | ext id extId data arg =>
    obtain rfl : arg.nodes ++ data.nodes = S := by simpa [OpBuilder.nodes] using h
    simp only [List.length_append] at hlen
    rcases List.mem_append.mp he with he | he <;> have := nodes_length_le he <;> omega

/-- An operation refers to operations that have been emitted. -/
theorem Inv.refs_lt (h : Inv U b) (hU : ∀ x ∈ e.nodes, U x) (he : e.Encodes b.data (At b) op) :
    ∀ r ∈ op.refs, r < b.ops.length := by
  intro r hr
  unfold OpBuilder.Encodes at he
  split at he <;> try exact he.elim
  · cases hr
  · cases hr
  · obtain rfl := List.mem_singleton.mp hr
    exact h.lt (hU _ (List.mem_cons_of_mem _ (self_mem_nodes _))) he
  · simp only [Op.refs, List.mem_cons, List.not_mem_nil, or_false] at hr
    rcases hr with rfl | rfl | rfl
    · exact h.lt (hU _ (by simp [OpBuilder.nodes, self_mem_nodes])) he.1
    · exact h.lt (hU _ (by simp [OpBuilder.nodes, self_mem_nodes])) he.2.1
    · exact h.lt (hU _ (by simp [OpBuilder.nodes, self_mem_nodes])) he.2.2
  · simp only [Op.refs, List.mem_cons, List.not_mem_nil, or_false] at hr
    rcases hr with rfl | rfl
    · exact h.lt (hU _ (by simp [OpBuilder.nodes, self_mem_nodes])) he.1
    · exact h.lt (hU _ (by simp [OpBuilder.nodes, self_mem_nodes])) he.2
  · simp only [Op.refs, List.mem_cons, List.not_mem_nil, or_false] at hr
    rcases hr with rfl | rfl
    · exact h.lt (hU _ (by simp [OpBuilder.nodes, self_mem_nodes])) he.2.1
    · exact h.lt (hU _ (by simp [OpBuilder.nodes, self_mem_nodes])) he.2.2

/-! ## A visit -/

theorem pushData_visits (h : Inv U b) (m : Emitter) (align : Nat) (data : Bytes) :
    Visits U [] b (m.pushData b align data).1 where
  toGrows := ⟨List.prefix_rfl, (List.prefix_append _ _).trans (List.prefix_append _ _)⟩
  keeps _ _ h := h
  fresh _ _ := .inl
  inv := {
    refs := h.refs
    known := fun e hU r hr => by
      obtain ⟨op, hop, he⟩ := h.known e hU r hr
      exact ⟨op, hop, encodes_mono ((List.prefix_append _ _).trans (List.prefix_append _ _)) (fun _ _ h => h) he⟩ }

theorem pushData_encodes (id align : Nat) (data : Bytes) {At : Nat → OpRef → Prop} :
    (OpBuilder.data id align data).Encodes ((Emitter.plain dataFirst).pushData b align data).1.data At
      ((Emitter.plain dataFirst).pushData b align data).2 := by
  refine ⟨rfl, ?_, ?_⟩
  · simp only [Emitter.pushData, Emitter.plain, id_eq, List.length_append]
    omega
  · simp only [Emitter.pushData, Emitter.plain, id_eq, slice]
    rw [← List.length_append, List.take_length, List.drop_left]

theorem lookup_cons_eq {l : List (Nat × OpRef)} {k a : Nat} {r₀ r : OpRef} :
    ((k, r₀) :: l).lookup a = some r ↔ a = k ∧ r₀ = r ∨ a ≠ k ∧ l.lookup a = some r := by
  by_cases h : a = k
  · simp [h]
  · simp [List.lookup_cons, h, beq_false_of_ne h]

/-- `b₁` with a new operation, for the node `e`. -/
theorem emit_visits (hinj : ∀ x, U x → ∀ y, U y → x.addr = y.addr → x = y) (hU : ∀ x ∈ e.nodes, U x)
    (h : Visits U S b b₁) (he : e.Encodes b₁.data (At b₁) op) (hnone : ∀ r, ¬ At b₁ e.addr r) :
    Visits U (e :: S) b
      { b₁ with ops := b₁.ops ++ [op], visited := (e.addr, b₁.ops.length) :: b₁.visited } := by
  have hkeep : ∀ a r, At b₁ a r →
      At { b₁ with ops := b₁.ops ++ [op], visited := (e.addr, b₁.ops.length) :: b₁.visited } a r :=
    fun a r hr => lookup_cons_eq.mpr (.inr ⟨fun hae => hnone r (hae ▸ hr), hr⟩)
  refine ⟨⟨h.ops.trans (List.prefix_append _ _), h.data⟩, fun a r hr => hkeep a r (h.keeps a r hr), ?_, ?_, ?_⟩
  · intro a r hr
    rcases lookup_cons_eq.mp hr with ⟨rfl, _⟩ | ⟨_, hr⟩
    · exact .inr ⟨e, List.mem_cons_self, rfl⟩
    · exact (h.fresh a r hr).imp_right fun ⟨x, hx, hxe⟩ => ⟨x, List.mem_cons_of_mem _ hx, hxe⟩
  · intro i op' hi r hr
    rcases Nat.lt_or_ge i b₁.ops.length with hlt | hge
    · exact h.inv.refs i op' (by rwa [List.getElem?_append_left hlt] at hi) r hr
    · rw [List.getElem?_append_right hge] at hi
      obtain ⟨rfl, rfl⟩ : i = b₁.ops.length ∧ op = op' := by
        have := (List.getElem?_eq_some_iff.mp hi).1
        rw [List.length_singleton] at this
        obtain rfl : i = b₁.ops.length := by omega
        exact ⟨rfl, by simpa using hi⟩
      exact h.inv.refs_lt hU he r hr
  · intro x hx r hr
    rcases lookup_cons_eq.mp hr with ⟨hxe, rfl⟩ | ⟨_, hr⟩
    · obtain rfl := hinj x hx e (hU e (self_mem_nodes e)) hxe
      exact ⟨op, List.getElem?_concat_length, encodes_mono List.prefix_rfl hkeep he⟩
    · obtain ⟨op', hop', hx'⟩ := h.inv.known x hx r hr
      exact ⟨op', List.getElem?_append_left (List.getElem?_eq_some_iff.mp hop').1 ▸ hop',
        encodes_mono List.prefix_rfl hkeep hx'⟩

/-- A node that is visited for the first time, after its operands, or a node visited before. -/
theorem memo_spec (hinj : ∀ x, U x → ∀ y, U y → x.addr = y.addr → x = y) (hU : ∀ x ∈ e.nodes, U x) (hb : Inv U b)
    (hS : e.nodes = e :: S) {f : VTableBuilder → VTableBuilder × Op}
    (h : Visits U S b (f b).1 ∧ e.Encodes (f b).1.data (At (f b).1) (f b).2) :
    Visits U e.nodes b ((Emitter.plain dataFirst).memo b e.addr f).1 ∧
      At ((Emitter.plain dataFirst).memo b e.addr f).1 e.addr ((Emitter.plain dataFirst).memo b e.addr f).2 := by
  rw [Emitter.memo]
  cases hl : b.visited.lookup e.addr with
  | some r => exact ⟨.rfl hb, hl⟩
  | none =>
    obtain ⟨hv, he⟩ := h
    -- no operand has the node's address
    have hnone : ∀ r, ¬ At (f b).1 e.addr r := by
      intro r hr
      rcases hv.fresh _ _ hr with hr | ⟨x, hx, hxe⟩
      · rw [At, hl] at hr; cases hr
      · obtain rfl := hinj x (hU x (hS ▸ List.mem_cons_of_mem _ hx)) e (hU e (self_mem_nodes e)) hxe
        exact not_mem_below hS hx
    rw [hS]
    exact ⟨emit_visits hinj hU hv he hnone, lookup_cons_eq.mpr (.inl ⟨rfl, rfl⟩)⟩

/-- A visit of some of the nodes in `S` is one of some of those in a larger list. -/
theorem Visits.subset (h : Visits U S b b₁) (hS : ∀ x ∈ S, x ∈ S') : Visits U S' b b₁ where
  toGrows := h.toGrows
  keeps := h.keeps
  fresh a r hr := (h.fresh a r hr).imp_right fun ⟨x, hx, e⟩ => ⟨x, hS x hx, e⟩
  inv := h.inv

/-- `visit` visits the nodes of an expression, and returns where its operation is. -/
theorem visit_spec (hinj : ∀ x, U x → ∀ y, U y → x.addr = y.addr → x = y) (hU : ∀ x ∈ e.nodes, U x) (hb : Inv U b)
    (dataFirst : Bool) :
    Visits U e.nodes b ((Emitter.plain dataFirst).visit e b).1 ∧
      At ((Emitter.plain dataFirst).visit e b).1 e.addr ((Emitter.plain dataFirst).visit e b).2 := by
  induction e generalizing b with
  | data id align data => exact memo_spec hinj hU hb rfl ⟨pushData_visits hb _ align data, pushData_encodes id align data⟩
  | table id offset len => exact memo_spec hinj hU hb rfl ⟨.rfl hb, rfl, rfl⟩
  | component id c ih => exact memo_spec hinj hU hb rfl (ih (fun x hx => hU x (List.mem_cons_of_mem _ hx)) hb)
  | schema id ty dim arg ih₁ ih₂ ih₃ =>
    obtain ⟨h₁, a₁⟩ := ih₁ (fun x hx => hU x (by simp [OpBuilder.nodes, hx])) hb
    obtain ⟨h₂, a₂⟩ := ih₂ (fun x hx => hU x (by simp [OpBuilder.nodes, hx])) h₁.inv
    obtain ⟨h₃, a₃⟩ := ih₃ (fun x hx => hU x (by simp [OpBuilder.nodes, hx])) h₂.inv
    exact memo_spec hinj hU hb rfl
      ⟨(h₁.trans h₂).trans h₃, h₃.keeps _ _ (h₂.keeps _ _ a₁), h₃.keeps _ _ a₂, a₃⟩
  | timestamp id source arg ih₁ ih₂ =>
    obtain ⟨h₁, a₁⟩ := ih₁ (fun x hx => hU x (by simp [OpBuilder.nodes, hx])) hb
    obtain ⟨h₂, a₂⟩ := ih₂ (fun x hx => hU x (by simp [OpBuilder.nodes, hx])) h₁.inv
    exact memo_spec hinj hU hb rfl ⟨h₁.trans h₂, h₂.keeps _ _ a₁, a₂⟩
  | ext id extId data arg ih₁ ih₂ =>
    have hdata : ∀ x ∈ data.nodes, U x := fun x hx => hU x (by simp [OpBuilder.nodes, hx])
    have harg : ∀ x ∈ arg.nodes, U x := fun x hx => hU x (by simp [OpBuilder.nodes, hx])
    refine memo_spec hinj hU hb rfl ?_
    cases dataFirst with
    | true =>
      obtain ⟨h₁, a₁⟩ := ih₁ hdata hb
      obtain ⟨h₂, a₂⟩ := ih₂ harg h₁.inv
      exact ⟨(h₁.trans h₂).subset fun x hx => List.mem_append.mpr (List.mem_append.mp hx).symm, rfl, a₂, h₂.keeps _ _ a₁⟩
    | false =>
      obtain ⟨h₁, a₁⟩ := ih₂ harg hb
      obtain ⟨h₂, a₂⟩ := ih₁ hdata h₁.inv
      exact ⟨h₁.trans h₂, rfl, h₂.keeps _ _ a₁, a₂⟩

end Metor.Proof.VTable
