import Metor.Proof.VTable.Builder

/-!
# Where a built vtable has its data

`visit` pads the data up to the alignment of each data node, so the offset of
the node's operation is where the nodes emitted before it say (`data_start`),
and a multiple of the alignment (`data_aligned`).
-/

namespace Metor.Proof.VTable

open Metor.Lib Metor.Impl.Proto VTableBuilder

variable {b : VTableBuilder} {e : OpBuilder} {E S : List OpBuilder} {U : OpBuilder → Prop} {fields : List FieldBuilder}
  {dataFirst : Bool}

theorem dataStart_mod {n align : Nat} (h : 0 < align) : OpBuilder.dataStart n align % align = 0 := by
  have hlt := Nat.mod_lt n h
  rw [OpBuilder.dataStart, Nat.add_mod, Nat.mod_mod]
  rcases Nat.eq_zero_or_pos (n % align) with hz | hpos
  · rw [hz, Nat.sub_zero, Nat.mod_self, Nat.zero_mod]
  · rw [Nat.mod_eq_of_lt (show align - n % align < align by omega), Nat.add_sub_cancel' hlt.le, Nat.mod_self]

/-- The operation of a data node is its data, which starts after that of the nodes before. -/
def Placed (b : VTableBuilder) (E : List OpBuilder) : Prop :=
  ∀ E₁ a align data E₂, E = E₁ ++ .data a align data :: E₂ → ∃ r, At b a r ∧
    b.ops[r]? = some (.data (OpBuilder.dataStart (E₁.foldl OpBuilder.dataEnd 0) align) data.length)

section
variable (hinj : ∀ x, U x → ∀ y, U y → x.addr = y.addr → x = y)

include hinj in
/-- A node visited before, or a new operation for it. -/
theorem memo_placed (hb : Ready U b E) (hp : Placed b E) (he : ∀ x ∈ e.nodes, U x) (hS : e.order dataFirst = S ++ [e])
    {f : VTableBuilder → VTableBuilder × Op} (h : Placed (f b).1 (S.foldl emit E))
    (hop : ∀ a align data, e = .data a align data →
      (f b).2 = .data (OpBuilder.dataStart ((S.foldl emit E).foldl OpBuilder.dataEnd 0) align) data.length) :
    Placed ((Emitter.plain dataFirst).memo b e.addr f).1 ((e.order dataFirst).foldl emit E) := by
  rw [Emitter.memo]
  cases hl : b.visited.lookup e.addr with
  | some r =>
    rw [foldl_emit_known hinj hb.closed (he e (self_mem_nodes e)) ((hb.emits.known e.addr).mp (by rw [hl]; rfl))]
    exact hp
  | none =>
    have hk : e.addr ∉ E.map OpBuilder.addr := fun h => by simpa [hl] using (hb.emits.known e.addr).mpr h
    have hnew := not_mem_foldl_emit hinj hb.closed he hk hS
    rw [foldl_emit_new hinj hb.closed he hk hS]
    intro E₁ a align data E₂ hE
    rcases List.eq_nil_or_concat E₂ with rfl | ⟨E₂, x, rfl⟩
    · -- the new operation
      obtain ⟨rfl, hx⟩ := List.append_inj' hE rfl
      obtain rfl := List.head_eq_of_cons_eq hx
      refine ⟨(f b).1.ops.length, lookup_cons_eq.mpr (.inl ⟨rfl, rfl⟩), ?_⟩
      rw [← hop a align data rfl]
      exact List.getElem?_concat_length
    · obtain ⟨hE, -⟩ := List.append_inj' (hE.trans (by simp : _ = (E₁ ++ .data a align data :: E₂) ++ [x])) rfl
      obtain ⟨r, hr, ho⟩ := h E₁ a align data E₂ hE
      have ha : a ≠ e.addr := by
        rintro rfl
        exact hnew (List.mem_map.mpr ⟨.data e.addr align data, by rw [hE]; simp, rfl⟩)
      refine ⟨r, lookup_cons_eq.mpr (.inr ⟨ha, hr⟩), ?_⟩
      obtain ⟨hlt, -⟩ := List.getElem?_eq_some_iff.mp ho
      rw [← ho]
      exact List.getElem?_append_left hlt

include hinj in
theorem visit_placed (hb : Ready U b E) (hp : Placed b E) (he : ∀ x ∈ e.nodes, U x) (dataFirst : Bool) :
    Placed ((Emitter.plain dataFirst).visit e b).1 ((e.order dataFirst).foldl emit E) := by
  induction e generalizing b E with
  | data id align data =>
    refine memo_placed (S := []) hinj hb hp he rfl hp ?_
    rintro _ _ _ ⟨rfl, rfl, rfl⟩
    simp only [Emitter.pushData, Emitter.plain, id_eq, List.length_append, List.length_replicate, hb.emits.data,
      OpBuilder.dataStart, List.foldl_nil]
  | table id offset len => exact memo_placed (S := []) hinj hb hp he rfl hp (by simp)
  | component id c ih => exact memo_placed hinj hb hp he rfl (ih hb hp fun x hx => he x (List.mem_cons_of_mem _ hx)) (by simp)
  | schema id ty dim arg ih₁ ih₂ ih₃ =>
    have hty : ∀ x ∈ ty.nodes, U x := fun x hx => he x (by simp [OpBuilder.nodes, hx])
    have hdim : ∀ x ∈ dim.nodes, U x := fun x hx => he x (by simp [OpBuilder.nodes, hx])
    have hb₁ := hb.visit hinj hty dataFirst
    have h := ih₃ (hb₁.visit hinj hdim dataFirst) (ih₂ hb₁ (ih₁ hb hp hty) hdim)
      fun x hx => he x (by simp [OpBuilder.nodes, hx])
    rw [← List.foldl_append, ← List.foldl_append, ← List.append_assoc] at h
    exact memo_placed hinj hb hp he rfl h (by simp)
  | timestamp id source arg ih₁ ih₂ =>
    have hsource : ∀ x ∈ source.nodes, U x := fun x hx => he x (by simp [OpBuilder.nodes, hx])
    have h := ih₂ (hb.visit hinj hsource dataFirst) (ih₁ hb hp hsource) fun x hx => he x (by simp [OpBuilder.nodes, hx])
    rw [← List.foldl_append] at h
    exact memo_placed hinj hb hp he rfl h (by simp)
  | ext id extId data arg ih₁ ih₂ =>
    have hdata : ∀ x ∈ data.nodes, U x := fun x hx => he x (by simp [OpBuilder.nodes, hx])
    have harg : ∀ x ∈ arg.nodes, U x := fun x hx => he x (by simp [OpBuilder.nodes, hx])
    cases dataFirst with
    | true =>
      have h := ih₂ (hb.visit hinj hdata true) (ih₁ hb hp hdata) harg
      rw [← List.foldl_append] at h
      exact memo_placed hinj hb hp he rfl h (by simp)
    | false =>
      have h := ih₁ (hb.visit hinj harg false) (ih₂ hb hp harg) hdata
      rw [← List.foldl_append] at h
      exact memo_placed hinj hb hp he rfl h (by simp)

include hinj in
theorem foldl_placed {fs : List FieldBuilder} (hU : ∀ x ∈ nodesOf fs, U x) (hb : Ready U b E) (hp : Placed b E)
    (dataFirst : Bool) : Placed (fs.foldl (Emitter.plain dataFirst).pushField b)
      ((fs.flatMap fun f => f.arg.order dataFirst).foldl emit E) := by
  induction fs generalizing b E with
  | nil => exact hp
  | cons f fs ih =>
    have hf : ∀ x ∈ f.arg.nodes, U x := fun x hx => hU x (List.mem_append_left _ hx)
    have h := hb.visit hinj hf dataFirst
    rw [List.flatMap_cons, List.foldl_append]
    exact ih (fun x hx => hU x (List.mem_append_right _ hx))
      ⟨⟨h.inv.refs, h.inv.known⟩, h.closed, h.emits.known, h.emits.ops, h.emits.data⟩ (visit_placed hinj hb hp hf dataFirst)

end

/-- Where the data of a node starts. -/
theorem data_start (hd : Dag fields) (dataFirst : Bool) {E₁ E₂ : List OpBuilder} {a align : Nat} {data : Bytes}
    (hE : emitted dataFirst fields = E₁ ++ .data a align data :: E₂) (addr : Nat) :
    ((Emitter.plain dataFirst).vtable fields addr).ops[plainRef dataFirst fields a]? =
      some (.data (OpBuilder.dataStart (E₁.foldl OpBuilder.dataEnd 0) align) data.length) := by
  have h := foldl_placed (U := (· ∈ nodesOf fields)) (fun x hx y hy => hd.inj x hx y hy) (fun _ hx => hx) (ready_empty _)
    (fun _ _ _ _ _ h => by simp at h) dataFirst
  obtain ⟨r, hr, ho⟩ := h E₁ a align data E₂ hE
  rw [plainRef_eq hr]
  exact ho

theorem data_aligned_plain {addr : Nat} (hd : Dag fields) (dataFirst : Bool) {a align : Nat} {data : Bytes}
    (hm : .data a align data ∈ nodesOf fields) {offset len : Nat}
    (ho : ((Emitter.plain dataFirst).vtable fields addr).ops[plainRef dataFirst fields a]? = some (.data offset len)) :
    offset % align = 0 := by
  obtain ⟨E₁, E₂, hE⟩ := List.append_of_mem (mem_emitted hd hm dataFirst)
  obtain ⟨rfl, -⟩ := Op.data.inj (Option.some.inj ((data_start hd dataFirst hE addr).symm.trans ho))
  exact dataStart_mod (hd.align a align data hm)

/-- The offset of a data node is a multiple of its alignment. -/
theorem data_aligned {addr : Nat} (hd : Dag fields) (hf : Fits (vtable fields addr).ops (vtable fields addr).data.bytes)
    {a align : Nat} {data : Bytes} (hm : .data a align data ∈ nodesOf fields) {offset len : Nat}
    (ho : (vtable fields addr).ops[refOf fields a]? = some (.data offset len)) : offset % align = 0 := by
  rw [refOf_eq_plainRef hd hf, vtable_plain hd (narrow_of_fits hd hf)] at ho
  exact data_aligned_plain hd false hm ho

end Metor.Proof.VTable

/-!
## Vtables all of whose leaves are words

If every data leaf is some words aligned to 8 bytes, and every table leaf
starts at a multiple of 8, then so does every leaf of the vtable that is
built, and the vtable is no larger than its leaves (`vtable_room`).
-/

namespace Metor.Proof.VTable

open Metor.Lib Metor.Impl.Proto VTableBuilder

variable {b : VTableBuilder} {e : OpBuilder} {fs : List FieldBuilder}

/-- The offset of a leaf. -/
def offsetOf : Op → Nat
  | .data offset _ | .table offset _ => offset
  | _ => 0

/-- The bytes of a data leaf. -/
def leafData : OpBuilder → Nat
  | .data _ _ data => data.length
  | _ => 0

/-- A leaf of words. -/
def IsWords : OpBuilder → Prop
  | .data _ align data => align = 8 ∧ data.length % 8 = 0
  | .table _ offset _ => offset % 8 = 0
  | _ => True

/-- All leaves so far are words. -/
structure Words (b : VTableBuilder) : Prop where
  data : b.data.length % 8 = 0
  ops : ∀ op ∈ b.ops, offsetOf op % 8 = 0

/-- `b'` is `b` with at most `n` more operations and `m` more bytes. -/
structure Within (n m : Nat) (b b' : VTableBuilder) : Prop where
  words : Words b'
  ops : b'.ops.length ≤ b.ops.length + n
  data : b'.data.length ≤ b.data.length + m

theorem Within.trans {n m n' m' : Nat} {b₁ b₂ b₃ : VTableBuilder} (h : Within n m b₁ b₂) (h' : Within n' m' b₂ b₃) :
    Within (n + n') (m + m') b₁ b₃ :=
  ⟨h'.words, by have := h.ops; have := h'.ops; omega, by have := h.data; have := h'.data; omega⟩

theorem asU32_mod_eight (n : Nat) : asU32 n % 8 = n % 8 := by simp only [asU32]; omega

theorem memo_within (hb : Words b) {n m : Nat} (id : Nat) {f : VTableBuilder → VTableBuilder × Op}
    (h : Within n m b (f b).1) (hop : offsetOf (f b).2 % 8 = 0) : Within (n + 1) m b (b.memo id f).1 := by
  rw [memo]
  split
  · exact ⟨hb, Nat.le_add_right _ _, Nat.le_add_right _ _⟩
  · refine ⟨⟨h.words.data, fun op hmem => ?_⟩, ?_, h.data⟩
    · rcases List.mem_append.mp hmem with hmem | hmem
      · exact h.words.ops op hmem
      · exact List.mem_singleton.mp hmem ▸ hop
    · have := h.ops
      simp only [List.length_append, List.length_singleton]
      omega

theorem pushData_within (hb : Words b) {data : Bytes} (hd : data.length % 8 = 0) :
    Within 0 data.length b (b.pushData 8 data).1 ∧ offsetOf (b.pushData 8 data).2 % 8 = 0 := by
  have hlen := hb.data
  have hpad : (8 - b.data.length % 8) % 8 = 0 := by omega
  simp only [pushData, hpad, List.replicate_zero, List.append_nil, offsetOf, asU32_mod_eight]
  refine ⟨⟨⟨?_, hb.ops⟩, Nat.le_refl _, ?_⟩, hlen⟩
  · rw [List.length_append]; omega
  · rw [List.length_append]

/-- A visit makes at most one operation for each node. -/
theorem visit_within (he : ∀ x ∈ e.nodes, IsWords x) (hb : Words b) :
    Within e.nodes.length (e.nodes.map leafData).sum b (visit e b).1 := by
  induction e generalizing b with
  | data id align data =>
    obtain ⟨rfl, hd⟩ := he _ (self_mem_nodes _)
    obtain ⟨h, hop⟩ := pushData_within hb hd
    exact memo_within hb id h hop
  | table id offset len =>
    have h : Within 0 0 b b := ⟨hb, Nat.le_refl _, Nat.le_refl _⟩
    exact memo_within hb id h (he _ (self_mem_nodes _))
  | component id c ih =>
    have e : ((OpBuilder.component id c).nodes.map leafData).sum = (c.nodes.map leafData).sum := by
      simp [OpBuilder.nodes, leafData]
    rw [e, OpBuilder.nodes, List.length_cons]
    exact memo_within hb id (ih (fun x hx => he x (List.mem_cons_of_mem _ hx)) hb) rfl
  | schema id ty dim arg ih₁ ih₂ ih₃ =>
    have e : ((OpBuilder.schema id ty dim arg).nodes.map leafData).sum =
        (ty.nodes.map leafData).sum + (dim.nodes.map leafData).sum + (arg.nodes.map leafData).sum := by
      simp [OpBuilder.nodes, leafData, Nat.add_assoc]
    have h₁ := ih₁ (fun x hx => he x (by simp [OpBuilder.nodes, hx])) hb
    have h₂ := ih₂ (fun x hx => he x (by simp [OpBuilder.nodes, hx])) h₁.words
    have h₃ := ih₃ (fun x hx => he x (by simp [OpBuilder.nodes, hx])) h₂.words
    rw [e, OpBuilder.nodes, List.length_cons, List.length_append, List.length_append]
    exact memo_within hb id ((h₁.trans h₂).trans h₃) rfl
  | timestamp id source arg ih₁ ih₂ =>
    have e : ((OpBuilder.timestamp id source arg).nodes.map leafData).sum =
        (source.nodes.map leafData).sum + (arg.nodes.map leafData).sum := by simp [OpBuilder.nodes, leafData]
    have h₁ := ih₁ (fun x hx => he x (by simp [OpBuilder.nodes, hx])) hb
    have h₂ := ih₂ (fun x hx => he x (by simp [OpBuilder.nodes, hx])) h₁.words
    rw [e, OpBuilder.nodes, List.length_cons, List.length_append]
    exact memo_within hb id (h₁.trans h₂) rfl
  | ext id extId data arg ih₁ ih₂ =>
    have e : ((OpBuilder.ext id extId data arg).nodes.map leafData).sum =
        (arg.nodes.map leafData).sum + (data.nodes.map leafData).sum := by simp [OpBuilder.nodes, leafData]
    have h₁ := ih₂ (fun x hx => he x (by simp [OpBuilder.nodes, hx])) hb
    have h₂ := ih₁ (fun x hx => he x (by simp [OpBuilder.nodes, hx])) h₁.words
    rw [e, OpBuilder.nodes, List.length_cons, List.length_append]
    exact memo_within hb id (h₁.trans h₂) rfl

theorem foldl_within (hf : ∀ x ∈ nodesOf fs, IsWords x) (hb : Words b) :
    Within (nodesOf fs).length ((nodesOf fs).map leafData).sum b (fs.foldl pushField b) := by
  induction fs generalizing b with
  | nil => exact ⟨hb, Nat.le_refl _, Nat.le_refl _⟩
  | cons f fs ih =>
    have h := visit_within (fun x hx => hf x (List.mem_append_left _ hx)) hb
    have h₁ : Within f.arg.nodes.length (f.arg.nodes.map leafData).sum b (b.pushField f) := ⟨⟨h.words.data, h.words.ops⟩, h.ops, h.data⟩
    have h₂ := ih (fun x hx => hf x (List.mem_append_right _ hx)) h₁.words
    rw [nodesOf, List.flatMap_cons, List.length_append, List.map_append, List.sum_append]
    exact h₁.trans h₂

/-- A vtable of words is no larger than its nodes, and its leaves are aligned. -/
theorem vtable_room {fields : List FieldBuilder} (hf : ∀ x ∈ nodesOf fields, IsWords x) (addr : Nat) :
    (∀ op ∈ (vtable fields addr).ops, offsetOf op % 8 = 0) ∧
    (vtable fields addr).ops.length ≤ (nodesOf fields).length ∧
    (vtable fields addr).data.bytes.length ≤ ((nodesOf fields).map leafData).sum := by
  have h := foldl_within hf (b := .empty) ⟨rfl, nofun⟩
  have hops := h.ops
  have hdata := h.data
  simp only [VTableBuilder.empty, List.length_nil, Nat.zero_add] at hops hdata
  exact ⟨h.words.ops, hops, hdata⟩

end Metor.Proof.VTable
