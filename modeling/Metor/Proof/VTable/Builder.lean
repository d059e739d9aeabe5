import Metor.Proof.VTable.Emission
import Metor.Proof.VTable.Terminates

/-!
# A built vtable means what its builder expressions mean

After `builder::vtable` every node of the fields has its operation
(`foldl_spec`, `built_refOf`). By induction on an expression, `realize` on its operation
reads the bytes the expression evaluates to (`operand_realize`), the loop of
`realize_fields` comes to the meaning of the expression (`fieldLoop_eq`), and
the items are those of the fields (`vtable_agrees`).
-/

namespace Metor.Proof.VTable

open Metor.Lib Metor.Impl.Proto Metor.Spec.VTable VTableBuilder

variable {b : VTableBuilder} {e : OpBuilder} {fs : List FieldBuilder}

/-! ## The fields -/

theorem memo_fields (m : Emitter) (id : Nat) {f : VTableBuilder → VTableBuilder × Op} (h : (f b).1.fields = b.fields) :
    (m.memo b id f).1.fields = b.fields := by
  rw [Emitter.memo]
  split
  · rfl
  · exact h

theorem visit_fields (m : Emitter) (e : OpBuilder) (b : VTableBuilder) : (m.visit e b).1.fields = b.fields := by
  induction e generalizing b with
  | data id align data => exact memo_fields m id rfl
  | table id offset len => exact memo_fields m id rfl
  | component id c ih => exact memo_fields m id (ih b)
  | schema id ty dim arg ih₁ ih₂ ih₃ => exact memo_fields m id (((ih₃ _).trans (ih₂ _)).trans (ih₁ b))
  | timestamp id source arg ih₁ ih₂ => exact memo_fields m id ((ih₂ _).trans (ih₁ b))
  | ext id extId data arg ih₁ ih₂ =>
    refine memo_fields m id ?_
    split
    · exact (ih₂ _).trans (ih₁ b)
    · exact (ih₁ _).trans (ih₂ b)

/-- The field that is made of a field builder. -/
def FieldAt (b : VTableBuilder) (f : FieldBuilder) (fd : Field) : Prop :=
  fd.offset = f.offset ∧ fd.len = f.len ∧ At b f.arg.addr fd.arg

/-- What a builder has made: operations for the nodes, and a field for each of the fields. -/
theorem foldl_spec {U : OpBuilder → Prop} (hinj : ∀ x, U x → ∀ y, U y → x.addr = y.addr → x = y)
    (hU : ∀ x ∈ nodesOf fs, U x) (hb : Inv U b) (dataFirst : Bool) :
    Inv U (fs.foldl (Emitter.plain dataFirst).pushField b) ∧
    (∀ a r, At b a r → At (fs.foldl (Emitter.plain dataFirst).pushField b) a r) ∧
    ∃ added, (fs.foldl (Emitter.plain dataFirst).pushField b).fields = b.fields ++ added ∧
      List.Forall₂ (FieldAt (fs.foldl (Emitter.plain dataFirst).pushField b)) fs added := by
  induction fs generalizing b with
  | nil => exact ⟨hb, fun _ _ h => h, [], (List.append_nil _).symm, .nil⟩
  | cons f fs ih =>
    obtain ⟨hv, ha⟩ := visit_spec hinj (fun x hx => hU x (List.mem_append_left _ hx)) hb dataFirst
    have hinv : Inv U ((Emitter.plain dataFirst).pushField b f) := ⟨hv.inv.refs, hv.inv.known⟩
    obtain ⟨hinv', hkeep, added, hfields, hadded⟩ := ih (fun x hx => hU x (List.mem_append_right _ hx)) hinv
    refine ⟨hinv', fun a r hr => hkeep a r (hv.keeps a r hr),
      ⟨f.offset, f.len, ((Emitter.plain dataFirst).visit f.arg b).2⟩ :: added, ?_, ?_⟩
    · rw [List.foldl_cons, hfields, List.append_cons]
      show ((Emitter.plain dataFirst).visit f.arg b).1.fields ++ _ ++ added = _
      rw [visit_fields]
      rfl
    · exact .cons ⟨rfl, rfl, hkeep _ _ ha⟩ hadded

/-- If a node has been visited then so have the nodes below it. -/
theorem exists_at {U : OpBuilder → Prop} (h : Inv U b) (hU : ∀ x ∈ e.nodes, U x) {r : OpRef} (hr : At b e.addr r) :
    ∀ x ∈ e.nodes, ∃ r, At b x.addr r := by
  induction e generalizing r with
  | data | table =>
    intro x hx
    rw [List.mem_singleton.mp hx]
    exact ⟨r, hr⟩
  | component id c ih =>
    obtain ⟨op, _, he⟩ := h.known _ (hU _ (self_mem_nodes _)) r hr
    cases op <;> try exact he.elim
    intro x hx
    rcases List.mem_cons.mp hx with rfl | hx
    · exact ⟨r, hr⟩
    · exact ih (fun x hx => hU x (List.mem_cons_of_mem _ hx)) he x hx
  | schema id ty dim arg ih₁ ih₂ ih₃ =>
    obtain ⟨op, _, he⟩ := h.known _ (hU _ (self_mem_nodes _)) r hr
    cases op <;> try exact he.elim
    intro x hx
    simp only [OpBuilder.nodes, List.mem_cons, List.mem_append] at hx
    rcases hx with rfl | (hx | hx) | hx
    · exact ⟨r, hr⟩
    · exact ih₁ (fun x hx => hU x (by simp [OpBuilder.nodes, hx])) he.1 x hx
    · exact ih₂ (fun x hx => hU x (by simp [OpBuilder.nodes, hx])) he.2.1 x hx
    · exact ih₃ (fun x hx => hU x (by simp [OpBuilder.nodes, hx])) he.2.2 x hx
  | timestamp id source arg ih₁ ih₂ =>
    obtain ⟨op, _, he⟩ := h.known _ (hU _ (self_mem_nodes _)) r hr
    cases op <;> try exact he.elim
    intro x hx
    simp only [OpBuilder.nodes, List.mem_cons, List.mem_append] at hx
    rcases hx with rfl | hx | hx
    · exact ⟨r, hr⟩
    · exact ih₁ (fun x hx => hU x (by simp [OpBuilder.nodes, hx])) he.1 x hx
    · exact ih₂ (fun x hx => hU x (by simp [OpBuilder.nodes, hx])) he.2 x hx
  | ext id extId data arg ih₁ ih₂ =>
    obtain ⟨op, _, he⟩ := h.known _ (hU _ (self_mem_nodes _)) r hr
    cases op <;> try exact he.elim
    intro x hx
    simp only [OpBuilder.nodes, List.mem_cons, List.mem_append] at hx
    rcases hx with rfl | hx | hx
    · exact ⟨r, hr⟩
    · exact ih₂ (fun x hx => hU x (by simp [OpBuilder.nodes, hx])) he.2.1 x hx
    · exact ih₁ (fun x hx => hU x (by simp [OpBuilder.nodes, hx])) he.2.2 x hx

/-! ## Realizing the operation of a node

What goes on after `realize` on an operation, in terms of its operands.
-/

section
variable {v : VTable} {table : Option View} {fuel : Nat} {r : OpRef} {α : Type} {K : RealizedOp → Eval Error α}

/-- An operation as an operand: the bytes it stands for. -/
def operand (x : Eval Error RealizedOp) : Eval Error (Option Bytes) := do
  let op ← x
  return op.asSlice.map (·.bytes)

theorem realize_component {c : OpRef} (ho : v.ops[r]? = some (.component c)) {L : Nat → Eval Error α}
    (h : ∀ id, K (.component id) = L id) :
    (v.realize table (fuel + 1) r >>= K) = (componentOf (operand (v.realize table fuel c)) >>= L) := by
  simp only [VTable.realize, VTable.getOp, ho, Eval.okOr_some, Eval.ok_bind, componentOf, operand, Eval.bind_assoc,
    Eval.pure_eq, h]
  refine congrArg _ (funext fun op => ?_)
  cases hs : op.asSlice <;> simp [RealizedOp.asComponentId, hs]

theorem asU64s_of_aligned {s : View} (h : s.addr % 8 = 0) : s.asU64s = View.asU64s ⟨0, s.bytes⟩ := by
  simp [View.asU64s, h]

theorem realize_schema {ty dim arg : OpRef} (ho : v.ops[r]? = some (.schema ty dim arg))
    (hd : ∀ op s, v.realize table fuel dim = .ok op → op.asSlice = some s → s.addr % 8 = 0)
    {L : List Nat × PrimType → Eval Error α} (h : ∀ d t, K (.schema ⟨d, t, arg⟩) = L (d, t)) :
    (v.realize table (fuel + 1) r >>= K) =
      (schemaOf (operand (v.realize table fuel ty)) (operand (v.realize table fuel dim)) >>= L) := by
  simp only [VTable.realize, VTable.getOp, ho, Eval.okOr_some, Eval.ok_bind, schemaOf, operand, Eval.bind_assoc,
    Eval.pure_eq, h]
  refine congrArg _ (funext fun op => ?_)
  have hty : (op.asSlice.map (·.bytes)).bind primTypeOfBytes = op.asPrimTy := by
    cases hs : op.asSlice <;> simp [RealizedOp.asPrimTy, hs]
  rw [hty]
  refine congrArg _ (funext fun t => ?_)
  cases hx : v.realize table fuel dim with
  | ok op =>
    cases hs : op.asSlice with
    | none => simp [hs]
    | some s => simp [hs, asU64s_of_aligned (hd op s hx hs)]
  | _ => rfl

theorem realize_timestamp {source arg : OpRef} (ho : v.ops[r]? = some (.timestamp source arg))
    {L : Option Int → Eval Error α} (h : ∀ t range, K (.timestamp ⟨t, range, arg⟩) = L t) :
    (v.realize table (fuel + 1) r >>= K) = (timestampOf (operand (v.realize table fuel source)) >>= L) := by
  simp only [VTable.realize, VTable.getOp, ho, Eval.okOr_some, Eval.ok_bind, timestampOf, operand, Eval.bind_assoc,
    Eval.pure_eq]
  refine congrArg _ (funext fun op => ?_)
  cases hs : op.asSlice with
  | none => simp [h]
  | some s => simp [h, Eval.bind_assoc, readTimestamp]

theorem realize_ext {arg id data : OpRef} (ho : v.ops[r]? = some (.ext arg id data)) {L : Unit → Eval Error α}
    (h : ∀ s, K (.ext ⟨id, s, arg⟩) = L ()) :
    (v.realize table (fuel + 1) r >>= K) = (extOf (operand (v.realize table fuel data)) >>= L) := by
  simp only [VTable.realize, VTable.getOp, ho, Eval.okOr_some, Eval.ok_bind, extOf, operand, Eval.bind_assoc,
    Eval.pure_eq, h]
  refine congrArg _ (funext fun op => ?_)
  cases hs : op.asSlice <;> simp

end

/-- Every node of `U` has its operation at the reference for its address. -/
def Built (v : VTable) (ref : Nat → OpRef) (U : OpBuilder → Prop) : Prop :=
  ∀ e, U e → ∃ op, v.ops[ref e.addr]? = some op ∧ e.Encodes v.data.bytes (fun a r => ref a = r) op

section
variable {v : VTable} {table : Option View} {ref : Nat → OpRef} {U : OpBuilder → Prop} {fuel : Nat}

theorem addr_of_aligned {ty dim arg : OpRef} (ha : Aligned v table fs) (ho : .schema ty dim arg ∈ v.ops)
    {op : RealizedOp} {s : View} (h : v.realize table fuel dim = .ok op) (hs : op.asSlice = some s) : s.addr % 8 = 0 := by
  rw [asSlice_of_realizes (realizes_of_ok h), leafSlice] at hs
  split at hs
  · next hd =>
    rw [View.get] at hs
    split at hs <;> cases hs
    exact ha.dataDims _ _ _ _ _ ho hd
  · next hd =>
    obtain ⟨t, ht, hs⟩ := Option.bind_eq_some_iff.mp hs
    rw [View.get] at hs
    split at hs <;> cases hs
    exact ha.tableDims t ht _ _ _ _ _ ho hd
  · cases hs

theorem exists_succ (h : e.nodes.length ≤ fuel) : ∃ n, fuel = n + 1 :=
  ⟨fuel - 1, by have := List.length_pos_of_mem (self_mem_nodes e); omega⟩

/-- `realize` on the operation of a node gives the bytes of the node. -/
theorem operand_realize (hv : Built v ref U) (ha : Aligned v table fs) (hU : ∀ x ∈ e.nodes, U x)
    (hf : e.nodes.length ≤ fuel) :
    operand (v.realize table fuel (ref e.addr)) = e.eval (table.map (·.bytes)) := by
  induction e generalizing fuel with
  | data id align bytes =>
    obtain ⟨op, ho, he⟩ := hv _ (hU _ (self_mem_nodes _))
    obtain ⟨fuel, rfl⟩ := exists_succ hf
    cases op <;> try exact he.elim
    obtain ⟨rfl, hle, hs⟩ := he
    simp [operand, VTable.realize, VTable.getOp, ho, View.get, hle, RealizedOp.asSlice, OpBuilder.eval, hs]
  | table id offset len =>
    obtain ⟨op, ho, he⟩ := hv _ (hU _ (self_mem_nodes _))
    obtain ⟨fuel, rfl⟩ := exists_succ hf
    cases op <;> try exact he.elim
    obtain ⟨rfl, rfl⟩ := he
    cases table with
    | none => simp [operand, VTable.realize, VTable.getOp, ho, RealizedOp.asSlice, OpBuilder.eval]
    | some t =>
      simp only [operand, VTable.realize, VTable.getOp, ho, Eval.okOr_some, Eval.ok_bind, OpBuilder.eval, Option.map_some,
        View.get]
      split <;> simp [RealizedOp.asSlice]
  | component id c ih =>
    obtain ⟨op, ho, he⟩ := hv _ (hU _ (self_mem_nodes _))
    obtain ⟨fuel, rfl⟩ := exists_succ hf
    cases op <;> try exact he.elim
    obtain rfl : ref c.addr = _ := he
    simp only [OpBuilder.nodes, List.length_cons] at hf
    rw [operand, realize_component ho (L := fun _ => .ok none) fun _ => rfl,
      ih (fun x hx => hU x (List.mem_cons_of_mem _ hx)) (by omega)]
    rfl
  | schema id ty dim arg ih₁ ih₂ ih₃ =>
    obtain ⟨op, ho, he⟩ := hv _ (hU _ (self_mem_nodes _))
    obtain ⟨fuel, rfl⟩ := exists_succ hf
    cases op <;> try exact he.elim
    obtain ⟨rfl, rfl, rfl⟩ := he
    simp only [OpBuilder.nodes, List.length_cons, List.length_append] at hf
    rw [operand, realize_schema ho (fun _ _ => addr_of_aligned ha (List.mem_of_getElem? ho))
      (L := fun _ => .ok none) fun _ _ => rfl,
      ih₁ (fun x hx => hU x (by simp [OpBuilder.nodes, hx])) (by omega),
      ih₂ (fun x hx => hU x (by simp [OpBuilder.nodes, hx])) (by omega)]
    rfl
  | timestamp id source arg ih₁ ih₂ =>
    obtain ⟨op, ho, he⟩ := hv _ (hU _ (self_mem_nodes _))
    obtain ⟨fuel, rfl⟩ := exists_succ hf
    cases op <;> try exact he.elim
    obtain ⟨rfl, rfl⟩ := he
    simp only [OpBuilder.nodes, List.length_cons, List.length_append] at hf
    rw [operand, realize_timestamp ho (L := fun _ => .ok none) fun _ _ => rfl,
      ih₁ (fun x hx => hU x (by simp [OpBuilder.nodes, hx])) (by omega)]
    rfl
  | ext id extId data arg ih₁ ih₂ =>
    obtain ⟨op, ho, he⟩ := hv _ (hU _ (self_mem_nodes _))
    obtain ⟨fuel, rfl⟩ := exists_succ hf
    cases op <;> try exact he.elim
    obtain ⟨rfl, rfl, rfl⟩ := he
    simp only [OpBuilder.nodes, List.length_cons, List.length_append] at hf
    rw [operand, realize_ext ho (L := fun _ => .ok none) fun _ => rfl,
      ih₁ (fun x hx => hU x (by simp [OpBuilder.nodes, hx])) (by omega)]
    rfl

theorem tryFromBytesShape_of_aligned {buf : View} {shape : List Nat} {ty : PrimType} (h : buf.addr % ty.alignment = 0) :
    ComponentView.tryFromBytesShape buf shape ty = ComponentView.tryFromBytesShape ⟨0, buf.bytes⟩ shape ty := by
  simp [ComponentView.tryFromBytesShape, h]

/-- What the loop returns for a field, once it is at the component. -/
theorem finish_eq {f : FieldBuilder} {fd : Field} (ho : fd.offset = f.offset) (hl : fd.len = f.len) {id : Nat}
    {ts : Option RealizedTimestamp} {sc : Option RealizedSchema}
    (ha : ∀ t, table = some t → ∀ s, sc = some s → (t.addr + f.offset) % s.ty.alignment = 0) :
    VTable.finish table fd id ts sc =
      f.item (table.map (·.bytes)) ⟨id, ts.bind (·.timestamp), sc.map fun s => (s.dim, s.ty)⟩ := by
  cases sc with
  | none => rfl
  | some s =>
    cases table with
    | none => simp [VTable.finish, FieldBuilder.item, ho]
    | some t =>
      simp only [VTable.finish, FieldBuilder.item, Eval.okOr_some, Eval.ok_bind, Option.map_some, ho, hl, View.get]
      split
      · simp only [Eval.okOr_some, Eval.ok_bind]
        rw [tryFromBytesShape_of_aligned (ha t rfl s rfl)]
      · rfl

theorem fieldLoop_succ (v : VTable) (table : Option View) (fuel rounds : Nat) (fd : Field) (r : OpRef)
    (ts : Option RealizedTimestamp) (sc : Option RealizedSchema) :
    v.fieldLoop table fuel fd (rounds + 1) r ts sc = (v.realize table fuel r >>= fun
      | .component id => VTable.finish table fd id ts sc
      | .schema s => v.fieldLoop table fuel fd rounds s.arg ts (some s)
      | .timestamp t => v.fieldLoop table fuel fd rounds t.arg (some t) sc
      | .ext e => v.fieldLoop table fuel fd rounds e.arg ts sc
      | _ => .err .invalidOp) := rfl

/-- All the loop returns of a timestamp is its value. -/
theorem fieldLoop_congr {rounds : Nat} {fd : Field} {r : OpRef} {ts ts' : Option RealizedTimestamp}
    {sc : Option RealizedSchema} (h : ts.bind (·.timestamp) = ts'.bind (·.timestamp)) :
    v.fieldLoop table fuel fd rounds r ts sc = v.fieldLoop table fuel fd rounds r ts' sc := by
  induction rounds generalizing r ts ts' sc with
  | zero => rfl
  | succ rounds ih =>
    simp only [fieldLoop_succ]
    refine congrArg _ (funext fun op => ?_)
    cases op with
    | component id => simp only [VTable.finish, h]
    | schema s => exact ih h
    | ext e => exact ih h
    | _ => rfl

/-- The loop of `realize_fields`, at the operation of a node, comes to the meaning of the node. -/
theorem fieldLoop_eq {f : FieldBuilder} {fd : Field} (ho : fd.offset = f.offset) (hl : fd.len = f.len) (hv : Built v ref U)
    (ha : Aligned v table fs) (hU : ∀ x ∈ e.nodes, U x) {rounds : Nat} {ts : Option RealizedTimestamp}
    {sc : Option RealizedSchema} (hf : e.nodes.length ≤ fuel) (hr : e.nodes.length ≤ rounds)
    (hm : ∀ t, table = some t → ∀ m,
      e.meaning (table.map (·.bytes)) (ts.bind (·.timestamp)) (sc.map fun s => (s.dim, s.ty)) = .ok m →
      ∀ dim ty, m.schema = some (dim, ty) → (t.addr + f.offset) % ty.alignment = 0) :
    v.fieldLoop table fuel fd rounds (ref e.addr) ts sc =
      (e.meaning (table.map (·.bytes)) (ts.bind (·.timestamp)) (sc.map fun s => (s.dim, s.ty)) >>=
        f.item (table.map (·.bytes))) := by
  induction e generalizing rounds ts sc with
  | data id align bytes =>
    obtain ⟨op, ho', he⟩ := hv _ (hU _ (self_mem_nodes _))
    obtain ⟨fuel, rfl⟩ := exists_succ hf
    obtain ⟨rounds, rfl⟩ := exists_succ hr
    cases op <;> try exact he.elim
    obtain ⟨rfl, hle, hs⟩ := he
    simp [fieldLoop_succ, VTable.realize, VTable.getOp, ho', View.get, hle, OpBuilder.meaning, OpBuilder.eval]
  | table id offset len =>
    obtain ⟨op, ho', he⟩ := hv _ (hU _ (self_mem_nodes _))
    obtain ⟨fuel, rfl⟩ := exists_succ hf
    obtain ⟨rounds, rfl⟩ := exists_succ hr
    cases op <;> try exact he.elim
    obtain ⟨rfl, rfl⟩ := he
    cases table with
    | none => simp [fieldLoop_succ, VTable.realize, VTable.getOp, ho', OpBuilder.meaning, OpBuilder.eval]
    | some t =>
      simp only [fieldLoop_succ, VTable.realize, VTable.getOp, ho', Eval.okOr_some, Eval.ok_bind, OpBuilder.meaning,
        OpBuilder.eval, Option.map_some, View.get]
      split <;> rfl
  | component id c ih =>
    obtain ⟨op, ho', he⟩ := hv _ (hU _ (self_mem_nodes _))
    obtain ⟨fuel, rfl⟩ := exists_succ hf
    obtain ⟨rounds, rfl⟩ := exists_succ hr
    cases op <;> try exact he.elim
    obtain rfl : ref c.addr = _ := he
    simp only [OpBuilder.nodes, List.length_cons] at hf
    rw [fieldLoop_succ, realize_component ho' fun _ => rfl,
      operand_realize hv ha (fun x hx => hU x (List.mem_cons_of_mem _ hx)) (by omega)]
    simp only [OpBuilder.meaning] at hm ⊢
    cases hc : componentOf (c.eval (table.map (·.bytes))) with
    | ok id =>
      rw [hc] at hm
      refine finish_eq ho hl fun t ht s hs => ?_
      subst hs
      exact hm t ht _ rfl _ _ rfl
    | _ => rfl
  | schema id ty dim arg ih₁ ih₂ ih₃ =>
    obtain ⟨op, ho', he⟩ := hv _ (hU _ (self_mem_nodes _))
    obtain ⟨fuel, rfl⟩ := exists_succ hf
    obtain ⟨rounds, rfl⟩ := exists_succ hr
    cases op <;> try exact he.elim
    obtain ⟨rfl, rfl, rfl⟩ := he
    simp only [OpBuilder.nodes, List.length_cons, List.length_append] at hf hr
    rw [fieldLoop_succ, realize_schema ho' (fun _ _ => addr_of_aligned ha (List.mem_of_getElem? ho'))
        (L := fun s => v.fieldLoop table (fuel + 1) fd rounds (ref arg.addr) ts (some ⟨s.1, s.2, ref arg.addr⟩))
        fun _ _ => rfl,
      operand_realize hv ha (fun x hx => hU x (by simp [OpBuilder.nodes, hx])) (by omega),
      operand_realize hv ha (fun x hx => hU x (by simp [OpBuilder.nodes, hx])) (by omega)]
    simp only [OpBuilder.meaning] at hm ⊢
    cases hs : schemaOf (ty.eval (table.map (·.bytes))) (dim.eval (table.map (·.bytes))) with
    | ok s =>
      rw [hs] at hm
      exact ih₃ (fun x hx => hU x (by simp [OpBuilder.nodes, hx])) (by omega) (by omega) hm
    | _ => rfl
  | timestamp id source arg ih₁ ih₂ =>
    obtain ⟨op, ho', he⟩ := hv _ (hU _ (self_mem_nodes _))
    obtain ⟨fuel, rfl⟩ := exists_succ hf
    obtain ⟨rounds, rfl⟩ := exists_succ hr
    cases op <;> try exact he.elim
    obtain ⟨rfl, rfl⟩ := he
    simp only [OpBuilder.nodes, List.length_cons, List.length_append] at hf hr
    have hts : ∀ t range, v.fieldLoop table (fuel + 1) fd rounds (ref arg.addr) (some ⟨t, range, ref arg.addr⟩) sc =
        v.fieldLoop table (fuel + 1) fd rounds (ref arg.addr) (some ⟨t, none, ref arg.addr⟩) sc :=
      fun _ _ => fieldLoop_congr rfl
    rw [fieldLoop_succ, realize_timestamp ho' fun t range => hts t range,
      operand_realize hv ha (fun x hx => hU x (by simp [OpBuilder.nodes, hx])) (by omega)]
    simp only [OpBuilder.meaning] at hm ⊢
    cases hs : timestampOf (source.eval (table.map (·.bytes))) with
    | ok t =>
      rw [hs] at hm
      exact ih₂ (fun x hx => hU x (by simp [OpBuilder.nodes, hx])) (by omega) (by omega) hm
    | _ => rfl
  | ext id extId data arg ih₁ ih₂ =>
    obtain ⟨op, ho', he⟩ := hv _ (hU _ (self_mem_nodes _))
    obtain ⟨fuel, rfl⟩ := exists_succ hf
    obtain ⟨rounds, rfl⟩ := exists_succ hr
    cases op <;> try exact he.elim
    obtain ⟨rfl, rfl, rfl⟩ := he
    simp only [OpBuilder.nodes, List.length_cons, List.length_append] at hf hr
    rw [fieldLoop_succ, realize_ext ho' (L := fun _ => v.fieldLoop table (fuel + 1) fd rounds (ref arg.addr) ts sc)
        fun _ => rfl,
      operand_realize hv ha (fun x hx => hU x (by simp [OpBuilder.nodes, hx])) (by omega)]
    simp only [OpBuilder.meaning] at hm ⊢
    cases hs : extOf (data.eval (table.map (·.bytes))) with
    | ok s =>
      rw [hs] at hm
      exact ih₂ (fun x hx => hU x (by simp [OpBuilder.nodes, hx])) (by omega) (by omega) hm
    | _ => rfl

end

/-! ## The items -/

theorem item_of_holds {f : FieldBuilder} {t : Bytes} {m : Meaning} {dim : List Nat} {ty : PrimType} {n : Nat}
    (hm : m.schema = some (dim, ty)) (h : f.Holds t dim ty n) :
    f.item (some t) m =
      .ok ⟨m.componentId, dim, ty, f.offset, some ⟨ty, dim, slice t f.offset (f.offset + n * ty.size)⟩, m.timestamp⟩ := by
  have := h.elems
  have := h.range
  have hlen : (slice t f.offset (f.offset + f.len)).length = f.len := by
    rw [length_slice (by omega), Nat.add_sub_cancel_left]
  have htake : (slice t f.offset (f.offset + f.len)).take (n * ty.size) = slice t f.offset (f.offset + n * ty.size) := by
    rw [slice_eq_take_drop, slice_eq_take_drop, List.take_take]
    congr 1; omega
  have hbool : ¬ (ty = .bool ∧ (slice t f.offset (f.offset + n * ty.size)).any (fun b => b > 1) = true) := by
    rintro ⟨hty, hany⟩
    obtain ⟨b, hb, hgt⟩ := List.any_eq_true.mp hany
    exact absurd (h.bool hty b hb) (by simpa using hgt)
  simp only [FieldBuilder.item, hm, Eval.okOr_some, Eval.ok_bind, View.get]
  rw [if_pos ⟨by omega, h.range⟩]
  simp only [Eval.okOr_some, Eval.ok_bind, ComponentView.tryFromBytesShape, h.product, hlen, htake]
  rw [if_neg (by have := h.size; omega), if_neg (by simp), if_neg (by omega), if_neg hbool]
  rfl

section
variable {fields : List FieldBuilder} {addr : Nat} {table : Option View}

theorem exists_of_forall₂ {α β : Type} {R : α → β → Prop} {as : List α} {bs : List β} (h : List.Forall₂ R as bs) {a : α}
    (ha : a ∈ as) : ∃ b ∈ bs, R a b := by
  induction h with
  | nil => cases ha
  | cons hr _ ih =>
    rcases List.mem_cons.mp ha with rfl | ha
    · exact ⟨_, List.mem_cons_self, hr⟩
    · exact (ih ha).imp fun b ⟨hb, hr⟩ => ⟨List.mem_cons_of_mem _ hb, hr⟩

theorem length_le_of_mem {f : FieldBuilder} (h : f ∈ fields) : f.arg.nodes.length ≤ (nodesOf fields).length := by
  obtain ⟨xs, ys, rfl⟩ := List.append_of_mem h
  simp only [nodesOf, List.flatMap_append, List.flatMap_cons, List.length_append]
  omega

/-- Where the operation of the node at an address is. -/
def refOf (fields : List FieldBuilder) (a : Nat) : OpRef := ((fields.foldl pushField .empty).visited.lookup a).getD 0

/-- Where it is for a builder without casts. -/
def plainRef (dataFirst : Bool) (fields : List FieldBuilder) (a : Nat) : OpRef :=
  (((Emitter.plain dataFirst).build fields).visited.lookup a).getD 0

theorem plainRef_eq {dataFirst : Bool} {a : Nat} {r : OpRef} (h : At ((Emitter.plain dataFirst).build fields) a r) :
    plainRef dataFirst fields a = r := by
  rw [plainRef, h]
  rfl

/-- Where the operations of the nodes are, without casts. -/
theorem built_plainRef (addr : Nat) (hd : Dag fields) (dataFirst : Bool) :
    (∀ (i : Nat) (op : Op), ((Emitter.plain dataFirst).vtable fields addr).ops[i]? = some op → ∀ r ∈ op.refs, r < i) ∧
    (∀ e ∈ nodesOf fields, ∃ r, At ((Emitter.plain dataFirst).build fields) e.addr r) ∧
    Built ((Emitter.plain dataFirst).vtable fields addr) (plainRef dataFirst fields) (· ∈ nodesOf fields) ∧
    ((Emitter.plain dataFirst).vtable fields addr).fields =
      fields.map fun f => ⟨f.offset, f.len, plainRef dataFirst fields f.arg.addr⟩ := by
  obtain ⟨hinv, _, added, hfields, hadded⟩ :=
    foldl_spec (fun x hx y hy => hd.inj x hx y hy) (fun x hx => hx) (inv_empty (· ∈ nodesOf fields)) dataFirst
  have hat : ∀ e ∈ nodesOf fields, ∃ r, At ((Emitter.plain dataFirst).build fields) e.addr r := by
    intro e he
    obtain ⟨f, hf, hef⟩ := List.mem_flatMap.mp he
    obtain ⟨fd, _, _, _, ha⟩ := exists_of_forall₂ hadded hf
    exact exists_at hinv (fun x hx => List.mem_flatMap.mpr ⟨f, hf, hx⟩) ha e hef
  refine ⟨hinv.refs, hat, ?_, ?_⟩
  · intro e he
    obtain ⟨r, hr⟩ := hat e he
    obtain ⟨op, hop, henc⟩ := hinv.known e he r hr
    exact ⟨op, by rw [plainRef_eq hr]; exact hop, encodes_mono List.prefix_rfl (fun _ _ => plainRef_eq) henc⟩
  · have h : List.Forall₂ (· = ·) (fields.map fun f =>
        Impl.Proto.Field.mk f.offset f.len (plainRef dataFirst fields f.arg.addr)) added :=
      List.forall₂_map_left_iff.mpr (hadded.imp fun f fd ⟨ho, hl, ha⟩ => by rw [plainRef_eq ha, ← ho, ← hl])
    rw [List.forall₂_eq_eq_eq] at h
    exact hfields.trans h.symm

theorem refOf_eq_plainRef {addr : Nat} (hd : Dag fields)
    (hf : Fits (vtable fields addr).ops (vtable fields addr).data.bytes) : refOf fields = plainRef false fields := by
  funext a
  rw [refOf, build_eq, build_plain hd exact_rust (narrow_of_fits hd hf)]
  rfl

/-- Where the operations of the nodes are, in a vtable that fits. -/
theorem built_refOf (addr : Nat) (hd : Dag fields) (hf : Fits (vtable fields addr).ops (vtable fields addr).data.bytes) :
    (∀ (i : Nat) (op : Op), (vtable fields addr).ops[i]? = some op → ∀ r ∈ op.refs, r < i) ∧
    Built (vtable fields addr) (refOf fields) (· ∈ nodesOf fields) ∧
    (vtable fields addr).fields = fields.map fun f => ⟨f.offset, f.len, refOf fields f.arg.addr⟩ := by
  obtain ⟨hrefs, -, hb, hfields⟩ := built_plainRef addr hd false
  rw [refOf_eq_plainRef hd hf, vtable_plain hd (narrow_of_fits hd hf)]
  exact ⟨hrefs, hb, hfields⟩

theorem exists_built (addr : Nat) (hd : Dag fields) (hf : Fits (vtable fields addr).ops (vtable fields addr).data.bytes) :
    (∀ (i : Nat) (op : Op), (vtable fields addr).ops[i]? = some op → ∀ r ∈ op.refs, r < i) ∧
    ∃ ref : Nat → OpRef, Built (vtable fields addr) ref (· ∈ nodesOf fields) ∧
      (vtable fields addr).fields = fields.map fun f => ⟨f.offset, f.len, ref f.arg.addr⟩ := by
  obtain ⟨hrefs, hbuilt, hfields⟩ := built_refOf addr hd hf
  exact ⟨hrefs, refOf fields, hbuilt, hfields⟩

/-- With fuel for the deepest expression, the items are those of the fields. -/
theorem items_eq (hd : Dag fields) (hf : Fits (vtable fields addr).ops (vtable fields addr).data.bytes)
    (ha : Aligned (vtable fields addr) table fields) : ∃ fuel, ∀ fuel' ≥ fuel,
      (vtable fields addr).fields.map ((vtable fields addr).realizeField table fuel') =
        fields.map (·.eval (table.map (·.bytes))) := by
  obtain ⟨_, ref, hv, hfields⟩ := exists_built addr hd hf
  refine ⟨(nodesOf fields).length, fun fuel hfuel => ?_⟩
  rw [hfields, List.map_map]
  refine List.map_congr_left fun f hmem => ?_
  have hsub : ∀ x ∈ f.arg.nodes, x ∈ nodesOf fields := fun x hx => List.mem_flatMap.mpr ⟨f, hmem, hx⟩
  have hle : f.arg.nodes.length ≤ fuel := (length_le_of_mem hmem).trans hfuel
  exact fieldLoop_eq rfl rfl hv ha hsub hle hle fun t ht m hm => ha.fields t ht f hmem m hm

/-- A built vtable refers to earlier operations only, has one operation for each node, and gives for each field, in order,
what its expression means; that is an item with the component and timestamp written in it and the innermost schema
wherever the table holds the elements of the field. -/
theorem vtable_agrees (hd : Dag fields) (hf : Fits (vtable fields addr).ops (vtable fields addr).data.bytes)
    (ha : Aligned (vtable fields addr) table fields) :
    (∀ (i : Nat) (op : Op), (vtable fields addr).ops[i]? = some op → ∀ r ∈ op.refs, r < i) ∧
    (∃ ref : Nat → OpRef, Built (vtable fields addr) ref (· ∈ nodesOf fields) ∧
      (vtable fields addr).fields = fields.map fun f => ⟨f.offset, f.len, ref f.arg.addr⟩) ∧
    (∃ fuel, ∀ fuel' ≥ fuel,
      (vtable fields addr).fields.map ((vtable fields addr).realizeField table fuel') =
        fields.map (·.eval (table.map (·.bytes)))) ∧
    ∀ f ∈ fields, ∀ t, table = some t → ∀ m, f.arg.meaning (some t.bytes) none none = .ok m →
      ∀ dim ty n, m.schema = some (dim, ty) → f.Holds t.bytes dim ty n →
        f.eval (some t.bytes) = .ok ⟨m.componentId, dim, ty, f.offset,
          some ⟨ty, dim, slice t.bytes f.offset (f.offset + n * ty.size)⟩, m.timestamp⟩ := by
  obtain ⟨hrefs, hbuilt⟩ := exists_built addr hd hf
  refine ⟨hrefs, hbuilt, items_eq hd hf ha, fun f _ t _ m hm dim ty n hs hh => ?_⟩
  rw [FieldBuilder.eval, hm]
  exact item_of_holds hs hh

end

/-- Two fields that share the timestamp, its place in the table, and the type. -/
def sharedFields : List FieldBuilder :=
  let time := .table 0 0 8
  let ty := .data 1 8 (leBytes 8 PrimType.u8.toNat)
  [⟨8, 2, .schema 2 ty (.data 3 8 (leBytes 8 2)) (.timestamp 4 time (.ofComponent 5 6 1))⟩,
    ⟨10, 1, .schema 7 ty (.data 8 8 []) (.timestamp 9 time (.ofComponent 10 11 2))⟩]

/-- Their table. -/
def sharedTable : View := ⟨0, i64Bytes 1000 ++ [7, 8, 9]⟩

theorem vtable_agrees_shared : ∃ fuel, ∀ fuel' ≥ fuel,
    (vtable sharedFields 0).fields.map ((vtable sharedFields 0).realizeField (some sharedTable) fuel') =
      [.ok ⟨1, [2], .u8, 8, some ⟨.u8, [2], [7, 8]⟩, some 1000⟩, .ok ⟨2, [], .u8, 10, some ⟨.u8, [], [9]⟩, some 1000⟩] := by
  have hd : Dag sharedFields := ⟨by decide, fun a n d h => by
    simp [sharedFields, nodesOf, OpBuilder.nodes, OpBuilder.ofComponent] at h; omega⟩
  have ha : Aligned (vtable sharedFields 0) (some sharedTable) sharedFields := by
    have hops : (vtable sharedFields 0).ops = [.data 0 8, .data 8 8, .table 0 8, .data 16 8, .component 3,
        .timestamp 2 4, .schema 0 1 5, .data 24 0, .data 24 8, .component 8, .timestamp 2 9, .schema 0 7 10] := by decide
    have haddr : (vtable sharedFields 0).data.addr = 0 := rfl
    refine ⟨fun ty dim arg o l hs hdim => ?_, fun t ht ty dim arg o l hs hdim => ?_, fun t ht f hf m hm dim ty hs => ?_⟩
    · simp only [hops, List.mem_cons, Op.schema.injEq, reduceCtorEq, false_or, List.not_mem_nil, or_false] at hs
      rcases hs with ⟨rfl, rfl, rfl⟩ | ⟨rfl, rfl, rfl⟩ <;> simp [hops] at hdim <;> omega
    · simp only [hops, List.mem_cons, Op.schema.injEq, reduceCtorEq, false_or, List.not_mem_nil, or_false] at hs
      rcases hs with ⟨rfl, rfl, rfl⟩ | ⟨rfl, rfl, rfl⟩ <;> simp [hops] at hdim
    · have hty : sharedFields.map (·.arg.meaning (some sharedTable.bytes) none none) =
          [.ok ⟨1, some 1000, some ([2], .u8)⟩, .ok ⟨2, some 1000, some ([], .u8)⟩] := by decide
      have hmem := List.mem_map_of_mem (f := (·.arg.meaning (some sharedTable.bytes) none none)) hf
      rw [hty] at hmem
      simp only [Option.map_some] at hm
      simp only [hm, List.mem_cons, Eval.ok.injEq, List.not_mem_nil, or_false] at hmem
      obtain rfl : ty = .u8 := by rcases hmem with rfl | rfl <;> cases hs <;> rfl
      exact Nat.mod_one _
  obtain ⟨_, _, ⟨fuel, h⟩, _⟩ := vtable_agrees hd ⟨by decide, by decide⟩ ha
  refine ⟨fuel, fun fuel' hf => (h fuel' hf).trans ?_⟩
  decide

/-! ## Items that are not as written -/

/-- A field of one `bool`. -/
def boolField : FieldBuilder := ⟨0, 1, .ofSchema 0 1 2 .bool [] (.ofComponent 3 4 7)⟩

/-- Two fields, the first with an extension of its own bytes; they share the type and the dimensions. -/
def extFields (bytes : Bytes) : List FieldBuilder :=
  let ty := .data 0 8 (leBytes 8 PrimType.u64.toNat)
  let dim := .data 1 8 []
  [⟨0, 8, .schema 2 ty dim (.ext 3 0 (.data 4 1 bytes) (.ofComponent 5 6 1))⟩,
    ⟨8, 8, .schema 7 ty dim (.ofComponent 8 9 7)⟩]

theorem vtable_extFields {bytes : Bytes} (h : bytes.length = 2 ^ 32) : vtable (extFields bytes) 0 =
    ⟨[.data 0 8, .data 8 0, .data 8 8, .component 2, .data 16 0, .ext 3 0 4, .schema 0 1 5, .data 16 8, .component 7,
      .schema 0 1 8], [⟨0, 8, 6⟩, ⟨8, 8, 9⟩],
      ⟨0, leBytes 8 3 ++ leBytes 8 1 ++ bytes ++ leBytes 8 7⟩⟩ := by
  simp [vtable, extFields, pushField, visit, memo, pushData, asU32, h, VTableBuilder.empty, OpBuilder.ofComponent,
    PrimType.toNat, List.lookup_cons, List.lookup_nil]

/-- The second field reads its component id where the first one's bytes begin. -/
theorem realizeField_extFields {bytes : Bytes} (h : bytes.length = 2 ^ 32) :
    (vtable (extFields bytes) 0).realizeField none 3 ⟨8, 8, 9⟩ = .ok ⟨leNat (bytes.take 8), [], .u64, 8, none, none⟩ := by
  have hlen : (leBytes 8 3 ++ leBytes 8 1 ++ bytes ++ leBytes 8 7).length = 2 ^ 32 + 24 := by simp [h]
  have hty : slice (leBytes 8 3 ++ leBytes 8 1 ++ bytes ++ leBytes 8 7) 0 8 = leBytes 8 3 := by simp [slice]
  have hid : slice (leBytes 8 3 ++ leBytes 8 1 ++ bytes ++ leBytes 8 7) 16 24 = bytes.take 8 := by
    rw [slice_eq_take_drop]
    simp [List.drop_append, List.take_append, h]
  rw [vtable_extFields h]
  generalize leBytes 8 3 ++ leBytes 8 1 ++ bytes ++ leBytes 8 7 = data at hlen hty hid
  have hty : View.get ⟨0, data⟩ 0 8 = some ⟨0, leBytes 8 3⟩ := by simp [View.get, hlen, hty]
  have hdim : View.get ⟨0, data⟩ 8 8 = some ⟨8, []⟩ := by simp [View.get, hlen, slice_of_le]
  have hid : View.get ⟨0, data⟩ 16 24 = some ⟨16, bytes.take 8⟩ := by simp [View.get, hlen, hid]
  have hu64 : primTypeOfBytes (leBytes 8 3) = some .u64 := by decide
  simp [VTable.realizeField, fieldLoop_succ, VTable.realize, VTable.getOp, hty, hdim, hid, hu64, h, RealizedOp.asPrimTy,
    RealizedOp.asSlice, RealizedOp.asComponentId, View.asU64s, View.words, VTable.finish]

/-- A `bool` that is neither 0 nor 1 gives an error, and data that does not fit in 32 bits is read at the wrong offset. -/
theorem not_as_written :
    (boolField.arg.meaning (some [2]) none none = .ok ⟨7, none, some ([], .bool)⟩ ∧
      ∃ fuel, ∀ fuel' ≥ fuel, (vtable [boolField] 0).fields.map
        ((vtable [boolField] 0).realizeField (some ⟨0, [2]⟩) fuel') = [.err .invalidComponentData]) ∧
    ((extFields (List.replicate (2 ^ 32) 0)).map (·.eval none) =
        [.ok ⟨1, [], .u64, 0, none, none⟩, .ok ⟨7, [], .u64, 8, none, none⟩] ∧
      (vtable (extFields (List.replicate (2 ^ 32) 0)) 0).realizeField none 3 ⟨8, 8, 9⟩ =
        .ok ⟨0, [], .u64, 8, none, none⟩) := by
  refine ⟨⟨by decide, 3, fun fuel hf => ?_⟩, ?_, ?_⟩
  · obtain ⟨n, rfl⟩ : ∃ n, fuel = n + 3 := ⟨fuel - 3, by omega⟩
    rfl
  · generalize List.replicate (2 ^ 32) (0 : UInt8) = bytes
    rfl
  · rw [realizeField_extFields List.length_replicate, List.take_replicate]
    rfl

end Metor.Proof.VTable
