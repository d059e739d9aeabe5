import Metor.Proof.VTable.Room
import Metor.Spec.VTable

/-!
# The two builders describe the same data

Two vtables that have operations for the same nodes realize these alike
(`realize_same`), so they say the same of every field (`describe_eq`). The
Rust and the C++ builder make such vtables while they store no position that
they truncate (`cpp_agrees`), and do not beyond (`cpp_truncates`).
-/

namespace Metor.Proof.VTable

open Metor.Lib Metor.Impl.Proto Metor.Spec.VTable

/-- The operations of a node in two vtables say the same, and go on with the same argument. -/
inductive SameOp (ref ref' : Nat → OpRef) : OpBuilder → RealizedOp → RealizedOp → Prop
  | data {a align bytes} {s s' : View} : s.bytes = s'.bytes → SameOp ref ref' (.data a align bytes) (.data s) (.data s')
  | table {a offset len slice range} : SameOp ref ref' (.table a offset len) (.table slice range) (.table slice range)
  | component {a c id} : SameOp ref ref' (.component a c) (.component id) (.component id)
  | schema {a ty dim arg d t} : SameOp ref ref' (.schema a ty dim arg) (.schema ⟨d, t, ref arg.addr⟩)
      (.schema ⟨d, t, ref' arg.addr⟩)
  | timestamp {a source arg t range} : SameOp ref ref' (.timestamp a source arg) (.timestamp ⟨t, range, ref arg.addr⟩)
      (.timestamp ⟨t, range, ref' arg.addr⟩)
  | ext {a id d arg} {s s' : View} : s.bytes = s'.bytes → SameOp ref ref' (.ext a id d arg) (.ext ⟨id, s, ref arg.addr⟩)
      (.ext ⟨id, s', ref' arg.addr⟩)

section
variable {ref ref' : Nat → OpRef} {e : OpBuilder} {op op' : RealizedOp}

theorem SameOp.said (h : SameOp ref ref' e op op') : op.said = op'.said := by
  cases h with
  | data h => exact congrArg Said.data h
  | ext h => exact congrArg (Said.ext _) h
  | _ => rfl

theorem SameOp.slice (h : SameOp ref ref' e op op') :
    (op.asSlice = none ∧ op'.asSlice = none) ∨ ∃ s s', op.asSlice = some s ∧ op'.asSlice = some s' ∧ s.bytes = s'.bytes := by
  cases h with
  | data h => exact .inr ⟨_, _, rfl, rfl, h⟩
  | @table a offset len slice range =>
    cases slice with
    | none => exact .inl ⟨rfl, rfl⟩
    | some s => exact .inr ⟨s, s, rfl, rfl, rfl⟩
  | _ => exact .inl ⟨rfl, rfl⟩

theorem SameOp.componentId (h : SameOp ref ref' e op op') : op.asComponentId = op'.asComponentId := by
  rcases h.slice with ⟨h, h'⟩ | ⟨s, s', h, h', hs⟩ <;> simp only [RealizedOp.asComponentId, Option.bind_some, *]

theorem SameOp.primTy (h : SameOp ref ref' e op op') : op.asPrimTy = op'.asPrimTy := by
  rcases h.slice with ⟨h, h'⟩ | ⟨s, s', h, h', hs⟩ <;> simp only [RealizedOp.asPrimTy, Option.bind_some, *]

theorem SameOp.tableRange (h : SameOp ref ref' e op op') : op.asTableRange = op'.asTableRange := by
  cases h <;> rfl

end

/-- The data operations of a node that is the dimensions of a schema are aligned for words in both vtables, or in neither. -/
def DimsAgree (v v' : VTable) (ref ref' : Nat → OpRef) (U : OpBuilder → Prop) : Prop :=
  ∀ a ty dim arg, U (.schema a ty dim arg) →
    ∀ offset len, v.ops[ref dim.addr]? = some (.data offset len) →
    ∀ offset' len', v'.ops[ref' dim.addr]? = some (.data offset' len') →
    ((v.data.addr + offset) % 8 = 0 ↔ (v'.data.addr + offset') % 8 = 0)

section
variable {v v' : VTable} {table : Option View} {ref ref' : Nat → OpRef} {U : OpBuilder → Prop} {e : OpBuilder} {fuel : Nat}
  (hv : Built v ref U) (hv' : Built v' ref' U) (hd : DimsAgree v v' ref ref' U)

theorem addr_of_realize_data {r : OpRef} {s : View} (h : v.realize table fuel r = .ok (.data s)) :
    ∃ offset len, v.ops[r]? = some (.data offset len) ∧ s.addr = v.data.addr + offset := by
  cases realizes_of_ok h with
  | data ho hs =>
    rw [View.get] at hs
    split at hs <;> cases hs
    exact ⟨_, _, ho, rfl⟩

include hd in
/-- The words of the dimensions. -/
theorem asU64s_same {a : Nat} {ty dim arg : OpBuilder} {op op' : RealizedOp} {s s' : View}
    (hU : U (.schema a ty dim arg)) (hop : v.realize table fuel (ref dim.addr) = .ok op)
    (hop' : v'.realize table fuel (ref' dim.addr) = .ok op') (h : SameOp ref ref' dim op op')
    (hs : op.asSlice = some s) (hs' : op'.asSlice = some s') : s.asU64s = s'.asU64s := by
  cases h with
  | data h =>
    cases hs
    cases hs'
    obtain ⟨o, l, ho, ha⟩ := addr_of_realize_data hop
    obtain ⟨o', l', ho', ha'⟩ := addr_of_realize_data hop'
    have hal : s.addr % 8 = 0 ↔ s'.addr % 8 = 0 := by rw [ha, ha']; exact hd _ _ _ _ hU o l ho o' l' ho'
    by_cases e : s.addr % 8 = 0
    · rw [asU64s_of_aligned e, asU64s_of_aligned (hal.mp e), h]
    · rw [View.asU64s, View.asU64s, if_pos e, if_pos (mt hal.mpr e)]
  | table =>
    cases hs.symm.trans hs'
    rfl
  | _ => cases hs

include hv hv' hd in
/-- A node realizes alike in both vtables. -/
theorem realize_same (hU : ∀ x ∈ e.nodes, U x) :
    Eval.Rel (SameOp ref ref' e) (v.realize table fuel (ref e.addr)) (v'.realize table fuel (ref' e.addr)) := by
  induction fuel generalizing e with
  | zero => exact .running
  | succ fuel ih =>
    obtain ⟨op, ho, he⟩ := hv e (hU e (self_mem_nodes e))
    obtain ⟨op', ho', he'⟩ := hv' e (hU e (self_mem_nodes e))
    rw [VTable.realize, VTable.realize, VTable.getOp, VTable.getOp, ho, ho', Eval.okOr_some, Eval.okOr_some, Eval.ok_bind,
      Eval.ok_bind]
    cases e with
    | data a align bytes =>
      cases op <;> try exact he.elim
      cases op' <;> try exact he'.elim
      obtain ⟨rfl, hle, hs⟩ := he
      obtain ⟨rfl, hle', hs'⟩ := he'
      simp only [View.get, Nat.le_add_right, hle, hle', true_and, if_true, Eval.okOr_some, Eval.ok_bind]
      exact .ok (.data (hs.trans hs'.symm))
    | table a offset len =>
      cases op <;> try exact he.elim
      cases op' <;> try exact he'.elim
      obtain ⟨rfl, rfl⟩ := he
      obtain ⟨rfl, rfl⟩ := he'
      cases table with
      | none => exact .ok .table
      | some t => exact (Eval.Rel.of_eq (fun _ => rfl)).bind fun s s' _ _ h => h ▸ .ok .table
    | component a c =>
      cases op <;> try exact he.elim
      cases op' <;> try exact he'.elim
      obtain rfl : ref c.addr = _ := he
      obtain rfl : ref' c.addr = _ := he'
      refine (ih fun x hx => hU x (List.mem_cons_of_mem _ hx)).bind fun op op' _ _ h => ?_
      rw [h.componentId]
      exact (Eval.Rel.of_eq (fun _ => rfl)).bind fun id id' _ _ h => h ▸ .ok .component
    | schema a ty dim arg =>
      cases op <;> try exact he.elim
      cases op' <;> try exact he'.elim
      obtain ⟨rfl, rfl, rfl⟩ := he
      obtain ⟨rfl, rfl, rfl⟩ := he'
      refine (ih fun x hx => hU x (by simp [OpBuilder.nodes, hx])).bind fun op op' _ _ h => ?_
      rw [h.primTy]
      refine (Eval.Rel.of_eq (R := Eq) (fun _ => rfl)).bind fun t t' _ _ ht => ?_
      refine (ih fun x hx => hU x (by simp [OpBuilder.nodes, hx])).bind fun op op' hop hop' h => ?_
      rcases h.slice with ⟨hs, hs'⟩ | ⟨s, s', hs, hs', -⟩
      · rw [hs, hs']
        exact .err _
      · rw [hs, hs', Eval.okOr_some, Eval.okOr_some, Eval.ok_bind, Eval.ok_bind,
          asU64s_same hd (hU _ (self_mem_nodes _)) hop hop' h hs hs', ht]
        exact (Eval.Rel.of_eq (fun _ => rfl)).bind fun d d' _ _ h => h ▸ .ok .schema
    | timestamp a source arg =>
      cases op <;> try exact he.elim
      cases op' <;> try exact he'.elim
      obtain ⟨rfl, rfl⟩ := he
      obtain ⟨rfl, rfl⟩ := he'
      refine (ih fun x hx => hU x (by simp [OpBuilder.nodes, hx])).bind fun op op' _ _ h => ?_
      rw [h.tableRange]
      rcases h.slice with ⟨hs, hs'⟩ | ⟨s, s', hs, hs', hb⟩
      · rw [hs, hs']
        exact .ok .timestamp
      · rw [hs, hs']
        simp only [readTimestamp, hb]
        exact (Eval.Rel.of_eq (fun _ => rfl)).bind fun t t' _ _ h => h ▸ .ok .timestamp
    | ext a id d arg =>
      cases op <;> try exact he.elim
      cases op' <;> try exact he'.elim
      obtain ⟨rfl, rfl, rfl⟩ := he
      obtain ⟨rfl, rfl, rfl⟩ := he'
      refine (ih fun x hx => hU x (by simp [OpBuilder.nodes, hx])).bind fun op op' _ _ h => ?_
      rcases h.slice with ⟨hs, hs'⟩ | ⟨s, s', hs, hs', hb⟩
      · rw [hs, hs']
        exact .err _
      · rw [hs, hs']
        exact .ok (.ext hb)

/-! ## The fields -/

/-- The argument of a node. -/
def argNode : OpBuilder → Option OpBuilder
  | .schema _ _ _ arg | .timestamp _ _ arg | .ext _ _ _ arg => some arg
  | _ => none

theorem SameOp.arg {op op' : RealizedOp} (h : SameOp ref ref' e op op') :
    argOf op = (argNode e).map (fun x => ref x.addr) ∧ argOf op' = (argNode e).map fun x => ref' x.addr := by
  cases h <;> exact ⟨rfl, rfl⟩

theorem nodes_argNode {x : OpBuilder} (h : argNode e = some x) : ∀ y ∈ x.nodes, y ∈ e.nodes := by
  cases e <;> cases h <;> simp +contextual [OpBuilder.nodes]

include hv hv' hd in
theorem trail_same {rounds : Nat} (hU : ∀ x ∈ e.nodes, U x) :
    v.trail table fuel rounds (ref e.addr) = v'.trail table fuel rounds (ref' e.addr) := by
  induction rounds generalizing e with
  | zero => rfl
  | succ rounds ih =>
    refine ((realize_same hv hv' hd hU).bind fun op op' _ _ h => ?_).eq
    obtain ⟨ha, ha'⟩ := h.arg
    rw [ha, ha', h.said]
    cases hx : argNode e with
    | none => exact .ok rfl
    | some x =>
      simp only [Option.map_some]
      rw [ih fun y hy => hU y (nodes_argNode hx y hy)]
      exact .of_eq fun _ => rfl

theorem finish_congr {fd fd' : Field} (ho : fd.offset = fd'.offset) (hl : fd.len = fd'.len) {id : Nat}
    {ts ts' : Option RealizedTimestamp} {sc sc' : Option RealizedSchema}
    (ht : ts.bind (·.timestamp) = ts'.bind (·.timestamp))
    (hs : sc.map (fun s => (s.dim, s.ty)) = sc'.map fun s => (s.dim, s.ty)) :
    VTable.finish table fd id ts sc = VTable.finish table fd' id ts' sc' := by
  cases sc with
  | none =>
    cases sc' with
    | none => rfl
    | some s' => cases hs
  | some s =>
    cases sc' with
    | none => cases hs
    | some s' =>
      simp only [Option.map_some, Option.some.injEq, Prod.mk.injEq] at hs
      simp only [VTable.finish, Eval.okOr_some, Eval.ok_bind, ht, ho, hl, hs]

include hv hv' hd in
theorem fieldLoop_same {fd fd' : Field} (ho : fd.offset = fd'.offset) (hl : fd.len = fd'.len) {rounds : Nat}
    {ts ts' : Option RealizedTimestamp} {sc sc' : Option RealizedSchema}
    (ht : ts.bind (·.timestamp) = ts'.bind (·.timestamp))
    (hs : sc.map (fun s => (s.dim, s.ty)) = sc'.map fun s => (s.dim, s.ty)) (hU : ∀ x ∈ e.nodes, U x) :
    v.fieldLoop table fuel fd rounds (ref e.addr) ts sc = v'.fieldLoop table fuel fd' rounds (ref' e.addr) ts' sc' := by
  induction rounds generalizing e ts ts' sc sc' with
  | zero => rfl
  | succ rounds ih =>
    rw [fieldLoop_succ, fieldLoop_succ]
    refine ((realize_same hv hv' hd hU).bind fun op op' _ _ h => ?_).eq
    have hrfl : ∀ {x y : Eval Error RealizedField}, x = y → Eval.Rel Eq x y := fun h => h ▸ .of_eq fun _ => rfl
    cases h with
    | data | table => exact .err _
    | component => exact hrfl (finish_congr ho hl ht hs)
    | schema => exact hrfl (ih ht rfl fun y hy => hU y (nodes_argNode rfl y hy))
    | timestamp => exact hrfl (ih rfl hs fun y hy => hU y (nodes_argNode rfl y hy))
    | ext => exact hrfl (ih ht hs fun y hy => hU y (nodes_argNode rfl y hy))

include hv hv' hd in
/-- Two vtables with the operations of the same nodes say the same of each field. -/
theorem describe_eq {fields : List FieldBuilder} (hU : ∀ x ∈ nodesOf fields, U x)
    (hf : v.fields = fields.map fun f => ⟨f.offset, f.len, ref f.arg.addr⟩)
    (hf' : v'.fields = fields.map fun f => ⟨f.offset, f.len, ref' f.arg.addr⟩) (table : Option View) (fuel : Nat) :
    v.fields.map (v.describe table fuel) = v'.fields.map (v'.describe table fuel) := by
  rw [hf, hf', List.map_map, List.map_map]
  refine List.map_congr_left fun f hm => ?_
  have hn : ∀ x ∈ f.arg.nodes, U x := fun x hx => hU x (List.mem_flatMap.mpr ⟨f, hm, hx⟩)
  have htrail : v.trail table fuel fuel (ref f.arg.addr) = v'.trail table fuel fuel (ref' f.arg.addr) :=
    trail_same hv hv' hd hn
  have hfield : v.fieldLoop table fuel ⟨f.offset, f.len, ref f.arg.addr⟩ fuel (ref f.arg.addr) none none =
      v'.fieldLoop table fuel ⟨f.offset, f.len, ref' f.arg.addr⟩ fuel (ref' f.arg.addr) none none := by
    apply fieldLoop_same hv hv' hd _ _ _ _ hn <;> rfl
  show Description.mk _ _ _ _ = Description.mk _ _ _ _
  rw [Description.mk.injEq]
  exact ⟨rfl, rfl, htrail, hfield⟩

end

/-! ## Termination -/

section
variable {v : VTable} {table : Option View}

/-- References that go down do not come round. -/
theorem terminates_of_refs_lt (h : ∀ (i : Nat) (op : Op), v.ops[i]? = some op → ∀ r ∈ op.refs, r < i) :
    Terminates v table := by
  have hcalls : ∀ a b, Calls v table a b → b < a := by
    rintro a b ⟨op, ho, hc⟩
    refine h a op ho b ?_
    cases op with
    | component c => exact List.mem_singleton.mpr hc
    | schema ty dim arg =>
      rcases hc with rfl | ⟨-, rfl⟩
      · exact List.mem_cons_self
      · exact List.mem_cons_of_mem _ List.mem_cons_self
    | timestamp source arg => exact hc ▸ List.mem_cons_self
    | ext arg id data => exact hc ▸ List.mem_cons_of_mem _ List.mem_cons_self
    | _ => exact hc.elim
  have hleads : ∀ a b, Leads v table a b → b < a := by
    intro a b hl
    cases hl with
    | schema ho => exact h a _ ho b (by simp [Op.refs])
    | timestamp ho => exact h a _ ho b (by simp [Op.refs])
    | ext ho => exact h a _ ho b (by simp [Op.refs])
  have hlt : ∀ (R : OpRef → OpRef → Prop), (∀ a b, R a b → b < a) → ∀ r, ¬ Relation.TransGen R r r := by
    intro R hR r hr
    have hdown : ∀ b, Relation.TransGen R r b → b < r := fun b hb => by
      induction hb with
      | single hb => exact hR _ _ hb
      | tail _ hb ih => exact (hR _ _ hb).trans ih
    exact absurd (hdown r hr) (Nat.lt_irrefl r)
  exact (terminates_iff v table).mpr ⟨hlt _ hcalls, fun _ _ r _ => hlt _ hleads r⟩

end

/-! ## The builders -/

section
variable {fields : List FieldBuilder}

/-- A data operation is aligned for words where its node starts at a word. -/
theorem startsAtWord_iff (hd : Dag fields) {addr : Nat} (ha : addr % 8 = 0) {dataFirst : Bool} {e : OpBuilder}
    (he : e ∈ nodesOf fields) {offset len : Nat}
    (ho : ((Emitter.plain dataFirst).vtable fields addr).ops[plainRef dataFirst fields e.addr]? = some (.data offset len)) :
    (addr + offset) % 8 = 0 ↔ StartsAtWord (emitted dataFirst fields) e := by
  obtain ⟨-, -, hb, -⟩ := built_plainRef addr hd dataFirst
  obtain ⟨op, hop, henc⟩ := hb e he
  obtain rfl := Option.some.inj (hop.symm.trans ho)
  cases e with
  | data a align data =>
    have hstart : ∀ E₁ E₂, emitted dataFirst fields = E₁ ++ .data a align data :: E₂ →
        offset = OpBuilder.dataStart (E₁.foldl OpBuilder.dataEnd 0) align := fun E₁ E₂ hE =>
      (Op.data.inj (Option.some.inj (hop.symm.trans (data_start hd dataFirst hE addr)))).1
    constructor
    · intro h
      obtain ⟨E₁, E₂, hE⟩ := List.append_of_mem (mem_emitted hd he dataFirst)
      refine ⟨E₁, a, align, data, E₂, rfl, hE, ?_⟩
      rw [← hstart E₁ E₂ hE]
      omega
    · rintro ⟨E₁, _, _, _, E₂, ⟨rfl, rfl, rfl⟩, hE, h⟩
      rw [← hstart E₁ E₂ hE] at h
      omega
  | _ => exact henc.elim

theorem dimsAgree_plain (hd : Dag fields) (hw : DimsAlike fields) {addr addr' : Nat} (ha : addr % 8 = 0)
    (ha' : addr' % 8 = 0) :
    DimsAgree ((Emitter.plain true).vtable fields addr) ((Emitter.plain false).vtable fields addr')
      (plainRef true fields) (plainRef false fields) (· ∈ nodesOf fields) := by
  intro a ty dim arg hU offset len ho offset' len' ho'
  have hdim : dim ∈ nodesOf fields := by
    obtain ⟨f, hf, hx⟩ := List.mem_flatMap.mp hU
    exact List.mem_flatMap.mpr ⟨f, hf, nodes_trans hx dim (by simp [OpBuilder.nodes, self_mem_nodes])⟩
  exact (startsAtWord_iff hd ha hdim ho).trans ((hw a ty dim arg hU).trans (startsAtWord_iff hd ha' hdim ho').symm)

/-- Dimensions that are aligned for words start at words. -/
theorem dimsAlike_of_wordDims (hd : Dag fields) (hw : WordDims fields) : DimsAlike fields := by
  intro a ty dim arg hU
  cases dim with
  | data a' align data =>
    have hdim : .data a' align data ∈ nodesOf fields := by
      obtain ⟨f, hf, hx⟩ := List.mem_flatMap.mp hU
      exact List.mem_flatMap.mpr ⟨f, hf, nodes_trans hx _ (by simp [OpBuilder.nodes])⟩
    have hstarts : ∀ dataFirst, StartsAtWord (emitted dataFirst fields) (.data a' align data) := fun dataFirst => by
      obtain ⟨E₁, E₂, hE⟩ := List.append_of_mem (mem_emitted hd hdim dataFirst)
      have hdvd : 8 ∣ align := Nat.dvd_of_mod_eq_zero (hw _ _ _ _ _ _ hU)
      have hmul : align ∣ _ := Nat.dvd_of_mod_eq_zero (dataStart_mod (n := E₁.foldl OpBuilder.dataEnd 0) (hd.align _ _ _ hdim))
      exact ⟨E₁, a', align, data, E₂, rfl, hE, Nat.mod_eq_zero_of_dvd (hdvd.trans hmul)⟩
    exact ⟨fun _ => hstarts false, fun _ => hstarts true⟩
  | _ =>
    refine ⟨fun h => ?_, fun h => ?_⟩ <;>
    · obtain ⟨_, _, _, _, _, h, -⟩ := h
      cases h

/-- While neither builder truncates a position, their vtables say the same of every field, over every table. -/
theorem cpp_agrees (hd : Dag fields) (hw : DimsAlike fields) (hc : Narrow (2 ^ 16) (emitted true fields))
    (hr : Narrow (2 ^ 32) (emitted false fields)) {addr addr' : Nat} (ha : addr % 8 = 0) (ha' : addr' % 8 = 0)
    (table : Option View) :
    (∀ fuel, (Impl.Cpp.vtable fields addr).fields.map ((Impl.Cpp.vtable fields addr).describe table fuel) =
      (vtable fields addr').fields.map ((vtable fields addr').describe table fuel)) ∧
    Terminates (Impl.Cpp.vtable fields addr) table ∧ Terminates (vtable fields addr') table := by
  rw [cpp_vtable_plain hd hc, vtable_plain hd hr]
  obtain ⟨hrefs, -, hv, hf⟩ := built_plainRef addr hd true
  obtain ⟨hrefs', -, hv', hf'⟩ := built_plainRef addr' hd false
  exact ⟨describe_eq hv hv' (dimsAgree_plain hd hw ha ha') (fun _ hx => hx) hf hf' table,
    terminates_of_refs_lt hrefs, terminates_of_refs_lt hrefs'⟩

end

/-- Shared nodes, a timestamp in the table, and the table `sharedTable`. -/
theorem cpp_agrees_shared :
    (Impl.Cpp.vtable sharedFields 0).fields.map ((Impl.Cpp.vtable sharedFields 0).describe (some sharedTable) 5) =
      (vtable sharedFields 8).fields.map ((vtable sharedFields 8).describe (some sharedTable) 5) := by
  have hd : Dag sharedFields := ⟨by decide, fun a n d h => by
    simp [sharedFields, nodesOf, OpBuilder.nodes, OpBuilder.ofComponent] at h; omega⟩
  have hw : WordDims sharedFields := fun a ty a' n bytes arg h => by
    simp [sharedFields, nodesOf, OpBuilder.nodes, OpBuilder.ofComponent] at h
    omega
  exact (cpp_agrees hd (dimsAlike_of_wordDims hd hw) (narrow_of_lt (by decide) (by decide))
    (narrow_of_lt (by decide) (by decide)) (by decide) (by decide) _).1 5

/-! ## Data that is too long for C++ -/

theorem dag_extFields (bytes : Bytes) : Dag (extFields bytes) := by
  obtain ⟨node, hnode⟩ : ∃ node : Nat → OpBuilder, ∀ e ∈ nodesOf (extFields bytes), e = node e.addr := by
    let ty := OpBuilder.data 0 8 (leBytes 8 PrimType.u64.toNat)
    let dim := OpBuilder.data 1 8 []
    let first := OpBuilder.ofComponent 5 6 1
    let ext := OpBuilder.ext 3 0 (.data 4 1 bytes) first
    let second := OpBuilder.ofComponent 8 9 7
    refine ⟨fun a => [ty, dim, .schema 2 ty dim ext, ext, .data 4 1 bytes, first, .data 6 8 (leBytes 8 1),
      .schema 7 ty dim second, second, .data 9 8 (leBytes 8 7)].getD a ty, ?_⟩
    simp [extFields, nodesOf, OpBuilder.nodes, OpBuilder.ofComponent, OpBuilder.addr, ty, dim, first, ext, second]
  refine ⟨fun e he e' he' h => ?_, fun a n d h => ?_⟩
  · rw [hnode e he, hnode e' he', h]
  · simp [extFields, nodesOf, OpBuilder.nodes, OpBuilder.ofComponent] at h
    omega

theorem cpp_vtable_extFields {bytes : Bytes} (h : bytes.length = 2 ^ 16) : Impl.Cpp.vtable (extFields bytes) 0 =
    ⟨[.data 0 8, .data 8 0, .data 8 0, .data 8 8, .component 3, .ext 4 0 2, .schema 0 1 5, .data 16 8, .component 7,
      .schema 0 1 8], [⟨0, 8, 6⟩, ⟨8, 8, 9⟩],
      ⟨0, leBytes 8 3 ++ bytes ++ leBytes 8 1 ++ leBytes 8 7⟩⟩ := by
  simp [Impl.Cpp.vtable, extFields, Impl.Cpp.pushField, Impl.Cpp.visit, Impl.Cpp.memo, Impl.Cpp.pushData, Impl.Cpp.asU16, h, VTableBuilder.empty,
    OpBuilder.ofComponent, PrimType.toNat, List.lookup_cons, List.lookup_nil]

theorem vtable_extFields_narrow {bytes : Bytes} (h : bytes.length = 2 ^ 16) : vtable (extFields bytes) 0 =
    ⟨[.data 0 8, .data 8 0, .data 8 8, .component 2, .data 16 65536, .ext 3 0 4, .schema 0 1 5, .data 65552 8,
      .component 7, .schema 0 1 8], [⟨0, 8, 6⟩, ⟨8, 8, 9⟩],
      ⟨0, leBytes 8 3 ++ leBytes 8 1 ++ bytes ++ leBytes 8 7⟩⟩ := by
  simp [vtable, extFields, VTableBuilder.pushField, VTableBuilder.visit, VTableBuilder.memo, VTableBuilder.pushData, asU32, h,
    VTableBuilder.empty, OpBuilder.ofComponent, PrimType.toNat, List.lookup_cons, List.lookup_nil]

theorem cpp_realize_extFields {bytes : Bytes} (h : bytes.length = 2 ^ 16) :
    (Impl.Cpp.vtable (extFields bytes) 0).realizeField none 4 ⟨0, 8, 6⟩ = .ok ⟨leNat (bytes.take 8), [], .u64, 0, none, none⟩ := by
  have hlen : (leBytes 8 3 ++ bytes ++ leBytes 8 1 ++ leBytes 8 7).length = 65560 := by simp [h]
  have hty : slice (leBytes 8 3 ++ bytes ++ leBytes 8 1 ++ leBytes 8 7) 0 8 = leBytes 8 3 := by simp [slice]
  have hid : slice (leBytes 8 3 ++ bytes ++ leBytes 8 1 ++ leBytes 8 7) 8 16 = bytes.take 8 := by
    rw [slice_eq_take_drop]
    simp [List.take_append, h]
  rw [cpp_vtable_extFields h]
  generalize leBytes 8 3 ++ bytes ++ leBytes 8 1 ++ leBytes 8 7 = data at hlen hty hid
  have hty : View.get ⟨0, data⟩ 0 8 = some ⟨0, leBytes 8 3⟩ := by simp [View.get, hlen, hty]
  have hdim : View.get ⟨0, data⟩ 8 8 = some ⟨8, []⟩ := by simp [View.get, hlen, slice_of_le]
  have hid : View.get ⟨0, data⟩ 8 16 = some ⟨8, bytes.take 8⟩ := by simp [View.get, hlen, hid]
  have hu64 : primTypeOfBytes (leBytes 8 3) = some .u64 := by decide
  simp [VTable.realizeField, fieldLoop_succ, VTable.realize, VTable.getOp, hty, hdim, hid, hu64, h, RealizedOp.asPrimTy,
    RealizedOp.asSlice, RealizedOp.asComponentId, View.asU64s, View.words, VTable.finish]

theorem realize_extFields {bytes : Bytes} (h : bytes.length = 2 ^ 16) :
    (vtable (extFields bytes) 0).realizeField none 4 ⟨0, 8, 6⟩ = .ok ⟨1, [], .u64, 0, none, none⟩ := by
  have hlen : (leBytes 8 3 ++ leBytes 8 1 ++ bytes ++ leBytes 8 7).length = 65560 := by simp [h]
  have hty : slice (leBytes 8 3 ++ leBytes 8 1 ++ bytes ++ leBytes 8 7) 0 8 = leBytes 8 3 := by simp [slice]
  have hid : slice (leBytes 8 3 ++ leBytes 8 1 ++ bytes ++ leBytes 8 7) 8 16 = leBytes 8 1 := by
    rw [slice_eq_take_drop]
    simp
  rw [vtable_extFields_narrow h]
  generalize leBytes 8 3 ++ leBytes 8 1 ++ bytes ++ leBytes 8 7 = data at hlen hty hid
  have hty : View.get ⟨0, data⟩ 0 8 = some ⟨0, leBytes 8 3⟩ := by simp [View.get, hlen, hty]
  have hdim : View.get ⟨0, data⟩ 8 8 = some ⟨8, []⟩ := by simp [View.get, hlen, slice_of_le]
  have hext : View.get ⟨0, data⟩ 16 65552 = some ⟨16, slice data 16 65552⟩ := by simp [View.get, hlen]
  have hid : View.get ⟨0, data⟩ 8 16 = some ⟨8, leBytes 8 1⟩ := by simp [View.get, hlen, hid]
  have hu64 : primTypeOfBytes (leBytes 8 3) = some .u64 := by decide
  have hone : leNat (leBytes 8 1) = 1 := by decide
  simp [VTable.realizeField, fieldLoop_succ, VTable.realize, VTable.getOp, hty, hdim, hext, hid, hu64, hone,
    RealizedOp.asPrimTy, RealizedOp.asSlice, RealizedOp.asComponentId, View.asU64s, View.words, VTable.finish]

/-- With 2 ^ 16 bytes in an extension C++ stores the offset of the component id modulo 2 ^ 16, and it is read from those
bytes. -/
theorem cpp_truncates :
    Dag (extFields (List.replicate (2 ^ 16) 0)) ∧ WordDims (extFields (List.replicate (2 ^ 16) 0)) ∧
    (Impl.Cpp.vtable (extFields (List.replicate (2 ^ 16) 0)) 0).fields.map (·.arg) = [6, 9] ∧
    (vtable (extFields (List.replicate (2 ^ 16) 0)) 0).fields.map (·.arg) = [6, 9] ∧
    (Impl.Cpp.vtable (extFields (List.replicate (2 ^ 16) 0)) 0).realizeField none 4 ⟨0, 8, 6⟩ = .ok ⟨0, [], .u64, 0, none, none⟩ ∧
    (vtable (extFields (List.replicate (2 ^ 16) 0)) 0).realizeField none 4 ⟨0, 8, 6⟩ = .ok ⟨1, [], .u64, 0, none, none⟩ := by
  have hlen : (List.replicate (2 ^ 16) (0 : UInt8)).length = 2 ^ 16 := List.length_replicate
  have hzero : leNat ((List.replicate (2 ^ 16) (0 : UInt8)).take 8) = 0 := by
    rw [List.take_replicate]
    rfl
  generalize List.replicate (2 ^ 16) (0 : UInt8) = bytes at hlen hzero
  refine ⟨dag_extFields bytes, ?_, ?_, ?_, ?_, realize_extFields hlen⟩
  · intro a ty a' n bs arg h
    simp [extFields, nodesOf, OpBuilder.nodes, OpBuilder.ofComponent] at h
    omega
  · rw [cpp_vtable_extFields hlen]
    rfl
  · rw [vtable_extFields_narrow hlen]
    rfl
  · rw [cpp_realize_extFields hlen, hzero]

end Metor.Proof.VTable
