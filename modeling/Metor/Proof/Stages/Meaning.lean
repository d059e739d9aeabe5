import Metor.Proof.Stages.Compile
import Metor.Proof.Stages.Run
import Metor.Proof.VTable.Room
import Metor.Spec.Pipeline

/-!
# The chain of a field expression

In a built vtable the operations from the node of an expression on are those
of the expression, down to its component (`exists_chain`), if the dimensions
of a schema can be cast to words; and only then (`aligned_of_chain`).
-/

namespace Metor.Proof.Stages

open Metor.Lib Metor.Impl.Proto Metor.Impl.Stages Metor.Spec.VTable Metor.Proof.VTable

variable {msgs : Msgs} {v : VTable} {ref : Nat → OpRef} {U : OpBuilder → Prop} {e : Expr} {arg node : OpBuilder}

/-- `Built`, with the data of the nodes aligned. -/
structure Laid (v : VTable) (ref : Nat → OpRef) (U : OpBuilder → Prop) : Prop where
  built : Built v ref U
  aligned : ∀ a align data, U (.data a align data) → ∀ offset len, v.ops[ref a]? = some (.data offset len) →
    offset % align = 0

/-! ## The operation of a node -/

theorem data_realizes (h : Laid v ref U) {a align : Nat} {bytes : Bytes} (hU : U (.data a align bytes)) :
    ∃ s, Realizes v none (ref a) (.data s) ∧ s.bytes = bytes ∧ ∃ offset, s.addr = v.data.addr + offset ∧ offset % align = 0 := by
  obtain ⟨op, ho, he⟩ := h.built _ hU
  cases op <;> try exact he.elim
  obtain ⟨rfl, hle, hs⟩ := he
  exact ⟨_, .data ho (if_pos ⟨Nat.le_add_right _ _, hle⟩), hs, _, rfl, h.aligned a align bytes hU _ _ ho⟩

theorem component_realizes (h : Laid v ref U) {a d id : Nat} (hid : id < 2 ^ 64)
    (hU : ∀ x ∈ (OpBuilder.ofComponent a d id).nodes, U x) : Realizes v none (ref a) (.component id) := by
  obtain ⟨op, ho, he⟩ := h.built _ (hU _ (self_mem_nodes _))
  cases op <;> try exact he.elim
  obtain rfl : ref d = _ := he
  obtain ⟨s, hs, hb, -⟩ := data_realizes h (hU (.data d 8 (leBytes 8 id)) (by simp [OpBuilder.ofComponent, OpBuilder.nodes]))
  refine .component ho hs ?_
  simp only [RealizedOp.asComponentId, RealizedOp.asSlice, Option.bind_some, hb, length_leBytes, if_true,
    leNat_leBytes (show id < 256 ^ 8 from hid)]

theorem timestamp_realizes (h : Laid v ref U) {a : Nat} {source : Stamp} (hn : source.Builds node)
    (hU : ∀ x ∈ (OpBuilder.timestamp a node arg).nodes, U x) :
    ∃ t, Realizes v none (ref a) (.timestamp t) ∧ t.arg = ref arg.addr ∧
      ∀ e, (Expr.timestamp source e).innerRange = e.innerRange.or t.range := by
  obtain ⟨op, ho, he⟩ := h.built _ (hU _ (self_mem_nodes _))
  cases op <;> try exact he.elim
  obtain ⟨hsource, rfl⟩ := he
  have hnode : U node := hU _ (by simp [OpBuilder.nodes, self_mem_nodes])
  cases hn with
  | table b offset len =>
    obtain ⟨op, hb, he⟩ := h.built _ hnode
    cases op <;> try exact he.elim
    obtain ⟨rfl, rfl⟩ := he
    subst hsource
    exact ⟨_, .noTimestamp ho (.noTable hb rfl) rfl, rfl, fun _ => rfl⟩
  | @data t b ht =>
    obtain ⟨s, hs, hb, -⟩ := data_realizes h hnode
    subst hsource
    have hread : readTimestamp s = .ok t := by
      rw [readTimestamp, hb, if_pos (length_i64Bytes t), i64OfBytes_i64Bytes ht]
    exact ⟨_, .timestamp ho hs rfl hread, rfl, fun _ => (Option.or_none ..).symm⟩

theorem ext_realizes (h : Laid v ref U) {a d id : Nat} {bytes : Bytes}
    (hU : ∀ x ∈ (OpBuilder.ext a id (.data d 1 bytes) arg).nodes, U x) :
    ∃ x, Realizes v none (ref a) (.ext x) ∧ x.id = id ∧ x.data.bytes = bytes ∧ x.arg = ref arg.addr := by
  obtain ⟨op, ho, he⟩ := h.built _ (hU _ (self_mem_nodes _))
  cases op <;> try exact he.elim
  obtain ⟨rfl, rfl, hdata⟩ := he
  obtain ⟨s, hs, hb, -⟩ := data_realizes h (hU (.data d 1 bytes) (by simp [OpBuilder.nodes]))
  obtain rfl : ref d = _ := hdata
  exact ⟨_, .ext ho hs rfl, rfl, hb, rfl⟩

theorem schema_realizes (h : Laid v ref U) {a t d : Nat} {ty : PrimType} {dim : List Nat} (hdim : ∀ n ∈ dim, n < 2 ^ 64)
    (hU : ∀ x ∈ (OpBuilder.ofSchema a t d ty dim arg).nodes, U x) (ha : v.data.addr % 8 = 0) :
    Realizes v none (ref a) (.schema ⟨dim, ty, ref arg.addr⟩) := by
  obtain ⟨op, ho, he⟩ := h.built _ (hU _ (self_mem_nodes _))
  cases op <;> try exact he.elim
  obtain ⟨hty, hd, rfl⟩ := he
  obtain ⟨s, hs, hb, -⟩ := data_realizes h (hU (.data t 8 (leBytes 8 ty.toNat)) (by simp [OpBuilder.ofSchema, OpBuilder.nodes]))
  obtain ⟨s', hs', hb', offset, haddr, hoff⟩ := data_realizes h
    (hU (.data d 8 (dim.flatMap (leBytes 8))) (by simp [OpBuilder.ofSchema, OpBuilder.nodes]))
  obtain rfl : ref t = _ := hty
  obtain rfl : ref d = _ := hd
  refine .schema ho hs ?_ hs' rfl ?_
  · simp only [RealizedOp.asPrimTy, RealizedOp.asSlice, Option.bind_some, hb, View.primTypeOfBytes_leBytes]
  · have hlen := View.length_flatMap_leBytes dim
    rw [View.asU64s, if_neg (by omega), if_neg (by rw [hb', hlen]; omega), hb', View.words_flatMap hdim]

/-- A schema whose dimensions could be cast. -/
theorem aligned_of_schema (h : Laid v ref U) {a t d : Nat} {ty : PrimType} {dim : List Nat} {op : RealizedOp}
    (hU : ∀ x ∈ (OpBuilder.ofSchema a t d ty dim arg).nodes, U x) (hr : Realizes v none (ref a) op) :
    v.data.addr % 8 = 0 := by
  obtain ⟨op', ho, he⟩ := h.built _ (hU _ (self_mem_nodes _))
  cases op' <;> try exact he.elim
  obtain ⟨-, hd, -⟩ := he
  obtain ⟨s, hs, -, offset, haddr, hoff⟩ := data_realizes h
    (hU (.data d 8 (dim.flatMap (leBytes 8))) (by simp [OpBuilder.ofSchema, OpBuilder.nodes]))
  obtain rfl : ref d = _ := hd
  cases hr with
  | schema ho' _ _ hdim hslice hwords =>
    cases ho.symm.trans ho'
    cases realizes_unique hs hdim
    cases hslice
    rw [View.asU64s] at hwords
    split at hwords
    · cases hwords
    · omega
  | _ ho' => cases ho.symm.trans ho'

/-! ## The chain -/

/-- What is read off the operations of an expression. -/
structure Reads (msgs : Msgs) (e : Expr) (ops : List RealizedOp) : Prop where
  windows : (windowsOf msgs ops).reverse = e.means
  range : rangeOf ops = e.innerRange
  schema : Impl.Stages.schemaOf ops = e.innerSchema
  plain : e.isFixedRate = false → (∀ op ∈ ops, Plain msgs op) ∧ ops.length = e.depth
  fixedRate : e.isFixedRate = true → ∃ x, .ext x ∈ ops ∧ windowOf msgs (.ext x) = none
  known : ∀ x, .ext x ∈ ops → x.id ≠ msgs.fixedRateBehaviorId

theorem exists_chain (hm : msgs.Lawful) (h : Laid v ref U) (he : e.Builds msgs node) (hU : ∀ x ∈ node.nodes, U x)
    (ha : e.innerSchema ≠ none → v.data.addr % 8 = 0) :
    ∃ ops, Chain v (ref node.addr) ops e.componentId.toNat ∧ Reads msgs e ops := by
  induction he with
  | component a d id =>
    refine ⟨[], .component (component_realizes h id.toNat_lt hU), ⟨rfl, rfl, rfl, fun _ => ⟨by simp, rfl⟩, by simp [Expr.isFixedRate], by simp⟩⟩
  | @schema e arg dim a t d ty hdim _ ih =>
    have haddr := ha (by cases hs : e.innerSchema <;> simp [Expr.innerSchema, hs])
    obtain ⟨ops, hch, hr⟩ := ih (fun x hx => hU x (by simp [OpBuilder.ofSchema, OpBuilder.nodes, hx])) fun _ => haddr
    refine ⟨_, .cons (schema_realizes h hdim hU haddr) rfl hch, ⟨hr.windows, hr.range, ?_, fun hf => ?_, fun hf => ?_, ?_⟩⟩
    · rw [Impl.Stages.schemaOf, hr.schema]
      rfl
    · obtain ⟨hp, hl⟩ := hr.plain hf
      exact ⟨List.forall_mem_cons.mpr ⟨.schema _, hp⟩, congrArg (· + 1) hl⟩
    · obtain ⟨x, hx, hw⟩ := hr.fixedRate hf
      exact ⟨x, List.mem_cons_of_mem _ hx, hw⟩
    · exact fun x hx => hr.known x (by simpa using hx)
  | @timestamp e source node arg a hs _ ih =>
    obtain ⟨t, ht, harg, hrange⟩ := timestamp_realizes h hs hU
    obtain ⟨ops, hch, hr⟩ := ih (fun x hx => hU x (by simp [OpBuilder.nodes, hx])) ha
    refine ⟨_, .cons ht (congrArg some harg) hch, ⟨hr.windows, ?_, hr.schema, fun hf => ?_, fun hf => ?_, ?_⟩⟩
    · rw [rangeOf, hr.range, hrange]
    · obtain ⟨hp, hl⟩ := hr.plain hf
      exact ⟨List.forall_mem_cons.mpr ⟨.timestamp _, hp⟩, congrArg (· + 1) hl⟩
    · obtain ⟨x, hx, hw⟩ := hr.fixedRate hf
      exact ⟨x, List.mem_cons_of_mem _ hx, hw⟩
    · exact fun x hx => hr.known x (by simpa using hx)
  | @mean e arg a d op _ ih =>
    obtain ⟨x, hx, hid, hb, harg⟩ := ext_realizes h hU
    obtain ⟨ops, hch, hr⟩ := ih (fun x hx => hU x (by simp [OpBuilder.nodes, hx])) ha
    have hw : windowOf msgs (.ext x) = some op.window := by rw [windowOf, if_pos hid, hb, hm.meanOp, Option.map_some]
    refine ⟨_, .cons hx (congrArg some harg) hch, ⟨?_, hr.range, hr.schema, fun hf => ?_, fun hf => ?_, ?_⟩⟩
    · rw [windowsOf, List.filterMap_cons, hw, List.reverse_cons, ← windowsOf, hr.windows]
      rfl
    · obtain ⟨hp, hl⟩ := hr.plain hf
      exact ⟨List.forall_mem_cons.mpr ⟨.mean hw, hp⟩, congrArg (· + 1) hl⟩
    · obtain ⟨x, hx, hw⟩ := hr.fixedRate hf
      exact ⟨x, List.mem_cons_of_mem _ hx, hw⟩
    · intro y hy
      rcases List.mem_cons.mp hy with hy | hy
      · cases hy
        rw [hid]
        exact hm.behavior_ne_mean.symm
      · exact hr.known y hy
  | fixedRate a d a' d' op id =>
    obtain ⟨x, hx, hid, -, harg⟩ := ext_realizes h hU
    have hc := component_realizes (a := a') (d := d') h id.toNat_lt fun y hy => hU y (by simp [OpBuilder.nodes, hy])
    have hw : windowOf msgs (.ext x) = none := by rw [windowOf, if_neg (by rw [hid]; exact hm.mean_ne_fixedRate)]
    refine ⟨_, .cons hx (congrArg some harg) (.component hc), ⟨?_, rfl, rfl, by simp [Expr.isFixedRate], fun _ => ?_, ?_⟩⟩
    · rw [windowsOf, List.filterMap_cons, hw]
      rfl
    · exact ⟨x, List.mem_singleton_self _, hw⟩
    · intro y hy
      cases List.mem_singleton.mp hy
      rw [hid]
      exact hm.behavior_ne_fixedRate.symm

/-- A chain from the node of an expression has cast the dimensions of its schemas. -/
theorem aligned_of_chain {ops : List RealizedOp} {id : Nat} (h : Laid v ref U) (he : e.Builds msgs node)
    (hU : ∀ x ∈ node.nodes, U x) (hch : Chain v (ref node.addr) ops id) (hs : e.innerSchema ≠ none) :
    v.data.addr % 8 = 0 := by
  induction he generalizing ops with
  | component | fixedRate => exact absurd rfl hs
  | schema =>
    cases hch with
    | component hr => exact aligned_of_schema h hU hr
    | cons hr _ _ => exact aligned_of_schema h hU hr
  | @timestamp e source node arg a hn _ ih =>
    obtain ⟨t, ht, harg, -⟩ := timestamp_realizes h hn hU
    cases hch with
    | component hr => cases realizes_unique ht hr
    | cons hr ha hch =>
      cases realizes_unique ht hr
      cases ha
      exact ih (fun x hx => hU x (by simp [OpBuilder.nodes, hx])) (harg ▸ hch) hs
  | @mean e arg a d op _ ih =>
    obtain ⟨x, hx, -, -, harg⟩ := ext_realizes h hU
    cases hch with
    | component hr => cases realizes_unique hx hr
    | cons hr ha hch =>
      cases realizes_unique hx hr
      cases ha
      exact ih (fun x hx => hU x (by simp [OpBuilder.nodes, hx])) (harg ▸ hch) hs

end Metor.Proof.Stages

/-!
## When compiling a field keeps its meaning

`preserved_iff`: the plan of a field is that of its expression, and gives the
means over the completed windows, exactly if the expression is `Faithful`. The
stages of the means are pushed in the order they are met, from the outside in,
every stage runs in every iteration, and the loop does not know the id of a
`FixedRateOp`.
-/

namespace Metor.Proof.Stages

open Metor.Lib Metor.Impl.Proto Metor.Impl.Stages Metor.Proof.VTable
open Metor.Impl (ComponentSchema)
open Metor.Impl.FieldTable (Shard headerOffset)
open Metor.Impl.Streams (FixedRateStreamState)

variable {fl : Floats} {msgs : Msgs} {components : UInt64 → Option ComponentSchema} {addr dataAddr : Nat}
  {fields : List FieldBuilder} {f : FieldBuilder} {field : Metor.Impl.Proto.Field} {e : Expr} {c : ComponentSchema}
  {plan : Plan} {v : VTable} {ops : List RealizedOp} {source : StreamStage}

theorem source_eq (h : e.isFixedRate = false) (size : Nat) : e.source size = .realTime size := by
  induction e with
  | component id => rfl
  | fixedRate op id => cases h
  | schema ty dim arg ih | timestamp src arg ih | mean op arg ih => exact ih h

theorem windowSize_pos : ∀ n ∈ e.means.map windowSize, 0 < n := by
  intro n hn
  obtain ⟨w, -, rfl⟩ := List.mem_map.mp hn
  exact Nat.lt_of_lt_of_le Nat.zero_lt_one (Nat.le_max_right _ _)

theorem refines_started (fl : Floats) (ty : PrimType) (size : Nat) (ws : List UInt16) :
    List.Forall₂ (Refines fl ty size) (ws.map MeanStage.new) (started (ws.map windowSize)) := by
  induction ws with
  | nil => exact .nil
  | cons w ws ih => exact .cons (refines_new fl ty size w) ih

/-- In a built vtable the nodes of the fields are laid out. -/
theorem laid_vtable (hd : Dag fields) (hf : Fits (vtable fields dataAddr).ops (vtable fields dataAddr).data.bytes) :
    Laid (vtable fields dataAddr) (refOf fields) (· ∈ nodesOf fields) := by
  obtain ⟨-, hb, -⟩ := built_refOf dataAddr hd hf
  exact ⟨hb, fun a align data hU offset len => data_aligned hd hf hU⟩

/-- The plan of a usable field gives the pipeline of its windows. -/
theorem run_compiled (fl : Floats) (h : Compiled msgs components v field plan ops c (.realTime c.size)) (hf : field ∈ v.fields)
    (hu : Usable msgs addr field ops c) {buf : Buf} {rounds : List Round} (hl : buf.length = headerOffset + tableLen v)
    (hv : ∀ round ∈ rounds, Round.Valid c.size round ∧ round.Quiet plan.shard) :
    ∃ values, ({ plan with stages := [.realTime c.size] } : Plan).run fl addr buf rounds = some values ∧
      values.length = rounds.length ∧ plan.run fl addr buf rounds =
        some (outputs (meanOf fl c.primType c.size) (started ((windowsOf msgs ops).map windowSize)) values) := by
  obtain ⟨ht, hm⟩ := hu
  have hroom := room_of_compiled h hf ht
  have hcast : (windowsOf msgs ops).map MeanStage.new ≠ [] → Castable addr c.size plan.shard c.primType := by
    intro hne
    obtain ⟨hb, ha⟩ := hm fun hnil => hne (by rw [hnil]; rfl)
    refine ⟨size_dvd c, Nat.mod_lt _ (by decide), ?_, hb⟩
    rw [h.shard]
    exact ha
  obtain ⟨values, hvalues, hlen, hrun⟩ := run_refines hroom hcast hv hl hl (refines_started fl c.primType c.size (windowsOf msgs ops))
  have hplan : plan = ⟨.realTime c.size :: ((windowsOf msgs ops).map MeanStage.new).map .mean, plan.shard, c.primType⟩ := by
    rw [List.map_map, ← h.primType]
    exact congrArg (Plan.mk · plan.shard plan.primType) h.stages
  refine ⟨values, ?_, hlen, ?_⟩
  · rw [← hvalues, h.primType]
  · rw [← hrun]
    exact congrArg (Plan.run fl addr · buf rounds) hplan

theorem zeroRound_quiet (shard : Shard) (size : Nat) (streams : UInt64 → FixedRateStreamState) :
    (zeroRound size streams).Quiet shard := fun _ _ => rfl

/-- Two larger windows in a list that reads the same from both ends give their first value too early. -/
theorem oneLarge_of_runs (h : Compiled msgs components v field plan ops c (.realTime c.size)) (hf : field ∈ v.fields)
    (hu : Usable msgs addr field ops c) (hwin : windowsOf msgs ops = e.means) (hp : e.means.reverse = e.means)
    (hrun : ∀ rounds, (∀ round ∈ rounds, Round.Valid c.size round ∧ round.Quiet plan.shard) →
      ∃ values, ({ plan with stages := [.realTime c.size] } : Plan).run fl addr (zeroBuf v) rounds = some values ∧
        plan.run fl addr (zeroBuf v) rounds =
          some (composed (meanOf fl c.primType c.size) (e.means.map windowSize) values)) :
    ((e.means.map windowSize).filter (1 < ·)).length ≤ 1 := by
  by_contra hlarge
  have hpal : (e.means.map windowSize).Palindrome := .of_reverse_eq (by rw [← List.map_reverse, hp])
  obtain ⟨m, hpos, hlt, hdvd⟩ := exists_dvd_of_palindrome hpal windowSize_pos hlarge
  have hv : ∀ round ∈ List.replicate m (zeroRound c.size calmStates.first),
      Round.Valid c.size round ∧ round.Quiet plan.shard :=
    fun round hr => List.eq_of_mem_replicate hr ▸ ⟨zeroRound_valid _ _, zeroRound_quiet _ _ _⟩
  obtain ⟨values, hvalues, hlen, hout⟩ := run_compiled fl h hf hu (List.length_replicate : (zeroBuf v).length = _) hv
  obtain ⟨values', hvalues', hcomp⟩ := hrun _ hv
  cases hvalues.symm.trans hvalues'
  rw [List.length_replicate] at hlen
  have heq := Option.some.inj (hout.symm.trans hcomp)
  rw [composed_eq_nil windowSize_pos (by rw [hlen]; exact hlt), hwin] at heq
  have hstart : ∀ w ∈ (started (e.means.map windowSize) : List (Window Bytes)), After 0 w := by
    intro w hw
    obtain ⟨n, hn, rfl⟩ := List.mem_map.mp hw
    exact ⟨windowSize_pos n hn, (Nat.zero_mod _).symm⟩
  refine outputs_ne_nil hstart (List.ne_nil_of_length_pos (by rw [hlen]; exact hpos)) ?_ heq
  rw [started, List.map_map, Nat.zero_add, hlen]
  exact fun n hn => hdvd n (by simpa using hn)

section

variable {i : Nat} (hm : msgs.Lawful) (hd : Dag fields)
  (hfit : Fits (vtable fields dataAddr).ops (vtable fields dataAddr).data.bytes) (hi : fields[i]? = some f)
  (hi' : (vtable fields dataAddr).fields[i]? = some field) (he : e.Builds msgs f.arg)
  (hc : components e.componentId = some c)

include hi hi' hd hfit in
/-- Where a field of the vtable comes from. -/
theorem field_vtable : field ∈ (vtable fields dataAddr).fields ∧ field.arg = refOf fields f.arg.addr ∧
    ∀ x ∈ f.arg.nodes, x ∈ nodesOf fields := by
  refine ⟨List.mem_of_getElem? hi', ?_, fun x hx => List.mem_flatMap.mpr ⟨f, List.mem_of_getElem? hi, hx⟩⟩
  obtain ⟨-, -, hfields⟩ := built_refOf dataAddr hd hfit
  rw [hfields, List.getElem?_map, hi] at hi'
  cases hi'
  rfl

include hm hd hfit hi hi' he hc in
theorem faithful_of_preserved (h : Preserved fl msgs components (vtable fields dataAddr) addr field e c) :
    Faithful (vtable fields dataAddr) addr field e c := by
  have hlaid := laid_vtable hd hfit
  obtain ⟨hmem, harg, hU⟩ := field_vtable hd hfit hi hi'
  obtain ⟨fuel, plan, hcomp, hstages, hrun⟩ := h
  obtain ⟨ops, c', source, hspec⟩ := compile_spec hcomp
  obtain ⟨id, hch, hc'⟩ := hspec.chain
  rw [harg] at hch
  have hdims := aligned_of_chain hlaid he hU hch
  obtain ⟨ops', hch', hr⟩ := exists_chain hm hlaid he hU hdims
  obtain ⟨rfl, rfl⟩ := chain_unique hch' hch
  rw [UInt64.ofNat_toNat, hc] at hc'
  cases hc'
  -- the loop has only come upon operations it knows
  obtain ⟨hplain, hlen⟩ | ⟨x, hx, hxid⟩ := hspec.reached
  swap
  · exact absurd hxid (hr.known x hx)
  have hreal : e.isFixedRate = false := by
    by_contra hne
    obtain ⟨x, hx, hw⟩ := hr.fixedRate (Bool.eq_true_of_not_eq_false hne)
    cases hplain _ hx with
    | mean hw' => cases hw.symm.trans hw'
  rw [source_eq hreal] at hstages
  obtain ⟨rfl, hmeans⟩ := List.cons.inj (hspec.stages.symm.trans hstages)
  have hinj : Function.Injective fun w => StreamStage.mean (.new w) := fun a b hab => by cases hab; rfl
  have hwin : windowsOf msgs ops = e.means := hinj.list_map hmeans
  have hpal : e.means.reverse = e.means := hwin ▸ hr.windows
  simp only [source_eq hreal] at hrun
  have hruns := fun rounds => hrun (zeroBuf (vtable fields dataAddr)) rounds List.length_replicate
  have hsome : ∀ n, plan.run fl addr (zeroBuf (vtable fields dataAddr))
      (List.replicate n (zeroRound c.size calmStates.first)) ≠ none := by
    intro n
    obtain ⟨values, -, hn⟩ := hruns (List.replicate n (zeroRound c.size calmStates.first)) fun round hr =>
      List.eq_of_mem_replicate hr ▸ ⟨zeroRound_valid _ _, zeroRound_quiet _ _ _⟩
    rw [hn]
    exact Option.some_ne_none _
  have hu : Usable msgs addr field ops c := usable_of_runs hspec .realTime calmStates.can_first hsome
  refine ⟨hreal, hpal, oneLarge_of_runs hspec hmem hu hwin hpal hruns, ?_, hspec.size, hdims, ?_, ?_⟩
  · rw [← (hr.plain hreal).2]
    exact hlen
  · rw [← hr.range]
    exact hu.1
  · rw [← hwin]
    exact hu.2

include hm hd hfit hi hi' he hc in
theorem preserved_of_faithful (hs : ∀ s ∈ e.innerSchema, s = (c.dim, c.primType))
    (h : Faithful (vtable fields dataAddr) addr field e c) :
    Preserved fl msgs components (vtable fields dataAddr) addr field e c := by
  have hlaid := laid_vtable hd hfit
  obtain ⟨hmem, harg, hU⟩ := field_vtable hd hfit hi hi'
  obtain ⟨ops, hch, hr⟩ := exists_chain hm hlaid he hU h.dims
  rw [← harg] at hch
  obtain ⟨hplain, hlen⟩ := hr.plain h.realTime
  have hwin : windowsOf msgs ops = e.means := by rw [← List.reverse_reverse (windowsOf msgs ops), hr.windows, h.palindrome]
  obtain ⟨fuel, hcomp⟩ := compile_of_chain hch hplain (by rw [hlen]; exact h.depth) (by rw [UInt64.ofNat_toNat]; exact hc)
    (by rw [hr.schema]; exact hs) h.size
  have hcomp := hcomp fuel (Nat.le_refl _)
  obtain ⟨ops', c', source, hspec⟩ := compile_spec hcomp
  obtain ⟨id', hch', hc'⟩ := hspec.chain
  obtain ⟨rfl, rfl⟩ := chain_unique hch hch'
  rw [UInt64.ofNat_toNat, hc] at hc'
  cases hc'
  obtain rfl : source = .realTime c.size := (List.cons.inj hspec.stages).1.symm
  refine ⟨fuel, _, hcomp, ?_, fun buf rounds hl hv => ?_⟩
  · rw [hwin, source_eq h.realTime]
  · have hu : Usable msgs addr field ops' c := ⟨by rw [hr.range]; exact h.stamp, by rw [hwin]; exact h.mean⟩
    obtain ⟨values, hvalues, -, hrun⟩ := run_compiled fl hspec hmem hu hl hv
    refine ⟨values, by rw [source_eq h.realTime]; exact hvalues, ?_⟩
    rw [hrun, hwin, outputs_eq_composed windowSize_pos h.oneLarge]

end

/-- The plan of a field is that of its expression just when the expression is faithful. -/
theorem preserved_iff {i : Nat} (hm : msgs.Lawful) (hd : Dag fields)
    (hfit : Fits (vtable fields dataAddr).ops (vtable fields dataAddr).data.bytes) (hi : fields[i]? = some f)
    (hi' : (vtable fields dataAddr).fields[i]? = some field) (he : e.Builds msgs f.arg)
    (hc : components e.componentId = some c) (hs : ∀ s ∈ e.innerSchema, s = (c.dim, c.primType)) :
    Preserved fl msgs components (vtable fields dataAddr) addr field e c ↔
      Faithful (vtable fields dataAddr) addr field e c :=
  ⟨faithful_of_preserved hm hd hfit hi hi' he hc, preserved_of_faithful hm hd hfit hi hi' he hc hs⟩

/-! ## Means of means -/

theorem meanMsgs_lawful : meanMsgs.Lawful where
  meanOp op := by
    show some (MeanOp.mk (.ofNat (ofVarint (varint op.window.toNat)))) = some op
    rw [ofVarint_varint op.window.toNat_lt, UInt16.ofNat_toNat]
  mean_ne_fixedRate := by decide +kernel
  behavior_ne_mean := by decide +kernel
  behavior_ne_fixedRate := by decide +kernel

/-- The mean of two bytes. -/
def meanField : FieldBuilder :=
  ⟨0, 1, .ext 0 meanMsgs.meanOpId (.data 1 1 (meanMsgs.meanOp.toAllocvec ⟨2⟩)) (.ofComponent 2 3 7)⟩

theorem preserved_mean : Preserved smallInts meanMsgs (fun _ => some ⟨.u8, []⟩) (vtable [meanField] 0) 0 ⟨0, 1, 3⟩
    (.mean ⟨2⟩ (.component 7)) ⟨.u8, []⟩ := by
  have hd : Dag [meanField] := ⟨by decide +kernel, fun a n d h => by
    simp [meanField, nodesOf, OpBuilder.nodes, OpBuilder.ofComponent] at h; omega⟩
  refine (preserved_iff (i := 0) meanMsgs_lawful hd ⟨by decide +kernel, by decide +kernel⟩ rfl (by decide +kernel)
    (.mean 0 1 ⟨2⟩ (.component 2 3 7)) rfl (by simp [Expr.innerSchema])).mpr ?_
  exact ⟨rfl, rfl, by decide, by decide, by decide, by simp [Expr.innerSchema], by simp [Expr.innerRange], by decide⟩

/-- The mean of three bytes, and of two of these. -/
def nestedField : FieldBuilder :=
  ⟨0, 1, .ext 0 meanMsgs.meanOpId (.data 1 1 (meanMsgs.meanOp.toAllocvec ⟨2⟩))
    (.ext 2 meanMsgs.meanOpId (.data 3 1 (meanMsgs.meanOp.toAllocvec ⟨3⟩)) (.ofComponent 4 5 7))⟩

/-- The stages of the means are the wrong way round. -/
theorem nested_not_preserved : ¬ ∀ (fl : Floats) (msgs : Msgs) (components : UInt64 → Option ComponentSchema)
    (addr dataAddr i : Nat) (fields : List FieldBuilder) (f : FieldBuilder) (field : Metor.Impl.Proto.Field) (e : Expr)
    (c : ComponentSchema), msgs.Lawful → Dag fields →
      Fits (vtable fields dataAddr).ops (vtable fields dataAddr).data.bytes → fields[i]? = some f →
        (vtable fields dataAddr).fields[i]? = some field → e.Builds msgs f.arg → components e.componentId = some c →
          (∀ s ∈ e.innerSchema, s = (c.dim, c.primType)) →
            Preserved fl msgs components (vtable fields dataAddr) addr field e c := by
  intro h
  have hd : Dag [nestedField] := ⟨by decide +kernel, fun a n d h => by
    simp [nestedField, nodesOf, OpBuilder.nodes, OpBuilder.ofComponent] at h; omega⟩
  have hfit : Fits (vtable [nestedField] 0).ops (vtable [nestedField] 0).data.bytes := ⟨by decide +kernel, by decide +kernel⟩
  have hfield : (vtable [nestedField] 0).fields[0]? = some ⟨0, 1, 5⟩ := by decide +kernel
  have he : Expr.Builds meanMsgs (.mean ⟨2⟩ (.mean ⟨3⟩ (.component 7))) nestedField.arg :=
    .mean 0 1 ⟨2⟩ (.mean 2 3 ⟨3⟩ (.component 4 5 7))
  have hp := h smallInts meanMsgs (fun _ => some ⟨.u8, []⟩) 0 0 0 [nestedField] nestedField ⟨0, 1, 5⟩ _ ⟨.u8, []⟩ meanMsgs_lawful
    hd hfit rfl hfield he rfl (by simp [Expr.innerSchema])
  have hf := faithful_of_preserved meanMsgs_lawful hd hfit (i := 0) rfl hfield he rfl hp
  exact absurd hf.palindrome (by decide)

end Metor.Proof.Stages
