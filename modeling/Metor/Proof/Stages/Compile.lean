import Metor.Proof.VTable.Terminates
import Metor.Spec.Stages

/-!
# What a plan is compiled from

`compile_spec`: the stages, the fields and the type of a plan, from the chain
of operations down to the component. `chain_unique` is what makes the chain of
a field its own, and both fields of a plan lie in the table
(`shard_inTable`), as the hand-off of the packet needs.
-/

namespace Metor.Proof.Stages

open Metor.Lib Metor.Impl.Proto Metor.Impl.Stages Metor.Spec.VTable Metor.Proof.VTable
open Metor.Impl (ComponentSchema)
open Metor.Impl.FieldTable (Which)
open Metor.Impl.Streams (FixedRateOp)

variable {msgs : Msgs} {components : UInt64 → Option ComponentSchema} {v : VTable} {fuel : Nat}
  {r : OpRef} {op : RealizedOp} {ops : List RealizedOp} {id : Nat}

/-! ## Chains -/

theorem chain_unique {ops' : List RealizedOp} {id' : Nat} (h : Chain v r ops id) (h' : Chain v r ops' id') :
    ops' = ops ∧ id' = id := by
  induction h generalizing ops' id' with
  | component hr =>
    cases h' with
    | component hr' =>
      cases realizes_unique hr hr'
      exact ⟨rfl, rfl⟩
    | cons hr' ha =>
      cases realizes_unique hr hr'
      simp [argOf] at ha
  | cons hr ha hc ih =>
    cases h' with
    | component hr' =>
      cases realizes_unique hr hr'
      simp [argOf] at ha
    | cons hr' ha' hc' =>
      cases realizes_unique hr hr'
      cases ha.symm.trans ha'
      obtain ⟨rfl, rfl⟩ := ih hc'
      exact ⟨rfl, rfl⟩

/-- The place of a timestamp lies in the table. -/
theorem rangeOf_inTable {range : Nat × Nat} (h : Chain v r ops id) (hr : rangeOf ops = some range) :
    range.1 ≤ range.2 ∧ range.2 ≤ tableLen v := by
  induction h with
  | component => simp [rangeOf] at hr
  | @cons r r' op ops id hop ha hc ih =>
    match op with
    | .timestamp t =>
      rcases Option.or_eq_some_iff.mp hr with hr | ⟨-, hr⟩
      · exact ih hr
      · have : ∃ source op, Realizes v none source op ∧ op.asTableRange = some range := by
          cases hop with
          | timestamp _ hs _ _ => exact ⟨_, _, hs, hr⟩
          | noTimestamp _ hs _ => exact ⟨_, _, hs, hr⟩
        obtain ⟨source, op, hs, hr⟩ := this
        cases hs with
        | table ho _ _ =>
          cases hr
          refine ⟨Nat.le_add_right _ _, List.le_max?_getD_of_mem (List.mem_append_right _ (List.mem_map.mpr ?_))⟩
          exact ⟨_, List.mem_of_getElem? ho, rfl⟩
        | noTable ho _ =>
          cases hr
          refine ⟨Nat.le_add_right _ _, List.le_max?_getD_of_mem (List.mem_append_right _ (List.mem_map.mpr ?_))⟩
          exact ⟨_, List.mem_of_getElem? ho, rfl⟩
        | _ => simp [RealizedOp.asTableRange] at hr
    | .schema _ | .ext _ => exact ih hr
    | .data _ | .table _ _ | .component _ | .none => simp [argOf] at ha

/-! ## Compiling -/

/-- A stage that hands on the values of a component. -/
inductive IsSource (size : Nat) : StreamStage → Prop
  | realTime : IsSource size (.realTime size)
  | fixedRate (op : FixedRateOp) : IsSource size (.fixedRate size op)

def toField (range : Nat × Nat) : Metor.Impl.VTableStream.Field := ⟨range.1, range.2⟩

theorem realizes_of_realize (h : realize v fuel r = .ok op) : Realizes v none r op := by
  unfold realize at h
  split at h
  · cases h
  · cases h
  · next hr =>
    cases h
    exact realizes_of_ok hr

theorem getComponent_eq_ok {c : ComponentSchema} (h : getComponent components id = .ok c) : components (.ofNat id) = some c :=
  Eval.okOr_eq_ok.mp h

/-- Schemas, timestamps and means. -/
inductive Plain (msgs : Msgs) : RealizedOp → Prop
  | schema (s : RealizedSchema) : Plain msgs (.schema s)
  | timestamp (t : RealizedTimestamp) : Plain msgs (.timestamp t)
  | mean {e : RealizedExt} {w : UInt16} : windowOf msgs (.ext e) = some w → Plain msgs (.ext e)

theorem rateOf_of_plain {op : RealizedOp} (h : Plain msgs op) : rateOf msgs op = none := by
  cases h with
  | schema s => rfl
  | timestamp t => rfl
  | @mean e w hw =>
    rw [windowOf] at hw
    split at hw
    · next hid => exact if_pos hid
    · cases hw

/-- The source of a plan, by the fixed rate above the component. -/
def sourceOf (msgs : Msgs) (size : Nat) (ops : List RealizedOp) : StreamStage :=
  (fixedRateOf msgs ops).elim (.realTime size) (.fixedRate size)

theorem sourceOf_cons {op : RealizedOp} (size : Nat) (ops : List RealizedOp) (h : Plain msgs op) :
    sourceOf msgs size (op :: ops) = sourceOf msgs size ops := by
  rw [sourceOf, fixedRateOf, List.findSome?_cons, rateOf_of_plain h]
  rfl

theorem isSource_sourceOf (msgs : Msgs) (size : Nat) (ops : List RealizedOp) : IsSource size (sourceOf msgs size ops) := by
  rw [sourceOf]
  cases fixedRateOf msgs ops with
  | none => exact .realTime
  | some op => exact .fixedRate op

/-- How the loop comes to a component: through these operations, or by a fixed rate that it knows. -/
def Reached (msgs : Msgs) (rounds : Nat) (ops : List RealizedOp) : Prop :=
  (∀ op ∈ ops, Plain msgs op) ∧ ops.length < rounds ∨ ∃ x, .ext x ∈ ops ∧ x.id = msgs.fixedRateBehaviorId

theorem reached_cons {rounds : Nat} (h : Reached msgs rounds ops) (hop : Plain msgs op) : Reached msgs (rounds + 1) (op :: ops) := by
  rcases h with ⟨hp, hl⟩ | ⟨x, hx, hid⟩
  · exact .inl ⟨List.forall_mem_cons.mpr ⟨hop, hp⟩, Nat.succ_lt_succ hl⟩
  · exact .inr ⟨x, List.mem_cons_of_mem _ hx, hid⟩

/-- What the loop has found, if it came to a component. -/
theorem find_spec {rounds : Nat} {found found' : Found} (hop : Realizes v none r op)
    (h : find msgs components v fuel rounds op found = .ok found') (hs : found.source = none) :
    found'.source = none ∨ ∃ ops id c source, Chain v r ops id ∧ components (.ofNat id) = some c ∧
      source = sourceOf msgs c.size ops ∧ Reached msgs rounds ops ∧ found'.source = some c ∧
      found'.plan = source :: (found.plan ++ (windowsOf msgs ops).map fun w => .mean (.new w)) ∧
      found'.timestamp = ((rangeOf ops).map toField).or found.timestamp := by
  induction rounds generalizing r op found with
  | zero =>
    cases h
    exact .inl hs
  | succ rounds ih =>
    unfold find at h
    split at h
    · next id =>
      obtain ⟨c, hc, h⟩ := Eval.bind_eq_ok.mp h
      cases h
      exact .inr ⟨[], id, c, .realTime c.size, .component hop, getComponent_eq_ok hc, rfl,
        .inl ⟨by simp, Nat.zero_lt_succ _⟩, rfl, by simp [windowsOf], rfl⟩
    · next s =>
      obtain ⟨op', ho, h⟩ := Eval.bind_eq_ok.mp h
      refine (ih (realizes_of_realize ho) h hs).imp_right ?_
      rintro ⟨ops, id, c, source, hch, hc, hsrc, hreach, hsome, hplan, hts⟩
      exact ⟨.schema s :: ops, id, c, source, .cons hop rfl hch, hc, hsrc.trans (sourceOf_cons _ _ (.schema s)).symm,
        reached_cons hreach (.schema s), hsome, hplan, hts⟩
    · next t =>
      obtain ⟨op', ho, h⟩ := Eval.bind_eq_ok.mp h
      refine (ih (realizes_of_realize ho) h hs).imp_right ?_
      rintro ⟨ops, id, c, source, hch, hc, hsrc, hreach, hsome, hplan, hts⟩
      refine ⟨.timestamp t :: ops, id, c, source, .cons hop rfl hch, hc, hsrc.trans (sourceOf_cons _ _ (.timestamp t)).symm,
        reached_cons hreach (.timestamp t), hsome, hplan, hts.trans ?_⟩
      cases hr : rangeOf ops with
      | none => simp only [rangeOf, hr, Option.map_none, Option.none_or]; rfl
      | some range => simp only [rangeOf, hr, Option.map_some, Option.some_or]
    · next e =>
      split at h
      · next hid =>
        obtain ⟨mean, hm, h⟩ := Eval.bind_eq_ok.mp h
        obtain ⟨op', ho, h⟩ := Eval.bind_eq_ok.mp h
        refine (ih (realizes_of_realize ho) h hs).imp_right ?_
        rintro ⟨ops, id, c, source, hch, hc, hsrc, hreach, hsome, hplan, hts⟩
        have hw : windowOf msgs (.ext e) = some mean.window := by
          rw [windowOf, if_pos hid, Eval.okOr_eq_ok.mp hm, Option.map_some]
        refine ⟨.ext e :: ops, id, c, source, .cons hop rfl hch, hc, hsrc.trans (sourceOf_cons _ _ (.mean hw)).symm,
          reached_cons hreach (.mean hw), hsome, hplan.trans ?_, hts⟩
        simp only [windowsOf, List.filterMap_cons, hw, List.map_cons, List.append_assoc, List.singleton_append]
      · next hid =>
        split at h
        · next hid' =>
          obtain ⟨op, hop', h⟩ := Eval.bind_eq_ok.mp h
          obtain ⟨op', ho, h⟩ := Eval.bind_eq_ok.mp h
          split at h
          · next id =>
            obtain ⟨c, hc, h⟩ := Eval.bind_eq_ok.mp h
            cases h
            have hw : windowOf msgs (.ext e) = none := by rw [windowOf, if_neg hid]
            refine .inr ⟨[.ext e], id, c, .fixedRate c.size op, .cons hop rfl (.component (realizes_of_realize ho)), getComponent_eq_ok hc,
              ?_, .inr ⟨e, List.mem_singleton_self _, hid'⟩, rfl, ?_, rfl⟩
            · rw [sourceOf, fixedRateOf, List.findSome?_singleton, rateOf, if_neg hid, if_pos hid', Eval.okOr_eq_ok.mp hop']
              rfl
            · simp only [windowsOf, List.filterMap_cons, hw, List.filterMap_nil, List.map_nil, List.append_nil]
          · cases h
        · cases h
    · cases h

/-- What a plan is made of. -/
structure Compiled (msgs : Msgs) (components : UInt64 → Option ComponentSchema) (v : VTable) (field : Metor.Impl.Proto.Field)
    (plan : Plan) (ops : List RealizedOp) (c : ComponentSchema) (source : StreamStage) : Prop where
  chain : ∃ id, Chain v field.arg ops id ∧ components (.ofNat id) = some c
  source_eq : source = sourceOf msgs c.size ops
  reached : Reached msgs 65535 ops
  stages : plan.stages = source :: (windowsOf msgs ops).map fun w => .mean (.new w)
  shard : plan.shard = ⟨⟨field.offset, field.offset + field.len⟩, (rangeOf ops).map toField⟩
  primType : plan.primType = c.primType
  size : c.size = field.len

theorem Compiled.isSource {field : Metor.Impl.Proto.Field} {plan : Plan} {c : ComponentSchema} {source : StreamStage}
    (h : Compiled msgs components v field plan ops c source) : IsSource c.size source :=
  h.source_eq ▸ isSource_sourceOf msgs c.size ops

theorem compile_spec {field : Metor.Impl.Proto.Field} {plan : Plan} (h : compile msgs components v fuel field = .ok plan) :
    ∃ ops c source, Compiled msgs components v field plan ops c source := by
  obtain ⟨op, ho, h⟩ := Eval.bind_eq_ok.mp h
  obtain ⟨found, hf, h⟩ := Eval.bind_eq_ok.mp h
  obtain ⟨c', hc', h⟩ := Eval.bind_eq_ok.mp h
  rcases find_spec (realizes_of_realize ho) hf rfl with hnone |
    ⟨ops, id, c, source, hch, hc, hsrc, hreach, hsome, hplan, hts⟩
  · rw [hnone] at hc'
    cases hc'
  · obtain rfl : c = c' := Option.some.inj (hsome.symm.trans (Eval.okOr_eq_ok.mp hc'))
    have hts : found.timestamp = (rangeOf ops).map toField := hts.trans (Option.or_none ..)
    have of_eq : ∀ hsize : ¬ c.size ≠ field.len,
        plan = ⟨found.plan, ⟨⟨field.offset, field.offset + field.len⟩, found.timestamp⟩, c.primType⟩ →
          Compiled msgs components v field plan ops c source := by
      rintro hsize rfl
      exact ⟨⟨id, hch, hc⟩, hsrc, hreach, hplan, by rw [hts], rfl, not_not.mp hsize⟩
    split at h
    · split at h
      · cases h
      · split at h
        · cases h
        · next hsize => exact ⟨ops, c, source, of_eq hsize (by cases h; rfl)⟩
    · split at h
      · cases h
      · next hsize => exact ⟨ops, c, source, of_eq hsize (by cases h; rfl)⟩

/-- Every field has a plan, and every plan a field. -/
theorem handleVTableStream_forall₂ {fields : List Metor.Impl.Proto.Field} {plans : List Plan}
    (h : handleVTableStream msgs components v fuel fields = .ok plans) :
    List.Forall₂ (fun field plan => compile msgs components v fuel field = .ok plan) fields plans := by
  induction fields generalizing plans with
  | nil =>
    cases h
    exact .nil
  | cons field fields ih =>
    obtain ⟨plan, hp, h⟩ := Eval.bind_eq_ok.mp h
    obtain ⟨plans', hps, h⟩ := Eval.bind_eq_ok.mp h
    cases h
    exact .cons hp (ih hps)

variable {field : Metor.Impl.Proto.Field} {plan : Plan} {c : ComponentSchema} {source : StreamStage}

/-! ## Chains that compile -/

/-- What the loop has found at the component. -/
def foundOf (msgs : Msgs) (ops : List RealizedOp) (c : ComponentSchema) (found : Found) : Found where
  plan := .realTime c.size :: (found.plan ++ (windowsOf msgs ops).map fun w => .mean (.new w))
  source := some c
  timestamp := ((rangeOf ops).map toField).or found.timestamp
  schema := (Impl.Stages.schemaOf ops).or found.schema

theorem exists_realize (h : Realizes v none r op) : ∃ n, ∀ fuel ≥ n, realize v fuel r = .ok op := by
  obtain ⟨n, hn⟩ := ok_of_realizes h
  exact ⟨n, fun fuel hf => by rw [realize, realize_eq_ok hn hf]⟩

/-- The loop goes through the chain, if it has more rounds than the chain has operations. -/
theorem find_of_chain (components : UInt64 → Option ComponentSchema) (h : Chain v r ops id) (hp : ∀ op ∈ ops, Plain msgs op) :
    ∃ op, Realizes v none r op ∧ ∃ n, ∀ fuel ≥ n, ∀ rounds found, found.source = none →
      (ops.length < rounds → ∀ c, components (.ofNat id) = some c →
        find msgs components v fuel rounds op found = .ok (foundOf msgs ops c found)) ∧
      (rounds ≤ ops.length → ∃ found', find msgs components v fuel rounds op found = .ok found' ∧ found'.source = none) := by
  induction h with
  | @component r id hr =>
    refine ⟨_, hr, 0, fun fuel _ rounds found hs => ⟨fun hlt c hc => ?_, fun hle => ?_⟩⟩
    · obtain ⟨rounds, rfl⟩ := Nat.exists_eq_succ_of_ne_zero (Nat.ne_of_gt hlt)
      simp only [find, getComponent, hc, Eval.okOr_some, Eval.ok_bind, Eval.pure_eq, foundOf, windowsOf,
        List.filterMap_nil, List.map_nil, List.append_nil, rangeOf, Impl.Stages.schemaOf, Option.map_none, Option.none_or]
    · obtain rfl := Nat.le_zero.mp hle
      exact ⟨found, rfl, hs⟩
  | @cons r r' op ops id hr ha hc ih =>
    obtain ⟨hop, hops⟩ := List.forall_mem_cons.mp hp
    obtain ⟨op', hr', n, ih⟩ := ih hops
    obtain ⟨n', hn'⟩ := exists_realize hr'
    refine ⟨op, hr, max n n', fun fuel hf rounds found hs => ?_⟩
    have hf₁ : fuel ≥ n := (Nat.le_max_left _ _).trans hf
    have hreal : realize v fuel r' = .ok op' := hn' fuel ((Nat.le_max_right _ _).trans hf)
    have step : ∀ found₁ : Found, found₁.source = none →
        (∀ rounds, find msgs components v fuel (rounds + 1) op found = find msgs components v fuel rounds op' found₁) →
        (∀ c, foundOf msgs ops c found₁ = foundOf msgs (op :: ops) c found) →
        ((op :: ops).length < rounds → ∀ c, components (.ofNat id) = some c →
          find msgs components v fuel rounds op found = .ok (foundOf msgs (op :: ops) c found)) ∧
        (rounds ≤ (op :: ops).length →
          ∃ found', find msgs components v fuel rounds op found = .ok found' ∧ found'.source = none) := by
      intro found₁ hs₁ hfind hfound
      cases rounds with
      | zero => exact ⟨fun h => absurd h (Nat.not_lt_zero _), fun _ => ⟨found, rfl, hs⟩⟩
      | succ rounds =>
        obtain ⟨h₁, h₂⟩ := ih fuel hf₁ rounds found₁ hs₁
        rw [hfind]
        exact ⟨fun hlt c hc => (h₁ (Nat.lt_of_succ_lt_succ hlt) c hc).trans (by rw [hfound]),
          fun hle => h₂ (Nat.le_of_succ_le_succ hle)⟩
    cases hop with
    | schema s =>
      cases ha
      refine step { found with schema := some (s.dim, s.ty) } hs (fun rounds => ?_) fun c => ?_
      · simp only [find, hreal, Eval.ok_bind]
      · simp only [foundOf, windowsOf, rangeOf, Impl.Stages.schemaOf, List.filterMap_cons, windowOf, Option.or_assoc, Option.some_or]
    | timestamp t =>
      cases ha
      refine step { found with timestamp := (t.range.map toField).or found.timestamp } hs (fun rounds => ?_) fun c => ?_
      · simp only [find, hreal, Eval.ok_bind]
        rfl
      · simp only [foundOf, windowsOf, rangeOf, Impl.Stages.schemaOf, List.filterMap_cons, windowOf]
        cases rangeOf ops <;> rfl
    | @mean e w hw =>
      cases ha
      have hwin := hw
      rw [windowOf] at hw
      split at hw
      · next hid =>
        obtain ⟨mean, hm, rfl⟩ := Option.map_eq_some_iff.mp hw
        refine step { found with plan := found.plan ++ [.mean (.new mean.window)] } hs (fun rounds => ?_) fun c => ?_
        · simp only [find, if_pos hid, hm, Eval.okOr_some, hreal, Eval.ok_bind]
        · simp only [foundOf, windowsOf, rangeOf, Impl.Stages.schemaOf, List.filterMap_cons, hwin, List.map_cons, List.append_assoc,
            List.singleton_append]
      · cases hw

/-- A chain of such operations compiles, if the schema and the length are those of the component. -/
theorem compile_of_chain (h : Chain v field.arg ops id) (hp : ∀ op ∈ ops, Plain msgs op) (hl : ops.length < 65535)
    (hc : components (.ofNat id) = some c) (hs : ∀ s ∈ Impl.Stages.schemaOf ops, s = (c.dim, c.primType)) (hsize : c.size = field.len) :
    ∃ n, ∀ fuel ≥ n, compile msgs components v fuel field =
      .ok ⟨.realTime c.size :: (windowsOf msgs ops).map fun w => .mean (.new w),
        ⟨⟨field.offset, field.offset + field.len⟩, (rangeOf ops).map toField⟩, c.primType⟩ := by
  obtain ⟨op, hr, n, hn⟩ := find_of_chain components h hp
  obtain ⟨n', hn'⟩ := exists_realize hr
  refine ⟨max n n', fun fuel hf => ?_⟩
  have hfind := (hn fuel ((Nat.le_max_left _ _).trans hf) 65535 ⟨[], none, none, none⟩ rfl).1 hl c hc
  simp only [compile, hn' fuel ((Nat.le_max_right _ _).trans hf), Eval.ok_bind, hfind, foundOf, Eval.okOr_some, List.nil_append,
    Option.or_none]
  cases hsch : Impl.Stages.schemaOf ops with
  | none =>
    simp only [if_neg (not_not.mpr hsize)]
    rfl
  | some s =>
    obtain rfl := hs s hsch
    simp only [ne_eq, not_true_eq_false, or_self, if_false, if_neg (not_not.mpr hsize)]
    rfl

/-- The fields of a plan lie in the table. -/
theorem shard_inTable (h : Compiled msgs components v field plan ops c source) (hf : field ∈ v.fields) (which : Which) :
    ∀ f ∈ plan.shard.field which, f.start ≤ f.stop ∧ f.stop ≤ tableLen v := by
  rw [h.shard]
  intro f hm
  cases which with
  | value =>
    cases hm
    exact ⟨Nat.le_add_right _ _, List.le_max?_getD_of_mem (List.mem_append_left _ (List.mem_map.mpr ⟨field, hf, rfl⟩))⟩
  | timestamp =>
    obtain ⟨range, hr, rfl⟩ := Option.map_eq_some_iff.mp hm
    obtain ⟨id, hch, -⟩ := h.chain
    exact rangeOf_inTable hch hr

end Metor.Proof.Stages
