import Metor.Proof.Eql.Sql

/-!
# The tables of a query

The fields of a query name the tables of all references (`term_spec`), and its
`from` clause those of the leftmost ones (`toTable_spec`). So it lists the tables
that are read just when each reference is to the table of a leftmost one
(`from_read_iff`).
-/

namespace Metor.Proof.Eql

open Metor.Lib Metor.Impl.Eql Metor.Impl.Eql.Sql

section
variable {F : Type} {lang : Lang F} {e : Expr F}

/-! ## Terms -/

/-- A term is made if elements are accessed of components only, and names the tables of all references. -/
def TermSpec (lang : Lang F) (e : Expr F) : Prop :=
  (e.AccessesComponents ∧ ∃ t, e.term lang = .ok t ∧ ∀ table, table ∈ t.columns.map Prod.fst ↔ some table ∈ e.leaves) ∨
    (¬ e.AccessesComponents ∧ ∃ err, e.term lang = .error err)

theorem termSpec_call {f : Str} {e' : Expr F} (h : TermSpec lang e) (ht : e'.term lang = (e.term lang).map (.call f))
    (ha : e'.AccessesComponents ↔ e.AccessesComponents) (hl : e'.leaves = e.leaves) : TermSpec lang e' := by
  unfold TermSpec
  rw [ht, ha, hl]
  rcases h with ⟨h, t, he, ht⟩ | ⟨h, err, he⟩
  · exact .inl ⟨h, .call f t, by rw [he]; rfl, ht⟩
  · exact .inr ⟨h, err, by rw [he]; rfl⟩

theorem term_spec (h : e.Plain) : TermSpec lang e := by
  fun_induction Expr.Plain e with
  | case1 part =>
    exact .inl ⟨trivial, _, rfl, fun table => by simp [Term.columns, Expr.leaves]⟩
  | case2 c => exact .inl ⟨trivial, _, rfl, fun table => by simp [Term.columns, Expr.leaves]⟩
  | case3 f => exact .inl ⟨trivial, _, rfl, fun table => by simp [Term.columns, Expr.leaves]⟩
  | case4 e index =>
    cases e with
    | componentPart part =>
      by_cases hc : part.component.isSome
      · refine .inl ⟨hc, _, if_pos hc, fun table => ?_⟩
        simp [Term.columns, Expr.leaves]
      · exact .inr ⟨hc, _, if_neg hc⟩
    | _ => exact .inr ⟨id, _, rfl⟩
  | case5 e ih => exact termSpec_call (ih h) rfl Iff.rfl rfl
  | case6 e ih => exact termSpec_call (ih h) rfl Iff.rfl rfl
  | case7 l r op ihl ihr =>
    have hterm : (Expr.binaryOp l r op).term lang = (do
      let a ← l.term lang
      let b ← r.term lang
      return .binary a b op) := rfl
    unfold TermSpec
    rw [hterm]
    rcases ihl h.1 with ⟨hl, a, ha, hta⟩ | ⟨hl, err, ha⟩
    · rcases ihr h.2 with ⟨hr, b, hb, htb⟩ | ⟨hr, err, hb⟩
      · refine .inl ⟨⟨hl, hr⟩, .binary a b op, by rw [ha, hb]; rfl, fun table => ?_⟩
        rw [Term.columns, List.map_append, List.mem_append, hta, htb, Expr.leaves, List.mem_append]
      · exact .inr ⟨fun h => hr h.2, err, by rw [ha, hb]; rfl⟩
    · exact .inr ⟨fun h => hl h.1, err, by rw [ha]; rfl⟩
  | case8 => exact h.elim

theorem exists_term (h : e.Plain) (ha : e.AccessesComponents) :
    ∃ t, e.term lang = .ok t ∧ ∀ table, table ∈ t.columns.map Prod.fst ↔ some table ∈ e.leaves := by
  rcases @term_spec _ lang e h with ⟨-, ht⟩ | ⟨hn, -⟩
  · exact ht
  · exact absurd ha hn

theorem accesses_of_term (h : e.Plain) {t : Term} (ht : e.term lang = .ok t) : e.AccessesComponents := by
  rcases @term_spec _ lang e h with ⟨ha, -⟩ | ⟨-, err, he⟩
  · exact ha
  · rw [ht] at he
    exact absurd he (by simp)

/-! ## The table of an expression -/

theorem leaves_ne_nil (h : e.Plain) : e.leaves ≠ [] := by
  fun_induction Expr.Plain e with
  | case1 part => exact List.cons_ne_nil _ _
  | case2 c => exact List.cons_ne_nil _ _
  | case3 f => exact List.cons_ne_nil _ _
  | case4 e index ih => exact ih h
  | case5 e ih => exact ih h
  | case6 e ih => exact ih h
  | case7 l r op ihl ihr => exact List.append_ne_nil_of_left_ne_nil (ihl h.1) _
  | case8 => exact h.elim

theorem leftmost_binaryOp {l r : Expr F} {op : BinaryOp} (h : l.Plain) : (Expr.binaryOp l r op).leftmost = l.leftmost := by
  obtain ⟨a, as, he⟩ := List.exists_cons_of_ne_nil (leaves_ne_nil h)
  unfold Expr.leftmost
  rw [Expr.leaves, he]
  rfl

/-- The table of an expression is that of its leftmost reference. -/
theorem toTable_spec (h : e.Plain) (ha : e.AccessesComponents) :
    (∃ t, e.leftmost = some t ∧ e.toTable = .ok t) ∨ (e.leftmost = none ∧ ∃ err, e.toTable = .error err) := by
  fun_induction Expr.Plain e with
  | case1 part => exact .inl ⟨_, rfl, rfl⟩
  | case2 c => exact .inl ⟨_, rfl, rfl⟩
  | case3 f => exact .inr ⟨rfl, _, rfl⟩
  | case4 e index =>
    cases e with
    | componentPart part => exact .inl ⟨_, rfl, rfl⟩
    | _ => exact ha.elim
  | case5 e ih => exact ih h ha
  | case6 e ih => exact ih h ha
  | case7 l r op ihl ihr =>
    rw [leftmost_binaryOp h.1]
    exact ihl h.1 ha.1
  | case8 => exact h.elim

theorem leftmost_mem {t : Str} (h : e.leftmost = some t) : some t ∈ e.leaves := by
  unfold Expr.leftmost at h
  cases hl : e.leaves with
  | nil => rw [hl] at h; exact absurd h (by simp)
  | cons o os =>
    rw [hl] at h
    rw [show o = some t from h]
    exact List.mem_cons_self

/-! ## The query -/

/-- Elements are accessed of components, and each part that gives a table starts with a reference. -/
def Queried (e : Expr F) : Prop := (∀ x ∈ e.elements, x.AccessesComponents) ∧ ∀ h ∈ e.heads, h.isSome

/-- The query lists the tables of the leftmost references, selects fields of all, and joins on time. -/
structure Lists (e : Expr F) (q : Query) : Prop where
  tables : ∀ t, t ∈ q.tables ↔ some t ∈ e.heads
  selected : ∀ t, t ∈ q.selected.map Prod.fst ↔ ∃ x ∈ e.elements, some t ∈ x.leaves
  joins : q.JoinsOnTime

theorem item_spec (h : e.Plain) :
    (e.AccessesComponents ∧ ∃ i, e.item lang = .ok i ∧ ∀ table, table ∈ i.columns.map Prod.fst ↔ some table ∈ e.leaves) ∨
      (¬ e.AccessesComponents ∧ ∃ err, e.item lang = .error err) := by
  unfold Expr.item
  rcases @term_spec _ lang e h with ⟨ha, t, ht, htables⟩ | ⟨ha, err, ht⟩
  · refine .inl ⟨ha, ?_⟩
    rw [ht]
    cases e.toColumnName with
    | none => exact ⟨_, rfl, htables⟩
    | some name => exact ⟨_, rfl, htables⟩
  · refine .inr ⟨ha, err, ?_⟩
    rw [ht]
    cases e.toColumnName <;> rfl

theorem exists_item (h : e.Plain) (ha : e.AccessesComponents) :
    ∃ i, e.item lang = .ok i ∧ ∀ table, table ∈ i.columns.map Prod.fst ↔ some table ∈ e.leaves := by
  rcases @item_spec _ lang e h with ⟨-, hi⟩ | ⟨hn, -⟩
  · exact hi
  · exact absurd ha hn

/-- The table of an expression that has a term. -/
theorem leftmost_of_toTable {t : Str} (h : e.Plain) (ha : e.AccessesComponents) (ht : e.toTable = .ok t) :
    e.leftmost = some t := by
  rcases toTable_spec h ha with ⟨t', hl, ht'⟩ | ⟨-, err, herr⟩
  · rw [ht] at ht'
    rw [hl, Except.ok.inj ht']
  · rw [ht] at herr
    exact absurd herr (by simp)

theorem toTable_of_leftmost (h : e.Plain) (ha : e.AccessesComponents) (hl : e.leftmost.isSome) :
    ∃ t, e.leftmost = some t ∧ e.toTable = .ok t := by
  rcases toTable_spec h ha with h | ⟨hn, -⟩
  · exact h
  · rw [hn] at hl
    exact absurd hl (by decide)

theorem accesses_of_item (h : e.Plain) {i : Item} (hi : e.item lang = .ok i) : e.AccessesComponents := by
  rcases @item_spec _ lang e h with ⟨ha, -⟩ | ⟨-, err, herr⟩
  · exact ha
  · rw [hi] at herr
    exact absurd herr (by simp)

theorem columns_of_item (h : e.Plain) {i : Item} (hi : e.item lang = .ok i) (table : Str) :
    table ∈ i.columns.map Prod.fst ↔ some table ∈ e.leaves := by
  obtain ⟨i', hi', hcols⟩ := exists_item h (accesses_of_item h hi)
  rw [hi] at hi'
  rw [Except.ok.inj hi']
  exact hcols table

/-! ### Neither a tuple nor an operator -/

section
variable {ctx : Context} (hp : e.Plain) (hq : e.query lang ctx = do
      let i ← e.item lang
      let table ← e.toTable
      return ⟨[i], table, [], []⟩) (hel : e.elements = [e]) (hh : e.heads = [e.leftmost])
include hp hq hel hh

theorem lists_single (hQ : Queried e) : ∃ q, e.query lang ctx = .ok q ∧ Lists e q := by
  have ha : e.AccessesComponents := hQ.1 e (by rw [hel]; exact List.mem_cons_self)
  have hhead : e.leftmost.isSome := hQ.2 _ (by rw [hh]; exact List.mem_cons_self)
  obtain ⟨i, hi, hcols⟩ := @exists_item _ lang e hp ha
  obtain ⟨t, hl, ht⟩ := toTable_of_leftmost hp ha hhead
  refine ⟨⟨[i], t, [], []⟩, by rw [hq, hi, ht]; rfl, fun t' => ?_, fun t' => ?_, fun j hj => absurd hj List.not_mem_nil⟩
  · rw [hh, hl]
    simp [Query.tables]
  · rw [hel]
    simpa [Query.selected] using hcols t'

theorem queried_single {q : Query} (h : e.query lang ctx = .ok q) : Queried e := by
  rw [hq] at h
  obtain ⟨i, hi, h⟩ := bind_eq_ok_iff.mp h
  obtain ⟨t, ht, -⟩ := bind_eq_ok_iff.mp h
  have ha := accesses_of_item hp hi
  refine ⟨fun x hx => ?_, fun o ho => ?_⟩
  · rw [hel] at hx
    rw [List.mem_singleton.mp hx]
    exact ha
  · rw [hh] at ho
    rw [List.mem_singleton.mp ho, leftmost_of_toTable hp ha ht]
    rfl

end

/-! ### Operators -/

section
variable {ctx : Context} {l r : Expr F} {op : BinaryOp} (hl : l.Plain) (hr : r.Plain)
include hl hr

theorem lists_binary (hQ : Queried (.binaryOp l r op)) :
    ∃ q, (Expr.binaryOp l r op).query lang ctx = .ok q ∧ Lists (.binaryOp l r op) q := by
  have ha : l.AccessesComponents ∧ r.AccessesComponents := hQ.1 _ List.mem_cons_self
  have hhl : l.leftmost.isSome := hQ.2 _ List.mem_cons_self
  have hhr : r.leftmost.isSome := hQ.2 _ (List.mem_cons_of_mem _ List.mem_cons_self)
  obtain ⟨t, hlt, ht⟩ := toTable_of_leftmost hl ha.1 hhl
  obtain ⟨u, hru, hu⟩ := toTable_of_leftmost hr ha.2 hhr
  obtain ⟨a, hta, hca⟩ : ∃ a, l.term lang = .ok a ∧ ∀ t, t ∈ a.columns.map Prod.fst ↔ some t ∈ l.leaves :=
    exists_term hl ha.1
  obtain ⟨b, htb, hcb⟩ : ∃ b, r.term lang = .ok b ∧ ∀ t, t ∈ b.columns.map Prod.fst ↔ some t ∈ r.leaves :=
    exists_term hr ha.2
  have hheads : (Expr.binaryOp l r op).heads = [some t, some u] := by rw [Expr.heads, hlt, hru]
  refine ⟨⟨[.bare a b op], t, if t = u then [] else [⟨.lower, u, t, u⟩], []⟩, ?_, fun t' => ?_, fun t' => ?_, fun j hj => ?_⟩
  · rw [Expr.query, ht, hu, hta, htb]
    rfl
  · rw [hheads]
    show t' ∈ t :: List.map Join.table (ite _ _ _) ↔ _
    split
    · rename_i heq
      simp [heq]
    · simp
  · show t' ∈ (List.flatMap Item.columns [.bare a b op]).map Prod.fst ↔ ∃ x ∈ [Expr.binaryOp l r op], _
    rw [List.flatMap_singleton, Item.columns, List.map_append, List.mem_append, hca, hcb]
    simp [Expr.leaves]
  · replace hj : j ∈ ite (t = u) [] [⟨.lower, u, t, u⟩] := hj
    split at hj
    · exact absurd hj List.not_mem_nil
    · rw [List.mem_singleton.mp hj]
      exact ⟨rfl, rfl⟩

theorem queried_binary {q : Query} (h : (Expr.binaryOp l r op).query lang ctx = .ok q) : Queried (.binaryOp l r op) := by
  rw [Expr.query] at h
  obtain ⟨t, ht, h⟩ := bind_eq_ok_iff.mp h
  obtain ⟨u, hu, h⟩ := bind_eq_ok_iff.mp h
  obtain ⟨a, hta, h⟩ := bind_eq_ok_iff.mp h
  obtain ⟨b, htb, -⟩ := bind_eq_ok_iff.mp h
  have hla := accesses_of_term hl hta
  have hra := accesses_of_term hr htb
  refine ⟨fun x hx => ?_, fun o ho => ?_⟩
  · rw [List.mem_singleton.mp hx]
    exact ⟨hla, hra⟩
  · rw [Expr.heads, leftmost_of_toTable hl hla ht, leftmost_of_toTable hr hra hu] at ho
    rcases List.mem_pair.mp ho with rfl | rfl <;> rfl

end

/-! ### Tuples -/

theorem mem_btreeInsert (name n : Str) (names : List Str) : n ∈ btreeInsert name names ↔ n = name ∨ n ∈ names := by
  fun_induction btreeInsert name names with
  | case1 => simp
  | case2 m names h => simp
  | case3 names h1 => simp
  | case4 m names h1 h2 ih => rw [List.mem_cons, ih, List.mem_cons, or_left_comm]

theorem mem_foldl_btreeInsert (n : Str) (tables names : List Str) :
    n ∈ tables.foldl (fun names name => btreeInsert name names) names ↔ n ∈ tables ∨ n ∈ names := by
  induction tables generalizing names with
  | nil => simp
  | cons t ts ih => rw [List.foldl_cons, ih, mem_btreeInsert, List.mem_cons, or_assoc, or_left_comm]

section
variable {ctx : Context} {es : List (Expr F)} (hne : es ≠ []) (hp : ∀ e ∈ es, e.Plain)
include hne hp

theorem lists_tuple (hQ : Queried (.tuple es)) : ∃ q, (Expr.tuple es).query lang ctx = .ok q ∧ Lists (.tuple es) q := by
  have hcomp : ∀ e ∈ es, e.AccessesComponents := hQ.1
  have hhead : ∀ e ∈ es, e.leftmost.isSome := fun e he => hQ.2 _ (List.mem_map_of_mem he)
  obtain ⟨tables, htables⟩ : ∃ tables, es.mapM Expr.toTable = .ok tables := mapM_ok_of_forall fun e he =>
    have ⟨t, _, ht⟩ := toTable_of_leftmost (hp e he) (hcomp e he) (hhead e he)
    ⟨t, ht⟩
  obtain ⟨items, hitems⟩ : ∃ items, es.mapM (Expr.item lang) = .ok items := mapM_ok_of_forall fun e he =>
    have ⟨i, hi, _⟩ := exists_item (hp e he) (hcomp e he)
    ⟨i, hi⟩
  have hmem (t : Str) : t ∈ tables.foldl (fun names name => btreeInsert name names) [] ↔ some t ∈ es.map Expr.leftmost := by
    rw [mem_foldl_btreeInsert, or_iff_left List.not_mem_nil, List.mem_map]
    constructor
    · intro ht
      obtain ⟨e, he, het⟩ := exists_of_mem_right (mapM_eq_ok_iff.mp htables) ht
      exact ⟨e, he, leftmost_of_toTable (hp e he) (hcomp e he) het⟩
    · rintro ⟨e, he, hl⟩
      obtain ⟨t', ht', het⟩ := exists_of_mem_left (mapM_eq_ok_iff.mp htables) he
      rw [leftmost_of_toTable (hp e he) (hcomp e he) het] at hl
      rw [← Option.some.inj hl]
      exact ht'
  have hq : (Expr.tuple es).query lang ctx =
      .ok (Expr.joined items (tables.foldl (fun names name => btreeInsert name names) [])) := by
    rw [Expr.query, if_neg hne, htables, hitems]
    rfl
  have hselected (t : Str) : t ∈ (items.flatMap Item.columns).map Prod.fst ↔ ∃ e ∈ es, some t ∈ e.leaves := by
    rw [List.map_flatMap, List.mem_flatMap]
    constructor
    · rintro ⟨i, hi, ht⟩
      obtain ⟨e, he, hei⟩ := exists_of_mem_right (mapM_eq_ok_iff.mp hitems) hi
      exact ⟨e, he, (columns_of_item (hp e he) hei t).mp ht⟩
    · rintro ⟨e, he, ht⟩
      obtain ⟨i, hi, hei⟩ := exists_of_mem_left (mapM_eq_ok_iff.mp hitems) he
      exact ⟨i, hi, (columns_of_item (hp e he) hei t).mpr ht⟩
  refine ⟨_, hq, ?_⟩
  generalize tables.foldl (fun names name => btreeInsert name names) [] = names at hmem
  cases names with
  | nil =>
    obtain ⟨e, es', rfl⟩ := List.exists_cons_of_ne_nil hne
    obtain ⟨t, hl⟩ := Option.isSome_iff_exists.mp (hhead e List.mem_cons_self)
    have := (hmem t).mpr (by rw [← hl]; exact List.mem_map_of_mem List.mem_cons_self)
    exact absurd this List.not_mem_nil
  | cons t ts =>
    refine ⟨fun t' => ?_, hselected, fun j hj => ?_⟩
    · show t' ∈ t :: List.map Join.table (ts.map _) ↔ some t' ∈ es.map Expr.leftmost
      rw [List.map_map, ← hmem]
      exact iff_of_eq (congrArg (fun l => t' ∈ t :: l) (List.map_id ts))
    · obtain ⟨u, -, rfl⟩ := List.mem_map.mp hj
      exact ⟨rfl, rfl⟩

theorem queried_tuple {q : Query} (h : (Expr.tuple es).query lang ctx = .ok q) : Queried (.tuple es) := by
  rw [Expr.query, if_neg hne] at h
  obtain ⟨tables, htables, h⟩ := bind_eq_ok_iff.mp h
  obtain ⟨items, hitems, -⟩ := bind_eq_ok_iff.mp h
  have hcomp : ∀ e ∈ es, e.AccessesComponents := fun e he =>
    have ⟨_, _, hi⟩ := exists_of_mem_left (mapM_eq_ok_iff.mp hitems) he
    accesses_of_item (hp e he) hi
  refine ⟨hcomp, fun o ho => ?_⟩
  obtain ⟨e, he, rfl⟩ := List.mem_map.mp ho
  obtain ⟨t, -, ht⟩ := exists_of_mem_left (mapM_eq_ok_iff.mp htables) he
  rw [leftmost_of_toTable (hp e he) (hcomp e he) ht]
  rfl

end

/-! ## Every table that is read is listed -/

theorem query_spec (ctx : Context) (h : e.Reads) :
    (Queried e → ∃ q, e.query lang ctx = .ok q ∧ Lists e q) ∧ ∀ q, e.query lang ctx = .ok q → Queried e := by
  cases e with
  | tuple es =>
    have hp : ∀ e ∈ es, e.Plain := fun e he => (h.2 e he).1
    exact ⟨lists_tuple h.1 hp, fun q => queried_tuple h.1 hp⟩
  | binaryOp l r op =>
    have hp : l.Plain ∧ r.Plain := h.1
    exact ⟨lists_binary hp.1 hp.2, fun q => queried_binary hp.1 hp.2⟩
  | componentPart part => exact ⟨lists_single h.1 rfl rfl rfl, fun q => queried_single h.1 rfl rfl rfl⟩
  | time c => exact ⟨lists_single h.1 rfl rfl rfl, fun q => queried_single h.1 rfl rfl rfl⟩
  | arrayAccess e index => exact ⟨lists_single h.1 rfl rfl rfl, fun q => queried_single h.1 rfl rfl rfl⟩
  | floatLiteral f => exact ⟨lists_single h.1 rfl rfl rfl, fun q => queried_single h.1 rfl rfl rfl⟩
  | fft e => exact ⟨lists_single h.1 rfl rfl rfl, fun q => queried_single h.1 rfl rfl rfl⟩
  | fftFreq e => exact ⟨lists_single h.1 rfl rfl rfl, fun q => queried_single h.1 rfl rfl rfl⟩
  | _ => exact h.1.elim

/-- The leftmost references are among all. -/
theorem leaves_of_head (h : e.Reads) {t : Str} (ht : some t ∈ e.heads) : ∃ x ∈ e.elements, some t ∈ x.leaves := by
  unfold Expr.heads at ht
  split at ht
  · rename_i es
    obtain ⟨x, hx, hl⟩ := List.mem_map.mp ht
    exact ⟨x, hx, leftmost_mem hl⟩
  · rename_i l r op
    refine ⟨_, List.mem_cons_self, ?_⟩
    rw [Expr.leaves, List.mem_append]
    rcases List.mem_pair.mp ht with hl | hr
    · exact .inl (leftmost_mem hl.symm)
    · exact .inr (leftmost_mem hr.symm)
  · rename_i hne hop
    have hel : e.elements = [e] := by
      unfold Expr.elements
      split
      · exact absurd rfl (hne _)
      · rfl
    exact ⟨e, by rw [hel]; exact List.mem_cons_self, leftmost_mem (List.mem_singleton.mp ht).symm⟩

/-- The query of an expression lists the tables that its fields are of, each joined on time with the first, just when no
element starts with a number, elements are accessed of components, and every reference is to the table of a leftmost
one. -/
theorem from_read_iff (lang : Lang F) (ctx : Context) (e : Expr F) (h : e.Reads) :
    (∃ q, e.query lang ctx = .ok q ∧ e.toSql lang ctx = .ok q.render ∧ q.FromReadTables) ↔ e.Covered := by
  obtain ⟨hquery, hqueried⟩ := @query_spec _ lang e ctx h
  constructor
  · rintro ⟨q, hq, -, htables, -⟩
    have hQ := hqueried q hq
    obtain ⟨q', hq', hlists⟩ := hquery hQ
    obtain rfl : q' = q := Except.ok.inj (hq'.symm.trans hq)
    refine ⟨hQ.1, hQ.2, fun x hx t ht => ?_⟩
    rw [← hlists.tables, htables, hlists.selected]
    exact ⟨x, hx, ht⟩
  · intro hc
    obtain ⟨q, hq, hlists⟩ := hquery ⟨hc.accesses, hc.heads⟩
    refine ⟨q, hq, by rw [toSql_eq, hq]; rfl, fun t => ?_, hlists.joins⟩
    rw [hlists.tables, hlists.selected]
    constructor
    · exact leaves_of_head h
    · rintro ⟨x, hx, ht⟩
      exact hc.covered x hx t ht

end

/-- A component without elements. -/
def partNamed (name : String) : Expr Str :=
  .componentPart ⟨str name, 0, some ⟨str name, 0, []⟩, fun _ => none⟩

/-- `a, b + a` -/
def twoTables : Expr Str := .tuple [partNamed "a", .binaryOp (partNamed "b") (partNamed "a") .add]

/-- `(a + b) * c` -/
def threeTables : Expr Str :=
  .binaryOp (.binaryOp (partNamed "a") (partNamed "b") .add) (partNamed "c") .mul

theorem from_read_two : ∃ q, twoTables.query .ascii ⟨fun _ => none, 0, 0⟩ = .ok q ∧
    twoTables.toSql .ascii ⟨fun _ => none, 0, 0⟩ = .ok q.render ∧ q.FromReadTables := by
  have hr : twoTables.Reads := by
    refine ⟨by decide, List.forall_mem_cons.mpr ⟨⟨trivial, str "a", ?_⟩, List.forall_mem_singleton.mpr
      ⟨⟨trivial, trivial⟩, str "b", ?_⟩⟩⟩ <;> decide
  refine (from_read_iff .ascii ⟨fun _ => none, 0, 0⟩ twoTables hr).mpr ⟨?_, by decide, ?_⟩
  · exact List.forall_mem_cons.mpr ⟨trivial, List.forall_mem_singleton.mpr ⟨trivial, trivial⟩⟩
  · have hall : ∀ x ∈ twoTables.elements, ∀ o ∈ x.leaves, o ∈ twoTables.heads := by decide
    exact fun x hx t ht => hall x hx _ ht

/-- The table of `b` is not listed. -/
theorem inner_table_not_listed : threeTables.Reads ∧ ¬ ∃ q, threeTables.query .ascii ⟨fun _ => none, 0, 0⟩ = .ok q ∧
    threeTables.toSql .ascii ⟨fun _ => none, 0, 0⟩ = .ok q.render ∧ q.FromReadTables := by
  refine ⟨⟨⟨⟨trivial, trivial⟩, trivial⟩, str "a", by decide⟩, ?_⟩
  rintro ⟨q, hq, -, htables, -⟩
  obtain rfl := Except.ok.inj hq
  exact absurd ((htables (str "b")).mpr (by decide)) (by decide)

end Metor.Proof.Eql
