import Metor.Proof.Eql.Addressable
import Metor.Proof.Eql.Tables

/-!
# Names of tables

The tables and columns of a query are those of the names that its expression
refers to (`query_names`), which are names at the top of the tree
(`parse_names`). A component below the top is found under its dotted name
(`exists_reachable`), which no table has. So all names are registered just when
nothing but components at the top of the tree can be reached
(`names_agree_iff`).
-/

namespace Metor.Proof.Eql

open Metor.Lib Metor.Impl.Eql Metor.Impl.Eql.Grammar Metor.Impl.Eql.Sql

section
variable {F : Type}

mutual

/-- The names that an expression refers to. -/
def exprNames : Expr F → List Str
  | .componentPart part => [part.name]
  | .time c => [c.name]
  | .arrayAccess e _ => exprNames e
  | .fft e => exprNames e
  | .fftFreq e => exprNames e
  | .last e _ => exprNames e
  | .first e _ => exprNames e
  | .binaryOp l r _ => exprNames l ++ exprNames r
  | .tuple es => allNames es
  | .floatLiteral _ => []
  | .stringLiteral _ => []
  | .boolLiteral _ => []

def allNames : List (Expr F) → List Str
  | [] => []
  | e :: es => exprNames e ++ allNames es

end

theorem mem_allNames {es : List (Expr F)} {n : Str} : n ∈ allNames es ↔ ∃ e ∈ es, n ∈ exprNames e := by
  induction es with
  | nil => simp [allNames]
  | cons e es ih => simp [allNames, ih]

/-! ## The names of a query -/

/-- A table of the expression, with a column of it. -/
def OfNames (e : Expr F) (x : Str × Str) : Prop :=
  ∃ n ∈ exprNames e, x.1 = replaceDots n ∧ (x.2 = str "time" ∨ x.2 = replaceDots n)

theorem OfNames.mono {e e' : Expr F} (h : exprNames e ⊆ exprNames e') {x : Str × Str} (hx : OfNames e x) : OfNames e' x := by
  obtain ⟨n, hn, hx⟩ := hx
  exact ⟨n, h hn, hx⟩

variable {lang : Lang F} {ctx : Context}

theorem toTable_names {e : Expr F} {t : Str} (h : e.toTable = .ok t) : OfNames e (t, str "time") := by
  fun_induction Expr.toTable e generalizing t with
  | case1 part => exact ⟨part.name, List.mem_cons_self, (Except.ok.inj h).symm, .inl rfl⟩
  | case2 c => exact ⟨c.name, List.mem_cons_self, (Except.ok.inj h).symm, .inl rfl⟩
  | case3 e ih => exact ih h
  | case4 e ih => exact ih h
  | case5 l r op ih => exact (ih h).mono (List.subset_append_left _ _)
  | case6 part index => exact ⟨part.name, List.mem_cons_self, (Except.ok.inj h).symm, .inl rfl⟩
  | case7 => exact absurd h (by simp)
  | case8 => exact absurd h (by simp)

theorem map_eq_ok {α β ε : Type} {x : Except ε α} {f : α → β} {b : β} (h : x.map f = .ok b) : ∃ a, x = .ok a ∧ f a = b := by
  cases x with
  | error e => exact absurd h (by simp [Except.map])
  | ok a => exact ⟨a, rfl, Except.ok.inj h⟩

theorem term_names {e : Expr F} {t : Term} (h : e.term lang = .ok t) : ∀ x ∈ t.columns, OfNames e x := by
  fun_induction Expr.term lang e generalizing t with
  | case1 part =>
    rw [← Except.ok.inj h]
    exact List.forall_mem_singleton.mpr ⟨part.name, List.mem_cons_self, rfl, .inr rfl⟩
  | case2 c =>
    rw [← Except.ok.inj h]
    exact List.forall_mem_singleton.mpr ⟨c.name, List.mem_cons_self, rfl, .inl rfl⟩
  | case3 e ih =>
    obtain ⟨a, ha, rfl⟩ := map_eq_ok h
    exact @ih a ha
  | case4 e ih =>
    obtain ⟨a, ha, rfl⟩ := map_eq_ok h
    exact @ih a ha
  | case5 l r op ihl ihr =>
    obtain ⟨a, ha, h⟩ := bind_eq_ok_iff.mp h
    obtain ⟨b, hb, h⟩ := bind_eq_ok_iff.mp h
    rw [← Except.ok.inj h]
    refine List.forall_mem_append.mpr ⟨fun x hx => (ihl ha x hx).mono ?_, fun x hx => (ihr hb x hx).mono ?_⟩
    · exact List.subset_append_left _ _
    · exact List.subset_append_right _ _
  | case6 f =>
    rw [← Except.ok.inj h]
    exact fun x hx => absurd hx List.not_mem_nil
  | case7 part index =>
    rw [← Except.ok.inj h]
    exact List.forall_mem_singleton.mpr ⟨part.name, List.mem_cons_self, rfl, .inr rfl⟩
  | case8 => exact absurd h (by simp)
  | case9 => exact absurd h (by simp)
  | case10 => exact absurd h (by simp)

theorem item_names {e : Expr F} {i : Item} (h : e.item lang = .ok i) : ∀ x ∈ i.columns, OfNames e x := by
  unfold Expr.item at h
  split at h
  · obtain ⟨t, ht, rfl⟩ := map_eq_ok h
    exact term_names ht
  · obtain ⟨t, ht, rfl⟩ := map_eq_ok h
    exact term_names ht

theorem timeTable_names : (e : Expr F) → {t : Str} → e.timeTable = .ok t → OfNames e (t, str "time")
  | .tuple [], _, h => by
    rw [Expr.timeTable, Expr.firstTable] at h
    exact absurd h (by simp)
  | .tuple (e :: es), _, h => by
    rw [Expr.timeTable, Expr.firstTable] at h
    exact (timeTable_names e h).mono (List.subset_append_left _ _)
  | .componentPart _, _, h | .time _, _, h | .arrayAccess .., _, h | .floatLiteral _, _, h | .stringLiteral _, _, h
  | .boolLiteral _, _, h | .fft _, _, h | .fftFreq _, _, h | .last .., _, h | .first .., _, h | .binaryOp .., _, h => by
    rw [Expr.timeTable] at h
    · exact toTable_names h
    · simp

theorem columns_forall {q : Query} {P : Str × Str → Prop} (hi : ∀ i ∈ q.items, ∀ x ∈ i.columns, P x)
    (hj : ∀ j ∈ q.joins, P (j.left, str "time") ∧ P (j.right, str "time")) (hb : ∀ b ∈ q.bounds, P (b.table, str "time")) :
    ∀ x ∈ q.columns, P x := by
  intro x hx
  rw [Query.columns, List.mem_append, List.mem_append] at hx
  rcases hx with (hx | hx) | hx
  · obtain ⟨i, him, hxi⟩ := List.mem_flatMap.mp hx
    exact hi i him x hxi
  · obtain ⟨j, hjm, hxj⟩ := List.mem_flatMap.mp hx
    rcases List.mem_pair.mp hxj with rfl | rfl
    · exact (hj j hjm).1
    · exact (hj j hjm).2
  · obtain ⟨b, hbm, rfl⟩ := List.mem_map.mp hx
    exact hb b hbm

/-- The tables of a tuple. -/
theorem joined_names {items : List Item} {tables : List Str} {P : Str × Str → Prop} (hne : tables ≠ [])
    (hi : ∀ i ∈ items, ∀ x ∈ i.columns, P x) (ht : ∀ t ∈ tables, P (t, str "time")) :
    (∀ t ∈ (Expr.joined items tables).tables, P (t, str "time")) ∧ ∀ x ∈ (Expr.joined items tables).columns, P x := by
  obtain ⟨t, ts, rfl⟩ := List.exists_cons_of_ne_nil hne
  have htime : ∀ j ∈ (Expr.joined items (t :: ts)).joins, j.table ∈ ts ∧ j.left = t ∧ j.right = j.table := by
    intro j hj
    obtain ⟨u, hu, rfl⟩ := List.mem_map.mp hj
    exact ⟨hu, rfl, rfl⟩
  refine ⟨fun u hu => ?_, columns_forall hi (fun j hj => ?_) fun b hb => absurd hb List.not_mem_nil⟩
  · rcases List.mem_cons.mp hu with rfl | hu
    · exact ht _ List.mem_cons_self
    · obtain ⟨j, hj, rfl⟩ := List.mem_map.mp hu
      exact ht _ (List.mem_cons_of_mem _ (htime j hj).1)
  · obtain ⟨hu, hl, hr⟩ := htime j hj
    rw [hl, hr]
    exact ⟨ht _ List.mem_cons_self, ht _ (List.mem_cons_of_mem _ hu)⟩

theorem bound_names {q : Query} {b : TimeBound} {P : Str × Str → Prop}
    (h : (∀ t ∈ q.tables, P (t, str "time")) ∧ ∀ x ∈ q.columns, P x) (hb : P (b.table, str "time")) :
    (∀ t ∈ ({ q with bounds := q.bounds ++ [b] } : Query).tables, P (t, str "time")) ∧
      ∀ x ∈ ({ q with bounds := q.bounds ++ [b] } : Query).columns, P x := by
  refine ⟨h.1, fun x hx => ?_⟩
  rw [Query.columns, List.map_append, ← List.append_assoc, List.mem_append] at hx
  rcases hx with hx | hx
  · exact h.2 x hx
  · rw [List.mem_singleton.mp hx]
    exact hb

/-- A query names the tables of the expression, and columns of them. -/
theorem query_names {e : Expr F} {q : Query} (h : e.query lang ctx = .ok q) :
    (∀ t ∈ q.tables, OfNames e (t, str "time")) ∧ ∀ x ∈ q.columns, OfNames e x := by
  fun_induction Expr.query lang ctx e generalizing q with
  | case1 => exact absurd h (by simp)
  | case2 es hne =>
    obtain ⟨tables, htables, h⟩ := bind_eq_ok_iff.mp h
    obtain ⟨items, hitems, h⟩ := bind_eq_ok_iff.mp h
    rw [← Except.ok.inj h]
    have hmem (t : Str) : t ∈ tables.foldl (fun names name => btreeInsert name names) [] ↔ t ∈ tables := by
      rw [mem_foldl_btreeInsert]
      exact or_iff_left List.not_mem_nil
    have hsub {e : Expr F} (he : e ∈ es) : exprNames e ⊆ exprNames (.tuple es) :=
      fun n hn => mem_allNames.mpr ⟨e, he, hn⟩
    refine joined_names (fun hnil => ?_) (fun i hi x hx => ?_) fun t ht => ?_
    · obtain ⟨e, es', rfl⟩ := List.exists_cons_of_ne_nil hne
      obtain ⟨t, ht, -⟩ := exists_of_mem_left (mapM_eq_ok_iff.mp htables) List.mem_cons_self
      rw [← hmem, hnil] at ht
      exact absurd ht List.not_mem_nil
    · obtain ⟨e, he, hei⟩ := exists_of_mem_right (mapM_eq_ok_iff.mp hitems) hi
      exact (item_names hei x hx).mono (hsub he)
    · obtain ⟨e, he, het⟩ := exists_of_mem_right (mapM_eq_ok_iff.mp htables) ((hmem t).mp ht)
      exact (toTable_names het).mono (hsub he)
  | case3 l r op =>
    obtain ⟨t, ht, h⟩ := bind_eq_ok_iff.mp h
    obtain ⟨u, hu, h⟩ := bind_eq_ok_iff.mp h
    obtain ⟨a, ha, h⟩ := bind_eq_ok_iff.mp h
    obtain ⟨b, hb, h⟩ := bind_eq_ok_iff.mp h
    rw [← Except.ok.inj h]
    have hl : exprNames l ⊆ exprNames (.binaryOp l r op) := List.subset_append_left _ _
    have hr : exprNames r ⊆ exprNames (.binaryOp l r op) := List.subset_append_right _ _
    have htl := (toTable_names ht).mono hl
    have hur := (toTable_names hu).mono hr
    have hjoin : ∀ j ∈ (if t = u then [] else [(⟨.lower, u, t, u⟩ : Join)]), j = ⟨.lower, u, t, u⟩ := by
      intro j hj
      split at hj
      · exact absurd hj List.not_mem_nil
      · exact List.mem_singleton.mp hj
    refine ⟨fun t' ht' => ?_, columns_forall (fun i hi x hx => ?_) (fun j hj => ?_) fun b hb => absurd hb List.not_mem_nil⟩
    · rcases List.mem_cons.mp ht' with rfl | ht'
      · exact htl
      · obtain ⟨j, hj, rfl⟩ := List.mem_map.mp ht'
        rw [hjoin j hj]
        exact hur
    · rw [List.mem_singleton.mp hi, Item.columns, List.mem_append] at hx
      rcases hx with hx | hx
      · exact (term_names ha x hx).mono hl
      · exact (term_names hb x hx).mono hr
    · rw [hjoin j hj]
      exact ⟨htl, hur⟩
  | case4 e d ih =>
    obtain ⟨q', hq', h⟩ := bind_eq_ok_iff.mp h
    obtain ⟨t, ht, h⟩ := bind_eq_ok_iff.mp h
    rw [← Except.ok.inj h]
    exact bound_names (ih hq') (timeTable_names e ht)
  | case5 e d ih =>
    obtain ⟨q', hq', h⟩ := bind_eq_ok_iff.mp h
    obtain ⟨t, ht, h⟩ := bind_eq_ok_iff.mp h
    rw [← Except.ok.inj h]
    exact bound_names (ih hq') (timeTable_names e ht)
  | case6 => exact absurd h (by simp)
  | case7 e =>
    obtain ⟨i, hi, h⟩ := bind_eq_ok_iff.mp h
    obtain ⟨t, ht, h⟩ := bind_eq_ok_iff.mp h
    rw [← Except.ok.inj h]
    refine ⟨List.forall_mem_singleton.mpr (toTable_names ht), columns_forall ?_ (fun j hj => absurd hj List.not_mem_nil)
      fun b hb => absurd hb List.not_mem_nil⟩
    exact List.forall_mem_singleton.mpr (item_names hi)

end

/-! ## The names of an expression -/

section
variable {F : Type} {lang : Lang F} {componentId : Str → UInt64} {stored : List Stored} {earliest last : Int}

/-- A part at the top of the tree that the grammar can name. -/
def Top (ctx : Context) (part : ComponentPart) : Prop := ∃ s, ctx.componentParts s = some part ∧ ¬ Src.StartsWithBool s

/-- The name of a component that is registered, without dots. -/
def Tabled (stored : List Stored) (n : Str) : Prop :=
  ∃ c ∈ stored, c.component.name = n ∧ c.timeSeries ≠ [] ∧ '.' ∉ n

theorem callOf_names {recv x : Expr F} {name : Str} {args : List (Expr F)} (h : Context.callOf lang recv name args = .ok x) :
    exprNames x = exprNames recv := by
  have hmap {x' : Except Error Int} {f : Int → Expr F} (h : x'.map f = .ok x) (hf : ∀ d, exprNames (f d) = exprNames recv) :
      exprNames x = exprNames recv := by
    obtain ⟨d, -, rfl⟩ := map_eq_ok h
    exact hf d
  unfold Context.callOf at h
  split at h
  · split at h
    · rw [← Except.ok.inj h]
      rfl
    · exact absurd h (by simp)
  · split at h
    · rw [← Except.ok.inj h]
      rfl
    · exact absurd h (by simp)
  · split at h
    · exact hmap h fun _ => rfl
    · split at h
      · exact hmap h fun _ => rfl
      · exact absurd h (by simp)
  · exact absurd h (by simp)

theorem dot_notMem_of_isXid {xid : Xid} {s : Str} (h : Src.IsXid xid s) : '.' ∉ s := by
  have hdot : xid.isContinue '.' = false := isContinue_eq_false xid (by decide) (by decide) (by decide)
  cases s with
  | nil => exact List.not_mem_nil
  | cons c s =>
    intro hm
    rcases List.mem_cons.mp hm with rfl | hm
    · have := xid.isContinue_of_isStart _ h.1
      rw [hdot] at this
      exact absurd this (by decide)
    · have := h.2 _ hm
      rw [hdot] at this
      exact absurd this (by decide)

/-- The component of a part at the top. -/
theorem top_component (h : TopLevel componentId stored earliest last)
    (hx : ∀ c ∈ stored, ∀ s ∈ c.component.path, Src.IsXid lang.xid s) {part : ComponentPart}
    (hp : Top (contextOf componentId stored earliest last) part) : ∃ c ∈ stored, part.component = some c.component ∧
      part.name = c.component.name ∧ Tabled stored part.name ∧
      ∀ n, (part.children n).isSome → n = str "time" ∨ n ∈ c.component.elementNames := by
  obtain ⟨s, hs, hb⟩ := hp
  obtain ⟨c, hc, hcomp, hdata, hchildren⟩ := h.top s part hs hb
  have hlook : look (treeOf componentId (stored.map Stored.component)) [s] = some (part.name, part.id, some c.component) := by
    rw [← hcomp]
    exact congrArg _ hs
  obtain ⟨hname, hpath⟩ := look_treeOf hlook
  obtain ⟨-, hpath⟩ := hpath c.component rfl
  have hname' : part.name = c.component.name := by
    rw [hname, ← hpath]
    exact joinDots_splitDots c.component.name
  refine ⟨c, hc, hcomp, hname', ⟨c, hc, hname'.symm, hdata, ?_⟩, hchildren⟩
  have hsingle : joinDots [s] = s := List.intercalate_singleton
  rw [hname, hsingle]
  exact dot_notMem_of_isXid (hx c hc s (by rw [hpath]; exact List.mem_cons_self))

theorem part_of_fieldOf {e x : Expr F} {i : Str} (h : Context.fieldOf e i = .ok x) : ∃ p, e = .componentPart p := by
  unfold Context.fieldOf at h
  split at h
  · exact ⟨_, rfl⟩
  · exact absurd h (by simp)

/-- A field of a component at the top. -/
theorem fieldOf_names {p : ComponentPart} {c : Component} {i : Str} {x : Expr F} (hc : p.component = some c)
    (hname : p.name = c.name) (hchildren : ∀ n, (p.children n).isSome → n = str "time" ∨ n ∈ c.elementNames)
    (h : Context.fieldOf (.componentPart p) i = .ok x) :
    exprNames x = [p.name] ∧ ∀ part, x ≠ .componentPart part := by
  unfold Context.fieldOf at h
  dsimp only at h
  rw [hc] at h
  dsimp only at h
  split at h
  · rw [← Except.ok.inj h, hname]
    exact ⟨rfl, fun _ h => absurd h (by simp)⟩
  · rename_i ht
    split at h
    · rw [← Except.ok.inj h]
      exact ⟨rfl, fun _ h => absurd h (by simp)⟩
    · rename_i he
      split at h
      · rename_i part hpart
        rcases hchildren i (by rw [hpart]; rfl) with h' | h'
        · exact absurd h' ht
        · exact absurd h' (List.idxOf?_eq_none_iff.mp he)
      · exact absurd h (by simp)

/-- An expression refers to parts at the top of the tree only. -/
theorem parse_names (h : TopLevel componentId stored earliest last)
    (hx : ∀ c ∈ stored, ∀ s ∈ c.component.path, Src.IsXid lang.xid s) {e : Src} (hw : e.Written lang.xid) {x : Expr F}
    (hparse : (contextOf componentId stored earliest last).parse lang (e.ast lang.floats) = .ok x) :
    (∀ n ∈ exprNames x, Tabled stored n) ∧
      ∀ part, x = .componentPart part → Top (contextOf componentId stored earliest last) part := by
  induction e generalizing x with
  | paren w₁ e w₂ ih => exact ih hw.2.1 hparse
  | ident s =>
    rw [Src.ast, Context.parse] at hparse
    split at hparse
    · rename_i part hpart
      have htop : Top (contextOf componentId stored earliest last) part := ⟨s, hpart, hw.2⟩
      obtain ⟨c, -, -, -, ht, -⟩ := top_component h hx htop
      rw [← Except.ok.inj hparse]
      refine ⟨List.forall_mem_singleton.mpr ht, fun part' hp => ?_⟩
      rw [← Expr.componentPart.inj hp]
      exact htop
    · exact absurd hparse (by simp)
  | field e i ih =>
    rw [Src.ast, Context.parse] at hparse
    obtain ⟨y, hy, hparse⟩ := bind_eq_ok_iff.mp hparse
    obtain ⟨hnames, htop⟩ := ih hw.1 hy
    obtain ⟨p, rfl⟩ := part_of_fieldOf hparse
    obtain ⟨c, -, hc, hname, -, hchildren⟩ := top_component h hx (htop p rfl)
    obtain ⟨hxn, hne⟩ := fieldOf_names hc hname hchildren hparse
    rw [hxn]
    exact ⟨hnames, fun part hp => absurd hp (hne part)⟩
  | index e ds ih =>
    rw [Src.ast, Context.parse] at hparse
    obtain ⟨y, hy, hparse⟩ := bind_eq_ok_iff.mp hparse
    split at hparse
    · rw [← Except.ok.inj hparse]
      exact ⟨(ih hw.1 hy).1, fun _ h => absurd h (by simp)⟩
    · exact absurd hparse (by simp)
  | call e i ih =>
    rw [Src.ast, Context.parse] at hparse
    obtain ⟨y, hy, hparse⟩ := bind_eq_ok_iff.mp hparse
    obtain ⟨args, hargs, hparse⟩ := bind_eq_ok_iff.mp hparse
    rw [callOf_names hparse]
    exact ⟨(ih hw.1 hy).1, fun part hp => absurd (hp ▸ hparse) (callOf_ne_part y i args part)⟩
  | callWith e i arg ih =>
    rw [Src.ast, Context.parse] at hparse
    obtain ⟨y, hy, hparse⟩ := bind_eq_ok_iff.mp hparse
    obtain ⟨args, hargs, hparse⟩ := bind_eq_ok_iff.mp hparse
    rw [callOf_names hparse]
    exact ⟨(ih hw.1 hy).1, fun part hp => absurd (hp ▸ hparse) (callOf_ne_part y i args part)⟩
  | binary a w₁ op w₂ b iha ihb =>
    rw [Src.ast, Context.parse] at hparse
    obtain ⟨y, hy, hparse⟩ := bind_eq_ok_iff.mp hparse
    obtain ⟨z, hz, hparse⟩ := bind_eq_ok_iff.mp hparse
    rw [← Except.ok.inj hparse]
    exact ⟨List.forall_mem_append.mpr ⟨(iha hw.1 hy).1, (ihb hw.2.2.2.2.1 hz).1⟩, fun _ h => absurd h (by simp)⟩
  | tuple a w b iha ihb =>
    rw [Src.ast, Context.parse] at hparse
    obtain ⟨xs, hxs, hparse⟩ := bind_eq_ok_iff.mp hparse
    rw [Context.parseAll] at hxs
    obtain ⟨y, hy, hxs⟩ := bind_eq_ok_iff.mp hxs
    obtain ⟨ys, hys, hxs⟩ := bind_eq_ok_iff.mp hxs
    rw [Context.parseAll] at hys
    obtain ⟨z, hz, hys⟩ := bind_eq_ok_iff.mp hys
    rw [Context.parseAll] at hys
    obtain rfl : [z] = ys := Except.ok.inj hys
    rw [← Except.ok.inj hparse, ← Except.ok.inj hxs]
    refine ⟨fun n hn => ?_, fun _ h => absurd h (by simp)⟩
    obtain ⟨u, hu, hnu⟩ := mem_allNames.mp hn
    rcases List.mem_pair.mp hu with rfl | rfl
    · exact (iha hw.1 hy).1 n hnu
    · exact (ihb hw.2.2.1 hz).1 n hnu
  | bool b =>
    rw [Src.ast, Context.parse] at hparse
    rw [← Except.ok.inj hparse]
    exact ⟨fun _ hn => absurd hn List.not_mem_nil, fun _ h => absurd h (by simp)⟩
  | float sign ds f =>
    rw [Src.ast, Context.parse] at hparse
    rw [← Except.ok.inj hparse]
    exact ⟨fun _ hn => absurd hn List.not_mem_nil, fun _ h => absurd h (by simp)⟩
  | string s =>
    rw [Src.ast, Context.parse] at hparse
    rw [← Except.ok.inj hparse]
    exact ⟨fun _ hn => absurd hn List.not_mem_nil, fun _ h => absurd h (by simp)⟩

/-! ## Names of tables are names of components -/

theorem replaceDots_of_notMem {s : Str} (h : '.' ∉ s) : replaceDots s = s := by
  have hmap : s.map (fun c => if c = '.' then '_' else c) = s.map id :=
    List.map_congr_left fun c hc => if_neg fun he : c = '.' => h (he ▸ hc)
  rw [replaceDots, hmap, List.map_id]

theorem dot_notMem_replaceDots (s : Str) : '.' ∉ replaceDots s := by
  rintro hm
  obtain ⟨c, -, hc⟩ := List.mem_map.mp hm
  split at hc
  · exact absurd hc (by decide)
  · rename_i hne
    exact hne hc

theorem mem_asSessionContext {table : Table} : table ∈ asSessionContext stored ↔
    ∃ c ∈ stored, c.timeSeries ≠ [] ∧ table = ⟨c.component.name, [str "time", c.component.name]⟩ := by
  rw [asSessionContext, List.mem_filterMap]
  refine exists_congr fun c => and_congr_right fun _ => ?_
  unfold asMemTable
  cases c.timeSeries with
  | nil => exact iff_of_false (by simp) (by simp)
  | cons node nodes =>
    show some (⟨c.component.name, [str "time", c.component.name]⟩ : Table) = some table ↔ _
    rw [Option.some_inj, and_iff_right (List.cons_ne_nil node nodes)]
    exact eq_comm

/-- The tables and columns of registered names without dots. -/
theorem registered_of_tabled {e : Expr F} (h : ∀ n ∈ exprNames e, Tabled stored n) {x : Str × Str} (hx : OfNames e x) :
    ∃ table ∈ asSessionContext stored, table.name = x.1 ∧ x.2 ∈ table.columns := by
  obtain ⟨n, hn, ht, hcol⟩ := hx
  obtain ⟨c, hc, rfl, hdata, hdot⟩ := h n hn
  rw [replaceDots_of_notMem hdot] at ht hcol
  refine ⟨_, mem_asSessionContext.mpr ⟨c, hc, hdata, rfl⟩, ht.symm, ?_⟩
  rcases hcol with hcol | hcol
  · rw [hcol]
    exact List.mem_cons_self
  · rw [hcol]
    exact List.mem_cons_of_mem _ List.mem_cons_self

/-- What can be reached under a name has data, and a name without dots. -/
theorem reachable_undotted (h : NamesAgree lang componentId stored earliest last)
    (hx : ∀ c ∈ stored, ∀ s ∈ c.component.path, Src.IsXid lang.xid s) {n : Str} {ns : List Str}
    (hb : ¬ Src.StartsWithBool n) {part : ComponentPart} {c : Component}
    (hf : find (treeOf componentId (stored.map Stored.component)) (n :: ns) = some part) (hc : part.component = some c)
    (hpass : ∀ q m, q ≠ [] → q ++ [m] <+: n :: ns →
      ∀ p ∈ find (treeOf componentId (stored.map Stored.component)) q, Passes p m) :
    ns = [] ∧ ∃ d ∈ stored, d.component = c ∧ d.timeSeries ≠ [] := by
  have hlook : look (treeOf componentId (stored.map Stored.component)) (n :: ns) = some (part.name, part.id, some c) := by
    rw [look, hf, ← hc]
    rfl
  obtain ⟨hname, hcomp⟩ := look_treeOf hlook
  obtain ⟨hmem, hpath⟩ := hcomp c rfl
  obtain ⟨st, hst, rfl⟩ := List.mem_map.mp hmem
  replace hname : part.name = st.component.name := by
    rw [hname, ← hpath]
    exact joinDots_splitDots st.component.name
  -- the query is the name
  have hread : st.component.Readable lang.xid := by
    refine ⟨hx st hst, fun s hs => ?_⟩
    rw [hpath] at hs
    rw [← Option.some.inj hs]
    exact hb
  obtain ⟨n', ns', hpath', hexpr⟩ := @expr_path _ _ lang.floats _ hread
  obtain ⟨rfl, rfl⟩ := List.cons.inj (hpath.symm.trans hpath')
  have hparse : (contextOf componentId stored earliest last).parseStr lang st.component.name =
      .ok (.componentPart part) := by
    rw [Context.parseStr, hexpr]
    exact parse_path hpass hf
  have hquery : (contextOf componentId stored earliest last).query lang st.component.name =
      .ok ⟨[.named (.column (replaceDots part.name) (replaceDots part.name)) part.name], replaceDots part.name, [], []⟩ := by
    rw [Context.query, hparse]
    rfl
  obtain ⟨q, -, hq, htables, -⟩ := h.registered st.component.name _ (by rw [sql_eq, hquery]; rfl)
  rw [hquery] at hq
  obtain ⟨table, htable, htname⟩ := htables (replaceDots part.name) (by rw [← Except.ok.inj hq]; exact List.mem_cons_self)
  obtain ⟨d, hd, hdata, rfl⟩ := mem_asSessionContext.mp htable
  replace htname : d.component.name = replaceDots st.component.name := by rw [← hname]; exact htname
  have hdot : '.' ∉ d.component.name := by
    rw [htname]
    exact dot_notMem_replaceDots _
  have hsame : d.component = st.component := by
    by_contra hne
    refine h.distinct _ (List.mem_map_of_mem hd) _ (List.mem_map_of_mem hst) hne (congrArg Except.ok ?_)
    show replaceDots d.component.name = replaceDots st.component.name
    rw [replaceDots_of_notMem hdot, htname]
  refine ⟨?_, d, hd, hsame, hdata⟩
  rw [hsame] at hdot
  have hsingle : st.component.path = [st.component.name] := List.splitOn_eq_singleton hdot
  rw [hsingle] at hpath
  exact (List.cons.inj hpath).2.symm

theorem head_prefix_of {s : Str} {q ns : List Str} (hq : q ≠ []) (h : q <+: s :: ns) : [s] <+: q := by
  obtain ⟨m, q, rfl⟩ := List.exists_cons_of_ne_nil hq
  obtain ⟨rfl, -⟩ := List.cons_prefix_cons.mp h
  exact List.prefix_append [m] q

/-- A proper prefix of a path that has only one segment. -/
theorem prefix_of_short {s n m : Str} {q ns : List Str} (hq : q ≠ []) (hlong : ¬ [s, n] <+: q)
    (h : q ++ [m] <+: s :: n :: ns) : q = [s] ∧ m = n := by
  match q, hq with
  | [s'], _ =>
    obtain ⟨rfl, h'⟩ := List.cons_prefix_cons.mp h
    exact ⟨rfl, (List.cons_prefix_cons.mp h').1⟩
  | s' :: n' :: q, _ =>
    obtain ⟨rfl, h'⟩ := List.cons_prefix_cons.mp h
    obtain ⟨rfl, -⟩ := List.cons_prefix_cons.mp h'
    exact absurd (List.prefix_append [s', n'] q) hlong

/-- Nothing but components at the top can be reached. -/
theorem topLevel_of_names (h : NamesAgree lang componentId stored earliest last)
    (hn : (stored.map fun c => c.component.name).Nodup)
    (hx : ∀ c ∈ stored, ∀ s ∈ c.component.path, Src.IsXid lang.xid s) : TopLevel componentId stored earliest last := by
  have hinj {c d : Stored} (hc : c ∈ stored) (hd : d ∈ stored) (he : c.component.name = d.component.name) : c = d :=
    List.inj_on_of_nodup_map hn hc hd he
  refine ⟨(List.Nodup.of_map _ hn).map_on fun c hc d hd he => ?_, fun s part hs hb => ?_⟩
  · by_contra hne
    refine h.distinct _ (List.mem_map_of_mem hc) _ (List.mem_map_of_mem hd) (fun hcd => hne ?_) (congrArg Except.ok he)
    exact hinj hc hd (by rw [hcd])
  replace hs : find (treeOf componentId (stored.map Stored.component)) [s] = some part := hs
  -- the first component from a node on, of which nothing above hides the way
  have first {q : List Str} (hq : q ≠ []) {p : ComponentPart}
      (hf : find (treeOf componentId (stored.map Stored.component)) q = some p) :
      ∃ r part' c', q <+: r ∧ find (treeOf componentId (stored.map Stored.component)) r = some part' ∧
        part'.component = some c' ∧ ∀ p', q <+: p' → ∀ m, p' ++ [m] <+: r →
          ∀ part'' ∈ find (treeOf componentId (stored.map Stored.component)) p', Passes part'' m := by
    obtain ⟨r, y, c, hqr, hr, hc⟩ := @exists_below componentId (stored.map Stored.component) q (p.name, p.id, p.component)
      (by rw [look, hf]; rfl)
    obtain ⟨part', hf', hc'⟩ := find_of_look hr
    rw [hc] at hc'
    obtain ⟨r', part'', c'', hqr', hf'', hc'', hnone⟩ := exists_first hqr hf' hc'
    refine ⟨r', part'', c'', hqr', hf'', hc'', fun p' hqp m hpm p'' hp'' d hd => ?_⟩
    have hne : p' ≠ r' := by
      rintro rfl
      exact absurd hpm.length_le (by simp)
    rw [hnone p' hqp ((List.prefix_append p' [m]).trans hpm) hne p'' hp''] at hd
    exact absurd hd (by simp)
  -- the first component from the top on is at the top
  obtain ⟨r, part₁, c₁, hsr, hf₁, hc₁, hpass⟩ := first (List.cons_ne_nil s []) hs
  obtain ⟨ns, rfl⟩ := hsr
  obtain ⟨rfl, d, hd, hdc, hdata⟩ := reachable_undotted h hx hb hf₁ hc₁ fun q m hq hqm =>
    hpass q (head_prefix_of hq ((List.prefix_append q [m]).trans hqm)) m hqm
  obtain rfl : part = part₁ := Option.some.inj (hs.symm.trans hf₁)
  refine ⟨d, hd, by rw [hc₁, hdc], hdata, fun n hchild => ?_⟩
  by_contra hhides
  have hpart : Passes part n := by
    intro c hc
    rw [hc₁] at hc
    rw [← Option.some.inj hc, ← hdc]
    exact ⟨fun he => hhides (.inl he), fun he => hhides (.inr he)⟩
  -- nothing hides the way to what stands below it
  obtain ⟨child, hchild⟩ := Option.isSome_iff_exists.mp hchild
  have hfind : find (treeOf componentId (stored.map Stored.component)) [s, n] = some child := by
    show find (treeOf componentId (stored.map Stored.component)) ([s] ++ [n]) = some child
    rw [find_concat (List.cons_ne_nil s []), hs]
    exact hchild
  obtain ⟨r, part₂, c₂, hnr, hf₂, hc₂, hpass₂⟩ := first (List.cons_ne_nil s [n]) hfind
  obtain ⟨ns, rfl⟩ := hnr
  obtain ⟨hnil, -⟩ := reachable_undotted h hx hb hf₂ hc₂ fun q m hq hqm p hp => by
    by_cases hlong : [s, n] <+: q
    · exact hpass₂ q hlong m hqm p hp
    · obtain ⟨rfl, rfl⟩ := prefix_of_short hq hlong hqm
      obtain rfl : part = p := Option.some.inj (hs.symm.trans hp)
      exact hpart
  exact absurd hnil (List.cons_ne_nil n ns)

/-- Every table and column that a query names is registered, and no two components share a table, just when the names
differ otherwise than in dots and underscores, and nothing can be reached but components at the top of the tree, with
data. -/
theorem names_agree_iff (lang : Lang F) (componentId : Str → UInt64) (stored : List Stored) (earliest last : Int)
    (hn : (stored.map fun c => c.component.name).Nodup)
    (hx : ∀ c ∈ stored, ∀ s ∈ c.component.path, Src.IsXid lang.xid s) :
    NamesAgree lang componentId stored earliest last ↔ TopLevel componentId stored earliest last := by
  refine ⟨fun h => topLevel_of_names h hn hx, fun h => ⟨fun text sql hsql => ?_, fun c hc d hd hne he => ?_⟩⟩
  · rw [sql_eq] at hsql
    obtain ⟨q, hq, rfl⟩ := map_eq_ok hsql
    refine ⟨q, rfl, hq, ?_⟩
    obtain ⟨x, hparse, hquery⟩ := bind_eq_ok_iff.mp hq
    unfold Context.parseStr at hparse
    split at hparse
    · rename_i ast hast
      obtain ⟨e, hw, -, rfl⟩ := expr_eq_some_iff.mp hast
      have hnames := (parse_names h hx hw hparse).1
      obtain ⟨htables, hcolumns⟩ := query_names hquery
      refine ⟨fun t ht => ?_, fun y hy => registered_of_tabled hnames (hcolumns y hy)⟩
      obtain ⟨table, hmem, hname, -⟩ := registered_of_tabled hnames (htables t ht)
      exact ⟨table, hmem, hname⟩
    · exact absurd hparse (by simp)
  · obtain ⟨c', hc', rfl⟩ := List.mem_map.mp hc
    obtain ⟨d', hd', rfl⟩ := List.mem_map.mp hd
    replace he : replaceDots c'.component.name = replaceDots d'.component.name := Except.ok.inj he
    exact hne (congrArg _ (List.inj_on_of_nodup_map h.distinct hc' hd' he))

end

/-- `a`, `a_b` and `bb`, with nodes of data -/
def undottedStored : List Stored :=
  [⟨⟨['a'], 1, []⟩, [⟨"0", ⟨0, 0, []⟩, ⟨8, 0, []⟩⟩]⟩,
    ⟨⟨['a', '_', 'b'], 2, []⟩, [⟨"1", ⟨0, 0, []⟩, ⟨8, 0, []⟩⟩]⟩,
    ⟨⟨['b', 'b'], 3, []⟩, [⟨"2", ⟨0, 0, []⟩, ⟨8, 0, []⟩⟩]⟩]

theorem isXid_undotted : ∀ c ∈ undottedStored, ∀ s ∈ c.component.path, Src.IsXid Lang.ascii.xid s := by
  have ha : Src.IsXid Lang.ascii.xid ['a'] := ⟨by decide, List.forall_mem_nil _⟩
  have hab : Src.IsXid Lang.ascii.xid ['a', '_', 'b'] :=
    ⟨by decide, List.forall_mem_cons.mpr ⟨by decide, List.forall_mem_singleton.mpr (by decide)⟩⟩
  have hbb : Src.IsXid Lang.ascii.xid ['b', 'b'] := ⟨by decide, List.forall_mem_singleton.mpr (by decide)⟩
  refine List.forall_mem_cons.mpr ⟨List.forall_mem_singleton.mpr ha, List.forall_mem_cons.mpr
    ⟨List.forall_mem_singleton.mpr hab, List.forall_mem_singleton.mpr (List.forall_mem_singleton.mpr hbb)⟩⟩

/-- What is at the top of the tree of the context -/
theorem parts_undotted (s : Str) : (contextOf (fun _ => 0) undottedStored 0 0).componentParts s =
    if s = ['b', 'b'] then some ⟨['b', 'b'], 3, some ⟨['b', 'b'], 3, []⟩, fun _ => none⟩
    else if s = ['a', '_', 'b'] then some ⟨['a', '_', 'b'], 2, some ⟨['a', '_', 'b'], 2, []⟩, fun _ => none⟩
    else if s = ['a'] then some ⟨['a'], 1, some ⟨['a'], 1, []⟩, fun _ => none⟩ else none := by
  show Function.update (Function.update (Function.update (fun _ => none) ['a'] _) ['a', '_', 'b'] _) ['b', 'b'] _ s = _
  rw [Function.update_apply, Function.update_apply, Function.update_apply]

theorem names_agree_undotted : NamesAgree .ascii (fun _ => 0) undottedStored 0 0 := by
  refine (names_agree_iff .ascii (fun _ => 0) undottedStored 0 0 (by decide) isXid_undotted).mpr
    ⟨by decide, fun s part hs hb => ?_⟩
  rw [parts_undotted] at hs
  have hnone (n : Str) (hn : ((fun _ => none : Str → Option ComponentPart) n).isSome) (names : List Str) :
      n = str "time" ∨ n ∈ names := absurd hn Bool.false_ne_true
  split_ifs at hs
  · obtain rfl := Option.some.inj hs
    exact ⟨_, .tail _ (.tail _ (.head _)), rfl, List.cons_ne_nil _ _, fun n hn => hnone n hn _⟩
  · obtain rfl := Option.some.inj hs
    exact ⟨_, .tail _ (.head _), rfl, List.cons_ne_nil _ _, fun n hn => hnone n hn _⟩
  · obtain rfl := Option.some.inj hs
    exact ⟨_, .head _, rfl, List.cons_ne_nil _ _, fun n hn => hnone n hn _⟩

/-- `a.x`, whose table the query `a.x` names `a_x`. -/
def dottedStored : List Stored := [⟨⟨['a', '.', 'x'], 1, []⟩, [⟨"0", ⟨0, 0, []⟩, ⟨8, 0, []⟩⟩]⟩]

theorem dotted_names_disagree : (dottedStored.map fun c => c.component.name).Nodup ∧
    (∀ c ∈ dottedStored, ∀ s ∈ c.component.path, Src.IsXid .ascii s) ∧
    ¬ NamesAgree .ascii (fun _ => 0) dottedStored 0 0 := by
  have hxid {ch : Char} (h : ch.isAlpha) : Src.IsXid .ascii [ch] := ⟨h, fun _ h => absurd h List.not_mem_nil⟩
  refine ⟨by decide, ?_, fun h => ?_⟩
  · exact List.forall_mem_singleton.mpr (List.forall_mem_cons.mpr ⟨hxid (by decide), List.forall_mem_singleton.mpr (hxid (by decide))⟩)
  · obtain ⟨q, -, hq, htables, -⟩ := h.registered ['a', '.', 'x'] _ rfl
    have hquery : (contextOf (fun _ => 0) dottedStored 0 0).query .ascii ['a', '.', 'x'] =
        .ok ⟨[.named (.column ['a', '_', 'x'] ['a', '_', 'x']) ['a', '.', 'x']], ['a', '_', 'x'], [], []⟩ := rfl
    rw [hquery] at hq
    obtain ⟨table, htable, hname⟩ := htables ['a', '_', 'x'] (by rw [← Except.ok.inj hq]; exact List.mem_cons_self)
    obtain ⟨d, hd, -, rfl⟩ := mem_asSessionContext.mp htable
    rw [List.mem_singleton.mp hd] at hname
    exact absurd hname (by decide)

end Metor.Proof.Eql
