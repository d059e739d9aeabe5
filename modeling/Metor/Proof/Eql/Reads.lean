import Metor.Proof.Eql.Accepted
import Metor.Proof.Eql.Sql

/-!
# Expressions read as they are written

Commas make pairs (`ast_joined`), all operators are on one level
(`ast_eq_grouped_iff`), and a word of `bool` begins no identifier
(`not_startsWithBool_of_ast`). So expressions are read as they are written just
when there are two of them, products come before sums, and identifiers do not
begin with such a word (`reads_as_written_iff`).
-/

namespace Metor.Proof.Eql

open Metor.Lib Metor.Impl.Eql Metor.Impl.Eql.Grammar

section
variable {F : Type} {xid : Xid} {floats : Floats F} {e : Src}

/-! ## Commas -/

theorem prec_of_comma_notMem (h : ',' ∉ e.print) : 1 ≤ e.prec := by
  cases e with
  | tuple a w b => exact absurd (by simp [Src.print]) h
  | binary => exact Nat.le_refl 1
  | _ => exact Nat.le_succ 1

theorem written_joined {es : List (Str × Src)} (he : e.Written xid)
    (hes : ∀ x ∈ es, Src.Spaces x.1 ∧ x.2.Written xid ∧ 1 ≤ x.2.prec) : (Src.joined e es).Written xid := by
  induction es generalizing e with
  | nil => exact he
  | cons x es ih =>
    obtain ⟨hw, hx, hp⟩ := hes x List.mem_cons_self
    exact ih ⟨he, hw, hx, hp⟩ fun y hy => hes y (List.mem_cons_of_mem x hy)

theorem print_joined (e : Src) (es : List (Str × Src)) :
    (Src.joined e es).print = joinedText e.print (es.map fun x => (x.1, x.2.print)) := by
  induction es generalizing e with
  | nil => exact (List.append_nil _).symm
  | cons x es ih =>
    show (Src.joined (.tuple e x.1 x.2) es).print = _
    rw [ih]
    simp [joinedText, Src.print]

/-- Commas make pairs, from the left. -/
theorem ast_joined {es : List (Str × Src)} (h : es ≠ []) :
    ∃ a b, (Src.joined e es).ast floats = .tuple [a, b] := by
  obtain ⟨es', x, rfl⟩ := List.eq_nil_or_concat es |>.resolve_left h
  refine ⟨(Src.joined e es').ast floats, x.2.ast floats, ?_⟩
  rw [Src.joined, List.concat_eq_append, List.foldl_append]
  rfl

/-- Texts that the grammar reads, as written expressions. -/
theorem exists_written {ts : List (Str × Str)} {as : List (AstNode F)}
    (h : List.Forall₂ (fun t a => expr xid floats t = some a ∧ ',' ∉ t) (ts.map Prod.snd) as) :
    ∃ es : List (Str × Src), (es.map fun x => (x.1, x.2.print)) = ts ∧ (es.map fun x => x.2.ast floats) = as ∧
      ∀ x ∈ es, x.2.Written xid ∧ 1 ≤ x.2.prec := by
  induction ts generalizing as with
  | nil =>
    rw [List.forall₂_nil_left_iff.mp h]
    exact ⟨[], rfl, rfl, fun _ hx => absurd hx List.not_mem_nil⟩
  | cons t ts ih =>
    obtain ⟨a, as', ⟨ha, hc⟩, h', rfl⟩ := List.forall₂_cons_left_iff.mp h
    obtain ⟨es, rfl, rfl, hes⟩ := ih h'
    obtain ⟨e, hw, hp, rfl⟩ := expr_eq_some_iff.mp ha
    refine ⟨(t.1, e) :: es, by rw [List.map_cons, hp], rfl, List.forall_mem_cons.mpr ⟨⟨hw, ?_⟩, hes⟩⟩
    exact prec_of_comma_notMem (by rw [hp]; exact hc)

end

/-! ### The columns of a tuple -/

section
variable {F : Type} {lang : Lang F} {ctx : Context}

theorem length_of_parseAll {as : List (AstNode F)} {es : List (Expr F)} (h : ctx.parseAll lang as = .ok es) :
    es.length = as.length := by
  induction as generalizing es with
  | nil =>
    rw [Context.parseAll] at h
    rw [← Except.ok.inj h]
    rfl
  | cons a as ih =>
    rw [Context.parseAll] at h
    obtain ⟨e, -, h⟩ := bind_eq_ok_iff.mp h
    obtain ⟨es', hes, h⟩ := bind_eq_ok_iff.mp h
    rw [← Except.ok.inj h, List.length_cons, List.length_cons, ih hes]

theorem items_joined (items : List Sql.Item) (tables : List Str) : (Expr.joined items tables).items = items := by
  cases tables <;> rfl

theorem length_items_tuple {es : List (Expr F)} {q : Query} (h : (Expr.tuple es).query lang ctx = .ok q) :
    q.items.length = es.length := by
  rw [Expr.query] at h
  split at h
  · exact absurd h (by simp)
  · obtain ⟨tables, -, h⟩ := bind_eq_ok_iff.mp h
    obtain ⟨items, hitems, h⟩ := bind_eq_ok_iff.mp h
    rw [← Except.ok.inj h, items_joined]
    exact (mapM_eq_ok_iff.mp hitems).length_eq.symm

/-- A tuple selects a column for each member. -/
theorem readsAsTuple {text : Str} {as : List (AstNode F)} (h : expr lang.xid lang.floats text = some (.tuple as)) :
    ReadsAsTuple lang text as := by
  refine ⟨h, fun ctx sql hsql => ?_⟩
  rw [sql_eq] at hsql
  cases hq : ctx.query lang text with
  | error err =>
    rw [hq] at hsql
    exact absurd hsql (by simp [Except.map])
  | ok q =>
    rw [hq] at hsql
    refine ⟨q, rfl, (Except.ok.inj hsql).symm, ?_⟩
    obtain ⟨e, he, hq⟩ := bind_eq_ok_iff.mp hq
    unfold Context.parseStr at he
    rw [h] at he
    replace he : ctx.parse lang (.tuple as) = .ok e := he
    rw [Context.parse] at he
    obtain ⟨es, hes, he⟩ := bind_eq_ok_iff.mp he
    rw [← Except.ok.inj he] at hq
    rw [length_items_tuple hq, length_of_parseAll hes]

end

section
variable {F : Type} {lang : Lang F} {xid : Xid} {floats : Floats F} {e : Src}

theorem readsAsTuple_iff {t : Str} {ts : List (Str × Str)} {as : List (AstNode F)}
    (h : List.Forall₂ (fun t a => expr lang.xid lang.floats t = some a ∧ ',' ∉ t) (t :: ts.map Prod.snd) as)
    (hw : ∀ x ∈ ts, Src.Spaces x.1) (hts : ts ≠ []) : ReadsAsTuple lang (joinedText t ts) as ↔ as.length = 2 := by
  obtain ⟨a, as', ⟨ha, -⟩, h', rfl⟩ := List.forall₂_cons_left_iff.mp h
  obtain ⟨es, rfl, rfl, hes⟩ := exists_written h'
  obtain ⟨e, hwe, rfl, rfl⟩ := expr_eq_some_iff.mp ha
  have hne : es ≠ [] := fun h => hts (by rw [h]; rfl)
  have hspaces : ∀ x ∈ es, Src.Spaces x.1 := fun x hx => hw _ (List.mem_map_of_mem hx)
  have hread := @expr_print _ lang.xid lang.floats _ (written_joined hwe fun x hx => ⟨hspaces x hx, hes x hx⟩)
  rw [print_joined] at hread
  constructor
  · rintro ⟨htuple, -⟩
    obtain ⟨x, y, hxy⟩ := @ast_joined _ lang.floats e es hne
    rw [hread, hxy] at htuple
    rw [← AstNode.tuple.inj (Option.some.inj htuple)]
    rfl
  · intro hlen
    rw [List.length_cons, List.length_map] at hlen
    obtain ⟨x, rfl⟩ := List.length_eq_one_iff.mp (Nat.succ.inj hlen)
    exact readsAsTuple hread

/-! ## Sums and products -/

theorem groups_fst_of_not_hasSum (h : ¬ e.HasSum) : (e.groups floats).1 = none := by
  induction e with
  | binary a w₁ op w₂ b iha _ =>
    rw [Src.HasSum, not_or, not_or] at h
    cases op with
    | add => exact absurd rfl h.1
    | sub => exact absurd rfl h.2.1
    | mul => exact iha h.2.2
    | div => exact iha h.2.2
  | _ => rfl

theorem groups_fst_of_hasSum (h : e.HasSum) : ∃ a op, (e.groups floats).1 = some (a, op) ∧ op ≠ .mul ∧ op ≠ .div := by
  induction e with
  | binary a w₁ op w₂ b iha _ =>
    cases op with
    | add => exact ⟨_, .add, rfl, by decide, by decide⟩
    | sub => exact ⟨_, .sub, rfl, by decide, by decide⟩
    | mul => exact iha (by simpa [Src.HasSum] using h)
    | div => exact iha (by simpa [Src.HasSum] using h)
  | _ => exact h.elim

/-- Products, under a sum that may come before. -/
theorem product_eq_iff {a b : Src} {op : BinaryOp} (iha : a.ast floats = a.grouped floats ↔ a.ProductsFirst)
    (ihb : b.ast floats = b.grouped floats ↔ b.ProductsFirst) (hop : op = .mul ∨ op = .div) :
    .binaryOp (a.ast floats) (b.ast floats) op =
      Src.close (a.groups floats).1 (.binaryOp (a.groups floats).2 (b.grouped floats) op) ↔
    a.ProductsFirst ∧ b.ProductsFirst ∧ (op = .mul ∨ op = .div → ¬ a.HasSum) := by
  by_cases hs : a.HasSum
  · -- the outermost operator is a sum, and that of the tree is not
    obtain ⟨x, o, hg, hm, hd⟩ := @groups_fst_of_hasSum _ floats a hs
    rw [hg]
    refine iff_of_false (fun h => ?_) fun h => h.2.2 hop hs
    obtain ⟨-, -, rfl⟩ := AstNode.binaryOp.inj h
    exact hop.elim hm hd
  · have hg : (a.groups floats).2 = a.grouped floats := by
      rw [Src.grouped, groups_fst_of_not_hasSum hs]
      rfl
    rw [groups_fst_of_not_hasSum hs, hg, Src.close, AstNode.binaryOp.injEq, iha, ihb]
    exact ⟨fun h => ⟨h.1, h.2.1, fun _ => hs⟩, fun h => ⟨h.1, h.2.1, rfl⟩⟩

theorem sum_eq_iff {a b : Src} {op : BinaryOp} (iha : a.ast floats = a.grouped floats ↔ a.ProductsFirst)
    (ihb : b.ast floats = b.grouped floats ↔ b.ProductsFirst) (hop : ¬ (op = .mul ∨ op = .div)) :
    AstNode.binaryOp (a.ast floats) (b.ast floats) op = .binaryOp (a.grouped floats) (b.grouped floats) op ↔
    a.ProductsFirst ∧ b.ProductsFirst ∧ (op = .mul ∨ op = .div → ¬ a.HasSum) := by
  rw [AstNode.binaryOp.injEq, iha, ihb]
  exact ⟨fun h => ⟨h.1, h.2.1, fun h => absurd h hop⟩, fun h => ⟨h.1, h.2.1, rfl⟩⟩

/-- The tree of the grammar groups products tighter just when they come first. -/
theorem ast_eq_grouped_iff : e.ast floats = e.grouped floats ↔ e.ProductsFirst := by
  induction e with
  | paren w₁ e w₂ ih => exact ih
  | index e ds ih =>
    show AstNode.arrayIndex (e.ast floats) _ = .arrayIndex (e.grouped floats) _ ↔ _
    rw [AstNode.arrayIndex.injEq, ih]
    exact and_iff_left rfl
  | field e i ih =>
    show AstNode.field (e.ast floats) _ = .field (e.grouped floats) _ ↔ _
    rw [AstNode.field.injEq, ih]
    exact and_iff_left rfl
  | call e i ih =>
    show AstNode.methodCall (e.ast floats) _ _ = .methodCall (e.grouped floats) _ _ ↔ _
    rw [AstNode.methodCall.injEq, ih]
    exact and_iff_left ⟨rfl, rfl⟩
  | callWith e i arg ih iha =>
    show AstNode.methodCall (e.ast floats) _ [arg.ast floats] = .methodCall (e.grouped floats) _ [arg.grouped floats] ↔ _
    rw [AstNode.methodCall.injEq, ih, List.singleton_inj, iha]
    exact and_congr_right fun _ => and_iff_right rfl
  | binary a w₁ op w₂ b iha ihb =>
    cases op with
    | add => exact sum_eq_iff iha ihb (by decide)
    | sub => exact sum_eq_iff iha ihb (by decide)
    | mul => exact product_eq_iff iha ihb (.inl rfl)
    | div => exact product_eq_iff iha ihb (.inr rfl)
  | tuple a w b iha ihb =>
    show AstNode.tuple [a.ast floats, b.ast floats] = .tuple [a.grouped floats, b.grouped floats] ↔ _
    rw [AstNode.tuple.injEq, List.cons.injEq, List.singleton_inj, iha, ihb]
    exact Iff.rfl
  | _ => exact iff_of_true rfl trivial

/-! ## Identifiers -/

theorem not_startsWithBool_of_ast (hw : e.Written xid) {s : Str} (h : e.ast floats = .ident s) : ¬ Src.StartsWithBool s := by
  induction e with
  | paren w₁ e w₂ ih => exact ih hw.2.1 h
  | ident t =>
    rw [← AstNode.ident.inj h]
    exact hw.2
  | _ => exact absurd h (by simp [Src.ast])

theorem ident_iff {s : Str} (hs : Src.IsXid xid s) : expr xid floats s = some (.ident s) ↔ ¬ Src.StartsWithBool s := by
  constructor
  · intro h
    obtain ⟨e, hw, -, ha⟩ := expr_eq_some_iff.mp h
    exact not_startsWithBool_of_ast hw ha
  · intro hb
    exact expr_eq_some_iff.mpr ⟨.ident s, ⟨hs, hb⟩, rfl, rfl⟩

/-- Expressions are read as they are written just when there are two of them in a tuple, no `*` or `/` follows a `+` or
`-` in a chain, and no identifier begins with `true` or `false`. -/
theorem reads_as_written_iff (lang : Lang F) :
    (∀ (t : Str) (ts : List (Str × Str)) (as : List (AstNode F)),
      List.Forall₂ (fun t a => expr lang.xid lang.floats t = some a ∧ ',' ∉ t) (t :: ts.map Prod.snd) as →
      (∀ x ∈ ts, Src.Spaces x.1) → 2 ≤ as.length → (ReadsAsTuple lang (joinedText t ts) as ↔ as.length = 2)) ∧
    (∀ e : Src, e.Written lang.xid →
      (expr lang.xid lang.floats e.print = some (e.grouped lang.floats) ↔ e.ProductsFirst)) ∧
    ∀ s, Src.IsXid lang.xid s → s ≠ "true".toList → s ≠ "false".toList →
      (expr lang.xid lang.floats s = some (.ident s) ↔ ¬ Src.StartsWithBool s) := by
  refine ⟨fun t ts as h hw hlen => readsAsTuple_iff h hw ?_, fun e hw => ?_, fun s hs _ _ => ident_iff hs⟩
  · rintro rfl
    rw [← h.length_eq] at hlen
    exact absurd hlen (show ¬ 2 ≤ 1 by decide)
  · rw [expr_print hw, Option.some_inj]
    exact ast_eq_grouped_iff

end

/-- `x`, an operator, `y`, another operator and `z` -/
def chain (op op' : BinaryOp) : Src := .binary (.binary (.ident ['x']) [] op [] (.ident ['y'])) [] op' [] (.ident ['z'])

theorem written_chain (op op' : BinaryOp) : (chain op op').Written .ascii := by
  have hx {c : Char} (hc : c.isAlpha) (hb : ¬ Src.StartsWithBool [c]) : (Src.ident [c]).Written .ascii :=
    ⟨⟨hc, fun _ h => absurd h List.not_mem_nil⟩, hb⟩
  have hw : Src.Spaces [] := fun _ h => absurd h List.not_mem_nil
  exact ⟨⟨hx (by decide) (by decide), by decide, hw, hw, hx (by decide) (by decide), by decide⟩, Nat.le_refl 1, hw, hw,
    hx (by decide) (by decide), by decide⟩

/-- `x, y`, `x*y+z` and `tree` -/
theorem reads_as_written_some :
    ReadsAsTuple .ascii (joinedText ['x'] [([' '], ['y'])]) [.ident ['x'], .ident ['y']] ∧
      expr .ascii Lang.ascii.floats (chain .mul .add).print = some ((chain .mul .add).grouped Lang.ascii.floats) ∧
      expr .ascii Lang.ascii.floats ['t', 'r', 'e', 'e'] = some (.ident ['t', 'r', 'e', 'e']) := by
  obtain ⟨hcommas, hsums, hidents⟩ := reads_as_written_iff .ascii
  have hxy : List.Forall₂ (fun t a => expr .ascii Lang.ascii.floats t = some a ∧ ',' ∉ t) [['x'], ['y']]
      [.ident ['x'], .ident ['y']] := .cons ⟨rfl, by decide⟩ (.cons ⟨rfl, by decide⟩ .nil)
  have hspace : ∀ x ∈ [([' '], ['y'])], Src.Spaces x.1 := 
    List.forall_mem_singleton.mpr (List.forall_mem_singleton.mpr rfl)
  refine ⟨(hcommas ['x'] [([' '], ['y'])] _ hxy hspace (by decide)).mpr rfl, (hsums _ (written_chain .mul .add)).mpr ?_,
    (hidents ['t', 'r', 'e', 'e'] ⟨rfl, List.all_eq_true.mp rfl⟩ (by decide) (by decide)).mpr (by decide)⟩
  exact ⟨⟨trivial, trivial, fun _ h => h⟩, trivial, fun h => absurd h (by decide)⟩

/-- `x,y,z` is read as `(x,y),z`, `x+y*z` as `(x+y)*z`, and `truex` not at all. -/
theorem not_read_as_written :
    ¬ ReadsAsTuple .ascii (joinedText ['x'] [([], ['y']), ([], ['z'])]) [.ident ['x'], .ident ['y'], .ident ['z']] ∧
      expr .ascii Lang.ascii.floats (chain .add .mul).print ≠ some ((chain .add .mul).grouped Lang.ascii.floats) ∧
      expr .ascii Lang.ascii.floats ['t', 'r', 'u', 'e', 'x'] ≠ some (.ident ['t', 'r', 'u', 'e', 'x']) := by
  have hcommas : expr Lang.ascii.xid Lang.ascii.floats (joinedText ['x'] [([], ['y']), ([], ['z'])]) =
      some (.tuple [.tuple [.ident ['x'], .ident ['y']], .ident ['z']]) := rfl
  have hsums : expr .ascii Lang.ascii.floats (chain .add .mul).print = some ((chain .add .mul).ast Lang.ascii.floats) := rfl
  have hident : (expr .ascii Lang.ascii.floats ['t', 'r', 'u', 'e', 'x']).isNone := by decide +kernel
  refine ⟨fun h => ?_, fun h => ?_, fun h => ?_⟩
  · rw [ReadsAsTuple, hcommas] at h
    exact absurd (AstNode.tuple.inj (Option.some.inj h.1)) (by simp)
  · rw [hsums] at h
    have hop : BinaryOp.mul = .add := (AstNode.binaryOp.inj (Option.some.inj h)).2.2
    exact absurd hop (by decide)
  · rw [h] at hident
    exact absurd hident (by decide)

end Metor.Proof.Eql
