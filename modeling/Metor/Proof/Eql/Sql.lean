import Metor.Lib.Except
import Metor.Spec.Eql.Sql

/-!
# The text of a query

`toSql` writes the query of the expression (`toSql_eq`), and `sql` the query of
what it has parsed (`sql_eq`).
-/

namespace Metor.Proof.Eql

open Metor.Lib Metor.Impl.Eql Metor.Impl.Eql.Sql

section
variable {F : Type} {lang : Lang F}

theorem toQualifiedField_eq (e : Expr F) : e.toQualifiedField lang = (e.term lang).map Term.render := by
  fun_induction Expr.term lang e with
  | case1 part => rfl
  | case2 c => rfl
  | case3 e ih =>
    rw [Expr.toQualifiedField, ih]
    cases e.term lang <;> rfl
  | case4 e ih =>
    rw [Expr.toQualifiedField, ih]
    cases e.term lang <;> rfl
  | case5 l r op ihl ihr =>
    rw [Expr.toQualifiedField, ihl, ihr]
    cases l.term lang with
    | error e => rfl
    | ok a => cases r.term lang <;> rfl
  | case6 f => rfl
  | case7 part index h =>
    show (do let field ← Expr.toField lang (.arrayAccess (.componentPart part) index); _) = _
    rw [Expr.toField, if_pos h]
    rfl
  | case8 part index h =>
    show (do let field ← Expr.toField lang (.arrayAccess (.componentPart part) index); _) = _
    rw [Expr.toField, if_neg h]
    rfl
  | case9 e index h =>
    cases e with
    | componentPart part => exact absurd rfl (h part)
    | _ => rfl
  | case10 e => cases e <;> first | rfl | simp_all

theorem toSelectPart_eq (e : Expr F) : e.toSelectPart lang = (e.item lang).map Item.render := by
  unfold Expr.toSelectPart Expr.item
  rw [toQualifiedField_eq]
  cases e.toColumnName with
  | some name => cases e.term lang <;> rfl
  | none => cases e.term lang <;> rfl

theorem toSqlTimeField_eq : (e : Expr F) → e.toSqlTimeField = e.timeTable.map fun table => table ++ str ".time"
  | .tuple [] => by
    rw [Expr.toSqlTimeField, Expr.timeTable, Expr.firstTimeField, Expr.firstTable]
    rfl
  | .tuple (e :: es) => by
    rw [Expr.toSqlTimeField, Expr.timeTable, Expr.firstTimeField, Expr.firstTable]
    exact toSqlTimeField_eq e
  | .componentPart _ | .time _ | .arrayAccess .. | .floatLiteral _ | .stringLiteral _ | .boolLiteral _ | .fft _
  | .fftFreq _ | .last .. | .first .. | .binaryOp .. => by
    rw [Expr.toSqlTimeField, Expr.timeTable] <;> simp

theorem fromClause_eq (items : List Item) (tables : List Str) :
    str "select " ++ joinWith (str ", ") (items.map Item.render) ++ str " from " ++ Expr.fromClause tables =
      (Expr.joined items tables).render := by
  cases tables with
  | nil => simp only [Expr.fromClause, Expr.joined, Query.render, List.flatMap_nil, List.append_nil]
  | cons t ts =>
    simp only [Expr.fromClause, Expr.joined, Query.render, List.flatMap_map, Join.render, Case.join, Case.on,
      List.flatMap_nil, List.append_nil, List.append_assoc]

theorem render_one (i : Item) (table : Str) (joins : List Join) :
    (⟨[i], table, joins, []⟩ : Query).render =
      str "select " ++ i.render ++ str " from " ++ table ++ joins.flatMap Join.render := by
  have hi : joinWith (str ", ") ([i].map Item.render) = i.render := List.intercalate_singleton
  rw [Query.render, hi]
  exact List.append_nil _

/-- The text of a bound after that of the rest. -/
theorem render_bound (q : Query) (b : TimeBound) :
    ({ q with bounds := q.bounds ++ [b] } : Query).render = q.render ++ b.render := by
  simp only [Query.render, List.flatMap_append, List.flatMap_cons, List.flatMap_nil, List.append_nil, List.append_assoc]

/-- The text that is written is that of the query. -/
theorem toSql_eq (ctx : Context) (e : Expr F) : e.toSql lang ctx = (e.query lang ctx).map Query.render := by
  fun_induction Expr.query lang ctx e with
  | case1 => rfl
  | case2 elements h =>
    have hitems : elements.mapM (Expr.toSelectPart lang) = (elements.mapM (Expr.item lang)).map (List.map Item.render) := by
      rw [← mapM_map_ok]
      exact congrArg (fun f => elements.mapM f) (funext toSelectPart_eq)
    rw [Expr.toSql, if_neg h, hitems]
    cases elements.mapM Expr.toTable with
    | error e => rfl
    | ok tables =>
      cases elements.mapM (Expr.item lang) with
      | error e => rfl
      | ok items => exact congrArg Except.ok (fromClause_eq items _)
  | case3 l r op =>
    rw [Expr.toSql, toQualifiedField_eq, toQualifiedField_eq]
    cases l.toTable with
    | error e => rfl
    | ok left =>
      cases r.toTable with
      | error e => rfl
      | ok right =>
        cases l.term lang with
        | error e => rfl
        | ok a =>
          cases r.term lang with
          | error e => rfl
          | ok b =>
            show ite (left = right) (Except.ok _) (Except.ok _) = Except.ok (Query.render ⟨_, _, ite _ _ _, _⟩)
            rw [render_one]
            split
            · rename_i heq
              simp only [Item.render, List.flatMap_nil, List.append_nil, List.append_assoc]
            · simp only [Item.render, List.flatMap_cons, List.flatMap_nil, List.append_nil, List.append_assoc, Join.render,
                Case.join, Case.on]
  | case4 e d ih =>
    rw [Expr.toSql, ih, toSqlTimeField_eq]
    cases e.query lang ctx with
    | error e => rfl
    | ok q =>
      cases e.timeTable with
      | error e => rfl
      | ok table =>
        refine congrArg Except.ok ?_
        rw [render_bound]
        simp only [TimeBound.render, List.append_assoc]
  | case5 e d ih =>
    rw [Expr.toSql, ih, toSqlTimeField_eq]
    cases e.query lang ctx with
    | error e => rfl
    | ok q =>
      cases e.timeTable with
      | error e => rfl
      | ok table =>
        refine congrArg Except.ok ?_
        rw [render_bound]
        simp only [TimeBound.render, List.append_assoc]
  | case6 => rfl
  | case7 e h1 h2 h3 h4 h5 =>
    rw [Expr.toSql, toSelectPart_eq]
    · cases e.item lang with
      | error e => rfl
      | ok i =>
        cases e.toTable with
        | error e => rfl
        | ok table =>
          show Except.ok _ = Except.ok (Query.render ⟨_, _, _, _⟩)
          rw [render_one, List.flatMap_nil, List.append_nil]
    all_goals assumption

/-- `sql` writes the query of the text it is given. -/
theorem sql_eq (ctx : Context) (text : Str) : ctx.sql lang text = (ctx.query lang text).map Query.render := by
  unfold Context.sql Context.query
  cases ctx.parseStr lang text with
  | error e => rfl
  | ok e => exact toSql_eq ctx e

end

end Metor.Proof.Eql
