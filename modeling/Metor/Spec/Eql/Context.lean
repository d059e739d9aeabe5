import Mathlib.Algebra.BigOperators.Group.List.Basic
import Mathlib.Data.List.Forall2
import Metor.Impl.Eql.Context
import Metor.Impl.Eql.Sql
import Metor.Spec.Eql.Grammar

/-!
# Components by their names: what is expected

Whatever the order of registration, the tree is the same, and a component is
what its name means (`Addressable`). `PathsApart` is when it is.
-/

namespace Metor.Impl.Eql

/-- The language with ASCII identifiers, a number being its text, and without durations. -/
def Lang.ascii : Lang Str :=
  ⟨.ascii, ⟨id, id⟩, fun _ => .error (str "no duration"), fun n => Nat.toDigits 10 n.toNat⟩

/-- The segments of the name of a component. -/
def Component.path (c : Component) : List Str := splitDots c.name

/-- The name of a path. -/
def joinDots (path : List Str) : Str := ['.'].intercalate path

section
variable {F : Type} (lang : Lang F)

/-- The name of the component parses and resolves to a part that is this component. -/
def Resolves (ctx : Context) (c : Component) : Prop :=
  ∃ part, ctx.parseStr lang c.name = .ok (.componentPart part) ∧ part.component = some c

/-- Each order of the components gives the same tree, in which every component has its name. -/
def Addressable (componentId : Str → UInt64) (components : List Component) (earliest last : Int) : Prop :=
  ∀ components', components'.Perm components →
    (Context.fromLeaves componentId components' earliest last).componentParts =
      (Context.fromLeaves componentId components earliest last).componentParts ∧
    ∀ c ∈ components', Resolves lang (Context.fromLeaves componentId components' earliest last) c

end

/-- The name is one of identifiers that the grammar reads as such. -/
def Component.Readable (xid : Xid) (c : Component) : Prop :=
  (∀ s ∈ c.path, Src.IsXid xid s) ∧ ∀ s ∈ c.path.head?, ¬ Src.StartsWithBool s

/-- All names are readable, and no component stands below another. -/
structure PathsApart (xid : Xid) (components : List Component) : Prop where
  readable : ∀ c ∈ components, c.Readable xid
  apart : ∀ c ∈ components, ∀ d ∈ components, c.path <+: d.path → c.path = d.path

end Metor.Impl.Eql

/-!
## The elements of a component

The indices of a shape in row-major order, the name of each, and what a query
should make of that name (`Selects`). A shape `Clashes` when two of its indices
may have one name: where a two-digit index can lend its last digit to the
next ones (81, 8 and 8, 18), or 88 stands for 8, 8.
-/

namespace Metor.Impl.Eql

/-- The indices of a shape, the last dimension fastest. -/
def indices : List Nat → List (List Nat)
  | [] => [[]]
  | n :: shape => (List.range n).flatMap fun x => (indices shape).map (x :: ·)

/-- The place of an index among them. -/
def rowMajor : List Nat → List Nat → Nat
  | _ :: shape, x :: index => x * shape.prod + rowMajor shape index
  | _, _ => 0

/-- An index of the shape. -/
def IsIndex (shape index : List Nat) : Prop := List.Forall₂ (· < ·) index shape

/-- The name of an index. -/
def elementName (index : List Nat) : Str := index.flatMap elementText

/-- Two dimensions, with those between them, that let two names be the same. -/
def Clash (first : Nat) (between : List Nat) (last : Nat) : Prop :=
  (82 ≤ first ∧ 19 ≤ last ∧ ∀ n ∈ between, 12 ≤ n) ∨
    (89 ≤ first ∧ 89 ≤ last ∧ (∀ n ∈ between.head?, 9 ≤ n) ∧ ∀ n ∈ between.getLast?, 9 ≤ n)

/-- Some two dimensions of the shape clash. -/
def Clashes (shape : List Nat) : Prop :=
  ∃ before first between last after, shape = before ++ first :: (between ++ last :: after) ∧ Clash first between last

/-- The field of element `k` of a table with one component. -/
def elementField (table : Str) (k : Nat) : Str := table ++ str "[" ++ showNat (k + 1) ++ str "]"

/-- The name of an index, as a field of the component, means the element at its row-major place, and the query selects
that element. -/
def Selects {F : Type} (lang : Lang F) (ctx : Context) (e : AstNode F) (part : ComponentPart) (c : Component)
    (shape index : List Nat) : Prop :=
  ctx.parse lang (.field e (elementName index)) = .ok (.arrayAccess (.componentPart part) (rowMajor shape index)) ∧
    (Expr.arrayAccess (.componentPart part) (rowMajor shape index)).toSql lang ctx =
      .ok (str "select " ++ (replaceDots part.name ++ str "." ++ elementField (replaceDots part.name) (rowMajor shape index) ++
        str " as '" ++ (c.name ++ str "." ++ elementName index) ++ str "'") ++ str " from " ++ replaceDots part.name)

end Metor.Impl.Eql
