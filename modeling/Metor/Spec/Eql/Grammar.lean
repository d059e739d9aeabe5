import Metor.Impl.Eql.Grammar
import Metor.Lib.Span

/-!
# Expressions as they are written

`Src` is an expression as it is written, with its brackets and spaces. `print`
is its text, `ast` the tree that the precedences of the grammar give it, and
`grouped` the tree in which `*` and `/` bind tighter than `+` and `-`.
-/

namespace Metor.Impl.Eql

open Metor.Lib

/-- The identifiers of ASCII. -/
def Xid.ascii : Xid where
  isStart c := c.isAlpha
  isContinue c := c.isAlphanum || c == '_'
  isContinue_of_isStart c h := by rw [Char.isAlphanum, h]; rfl
  isStart_ascii _ _ := rfl
  isContinue_ascii _ _ := rfl

inductive Src
  | paren (w₁ : Str) (e : Src) (w₂ : Str)
  | bool (b : Bool)
  | float (sign : Bool) (ds : Str) (fraction : Option Str)
  | string (s : Str)
  | ident (s : Str)
  | index (e : Src) (ds : Str)
  | field (e : Src) (i : Str)
  | call (e : Src) (i : Str)
  | callWith (e : Src) (i : Str) (arg : Src)
  | binary (a : Src) (w₁ : Str) (op : BinaryOp) (w₂ : Str) (b : Src)
  | tuple (a : Src) (w : Str) (b : Src)

namespace Src

def floatText (sign : Bool) (ds : Str) (fraction : Option Str) : Str :=
  (if sign then ['-'] else []) ++ ds ++ fraction.elim [] ('.' :: ·)

/-- `true` and `false` -/
def boolText (b : Bool) : Str := if b then "true".toList else "false".toList

def print : Src → Str
  | paren w₁ e w₂ => '(' :: w₁ ++ e.print ++ w₂ ++ [')']
  | bool b => boolText b
  | float sign ds fraction => floatText sign ds fraction
  | string s => '"' :: s ++ ['"']
  | ident s => s
  | index e ds => e.print ++ '[' :: ds ++ [']']
  | field e i => e.print ++ '.' :: i
  | call e i => e.print ++ '.' :: i ++ ['(', ')']
  | callWith e i arg => e.print ++ '.' :: i ++ '(' :: arg.print ++ [')']
  | binary a w₁ op w₂ b => a.print ++ w₁ ++ op.toStr ++ w₂ ++ b.print
  | tuple a w b => a.print ++ ',' :: w ++ b.print

/-- The level of the outermost operator. -/
def prec : Src → Nat
  | tuple .. => 0
  | binary .. => 1
  | _ => 2

/-- `s` is an identifier of Unicode. -/
def IsXid (xid : Xid) : Str → Prop
  | [] => False
  | c :: s => xid.isStart c ∧ ∀ c ∈ s, xid.isContinue c

def Spaces (w : Str) : Prop := ∀ c ∈ w, Grammar.isSpace c

def Digits (ds : Str) : Prop := ds ≠ [] ∧ ∀ c ∈ ds, c.isDigit

/-- The text begins with one of the words of `bool`. -/
def StartsWithBool (s : Str) : Prop := "true".toList <+: s ∨ "false".toList <+: s

instance (s : Str) : Decidable (StartsWithBool s) := inferInstanceAs (Decidable (_ ∨ _))

/-- The text does not begin with an operator on what is before it. -/
def NoPostfix (k : Str) : Prop := ∀ c ∈ k.head?, c ≠ '.' ∧ c ≠ '['

def NoBinary (k : Str) : Prop := Grammar.binaryOp (Grammar.ws k) = none

/-- What may follow an expression for it to end there. -/
def Follow (xid : Xid) : Src → Str → Prop
  | ident _, k => Stops xid.isContinue k
  | field _ _, k => Stops xid.isContinue k ∧ ∀ c ∈ k.head?, c ≠ '('
  | float _ _ fraction, k => Stops Char.isDigit k ∧ (fraction = none → ∀ c ∈ k.head?, c ≠ '.')
  | binary _ _ _ _ b, k => b.Follow xid k ∧ NoPostfix k
  | tuple _ _ b, k => b.Follow xid k ∧ NoPostfix k ∧ NoBinary k
  | _, _ => True

/-- The expression is written by the rules of the grammar. -/
def Written (xid : Xid) : Src → Prop
  | paren w₁ e w₂ => Spaces w₁ ∧ e.Written xid ∧ Spaces w₂
  | bool _ => True
  | float _ ds fraction => Digits ds ∧ ∀ f ∈ fraction, ∀ c ∈ f, c.isDigit
  | string s => ∀ c ∈ s, c ≠ '"'
  | ident s => IsXid xid s ∧ ¬ StartsWithBool s
  | index e ds => e.Written xid ∧ 2 ≤ e.prec ∧ Digits ds ∧ Grammar.ofDigits ds < 18446744073709551616
  | field e i => e.Written xid ∧ 2 ≤ e.prec ∧ e.Follow xid ['.'] ∧ IsXid xid i
  | call e i => e.Written xid ∧ 2 ≤ e.prec ∧ e.Follow xid ['.'] ∧ IsXid xid i
  | callWith e i arg => e.Written xid ∧ 2 ≤ e.prec ∧ e.Follow xid ['.'] ∧ IsXid xid i ∧ arg.Written xid
  | binary a w₁ _ w₂ b => a.Written xid ∧ 1 ≤ a.prec ∧ Spaces w₁ ∧ Spaces w₂ ∧ b.Written xid ∧ 2 ≤ b.prec
  | tuple a w b => a.Written xid ∧ Spaces w ∧ b.Written xid ∧ 1 ≤ b.prec

section
variable {F : Type} (floats : Floats F)

/-- The tree that the precedences of the grammar give. -/
def ast : Src → AstNode F
  | paren _ e _ => e.ast
  | bool b => .boolLiteral b
  | float sign ds fraction => .floatLiteral (floats.parse (floatText sign ds fraction))
  | string s => .stringLiteral s
  | ident s => .ident s
  | index e ds => .arrayIndex e.ast (Grammar.ofDigits ds)
  | field e i => .field e.ast i
  | call e i => .methodCall e.ast i []
  | callWith e i arg => .methodCall e.ast i [arg.ast]
  | binary a _ op _ b => .binaryOp a.ast b.ast op
  | tuple a _ b => .tuple [a.ast, b.ast]


/-- The terms that are being collected from the left: what stands before a `+` or `-`, and the term after it. -/
def close (before : Option (AstNode F × BinaryOp)) (term : AstNode F) : AstNode F :=
  match before with
  | none => term
  | some (a, op) => .binaryOp a term op

/-- `*` and `/` go on with the term, `+` and `-` end it. -/
def groups : Src → Option (AstNode F × BinaryOp) × AstNode F
  | paren _ e _ => (none, close e.groups.1 e.groups.2)
  | bool b => (none, .boolLiteral b)
  | float sign ds fraction => (none, .floatLiteral (floats.parse (floatText sign ds fraction)))
  | string s => (none, .stringLiteral s)
  | ident s => (none, .ident s)
  | index e ds => (none, .arrayIndex (close e.groups.1 e.groups.2) (Grammar.ofDigits ds))
  | field e i => (none, .field (close e.groups.1 e.groups.2) i)
  | call e i => (none, .methodCall (close e.groups.1 e.groups.2) i [])
  | callWith e i arg => (none, .methodCall (close e.groups.1 e.groups.2) i [close arg.groups.1 arg.groups.2])
  | binary a _ .mul _ b => (a.groups.1, .binaryOp a.groups.2 (close b.groups.1 b.groups.2) .mul)
  | binary a _ .div _ b => (a.groups.1, .binaryOp a.groups.2 (close b.groups.1 b.groups.2) .div)
  | binary a _ op _ b => (some (close a.groups.1 a.groups.2, op), close b.groups.1 b.groups.2)
  | tuple a _ b => (none, .tuple [close a.groups.1 a.groups.2, close b.groups.1 b.groups.2])

/-- The tree in which `*` and `/` bind tighter than `+` and `-`, and each level groups to the left. -/
def grouped (e : Src) : AstNode F := close (e.groups floats).1 (e.groups floats).2

end

/-- There is a `+` or `-` among the operators of a chain. -/
def HasSum : Src → Prop
  | binary a _ op _ _ => op = .add ∨ op = .sub ∨ a.HasSum
  | _ => False

/-- In no chain of operators a `*` or `/` comes after a `+` or `-`. -/
def ProductsFirst : Src → Prop
  | paren _ e _ => e.ProductsFirst
  | index e _ => e.ProductsFirst
  | field e _ => e.ProductsFirst
  | call e _ => e.ProductsFirst
  | callWith e _ arg => e.ProductsFirst ∧ arg.ProductsFirst
  | binary a _ op _ b => a.ProductsFirst ∧ b.ProductsFirst ∧ (op = .mul ∨ op = .div → ¬ a.HasSum)
  | tuple a _ b => a.ProductsFirst ∧ b.ProductsFirst
  | _ => True

/-- Expressions joined with commas, each with the spaces after it: as the grammar takes them apart. -/
def joined (e : Src) (es : List (Str × Src)) : Src := es.foldl (fun a (w, b) => .tuple a w b) e

end Src

/-- The text of texts joined with commas, each with the spaces after it. -/
def joinedText (t : Str) (ts : List (Str × Str)) : Str := t ++ ts.flatMap fun (w, u) => ',' :: w ++ u

end Metor.Impl.Eql
