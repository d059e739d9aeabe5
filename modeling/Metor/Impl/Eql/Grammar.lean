import Mathlib.Data.List.Basic

/-!
# The grammar of the query language (`ast_parser` in `libs/db/eql/src/lib.rs`)

The parser is a parsing expression grammar with precedence climbing, as `peg`
makes it of `precedence!`: an atom, and then as long as one applies the first of
the operators whose level is at least the one asked for, from the lowest level
on. Each part takes the text and returns what it read and the rest of the text,
or nothing if it fails. An index that is no `usize` panics, which is a failure
too: nothing else reads what follows an expression from its `[` on.

Identifiers are those of Unicode (the crate `unicode_ident`), a parameter of
which the ASCII part is known, and so are the numbers that a text denotes.
-/

namespace Metor.Impl.Eql

/-- A text. -/
abbrev Str := List Char

/-- `is_xid_start` and `is_xid_continue` -/
structure Xid where
  isStart : Char → Bool
  isContinue : Char → Bool
  isContinue_of_isStart : ∀ c, isStart c → isContinue c
  isStart_ascii : ∀ c, c.toNat < 128 → isStart c = c.isAlpha
  isContinue_ascii : ∀ c, c.toNat < 128 → isContinue c = (c.isAlphanum || c == '_')

/-- `f64`: what `str::parse` reads, and what is displayed. -/
structure Floats (F : Type) where
  parse : Str → F
  display : F → Str

inductive BinaryOp
  | add | sub | mul | div
  deriving DecidableEq, Repr

/-- `to_str` -/
def BinaryOp.toStr : BinaryOp → Str
  | add => ['+']
  | sub => ['-']
  | mul => ['*']
  | div => ['/']

inductive AstNode (F : Type) where
  | ident (s : Str)
  | field (e : AstNode F) (i : Str)
  | arrayIndex (e : AstNode F) (i : Nat)
  | methodCall (e : AstNode F) (i : Str) (args : List (AstNode F))
  | binaryOp (a b : AstNode F) (op : BinaryOp)
  | tuple (elements : List (AstNode F))
  | stringLiteral (s : Str)
  | floatLiteral (f : F)
  | boolLiteral (b : Bool)

namespace Grammar

/-! ## Tokens -/

def isSpace (c : Char) : Bool := c == ' ' || c == '\n' || c == '\t'

/-- The rule `_` -/
def ws (s : Str) : Str := s.dropWhile isSpace

/-- A literal text. -/
def lit (t s : Str) : Option Str := if t.isPrefixOf s then some (s.drop t.length) else none

/-- `ident_str` -/
def identStr (xid : Xid) : Str → Option (Str × Str)
  | [] => none
  | c :: s => if xid.isStart c then some (c :: s.takeWhile xid.isContinue, s.dropWhile xid.isContinue) else none

/-- `bool` -/
def bool (s : Str) : Option (Bool × Str) :=
  match lit "true".toList s with
  | some r => some (true, r)
  | none => (lit "false".toList s).map fun r => (false, r)

/-- `['0'..='9']+` -/
def digits (s : Str) : Option (Str × Str) :=
  if s.takeWhile Char.isDigit = [] then none else some (s.takeWhile Char.isDigit, s.dropWhile Char.isDigit)

/-- The number of a text of digits. -/
def ofDigits (s : Str) : Nat := s.foldl (fun n c => 10 * n + (c.toNat - '0'.toNat)) 0

/-- `uint` -/
def uint (s : Str) : Option (Nat × Str) :=
  match digits s with
  | some (ds, r) => if ofDigits ds < 18446744073709551616 then some (ofDigits ds, r) else none
  | none => none

/-- `("." ['0'..='9']*)?`: what it read and the rest. -/
def fraction : Str → Str × Str
  | '.' :: s => ('.' :: s.takeWhile Char.isDigit, s.dropWhile Char.isDigit)
  | s => ([], s)

/-- The text that `float` reads. -/
def floatText (s : Str) : Option (Str × Str) :=
  let (sign, s) := match s with
    | '-' :: r => (['-'], r)
    | s => ([], s)
  match digits s with
  | some (ds, r) => some (sign ++ ds ++ (fraction r).1, (fraction r).2)
  | none => none

/-- `string_literal` -/
def stringLiteral : Str → Option (Str × Str)
  | '"' :: s =>
    match s.dropWhile (· != '"') with
    | '"' :: r => some (s.takeWhile (· != '"'), r)
    | _ => none
  | _ => none

/-- `comma` -/
def comma (s : Str) : Option Str := (lit [','] s).map ws

/-- `binary_op` -/
def binaryOp : Str → Option (BinaryOp × Str)
  | '+' :: r => some (.add, r)
  | '-' :: r => some (.sub, r)
  | '*' :: r => some (.mul, r)
  | '/' :: r => some (.div, r)
  | _ => none

/-! ## Expressions -/

section
variable {F : Type} (xid : Xid) (floats : Floats F)

/-- The expressions in brackets, from a level on. -/
abbrev Rec (F : Type) := Nat → Str → Option (AstNode F × Str)

/-- `"(" _ expr _ ")"` -/
def parens (expr : Rec F) (s : Str) : Option (AstNode F × Str) := do
  let s ← lit ['('] s
  let (e, s) ← expr 0 (ws s)
  let s ← lit [')'] (ws s)
  return (e, s)

/-- The atoms, in their order. -/
def atom (expr : Rec F) (s : Str) : Option (AstNode F × Str) :=
  parens expr s
    <|> (bool s).map (fun (b, r) => (.boolLiteral b, r))
    <|> (floatText s).map (fun (f, r) => (.floatLiteral (floats.parse f), r))
    <|> (stringLiteral s).map (fun (t, r) => (.stringLiteral t, r))
    <|> (identStr xid s).map (fun (i, r) => (.ident i, r))

/-- `(comma() expr)*` -/
def moreArgs (expr : Rec F) : Nat → Str → List (AstNode F) × Str
  | 0, s => ([], s)
  | n + 1, s =>
    match (comma s).bind (expr 0) with
    | some (e, r) => let (es, r) := moreArgs expr n r; (e :: es, r)
    | none => ([], s)

/-- `expr() ** comma()` -/
def args (expr : Rec F) (s : Str) : List (AstNode F) × Str :=
  match expr 0 s with
  | some (e, r) => let (es, r) := moreArgs expr r.length r; (e :: es, r)
  | none => ([], s)

/-- `comma() @` after `a` -/
def tupleRest (expr : Rec F) (a : AstNode F) (s : Str) : Option (AstNode F × Str) := do
  let s ← comma s
  let (b, s) ← expr 1 s
  return (.tuple [a, b], s)

/-- `_ binary_op() _ @` after `a` -/
def binaryRest (expr : Rec F) (a : AstNode F) (s : Str) : Option (AstNode F × Str) := do
  let (op, s) ← binaryOp (ws s)
  let (b, s) ← expr 2 (ws s)
  return (.binaryOp a b op, s)

/-- `"." ident_str() "(" expr() ** comma() ")"` after `e` -/
def methodRest (expr : Rec F) (e : AstNode F) (s : Str) : Option (AstNode F × Str) := do
  let s ← lit ['.'] s
  let (i, s) ← identStr xid s
  let s ← lit ['('] s
  let (as, s) := args expr s
  let s ← lit [')'] s
  return (.methodCall e i as, s)

/-- `"." ident_str()` after `e` -/
def fieldRest (e : AstNode F) (s : Str) : Option (AstNode F × Str) := do
  let s ← lit ['.'] s
  let (i, s) ← identStr xid s
  return (.field e i, s)

/-- `"[" uint() "]"` after `e` -/
def indexRest (e : AstNode F) (s : Str) : Option (AstNode F × Str) := do
  let s ← lit ['['] s
  let (i, s) ← uint s
  let s ← lit [']'] s
  return (.arrayIndex e i, s)

/-- The first operator that applies, of those whose level is at least `minPrec`. -/
def post (expr : Rec F) (minPrec : Nat) (e : AstNode F) (s : Str) : Option (AstNode F × Str) :=
  (if 0 ≥ minPrec then tupleRest expr e s else none)
    <|> (if 1 ≥ minPrec then binaryRest expr e s else none)
    <|> (if 2 ≥ minPrec then methodRest xid expr e s else none)
    <|> (if 3 ≥ minPrec then fieldRest xid e s else none)
    <|> (if 4 ≥ minPrec then indexRest e s else none)

/-- Operators as long as one applies. -/
def loop (expr : Rec F) (minPrec : Nat) : Nat → AstNode F → Str → AstNode F × Str
  | 0, e, s => (e, s)
  | n + 1, e, s =>
    match post xid expr minPrec e s with
    | some (e, r) => loop expr minPrec n e r
    | none => (e, s)

/-- The rule `expr` from a level on, with brackets nested at most `depth` deep. Each operator reads something, so it is
not tried more often than there are characters. -/
def infixParse : (depth : Nat) → Rec F
  | 0, _, _ => none
  | depth + 1, minPrec, s =>
    (atom xid floats (infixParse depth) s).map fun (e, r) =>
      loop xid (infixParse depth) minPrec r.length e r

/-- The rule `expr`, which reads the whole text. No text is nested deeper than it is long. -/
def expr (s : Str) : Option (AstNode F) :=
  match infixParse xid floats (s.length + 1) 0 s with
  | some (e, []) => some e
  | _ => none

end

end Grammar

end Metor.Impl.Eql
