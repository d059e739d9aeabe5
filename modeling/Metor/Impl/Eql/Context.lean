import Mathlib.Data.List.Basic
import Mathlib.Logic.Function.Basic
import Metor.Impl.Eql.Grammar

/-!
# Components and expressions (`libs/db/eql/src/lib.rs`, `libs/metor-proto/wkt/src/path.rs`)

`Context::from_leaves` arranges the components by the segments of their dotted
names, and `Context::parse` looks the names of an expression up in this tree.
A `BTreeMap` is the function from its keys to their values.

`ComponentId::new` (a hash) and the reading of durations are parameters.
-/

namespace Metor.Impl.Eql

/-- The text of a literal. -/
def str (s : String) : Str := s.toList

/-- `Component`; its schema is only used to name its elements. -/
structure Component where
  name : Str
  id : UInt64
  elementNames : List Str
  deriving DecidableEq, Repr

/-- `ELEMS` -/
def elems : List Char := ['x', 'y', 'z', 'w', 'u', 'v', 's', 't']

/-- What a name gets for index `x` of a dimension. -/
def elementText (x : Nat) : Str :=
  match elems[x]? with
  | some c => [c]
  | none => Nat.toDigits 10 x

/-- `append_elements` -/
def appendElements : List Nat → Str → List Str → List Str
  | [], parentElem, out => out ++ [parentElem]
  | n :: shape, parentElem, out =>
    (List.range n).foldl (fun out x => appendElements shape (parentElem ++ elementText x) out) out

/-- `default_element_names`, which `Component::new` gives its elements. -/
def defaultElementNames (shape : List Nat) : List Str := appendElements shape [] []

/-- `ComponentPart` -/
structure ComponentPart where
  name : Str
  id : UInt64
  component : Option Component
  children : Str → Option ComponentPart

/-- `BTreeMap<String, ComponentPart>` -/
abbrev Parts := Str → Option ComponentPart

/-! ## `ComponentPath` -/

/-- `match_indices('.')` -/
def dotIndices (name : Str) : List Nat := (List.range name.length).filter fun i => name[i]? == some '.'

/-- The names of the parts of `ComponentPath::from_name`: up to each dot, and the whole name. -/
def fromName (name : Str) : List Str := (dotIndices name).map (fun i => name.take i) ++ [name]

/-- `split('.')` -/
def splitDots (name : Str) : List Str := name.splitOn '.'

/-! ## `Context` -/

section
variable (componentId : Str → UInt64)

/-- The loop of `from_leaves` down the tree, and the leaf it inserts. -/
def insertLeaf (component : Component) (last : Str) : List (Str × Str) → Parts → Parts
  | [], parts => Function.update parts last (some ⟨component.name, component.id, some component, fun _ => none⟩)
  | (part, node) :: nodes, parts =>
    let entry := (parts node).getD ⟨part, componentId part, none, fun _ => none⟩
    Function.update parts node (some { entry with children := insertLeaf component last nodes entry.children })

/-- One component of `from_leaves`. -/
def addComponent (parts : Parts) (component : Component) : Parts :=
  let path := fromName component.name
  let nodes := splitDots component.name
  insertLeaf componentId component (nodes.getLastD []) ((path.zip nodes).take (path.length - 1)) parts

structure Context where
  componentParts : Parts
  earliestTimestamp : Int
  lastTimestamp : Int

/-- `from_leaves` -/
def Context.fromLeaves (components : List Component) (earliestTimestamp lastTimestamp : Int) : Context :=
  ⟨components.foldl (addComponent componentId) (fun _ => none), earliestTimestamp, lastTimestamp⟩

end

/-! ## Expressions -/

inductive Expr (F : Type) where
  | componentPart (part : ComponentPart)
  | time (component : Component)
  | arrayAccess (e : Expr F) (index : Nat)
  | tuple (elements : List (Expr F))
  | floatLiteral (f : F)
  | stringLiteral (s : Str)
  | boolLiteral (b : Bool)
  | fft (e : Expr F)
  | fftFreq (e : Expr F)
  /-- with the nanoseconds of the duration -/
  | last (e : Expr F) (duration : Int)
  | first (e : Expr F) (duration : Int)
  | binaryOp (left right : Expr F) (op : BinaryOp)

/-- The errors. What a `Debug` prints is left out of their texts. -/
inductive Error
  | componentNotFound (name : Str)
  | invalidFieldAccess (message : Str)
  | invalidMethodCall (name : Str)
  | parse
  deriving DecidableEq, Repr

/-- The parts of the language that are not of this crate. -/
structure Lang (F : Type) where
  xid : Xid
  floats : Floats F
  /-- What `parse_duration` reads, in nanoseconds, or the text of its error. -/
  parseDuration : Str → Except Str Int
  /-- the display of a number of microseconds times `1e-6` -/
  displayMicros : Int → Str

namespace Context

variable {F : Type} (lang : Lang F) (ctx : Context)

/-- A field of an expression. -/
def fieldOf (expr : Expr F) (name : Str) : Except Error (Expr F) :=
  let child (part : ComponentPart) : Except Error (Expr F) :=
    match part.children name with
    | some part => .ok (.componentPart part)
    | none => .error (.componentNotFound name)
  match expr with
  | .componentPart part =>
    match part.component with
    | some c =>
      if name = str "time" then .ok (.time c)
      else
        match c.elementNames.idxOf? name with
        | some offset => .ok (.arrayAccess expr offset)
        | none => child part
    | none => child part
  | _ => .error (.invalidFieldAccess name)

/-- A method of an expression. -/
def callOf (recv : Expr F) (name : Str) (args : List (Expr F)) : Except Error (Expr F) :=
  let duration (d : Str) : Except Error Int :=
    match lang.parseDuration d with
    | .ok d => .ok d
    | .error err => .error (.invalidMethodCall err)
  match recv, args with
  | .arrayAccess e i, [] => if name = str "fft" then .ok (.fft (.arrayAccess e i)) else .error (.invalidMethodCall name)
  | .time c, [] => if name = str "fftfreq" then .ok (.fftFreq (.time c)) else .error (.invalidMethodCall name)
  | recv, [.stringLiteral d] =>
    if name = str "last" then (duration d).map (.last recv)
    else if name = str "first" then (duration d).map (.first recv)
    else .error (.invalidMethodCall name)
  | _, _ => .error (.invalidMethodCall name)

mutual

/-- `Context::parse` -/
def parse : AstNode F → Except Error (Expr F)
  | .ident name =>
    match ctx.componentParts name with
    | some part => .ok (.componentPart part)
    | none => .error (.componentNotFound name)
  | .field e name => do
    let expr ← parse e
    fieldOf expr name
  | .methodCall recv name args => do
    let recv ← parse recv
    let args ← parseAll args
    callOf lang recv name args
  | .tuple elements => do
    let elements ← parseAll elements
    return .tuple elements
  | .stringLiteral s => .ok (.stringLiteral s)
  | .binaryOp left right op => do
    let left ← parse left
    let right ← parse right
    return .binaryOp left right op
  | .floatLiteral f => .ok (.floatLiteral f)
  | .boolLiteral b => .ok (.boolLiteral b)
  | .arrayIndex e index => do
    let expr ← parse e
    match expr with
    | .componentPart part => .ok (.arrayAccess (.componentPart part) index)
    | _ => .error (.invalidFieldAccess (str "array access is only valid on a component"))

def parseAll : List (AstNode F) → Except Error (List (Expr F))
  | [] => .ok []
  | e :: es => do
    let expr ← parse e
    let exprs ← parseAll es
    return expr :: exprs

end

/-- `Context::parse_str` -/
def parseStr (query : Str) : Except Error (Expr F) :=
  match Grammar.expr lang.xid lang.floats query with
  | some ast => ctx.parse lang ast
  | none => .error .parse

end Context

end Metor.Impl.Eql
