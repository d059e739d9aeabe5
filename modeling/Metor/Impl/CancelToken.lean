import Mathlib.Logic.Function.Basic
import Metor.Lib.Run

/-!
# Cancel tokens (`libs/stellarator/src/util.rs`)

A token shares a flag with its clones, and has a weak reference to the flag of
the token that it is a child of. The flag is there as long as it has an `Arc`:
of a token, of a drop guard, or of a child that waits and has upgraded its
reference. When the last one is dropped, the flag is set once more.
-/

namespace Metor.Impl.CancelToken

/-- `CancelTokenInner` with the reference of its tokens to their parent, and its `Arc`s. -/
structure Inner where
  parent : Option Nat
  cancelled : Bool
  tokens : Nat
  guards : Nat
  upgraded : Nat
  deriving DecidableEq, Repr

namespace Inner

/-- The number of `Arc`s. -/
def strong (inner : Inner) : Nat := inner.tokens + inner.guards + inner.upgraded

/-- `CancelTokenInner::cancel` -/
def cancel (inner : Inner) : Inner := { inner with cancelled := true }

/-- `Drop for CancelTokenInner`, when no `Arc` is left -/
def release (inner : Inner) : Inner := if inner.strong = 0 then inner.cancel else inner

end Inner

/-- A call of `wait` that is pending, with the `Arc` of the parent. -/
structure Wait where
  token : Nat
  parent : Option Nat
  deriving DecidableEq, Repr

/-- All flags, by number; the calls of `wait` that are pending, and the tokens that were cancelled. -/
structure Tokens where
  inners : Nat → Inner
  next : Nat
  waits : List Wait
  cancels : List Nat

namespace Tokens

def init : Tokens := ⟨fun _ => ⟨none, false, 0, 0, 0⟩, 0, [], []⟩

def set (s : Tokens) (i : Nat) (inner : Inner) : Tokens := { s with inners := Function.update s.inners i inner }

/-- `Weak::upgrade` of the parent -/
def upgrade (s : Tokens) (i : Nat) : Option Nat := (s.inners i).parent.filter fun p => 0 < (s.inners p).strong

def isCancelled (s : Tokens) (i : Nat) : Bool :=
  match s.upgrade i with
  | some p => (s.inners i).cancelled || (s.inners p).cancelled
  | none => (s.inners i).cancelled

/-- The first poll of `wait` is ready: of the race, either side may be. -/
def waitReady (s : Tokens) (i : Nat) : Bool :=
  match s.upgrade i with
  | some p => (s.inners p).cancelled || (s.inners i).cancelled
  | none => (s.inners i).cancelled

/-- A new flag, with one token. -/
def alloc (s : Tokens) (parent : Option Nat) : Tokens :=
  { s.set s.next ⟨parent, false, 1, 0, 0⟩ with next := s.next + 1 }

/-- The token is not borrowed by a call of `wait`, or is not the last one. -/
def Free (s : Tokens) (i : Nat) : Prop := 0 < (s.inners i).tokens ∧ ((s.inners i).tokens ≠ 1 ∨ ∀ w ∈ s.waits, w.token ≠ i)

instance (s : Tokens) (i : Nat) : Decidable (s.Free i) := by
  unfold Free
  infer_instance

/-- `new` -/
def new (s : Tokens) : Tokens := s.alloc none

def child (s : Tokens) (i : Nat) : Option Tokens := if 0 < (s.inners i).tokens then some (s.alloc (some i)) else none

def clone (s : Tokens) (i : Nat) : Option Tokens :=
  if 0 < (s.inners i).tokens then some (s.set i { s.inners i with tokens := (s.inners i).tokens + 1 }) else none

def cancel (s : Tokens) (i : Nat) : Option Tokens :=
  if 0 < (s.inners i).tokens then some { s.set i (s.inners i).cancel with cancels := s.cancels ++ [i] } else none

/-- A token is dropped. -/
def drop (s : Tokens) (i : Nat) : Option Tokens :=
  if s.Free i then some (s.set i (Inner.release { s.inners i with tokens := (s.inners i).tokens - 1 })) else none

def dropGuard (s : Tokens) (i : Nat) : Option Tokens :=
  if s.Free i then
    some (s.set i { s.inners i with tokens := (s.inners i).tokens - 1, guards := (s.inners i).guards + 1 })
  else none

/-- A guard is dropped. -/
def guardDropped (s : Tokens) (i : Nat) : Option Tokens :=
  if 0 < (s.inners i).guards then
    some { s.set i (Inner.release { (s.inners i).cancel with guards := (s.inners i).guards - 1 }) with
      cancels := s.cancels ++ [i] }
  else none

/-- `wait` is called and polled. -/
def startWait (s : Tokens) (i : Nat) : Option Tokens :=
  if 0 < (s.inners i).tokens then
    if s.waitReady i then some s
    else
      match s.upgrade i with
      | some p =>
        some { s.set p { s.inners p with upgraded := (s.inners p).upgraded + 1 } with waits := s.waits ++ [⟨i, some p⟩] }
      | none => some { s with waits := s.waits ++ [⟨i, none⟩] }
  else none

/-- A call of `wait` returns or is dropped. -/
def endWait (s : Tokens) (w : Wait) : Option Tokens :=
  if w ∈ s.waits then
    match w.parent with
    | some p =>
      some { s.set p (Inner.release { s.inners p with upgraded := (s.inners p).upgraded - 1 }) with waits := s.waits.erase w }
    | none => some { s with waits := s.waits.erase w }
  else none

end Tokens

inductive Act
  | new
  | child (i : Nat)
  | clone (i : Nat)
  | cancel (i : Nat)
  | drop (i : Nat)
  | dropGuard (i : Nat)
  | guardDropped (i : Nat)
  | startWait (i : Nat)
  | endWait (w : Wait)
  deriving DecidableEq, Repr

/-- The tokens after an action, if it can be taken. -/
def step (s : Tokens) : Act → Option Tokens
  | .new => some s.new
  | .child i => s.child i
  | .clone i => s.clone i
  | .cancel i => s.cancel i
  | .drop i => s.drop i
  | .dropGuard i => s.dropGuard i
  | .guardDropped i => s.guardDropped i
  | .startWait i => s.startWait i
  | .endWait w => s.endWait w

end Metor.Impl.CancelToken
