import Metor.Lib.Slice

/-!
# Append logs and stacks of nodes (`append_log.rs`, `arc_ring.rs`)

An `AppendLog` is a file of fixed size, mapped into memory: a header (the
committed length, the head length and `extra`) and the committed data. Closing
and opening one maps the same file again, so a log is its own contents on
disk. `AtomicStack` is a list, its head first; an `AtomicNode` is a node of it
with the nodes below.
-/

namespace Metor.Impl

/-- The errors of the storage layer. -/
inductive Error
  | mapOverflow
  /-- `create_new` on a file that exists -/
  | alreadyExists
  deriving DecidableEq, Repr

/-- A log whose entries are `α`, each of a fixed number of bytes; its map is `mapLen` bytes long. -/
structure AppendLog (E α : Type) where
  extra : E
  mapLen : Nat
  data : List α
  deriving DecidableEq, Repr

namespace AppendLog

variable {E α : Type}

/-- `size_of::<Header<E>>()`, for the 8-byte `E` of all logs. -/
def headerSize : Nat := 24

/-- `with_size` of a file that does not exist: its last byte is at `size`. -/
def withSize (size : Nat) (extra : E) : AppendLog E α := ⟨extra, size + 1, []⟩

/-- `write` of a buffer of entries of `width` bytes. -/
def write (width : Nat) (log : AppendLog E α) (buf : List α) : Except Error (AppendLog E α) :=
  let stop := headerSize + log.data.length * width
  let headEnd := stop + buf.length * width
  if headEnd > log.mapLen then .error .mapOverflow
  else .ok { log with data := log.data ++ buf }

/-- `size_of::<Header<()>>()` -/
def bareHeaderSize : Nat := 16

/-- `write`, for an `E` that makes the header `header` bytes long. -/
def writeAfter (header width : Nat) (log : AppendLog E α) (buf : List α) : Except Error (AppendLog E α) :=
  let stop := header + log.data.length * width
  let headEnd := stop + buf.length * width
  if headEnd > log.mapLen then .error .mapOverflow
  else .ok { log with data := log.data ++ buf }

end AppendLog

/-! ## `AtomicStack` -/

/-- A node of a stack: its value and the nodes below it. -/
structure AtomicNode (α : Type) where
  value : α
  prev : List α
  deriving DecidableEq, Repr

namespace AtomicNode

variable {α : Type}

/-- The nodes from this one on, newest first. -/
def chain (n : AtomicNode α) : List α := n.value :: n.prev

/-- `Arc::ptr_eq` of two nodes of one stack: as many nodes are below both. -/
def ptrEq (a b : AtomicNode α) : Prop := a.prev.length = b.prev.length

instance (a b : AtomicNode α) : Decidable (a.ptrEq b) := inferInstanceAs (Decidable (_ = _))

end AtomicNode

/-- `AtomicStackIter`: the nodes of a chain, each with those below it. -/
def atomicStackIter {α : Type} : List α → List (AtomicNode α)
  | [] => []
  | value :: prev => ⟨value, prev⟩ :: atomicStackIter prev

end Metor.Impl
