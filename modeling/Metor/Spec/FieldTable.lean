import Metor.Impl.FieldTable

/-!
# What a vtable stream sends

Every packet that is sent holds, for each field, what one finished iteration
of its plan wrote since the packet before.
-/

namespace Metor.Impl.FieldTable

open Metor.Lib Metor.Impl.Proto

/-- What an iteration left in a field: the last bytes it wrote there. -/
def lastWritten (written : List (Which × Bytes)) (which : Which) : Option Bytes :=
  (written.reverse.find? fun w => w.1 = which).map (·.2)

/-- The bytes of a field of the packet. -/
def fieldBytes (pkt : LenPacket) (f : VTableStream.Field) : Bytes :=
  slice pkt.inner (headerOffset + f.start) (headerOffset + f.stop)

/-- The packet holds what was written to the fields of the plan. -/
def Holds (pkt : LenPacket) (shard : Shard) (written : List (Which × Bytes)) : Prop :=
  ∀ which, ∀ f ∈ shard.field which, ∀ bytes ∈ lastWritten written which, fieldBytes pkt f = bytes

/-- No two fields of the table, for values or timestamps, have a byte in common. -/
def Config.Disjoint (cfg : Config) : Prop :=
  ∀ (i j : Nat) (s t : Shard) (a b : Which), cfg.shards[i]? = some s → cfg.shards[j]? = some t → (i, a) ≠ (j, b) →
    ∀ f ∈ s.field a, ∀ g ∈ t.field b, f.stop ≤ g.start ∨ g.stop ≤ f.start

/-- Nothing was missing; every plan finished one iteration for each packet; and the packet holds what it wrote. -/
structure Safe (cfg : Config) (s : State) : Prop where
  present : s.panicked = false
  completed : ∀ sent ∈ s.sends, sent.tasks.length = cfg.shards.length ∧ ∀ t ∈ sent.tasks, t.completed = 1
  holds : cfg.Disjoint → ∀ sent ∈ s.sends, ∀ (i : Nat) (shard : Shard) (t : Task),
    cfg.shards[i]? = some shard → sent.tasks[i]? = some t → Holds sent.pkt shard t.last

end Metor.Impl.FieldTable

/-!
## A vector of booleans

The calls of an `AtomicBitVec`, and the same calls of a `Vec<bool>`. The two
behave alike if each call answers alike, and if at any time `get` and `all_set`
would (`Alike`).
-/

namespace Metor.Impl.FieldTable

inductive BitCall
  | set (index : Nat) (value : Bool)
  | setAll (value : Bool)
  | get (index : Nat)
  | allSet
  deriving DecidableEq, Repr

/-- What a call returns. -/
inductive BitAnswer
  | stored (stored : Option Unit)
  | done
  | value (value : Option Bool)
  | all (all : Bool)
  deriving DecidableEq, Repr

/-- A call of an `AtomicBitVec`. -/
def AtomicBitVec.call (v : AtomicBitVec) : BitCall → AtomicBitVec × BitAnswer
  | .set index value => ((v.set index value).getD v, .stored ((v.set index value).map fun _ => ()))
  | .setAll value => (v.setAll value, .done)
  | .get index => (v, .value (v.get index))
  | .allSet => (v, .all v.allSet)

/-- A call of a `Vec<bool>`. -/
def vecCall (vec : List Bool) : BitCall → List Bool × BitAnswer
  | .set index value => (vec.set index value, .stored (if index < vec.length then some () else none))
  | .setAll value => (List.replicate vec.length value, .done)
  | .get index => (vec, .value vec[index]?)
  | .allSet => (vec, .all (vec.all id))

/-- Nothing that can be asked now tells the two apart. -/
def Alike (v : AtomicBitVec) (vec : List Bool) : Prop := (∀ i, v.get i = vec[i]?) ∧ v.allSet = vec.all id

/-- Nor does a call, now or after the calls before it. -/
def BehavesAlike (v : AtomicBitVec) (vec : List Bool) : List BitCall → Prop
  | [] => Alike v vec
  | c :: calls => Alike v vec ∧ (v.call c).2 = (vecCall vec c).2 ∧ BehavesAlike (v.call c).1 (vecCall vec c).1 calls

/-- The call does not store `false` over an entry that is `true`. -/
def Raises (vec : List Bool) (c : BitCall) : Prop := ∀ i, c = .set i false → vec[i]? ≠ some true

/-- Nor does any of the calls. -/
def AllRaise (vec : List Bool) : List BitCall → Prop
  | [] => True
  | c :: calls => Raises vec c ∧ AllRaise (vecCall vec c).1 calls

end Metor.Impl.FieldTable
