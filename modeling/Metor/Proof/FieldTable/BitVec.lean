import Metor.Impl.FieldTable
import Metor.Spec.FieldTable

/-!
# The bits of `AtomicBitVec`

Bit `i` is bit `i % 64` of word `i / 64`. No bit at or above `size` is ever
set, so the count of the ones reaches `size` just when all are (`allSet_iff`).
-/

namespace Metor.Proof.FieldTable

open Metor.Impl.FieldTable

variable {v v' : AtomicBitVec} {i j : Nat}

def bit (v : AtomicBitVec) (i : Nat) : Bool := (v.store[i / 64]?.map fun w => w.getLsbD (i % 64)).getD false

/-- As many words as the bits need, and no bit beyond them. -/
structure Words (v : AtomicBitVec) : Prop where
  length : v.store.length = (v.size + 63) / 64
  lt : ∀ i, bit v i = true → i < v.size

theorem Words.word_lt (h : Words v) (hi : i < v.size) : i / 64 < v.store.length := by
  rw [h.length]
  omega

theorem words_new (size : Nat) : Words (.new size) := by
  refine ⟨List.length_replicate, fun i h => ?_⟩
  simp only [bit, AtomicBitVec.new, List.getElem?_replicate] at h
  split at h
  · simp at h
  · cases h

theorem bit_new (size i : Nat) : bit (.new size) i = false := by
  simp only [bit, AtomicBitVec.new, List.getElem?_replicate]
  split
  · simp
  · rfl

section
variable (h : v.store.length = (v.size + 63) / 64)
include h

theorem exists_word (hi : i < v.size) : ∃ w, v.store[i / 64]? = some w :=
  ⟨_, List.getElem?_eq_getElem (by omega)⟩

theorem get_eq_bit (hi : i < v.size) : v.get i = some (bit v i) := by
  obtain ⟨w, hw⟩ := exists_word h hi
  simp only [AtomicBitVec.get, bit, hw, if_neg (Nat.not_le.mpr hi), Option.map_some, Option.getD_some,
    ← BitVec.twoPow_eq, BitVec.and_twoPow]
  cases w.getLsbD (i % 64) with
  | false => simp
  | true =>
    have hpow : BitVec.twoPow 64 (i % 64) ≠ 0#64 := by
      intro e
      have hbit := congrArg (fun w => BitVec.getLsbD w (i % 64)) e
      simp [Nat.mod_lt] at hbit
    rw [if_pos rfl]
    exact congrArg some (decide_eq_true hpow)

/-- A `true` is or-ed in, and nothing else changes. -/
theorem set_true_bit (hi : i < v.size) : ∃ v', v.set i true = some v' ∧ v'.size = v.size ∧
    v'.store.length = v.store.length ∧ ∀ j, bit v' j = (bit v j || decide (j = i)) := by
  obtain ⟨w, hw⟩ := exists_word h hi
  have hlt : i / 64 < v.store.length := by omega
  let v' : AtomicBitVec := { v with store := v.store.set (i / 64) (w ||| BitVec.ofNat 64 true.toNat <<< (i % 64)) }
  have hset : v.set i true = some v' := by
    simp only [AtomicBitVec.set, if_neg (Nat.not_le.mpr hi), hw, Option.map_some, v']
  have hbit (j : Nat) : bit v' j = (bit v j || decide (j = i)) := by
    simp only [bit, v', List.getElem?_set]
    by_cases hj : i / 64 = j / 64
    · rw [if_pos hj, if_pos hlt, ← hj, hw]
      have hone : (BitVec.ofNat 64 true.toNat <<< (i % 64)).getLsbD (j % 64) = decide (j = i) := by
        show (1#64 <<< (i % 64)).getLsbD (j % 64) = _
        rw [← BitVec.twoPow_eq, BitVec.getLsbD_twoPow, decide_eq_true (Nat.mod_lt i (by decide)), Bool.true_and,
          decide_eq_decide]
        omega
      simp only [Option.map_some, Option.getD_some, BitVec.getLsbD_or, hone]
    · rw [if_neg hj, decide_eq_false (fun e => hj (by rw [e])), Bool.or_false]
  exact ⟨v', hset, rfl, List.length_set, hbit⟩

/-- A `false` changes nothing. -/
theorem set_false (hi : i < v.size) : v.set i false = some v := by
  obtain ⟨w, hw⟩ := exists_word h hi
  have hzero : w ||| BitVec.ofNat 64 false.toNat <<< (i % 64) = w := by
    show w ||| 0#64 <<< (i % 64) = w
    rw [BitVec.zero_shiftLeft, BitVec.or_zero]
  simp only [AtomicBitVec.set, if_neg (Nat.not_le.mpr hi), hw, Option.map_some, hzero]
  obtain ⟨hlt, rfl⟩ := List.getElem?_eq_some_iff.mp hw
  rw [List.set_getElem_self]

end

theorem get_eq (h : Words v) (hi : i < v.size) : v.get i = some (bit v i) := get_eq_bit h.length hi

theorem set_true (h : Words v) (hi : i < v.size) : ∃ v', v.set i true = some v' ∧ v'.size = v.size ∧ Words v' ∧
    ∀ j, bit v' j = (bit v j || decide (j = i)) := by
  obtain ⟨v', hset, hsize, hlen, hbit⟩ := set_true_bit h.length hi
  refine ⟨v', hset, hsize, ⟨by rw [hlen, hsize]; exact h.length, fun j hj => ?_⟩, hbit⟩
  rw [hsize]
  rw [hbit, Bool.or_eq_true, decide_eq_true_eq] at hj
  rcases hj with hj | rfl
  · exact h.lt j hj
  · exact hi

theorem bit_clearWord (word : Nat) : bit (v.clearWord word) i = (bit v i && decide (i / 64 ≠ word)) := by
  simp only [bit, AtomicBitVec.clearWord, List.getElem?_set]
  by_cases h : i / 64 = word
  · rw [if_pos h.symm, decide_eq_false (not_not_intro h), Bool.and_false]
    split <;> simp
  · rw [if_neg (Ne.symm h), decide_eq_true h, Bool.and_true]

theorem words_clearWord (h : Words v) (word : Nat) : Words (v.clearWord word) := by
  refine ⟨by simp only [AtomicBitVec.clearWord, List.length_set]; exact h.length, fun i hi => ?_⟩
  rw [bit_clearWord, Bool.and_eq_true] at hi
  exact h.lt i hi.1

/-! ## `all_set` -/

/-- All bits of the words, in order. -/
def bits (store : List (BitVec 64)) : List Bool := store.flatMap fun w => (List.range 64).map w.getLsbD

theorem getElem?_bits (store : List (BitVec 64)) (i : Nat) :
    (bits store)[i]? = store[i / 64]?.map fun w => w.getLsbD (i % 64) := by
  induction store generalizing i with
  | nil => rfl
  | cons w store ih =>
    have hlen : ((List.range 64).map w.getLsbD).length = 64 := by simp
    rw [bits, List.flatMap_cons]
    rcases Nat.lt_or_ge i 64 with hi | hi
    · rw [List.getElem?_append_left (by omega), Nat.div_eq_of_lt hi, Nat.mod_eq_of_lt hi]
      simp [hi]
    · rw [List.getElem?_append_right (by omega), hlen]
      have e : i / 64 = (i - 64) / 64 + 1 := by omega
      have em : i % 64 = (i - 64) % 64 := by omega
      rw [e, em, List.getElem?_cons_succ]
      exact ih (i - 64)

theorem sum_countOnes (store : List (BitVec 64)) : (store.map AtomicBitVec.countOnes).sum = (bits store).count true := by
  rw [bits, List.count_flatMap]
  rfl

theorem getD_bits (v : AtomicBitVec) (i : Nat) : (bits v.store)[i]?.getD false = bit v i := by
  rw [getElem?_bits, bit]

theorem allSet_iff (h : Words v) : v.allSet = true ↔ ∀ i < v.size, bit v i = true := by
  have hlen : v.size ≤ (bits v.store).length := by
    have : (bits v.store).length = 64 * v.store.length := by
      simp [bits, List.length_flatMap, Nat.mul_comm]
    rw [this, h.length]
    omega
  have hdrop : ((bits v.store).drop v.size).count true = 0 := by
    refine List.count_eq_zero.mpr fun hmem => ?_
    obtain ⟨i, hi⟩ := List.mem_iff_getElem?.mp hmem
    rw [List.getElem?_drop] at hi
    have hb : bit v (v.size + i) = true := by rw [← getD_bits, hi]; rfl
    exact absurd (h.lt _ hb) (by omega)
  have htake : ((bits v.store).take v.size).length = v.size := List.length_take_of_le hlen
  have hcount : (bits v.store).count true = ((bits v.store).take v.size).count true := by
    rw [← List.take_append_drop v.size (bits v.store), List.count_append, hdrop, Nat.add_zero,
      List.take_append_drop]
  have hle := List.count_le_length (a := true) (l := (bits v.store).take v.size)
  rw [AtomicBitVec.allSet, sum_countOnes, decide_eq_true_eq, hcount]
  have hall : v.size ≤ ((bits v.store).take v.size).count true ↔ ∀ b ∈ (bits v.store).take v.size, true = b := by
    rw [← List.count_eq_length, htake]
    omega
  rw [ge_iff_le, hall]
  constructor
  · intro hb i hi
    rw [← getD_bits]
    have hget : (bits v.store)[i]? = some (bits v.store)[i] := List.getElem?_eq_getElem (by omega)
    rw [hget, Option.getD_some]
    exact (hb _ (List.mem_take_iff_getElem.mpr ⟨i, by omega, rfl⟩)).symm
  · intro hb b hmem
    obtain ⟨i, hi, rfl⟩ := List.mem_take_iff_getElem.mp hmem
    have := hb i (by omega)
    rw [← getD_bits, List.getElem?_eq_getElem (by omega), Option.getD_some] at this
    exact this.symm

end Metor.Proof.FieldTable

/-!
## `AtomicBitVec` and `Vec<bool>`

`Represents` is the invariant: the bits below `size` are the entries, and the
bits above are either all zero, or one as all the others are. Every call keeps
it (`represents_call`), except a `set` of `false` over `true`, which changes
the vector and not the bits; so the two behave alike just as long as there is
none (`behavesAlike_iff`).
-/

namespace Metor.Proof.FieldTable

open Metor.Impl.FieldTable

variable {v v' : AtomicBitVec} {vec : List Bool} {i : Nat}

/-! ## Representation -/

/-- Every bit of every word is set. -/
def AllOnes (v : AtomicBitVec) : Prop := ∀ w ∈ v.store, w = BitVec.allOnes 64

structure Represents (v : AtomicBitVec) (vec : List Bool) : Prop where
  size : v.size = vec.length
  length : v.store.length = (v.size + 63) / 64
  entry : ∀ i < v.size, vec[i]? = some (bit v i)
  beyond : Words v ∨ AllOnes v

theorem represents_new (size : Nat) : Represents (.new size) (List.replicate size false) where
  size := List.length_replicate.symm
  length := List.length_replicate
  entry i hi := by
    rw [bit_new]
    exact List.getElem?_replicate_of_lt hi
  beyond := .inl (words_new size)

theorem getLsbD_of_allOnes (h : AllOnes v) (hlen : v.store.length = (v.size + 63) / 64) (hi : i < v.size) :
    bit v i = true := by
  obtain ⟨w, hw⟩ := exists_word hlen hi
  rw [bit, hw, h w (List.mem_of_getElem? hw)]
  show (BitVec.allOnes 64).getLsbD (i % 64) = true
  rw [BitVec.getLsbD_allOnes, decide_eq_true (Nat.mod_lt i (by decide))]

/-- All ones are more than enough. -/
theorem allSet_of_allOnes (h : AllOnes v) (hlen : v.store.length = (v.size + 63) / 64) : v.allSet = true := by
  have hcount : v.store.map AtomicBitVec.countOnes = List.replicate v.store.length 64 := by
    rw [List.eq_replicate_iff, List.length_map]
    refine ⟨rfl, fun n hn => ?_⟩
    obtain ⟨w, hw, rfl⟩ := List.mem_map.mp hn
    rw [h w hw]
    decide
  rw [AtomicBitVec.allSet, hcount, List.sum_replicate_nat, decide_eq_true_eq, hlen]
  omega

theorem Represents.all_iff (h : Represents v vec) : vec.all id = true ↔ ∀ i < v.size, bit v i = true := by
  rw [List.all_eq_true]
  constructor
  · intro hall i hi
    exact hall _ (List.mem_of_getElem? (h.entry i hi))
  · intro hall b hb
    obtain ⟨i, hi⟩ := List.mem_iff_getElem?.mp hb
    obtain ⟨hlt, -⟩ := List.getElem?_eq_some_iff.mp hi
    have hlt : i < v.size := h.size ▸ hlt
    rw [h.entry i hlt, hall i hlt] at hi
    exact (Option.some.inj hi).symm

/-- What is represented answers alike. -/
theorem Represents.alike (h : Represents v vec) : Alike v vec := by
  refine ⟨fun i => ?_, ?_⟩
  · by_cases hi : i < v.size
    · rw [get_eq_bit h.length hi, h.entry i hi]
    · rw [AtomicBitVec.get, if_pos (Nat.not_lt.mp hi), List.getElem?_eq_none (by rw [← h.size]; exact Nat.not_lt.mp hi)]
  · rw [Bool.eq_iff_iff, h.all_iff]
    obtain hw | ho := h.beyond
    · exact allSet_iff hw
    · exact iff_of_true (allSet_of_allOnes ho h.length) fun i hi => getLsbD_of_allOnes ho h.length hi

/-! ## Calls -/

theorem set_of_le {value : Bool} (h : v.size ≤ i) : v.set i value = none := if_pos h

theorem represents_set_true (h : Represents v vec) (hi : i < v.size) :
    ∃ v', v.set i true = some v' ∧ Represents v' (vec.set i true) := by
  obtain ⟨v', hset, hsize, hlen, hbit⟩ := set_true_bit h.length hi
  refine ⟨v', hset, ⟨by rw [hsize, List.length_set, h.size], by rw [hlen, hsize, h.length], fun j hj => ?_, ?_⟩⟩
  · rw [hbit, List.getElem?_set, h.entry j (hsize ▸ hj)]
    by_cases hij : i = j
    · rw [if_pos hij, if_pos (by rw [← h.size]; exact hi), decide_eq_true hij.symm, Bool.or_true]
    · rw [if_neg hij, decide_eq_false (Ne.symm hij), Bool.or_false]
  · obtain hw | ho := h.beyond
    · obtain ⟨v'', hset', -, hw', -⟩ := set_true hw hi
      obtain rfl := Option.some.inj (hset.symm.trans hset')
      exact .inl hw'
    · right
      obtain ⟨w, hw⟩ := exists_word h.length hi
      have hv' : v' = { v with store := v.store.set (i / 64) (w ||| BitVec.ofNat 64 true.toNat <<< (i % 64)) } := by
        simp only [AtomicBitVec.set, if_neg (Nat.not_le.mpr hi), hw, Option.map_some] at hset
        exact (Option.some.inj hset).symm
      intro word hword
      rw [hv'] at hword
      obtain hword | rfl := List.mem_or_eq_of_mem_set hword
      · exact ho word hword
      · rw [ho w (List.mem_of_getElem? hw)]
        exact BitVec.allOnes_or

theorem represents_setAll (h : Represents v vec) (value : Bool) :
    Represents (v.setAll value) (List.replicate vec.length value) := by
  have hbit {i : Nat} (hi : i < v.size) : bit (v.setAll value) i = value := by
    obtain ⟨w, hw⟩ := exists_word h.length hi
    rw [bit, AtomicBitVec.setAll, List.getElem?_map, hw]
    cases value with
    | false => exact BitVec.getLsbD_zero
    | true =>
      show (BitVec.allOnes 64).getLsbD (i % 64) = true
      rw [BitVec.getLsbD_allOnes, decide_eq_true (Nat.mod_lt i (by decide))]
  refine ⟨by rw [List.length_replicate]; exact h.size, by rw [AtomicBitVec.setAll, List.length_map]; exact h.length,
    fun i hi => ?_, ?_⟩
  · rw [hbit hi]
    exact List.getElem?_replicate_of_lt (by rw [← h.size]; exact hi)
  · cases value with
    | false =>
      refine .inl ⟨by rw [AtomicBitVec.setAll, List.length_map]; exact h.length, fun i hi => ?_⟩
      rw [bit, AtomicBitVec.setAll, List.getElem?_map] at hi
      cases hw : v.store[i / 64]? with
      | none =>
        rw [hw] at hi
        cases hi
      | some w =>
        rw [hw] at hi
        simp at hi
    | true =>
      refine .inr fun w hw => ?_
      obtain ⟨-, -, rfl⟩ := List.mem_map.mp hw
      rfl

/-- A call that raises keeps the representation and answers alike. -/
theorem represents_call (h : Represents v vec) {c : BitCall} (hc : Raises vec c) :
    (v.call c).2 = (vecCall vec c).2 ∧ Represents (v.call c).1 (vecCall vec c).1 := by
  cases c with
  | set i value =>
    by_cases hi : i < v.size
    · have hlt : i < vec.length := h.size ▸ hi
      cases value with
      | false =>
        have hfalse : vec[i]? = some false := by
          rw [List.getElem?_eq_getElem hlt] at *
          cases hb : vec[i] with
          | false => rfl
          | true => exact absurd (by rw [List.getElem?_eq_getElem hlt, hb]) (hc i rfl)
        have hsame : vec.set i false = vec := by
          obtain ⟨_, he⟩ := List.getElem?_eq_some_iff.mp hfalse
          rw [← he, List.set_getElem_self]
        rw [AtomicBitVec.call, vecCall, set_false h.length hi, if_pos hlt, hsame]
        exact ⟨rfl, h⟩
      | true =>
        obtain ⟨v', hset, hr⟩ := represents_set_true h hi
        rw [AtomicBitVec.call, vecCall, hset, if_pos hlt]
        exact ⟨rfl, hr⟩
    · have hle := Nat.not_lt.mp hi
      have hle' : vec.length ≤ i := h.size ▸ hle
      rw [AtomicBitVec.call, vecCall, set_of_le hle, if_neg (Nat.not_lt.mpr hle'), List.set_eq_of_length_le hle']
      exact ⟨rfl, h⟩
  | setAll value => exact ⟨rfl, represents_setAll h value⟩
  | get i => exact ⟨congrArg BitAnswer.value (h.alike.1 i), h⟩
  | allSet => exact ⟨congrArg BitAnswer.all h.alike.2, h⟩

/-- A `set` of `false` over `true` is forgotten. -/
theorem not_alike_set_false (h : Represents v vec) (hi : vec[i]? = some true) :
    ¬ Alike (v.call (.set i false)).1 (vecCall vec (.set i false)).1 := by
  obtain ⟨hlt, -⟩ := List.getElem?_eq_some_iff.mp hi
  have hlt' : i < v.size := h.size ▸ hlt
  rw [AtomicBitVec.call, vecCall, set_false h.length hlt']
  intro halike
  have hget : v.get i = (vec.set i false)[i]? := halike.1 i
  rw [h.alike.1 i, hi, List.getElem?_set_self hlt] at hget
  exact nomatch hget

theorem behavesAlike_of_represents (h : Represents v vec) (calls : List BitCall) :
    BehavesAlike v vec calls ↔ AllRaise vec calls := by
  induction calls generalizing v vec with
  | nil => exact iff_of_true h.alike trivial
  | cons c calls ih =>
    rw [BehavesAlike, AllRaise]
    by_cases hc : Raises vec c
    · obtain ⟨hanswer, hr⟩ := represents_call h hc
      rw [and_iff_right h.alike, and_iff_right hanswer, and_iff_right hc, ih hr]
    · refine iff_of_false (fun hb => ?_) fun hall => hc hall.1
      obtain ⟨i, hi⟩ := not_forall.mp hc
      obtain ⟨hset, htrue⟩ := Classical.not_imp.mp hi
      subst hset
      have hnext : Alike (v.call (.set i false)).1 (vecCall vec (.set i false)).1 := by
        cases calls with
        | nil => exact hb.2.2
        | cons c' calls => exact hb.2.2.1
      exact not_alike_set_false h (Classical.not_not.mp htrue) hnext

/-- An `AtomicBitVec` behaves as a `Vec<bool>` just as long as no `true` is overwritten by a `set` of `false`. -/
theorem behavesAlike_iff (size : Nat) (calls : List BitCall) :
    BehavesAlike (.new size) (List.replicate size false) calls ↔ AllRaise (List.replicate size false) calls :=
  behavesAlike_of_represents (represents_new size) calls

/-- A bit that is set and reset. -/
theorem set_forgotten : ¬ BehavesAlike (.new 1) [false] [.set 0 true, .set 0 false] := by
  intro h
  exact absurd (h.2.2.2.2.1 0) (by decide)

end Metor.Proof.FieldTable
