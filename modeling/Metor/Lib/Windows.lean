import Mathlib.Data.List.Palindrome
import Mathlib.Algebra.Order.BigOperators.GroupWithZero.List
import Mathlib.Algebra.BigOperators.Group.List.Lemmas
import Mathlib.Algebra.Order.Ring.Nat

/-!
# Windows over a stream

`windowed f n` gives one value for each `n` values of a stream, and `composed`
does so window by window. A pipeline of windows instead runs every window on
every value (`pipe`), and gives a value when all windows are at their ends
(`outputs`). It does what the composition does if at most one of the windows
takes more than one value (`outputs_eq_composed`); two equal windows that take
more give their first value too early (`outputs_ne_nil`,
`composed_eq_nil`).
-/

namespace Metor.Lib

variable {α : Type*} (f : List α → α)

/-- One value for each `n` values. -/
def windowed (n : Nat) (xs : List α) : List α :=
  if 0 < n ∧ n ≤ xs.length then f (xs.take n) :: windowed n (xs.drop n) else []
termination_by xs.length
decreasing_by rw [List.length_drop]; omega

/-- The windows one after the other, each over the values of the one before. -/
def composed (ns : List Nat) (xs : List α) : List α := ns.foldl (fun xs n => windowed f n xs) xs

/-- A window of `size` values, of which some have come. -/
structure Window (α : Type*) where
  size : Nat
  pending : List α

/-- A value comes: at the end of the window there is one for all of it, and before the value itself. -/
def Window.feed (w : Window α) (x : α) : Bool × Window α × α :=
  if w.size ≤ w.pending.length + 1 then (true, { w with pending := [] }, f (w.pending ++ [x]))
  else (false, { w with pending := w.pending ++ [x] }, x)

/-- Every window is fed with what the one before it gives. -/
def pipe : List (Window α) → α → Bool × List (Window α) × α
  | [], x => (true, [], x)
  | w :: ws, x =>
    let (ended, w, y) := w.feed f x
    let (allEnded, ws, z) := pipe ws y
    (ended && allEnded, w :: ws, z)

/-- The values when all windows end. -/
def outputs (ws : List (Window α)) : List α → List α
  | [] => []
  | x :: xs =>
    let (ended, ws, y) := pipe f ws x
    if ended then y :: outputs ws xs else outputs ws xs

/-- Windows before their first values. -/
def started (ns : List Nat) : List (Window α) := ns.map fun n => ⟨n, []⟩

variable {f} {n : Nat} {ns : List Nat} {xs : List α}

/-! ## Composition -/

theorem length_windowed (hn : 0 < n) : (windowed f n xs).length = xs.length / n := by
  fun_induction windowed f n xs with
  | case1 xs h ih => rw [List.length_cons, ih, List.length_drop, Nat.div_eq_sub_div hn h.2]
  | case2 xs h => rw [List.length_nil, Nat.div_eq_of_lt (by omega)]

theorem length_composed (hns : ∀ n ∈ ns, 0 < n) : (composed f ns xs).length = xs.length / ns.prod := by
  induction ns generalizing xs with
  | nil => rw [List.prod_nil, Nat.div_one]; rfl
  | cons n ns ih =>
    obtain ⟨hn, hns⟩ := List.forall_mem_cons.mp hns
    rw [composed, List.foldl_cons, ← composed, ih hns, length_windowed hn, List.prod_cons, Nat.div_div_eq_div_mul]

/-- Too few values for the composition. -/
theorem composed_eq_nil (hns : ∀ n ∈ ns, 0 < n) (h : xs.length < ns.prod) : composed f ns xs = [] := by
  rw [← List.length_eq_zero_iff, length_composed hns, Nat.div_eq_of_lt h]

/-- The first window. -/
theorem windowed_append (hn : 0 < n) {window : List α} (h : window.length = n) :
    windowed f n (window ++ xs) = f window :: windowed f n xs := by
  rw [windowed, if_pos ⟨hn, by rw [List.length_append]; omega⟩, List.take_left' h, List.drop_left' h]

theorem windowed_one : windowed f 1 xs = xs.map fun x => f [x] := by
  induction xs with
  | nil => rw [windowed, if_neg (by simp)]; rfl
  | cons x xs ih =>
    rw [← List.singleton_append, windowed_append Nat.one_pos List.length_singleton, ih, List.singleton_append, List.map_cons]

/-- The window of number `k`. -/
theorem getElem?_windowed (hn : 0 < n) (k : Nat) :
    (windowed f n xs)[k]? = if (k + 1) * n ≤ xs.length then some (f ((xs.drop (k * n)).take n)) else none := by
  fun_induction windowed f n xs generalizing k with
  | case1 xs h ih =>
    have hlen : (xs.drop n).length = xs.length - n := List.length_drop
    cases k with
    | zero =>
      rw [List.getElem?_cons_zero, Nat.zero_add, Nat.one_mul, if_pos h.2, Nat.zero_mul, List.drop_zero]
    | succ k =>
      have hmul : ∀ m : Nat, (m + 1) * n = m * n + n := fun m => by rw [Nat.add_mul, Nat.one_mul]
      rw [List.getElem?_cons_succ, ih, List.drop_drop, hlen, Nat.add_comm n (k * n), ← hmul k]
      have h₁ := hmul (k + 1)
      have h₂ := h.2
      exact if_congr (by omega) rfl rfl
  | case2 xs h =>
    have hle : n ≤ (k + 1) * n := Nat.le_mul_of_pos_left n (Nat.succ_pos k)
    rw [List.getElem?_nil, if_neg (by omega)]

/-- Windows of one value. -/
theorem composed_ones (hns : ∀ n ∈ ns, n = 1) : composed f ns xs = xs.map (fun x => f [x])^[ns.length] := by
  induction ns generalizing xs with
  | nil => exact (List.map_id xs).symm
  | cons n ns ih =>
    obtain ⟨rfl, hns'⟩ := List.forall_mem_cons.mp hns
    rw [composed, List.foldl_cons, ← composed, ih hns', windowed_one, List.map_map, List.length_cons, Function.iterate_succ]

theorem composed_append (ns ns' : List Nat) (xs : List α) :
    composed f (ns ++ ns') xs = composed f ns' (composed f ns xs) := List.foldl_append

/-! ## Pipelines -/

theorem pipe_append (ws ws' : List (Window α)) (x : α) :
    pipe f (ws ++ ws') x =
      ((pipe f ws x).1 && (pipe f ws' (pipe f ws x).2.2).1,
        (pipe f ws x).2.1 ++ (pipe f ws' (pipe f ws x).2.2).2.1, (pipe f ws' (pipe f ws x).2.2).2.2) := by
  induction ws generalizing x with
  | nil => simp [pipe]
  | cons w ws ih => simp only [List.cons_append, pipe, ih, Bool.and_assoc]

theorem outputs_cons (ws : List (Window α)) (x : α) (xs : List α) :
    outputs f ws (x :: xs) =
      if (pipe f ws x).1 then (pipe f ws x).2.2 :: outputs f (pipe f ws x).2.1 xs else outputs f (pipe f ws x).2.1 xs := rfl

/-- Windows of one value end with every value, and start again. -/
theorem pipe_ones (hns : ∀ n ∈ ns, n = 1) (x : α) :
    pipe f (started ns) x = (true, started ns, (fun x => f [x])^[ns.length] x) := by
  induction ns generalizing x with
  | nil => rfl
  | cons n ns ih =>
    obtain ⟨rfl, hns'⟩ := List.forall_mem_cons.mp hns
    have hfeed : Window.feed f ⟨1, []⟩ x = (true, ⟨1, []⟩, f [x]) := rfl
    have hs : (started (1 :: ns) : List (Window α)) = ⟨1, []⟩ :: started ns := rfl
    rw [hs, pipe, hfeed]
    simp only [ih hns']
    rw [List.length_cons, Function.iterate_succ_apply]
    rfl

/-- One window among windows of one value, when some of its values have come. -/
theorem outputs_eq {before after : List Nat} (hn : 0 < n) (hb : ∀ n ∈ before, n = 1) (ha : ∀ n ∈ after, n = 1)
    {pending : List α} (hp : pending.length < n) :
    outputs f (started before ++ ⟨n, pending⟩ :: started after) xs =
      (windowed f n (pending ++ xs.map (fun x => f [x])^[before.length])).map (fun x => f [x])^[after.length] := by
  induction xs generalizing pending with
  | nil =>
    rw [windowed, if_neg (by simp only [List.map_nil, List.append_nil]; omega)]
    rfl
  | cons x xs ih =>
    set y := (fun x => f [x])^[before.length] x with hy
    have hpipe : pipe f (started before ++ ⟨n, pending⟩ :: started after) x =
        if n ≤ pending.length + 1 then
          (true, started before ++ ⟨n, []⟩ :: started after, (fun x => f [x])^[after.length] (f (pending ++ [y])))
        else
          (false, started before ++ ⟨n, pending ++ [y]⟩ :: started after, (fun x => f [x])^[after.length] y) := by
      rw [pipe_append, pipe_ones hb]
      simp only [pipe, Window.feed, ← hy]
      split <;> simp only [pipe_ones ha, Bool.true_and, Bool.false_and]
    rw [outputs_cons, hpipe, List.map_cons, ← hy]
    by_cases hle : n ≤ pending.length + 1
    · have hlen : (pending ++ [y]).length = n := by rw [List.length_append, List.length_singleton]; omega
      have hassoc (ys : List α) : pending ++ y :: ys = (pending ++ [y]) ++ ys := by rw [List.append_assoc]; rfl
      rw [if_pos hle, hassoc (xs.map _), windowed_append hn hlen, List.map_cons]
      simp only [if_true]
      rw [ih (List.length_nil ▸ hn), List.nil_append]
    · have hrest := ih (show (pending ++ [y]).length < n by rw [List.length_append, List.length_singleton]; omega)
      rw [List.append_assoc, List.singleton_append] at hrest
      rw [if_neg hle, ← hrest]
      simp only [Bool.false_eq_true, if_false]

theorem exists_split (hns : ∀ n ∈ ns, 0 < n) (hne : ns ≠ []) (h : (ns.filter (1 < ·)).length ≤ 1) :
    ∃ before n after, ns = before ++ n :: after ∧ (∀ n ∈ before, n = 1) ∧ ∀ n ∈ after, n = 1 := by
  induction ns with
  | nil => exact absurd rfl hne
  | cons n ns ih =>
    obtain ⟨hn, hns'⟩ := List.forall_mem_cons.mp hns
    by_cases hlt : 1 < n
    · rw [List.filter_cons_of_pos (by simpa using hlt), List.length_cons] at h
      have hnil := List.filter_eq_nil_iff.mp (List.length_eq_zero_iff.mp (by omega : (ns.filter (1 < ·)).length = 0))
      refine ⟨[], n, ns, rfl, by simp, fun m hm => ?_⟩
      have := hnil m hm
      have := hns' m hm
      simp only [decide_eq_true_eq] at *
      omega
    · obtain rfl : n = 1 := by omega
      by_cases hnil : ns = []
      · exact ⟨[], 1, [], by rw [hnil]; rfl, by simp, by simp⟩
      · rw [List.filter_cons_of_neg (by simp)] at h
        obtain ⟨before, n, after, rfl, hb, ha⟩ := ih hns' hnil h
        exact ⟨1 :: before, n, after, rfl, by simpa using hb, ha⟩

/-- With at most one window of more than one value, the pipeline does what the composition does. -/
theorem outputs_eq_composed (hns : ∀ n ∈ ns, 0 < n) (h : (ns.filter (1 < ·)).length ≤ 1) :
    outputs f (started ns) xs = composed f ns xs := by
  by_cases hne : ns = []
  · subst hne
    rw [composed, List.foldl_nil]
    induction xs with
    | nil => rfl
    | cons x xs ih => exact congrArg (x :: ·) ih
  · obtain ⟨before, n, after, rfl, hb, ha⟩ := exists_split hns hne h
    have hn : 0 < n := hns n (by simp)
    have hs : (started (before ++ n :: after) : List (Window α)) = started before ++ ⟨n, []⟩ :: started after := by
      simp [started]
    rw [hs, outputs_eq hn hb ha (List.length_nil ▸ hn), composed_append, composed_ones hb]
    show _ = composed f ([n] ++ after) _
    rw [composed_append, composed_ones ha]
    rfl

/-! ## Values that come too early -/

/-- As many values are pending as have come since the last end. -/
structure After (i : Nat) (w : Window α) : Prop where
  pos : 0 < w.size
  pending : w.pending.length = i % w.size

theorem feed_after {w : Window α} {i : Nat} (h : After i w) (x : α) :
    ((w.feed f x).1 = true ↔ w.size ∣ i + 1) ∧ After (i + 1) (w.feed f x).2.1 ∧ (w.feed f x).2.1.size = w.size := by
  obtain ⟨hpos, hpend⟩ := h
  have hlt := Nat.mod_lt i hpos
  have hdiv := Nat.div_add_mod i w.size
  by_cases hle : w.size ≤ w.pending.length + 1
  · have hmod : (i + 1) % w.size = 0 := by
      rw [← hdiv, Nat.add_assoc, show i % w.size + 1 = w.size by omega, Nat.add_mod_right, Nat.mul_mod_right]
    rw [Window.feed, if_pos hle]
    exact ⟨iff_of_true rfl (Nat.dvd_of_mod_eq_zero hmod), ⟨hpos, hmod.symm⟩, rfl⟩
  · have hmod : (i + 1) % w.size = i % w.size + 1 := by
      rw [← hdiv, Nat.add_assoc, Nat.mul_add_mod, Nat.mul_add_mod, Nat.mod_mod, Nat.mod_eq_of_lt (by omega)]
    rw [Window.feed, if_neg hle]
    refine ⟨iff_of_false Bool.false_ne_true fun hd => ?_, ⟨hpos, ?_⟩, rfl⟩
    · rw [Nat.mod_eq_zero_of_dvd hd] at hmod
      exact absurd hmod (Nat.succ_ne_zero _).symm
    · rw [List.length_append, List.length_singleton, hpend]
      exact hmod.symm

theorem pipe_after {ws : List (Window α)} {i : Nat} (h : ∀ w ∈ ws, After i w) (x : α) :
    ((pipe f ws x).1 = true ↔ ∀ w ∈ ws, w.size ∣ i + 1) ∧ (∀ w ∈ (pipe f ws x).2.1, After (i + 1) w) ∧
      (pipe f ws x).2.1.map (·.size) = ws.map (·.size) := by
  induction ws generalizing x with
  | nil => simp [pipe]
  | cons w ws ih =>
    obtain ⟨hw, hws⟩ := List.forall_mem_cons.mp h
    obtain ⟨h₁, h₂, h₃⟩ := feed_after (f := f) hw x
    obtain ⟨h₁', h₂', h₃'⟩ := ih hws (w.feed f x).2.2
    simp only [pipe, Bool.and_eq_true, h₁, h₁', List.forall_mem_cons, List.map_cons, h₃, h₃']
    exact ⟨trivial, ⟨h₂, h₂'⟩, trivial⟩

/-- After so many values that each window is at its end, the pipeline has given some. -/
theorem outputs_ne_nil {ws : List (Window α)} {i : Nat} (h : ∀ w ∈ ws, After i w) (hxs : xs ≠ [])
    (hd : ∀ n ∈ ws.map (·.size), n ∣ i + xs.length) : outputs f ws xs ≠ [] := by
  induction xs generalizing ws i with
  | nil => exact absurd rfl hxs
  | cons x xs ih =>
    obtain ⟨h₁, h₂, h₃⟩ := pipe_after (f := f) h x
    rw [outputs_cons]
    by_cases hnil : xs = []
    · subst hnil
      rw [if_pos (h₁.mpr fun w hw => hd w.size (List.mem_map_of_mem hw))]
      exact List.cons_ne_nil _ _
    · have hrest : outputs f (pipe f ws x).2.1 xs ≠ [] := by
        refine ih h₂ hnil ?_
        rw [h₃]
        intro n hn
        rw [Nat.add_assoc, Nat.add_comm 1, ← List.length_cons]
        exact hd n hn
      split
      · exact List.cons_ne_nil _ _
      · exact hrest

/-- Two equal windows leave the others' product, which each of them divides. -/
theorem exists_dvd_of_palindrome (hp : ns.Palindrome) (hns : ∀ n ∈ ns, 0 < n) (h : ¬ (ns.filter (1 < ·)).length ≤ 1) :
    ∃ m, 0 < m ∧ m < ns.prod ∧ ∀ n ∈ ns, n ∣ m := by
  -- of the larger windows the first is also the last
  have hrev : (ns.filter (1 < ·)).reverse = ns.filter (1 < ·) := by rw [← List.filter_reverse, hp.reverse_eq]
  obtain ⟨n, hn, hcount⟩ : ∃ n, 1 < n ∧ 1 < ns.count n := by
    have hpal := List.Palindrome.of_reverse_eq hrev
    generalize he : ns.filter (1 < ·) = ms at hpal h
    cases hpal with
    | nil => simp at h
    | singleton => simp at h
    | @cons_concat n ms hms =>
      have hmem : n ∈ ns.filter (1 < ·) := he ▸ List.mem_cons_self
      have hn : 1 < n := by simpa using (List.mem_filter.mp hmem).2
      refine ⟨n, hn, ?_⟩
      have hc : (ns.filter (1 < ·)).count n = ns.count n := List.count_filter (by simpa using hn)
      rw [← hc, he, List.count_cons_self, List.count_append, List.count_singleton_self]
      omega
  have hmem : n ∈ ns := List.count_pos_iff.mp (Nat.zero_lt_of_lt hcount)
  have hprod : n * (ns.erase n).prod = ns.prod := List.prod_erase hmem
  have hpos : 0 < (ns.erase n).prod := List.prod_pos fun m hm => hns m (List.mem_of_mem_erase hm)
  refine ⟨(ns.erase n).prod, hpos, ?_, fun m hm => List.dvd_prod ?_⟩
  · rw [← hprod]
    exact lt_mul_of_one_lt_left hpos hn
  · by_cases hmn : m = n
    · subst hmn
      rw [← List.count_pos_iff, List.count_erase_self]
      omega
    · exact (List.mem_erase_of_ne hmn).mpr hm

end Metor.Lib
