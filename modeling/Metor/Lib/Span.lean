import Mathlib.Data.List.Basic

/-!
# The first part of a list that satisfies a predicate

`takeWhile` and `dropWhile` cut a list where the predicate first fails. They
find the cut of `pre ++ rest` again if all of `pre` satisfies the predicate and
`rest` does not go on with it (`Stops`).
-/

namespace Metor.Lib

variable {α : Type*} {p : α → Bool} {pre rest : List α}

/-- The list does not begin with an item that satisfies `p`. -/
def Stops (p : α → Bool) (rest : List α) : Prop := ∀ a ∈ rest.head?, p a = false

theorem stops_cons {a : α} (h : p a = false) : Stops p (a :: rest) := fun b hb => by
  obtain rfl := Option.some.inj hb
  exact h

theorem Stops.takeWhile (h : Stops p rest) : rest.takeWhile p = [] := by
  cases rest with
  | nil => rfl
  | cons a rest => exact List.takeWhile_cons_of_neg (by rw [h a rfl]; decide)

theorem Stops.dropWhile (h : Stops p rest) : rest.dropWhile p = rest := by
  cases rest with
  | nil => rfl
  | cons a rest => exact List.dropWhile_cons_of_neg (by rw [h a rfl]; decide)

theorem takeWhile_append_stops (hp : ∀ a ∈ pre, p a) (h : Stops p rest) : (pre ++ rest).takeWhile p = pre := by
  rw [List.takeWhile_append_of_pos hp, h.takeWhile, List.append_nil]

theorem dropWhile_append_stops (hp : ∀ a ∈ pre, p a) (h : Stops p rest) : (pre ++ rest).dropWhile p = rest := by
  rw [List.dropWhile_append_of_pos hp, h.dropWhile]

theorem stops_dropWhile (l : List α) : Stops p (l.dropWhile p) := by
  intro a ha
  have h := List.head?_dropWhile_not p l
  rw [ha] at h
  simpa using h

theorem length_dropWhile_le (l : List α) : (l.dropWhile p).length ≤ l.length := (List.dropWhile_sublist p).length_le

end Metor.Lib
