import Mathlib.Data.List.Forall2

/-!
# Traversals that may fail

`bind_eq_ok_iff` takes a computation in `Except` apart, `mapM_eq_ok_iff` reads
what each element gave off the result of `mapM`, and `mapM_map_ok` maps what they
give.
-/

namespace Metor.Lib

variable {α β γ ε : Type} {f : α → Except ε β} {as : List α}

theorem bind_eq_ok_iff {x : Except ε α} {b : β} : (x >>= f) = .ok b ↔ ∃ a, x = .ok a ∧ f a = .ok b := by
  cases x with
  | error e => exact ⟨fun h => absurd h (by simp [bind, Except.bind]), fun ⟨a, h, _⟩ => absurd h (by simp)⟩
  | ok a => exact ⟨fun h => ⟨a, rfl, h⟩, fun ⟨a', h, hb⟩ => by rw [Except.ok.inj h]; exact hb⟩

/-- Each element gives the result in its place. -/
theorem mapM_eq_ok_iff {bs : List β} : as.mapM f = .ok bs ↔ List.Forall₂ (fun a b => f a = .ok b) as bs := by
  induction as generalizing bs with
  | nil =>
    rw [List.forall₂_nil_left_iff]
    exact ⟨fun h => (Except.ok.inj h).symm, fun h => by rw [h]; rfl⟩
  | cons a as ih =>
    rw [List.mapM_cons, List.forall₂_cons_left_iff]
    constructor
    · intro h
      cases ha : f a with
      | error e => rw [ha] at h; exact absurd h (by simp [bind, Except.bind])
      | ok b =>
        cases has : as.mapM f with
        | error e => rw [ha, has] at h; exact absurd h (by simp [bind, Except.bind])
        | ok bs' =>
          rw [ha, has] at h
          exact ⟨b, bs', rfl, ih.mp has, (Except.ok.inj h).symm⟩
    · rintro ⟨b, bs', hb, hbs, rfl⟩
      rw [hb, ih.mpr hbs]
      rfl

theorem mapM_ok_of_forall (h : ∀ a ∈ as, ∃ b, f a = .ok b) : ∃ bs, as.mapM f = .ok bs := by
  induction as with
  | nil => exact ⟨[], rfl⟩
  | cons a as ih =>
    obtain ⟨b, hb⟩ := h a List.mem_cons_self
    obtain ⟨bs, hbs⟩ := ih fun a' ha' => h a' (List.mem_cons_of_mem a ha')
    exact ⟨b :: bs, by rw [List.mapM_cons, hb, hbs]; rfl⟩

theorem exists_of_mem_left {R : α → β → Prop} {bs : List β} (h : List.Forall₂ R as bs) {a : α} (ha : a ∈ as) :
    ∃ b ∈ bs, R a b := by
  induction h with
  | nil => exact absurd ha List.not_mem_nil
  | cons hab _ ih =>
    rcases List.mem_cons.mp ha with rfl | ha
    · exact ⟨_, List.mem_cons_self, hab⟩
    · obtain ⟨b, hb, hR⟩ := ih ha
      exact ⟨b, List.mem_cons_of_mem _ hb, hR⟩

theorem exists_of_mem_right {R : α → β → Prop} {bs : List β} (h : List.Forall₂ R as bs) {b : β} (hb : b ∈ bs) :
    ∃ a ∈ as, R a b := exists_of_mem_left h.flip hb

theorem mapM_map_ok (f : α → Except ε β) (g : β → γ) (as : List α) :
    as.mapM (fun a => (f a).map g) = (as.mapM f).map (List.map g) := by
  induction as with
  | nil => rfl
  | cons a as ih =>
    rw [List.mapM_cons, List.mapM_cons, ih]
    cases f a with
    | error e => rfl
    | ok b => cases as.mapM f <;> rfl

end Metor.Lib
