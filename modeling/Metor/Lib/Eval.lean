import Mathlib.Order.Lattice

/-!
# Evaluation with fuel

`Eval ε α` is the outcome of an evaluator that is given a bound on its
recursion: a value, an error, or `running` when the bound was too small. The
`bind_eq_…` lemmas take a computation apart. An evaluator is monotone if more
fuel only turns `running` into an outcome (`Eval.Le`), and `Le.bind` is how
such evaluators compose. `ErrOr` is what holds of the value if there is one,
and `Rel` relates the outcomes of two evaluators that fail alike.
-/

namespace Metor.Lib

inductive Eval (ε α : Type) where
  | running
  | err (e : ε)
  | ok (a : α)
  deriving DecidableEq, Repr

namespace Eval

variable {ε α β : Type}

def bind : Eval ε α → (α → Eval ε β) → Eval ε β
  | running, _ => running
  | err e, _ => err e
  | ok a, f => f a

instance : Monad (Eval ε) where
  pure := ok
  bind := bind

/-- `Option::ok_or` -/
def okOr (e : ε) : Option α → Eval ε α
  | some a => ok a
  | none => err e

@[simp] theorem pure_eq (a : α) : (pure a : Eval ε α) = ok a := rfl

@[simp] theorem ok_bind (a : α) (f : α → Eval ε β) : (ok a >>= f) = f a := rfl

@[simp] theorem err_bind (e : ε) (f : α → Eval ε β) : (err e >>= f) = err e := rfl

@[simp] theorem running_bind (f : α → Eval ε β) : (running >>= f) = running := rfl

@[simp] theorem okOr_some (e : ε) (a : α) : okOr e (some a) = ok a := rfl

@[simp] theorem okOr_none (e : ε) : okOr e (none : Option α) = err e := rfl

theorem bind_assoc {γ : Type} (x : Eval ε α) (f : α → Eval ε β) (g : β → Eval ε γ) :
    (x >>= f >>= g) = (x >>= fun a => f a >>= g) := by
  cases x <;> rfl

theorem okOr_eq_ok {e : ε} {x : Option α} {a : α} : okOr e x = ok a ↔ x = some a := by
  cases x <;> simp

theorem okOr_ne_running {e : ε} {x : Option α} : okOr e x ≠ running := by
  cases x <;> simp

theorem bind_eq_ok {x : Eval ε α} {f : α → Eval ε β} {b : β} :
    (x >>= f) = ok b ↔ ∃ a, x = ok a ∧ f a = ok b := by
  cases x <;> simp

theorem bind_eq_running {x : Eval ε α} {f : α → Eval ε β} :
    (x >>= f) = running ↔ x = running ∨ ∃ a, x = ok a ∧ f a = running := by
  cases x <;> simp

theorem bind_eq_running_iff {x : Eval ε α} {f : α → Eval ε β} (hf : ∀ a, f a ≠ running) :
    (x >>= f) = running ↔ x = running := by
  rw [bind_eq_running, or_iff_left]
  exact fun ⟨a, _, h⟩ => hf a h

/-- `y` is the outcome of `x`, if `x` has one. -/
def Le (x y : Eval ε α) : Prop := x = running ∨ x = y

theorem Le.rfl {x : Eval ε α} : x.Le x := .inr (Eq.refl x)

theorem Le.running {x : Eval ε α} : (Eval.running : Eval ε α).Le x := .inl (Eq.refl _)

theorem Le.bind {x y : Eval ε α} {f g : α → Eval ε β} (h : x.Le y) (hf : ∀ a, (f a).Le (g a)) :
    (x >>= f).Le (y >>= g) := by
  rcases h with rfl | rfl
  · exact .running
  · cases x with
    | ok a => exact hf a
    | _ => exact .rfl

theorem Le.eq_of_ne_running {x y : Eval ε α} (h : x.Le y) (hx : x ≠ Eval.running) : y = x :=
  (h.resolve_left hx).symm

/-- An error, or a value that satisfies `P`. -/
def ErrOr (P : α → Prop) (x : Eval ε α) : Prop := (∃ e, x = err e) ∨ ∃ a, x = ok a ∧ P a

theorem ErrOr.bind {P : α → Prop} {Q : β → Prop} {x : Eval ε α} {f : α → Eval ε β} (h : x.ErrOr P)
    (hf : ∀ a, P a → (f a).ErrOr Q) : (x >>= f).ErrOr Q := by
  rcases h with ⟨e, rfl⟩ | ⟨a, rfl, ha⟩
  · exact .inl ⟨e, Eq.refl _⟩
  · exact hf a ha

/-- The same outcome, with values that `R` relates. -/
inductive Rel (R : α → β → Prop) : Eval ε α → Eval ε β → Prop
  | running : Rel R running running
  | err (e : ε) : Rel R (err e) (err e)
  | ok {a : α} {b : β} : R a b → Rel R (ok a) (ok b)

theorem Rel.bind {α' β' : Type} {R : α → β → Prop} {S : α' → β' → Prop} {x : Eval ε α} {y : Eval ε β}
    {f : α → Eval ε α'} {g : β → Eval ε β'} (h : Rel R x y)
    (hfg : ∀ a b, x = Eval.ok a → y = Eval.ok b → R a b → Rel S (f a) (g b)) : Rel S (x >>= f) (y >>= g) := by
  cases h with
  | running => exact .running
  | err e => exact .err e
  | ok h => exact hfg _ _ (Eq.refl _) (Eq.refl _) h

theorem Rel.of_eq {R : α → α → Prop} {x : Eval ε α} (h : ∀ a, R a a) : Rel R x x := by
  cases x with
  | running => exact .running
  | err e => exact .err e
  | ok a => exact .ok (h a)

theorem Rel.eq {x y : Eval ε α} (h : Rel (· = ·) x y) : x = y := by
  cases h with
  | ok h => rw [h]
  | _ => rfl

end Eval

end Metor.Lib
