import Mathlib.Logic.Relation

/-!
# Runs of a transition system

A system is a partial step function `step : σ → α → Option σ` on states and
actions. `Run step ok s t` is a finite run from `s` to `t` each of whose steps
satisfies `ok` in the state it is taken in. `Run.invariant` is the induction
over a run: what every step keeps, every run keeps. `Run.simulate` carries a
run along an abstraction function, each step becoming one step of the abstract
system or none. A `Trace` is a run with its actions, and `Trace.simulate` says
which action each step becomes, by a label.
-/

namespace Metor.Lib

variable {σ τ α β : Type*}

/-- The runs from `s`, each step allowed by `ok` in the state before it. -/
inductive Run (step : σ → α → Option σ) (ok : σ → α → Prop) (s : σ) : σ → Prop
  | refl : Run step ok s s
  | snoc {t u : σ} {a : α} : Run step ok s t → ok t a → step t a = some u → Run step ok s u

namespace Run

variable {step : σ → α → Option σ} {ok : σ → α → Prop} {s t : σ}

/-- An invariant of the steps is an invariant of the runs. -/
theorem invariant {I : σ → Prop} (hstep : ∀ {s t a}, I s → ok s a → step s a = some t → I t)
    (h : Run step ok s t) (hs : I s) : I t := by
  induction h with
  | refl => exact hs
  | snoc _ ho ht ih => exact hstep ih ho ht

theorem trans {u : σ} (h : Run step ok s t) (h' : Run step ok t u) : Run step ok s u := by
  induction h' with
  | refl => exact h
  | snoc _ ho ht ih => exact ih.snoc ho ht

/-- Each step may be allowed by less. -/
theorem mono {ok' : σ → α → Prop} (hok : ∀ s a, ok s a → ok' s a) (h : Run step ok s t) : Run step ok' s t := by
  induction h with
  | refl => exact .refl
  | snoc _ ho ht ih => exact ih.snoc (hok _ _ ho) ht

/-- A run of a system is, seen through `abs`, a run of the system it refines:
each step is a step of that system, or leaves the abstract state as it is. -/
theorem simulate {step' : τ → β → Option τ} {ok' : τ → β → Prop} {I : σ → Prop} (abs : σ → τ)
    (hI : ∀ {s t a}, I s → ok s a → step s a = some t → I t)
    (hsim : ∀ {s t a}, I s → ok s a → step s a = some t →
      abs t = abs s ∨ ∃ b, ok' (abs s) b ∧ step' (abs s) b = some (abs t))
    (h : Run step ok s t) (hs : I s) : I t ∧ Run step' ok' (abs s) (abs t) := by
  induction h with
  | refl => exact ⟨hs, .refl⟩
  | snoc _ ho ht ih =>
    refine ⟨hI ih.1 ho ht, ?_⟩
    rcases hsim ih.1 ho ht with e | ⟨b, hb, e⟩
    · rw [e]; exact ih.2
    · exact ih.2.snoc hb e

end Run

/-- The state after a list of actions, if each of them is allowed and can be taken. -/
def exec (step : σ → α → Option σ) (ok : σ → α → Prop) [∀ s a, Decidable (ok s a)] (s : σ) :
    List α → Option σ
  | [] => some s
  | a :: as => if ok s a then (step s a).bind fun t => exec step ok t as else none

theorem Run.of_exec {step : σ → α → Option σ} {ok : σ → α → Prop} [∀ s a, Decidable (ok s a)]
    {s₀ s t : σ} (as : List α) (h₀ : Run step ok s₀ s) (h : exec step ok s as = some t) :
    Run step ok s₀ t := by
  induction as generalizing s with
  | nil => cases h; exact h₀
  | cons a as ih =>
    simp only [exec, Option.ite_none_right_eq_some] at h
    obtain ⟨ho, h⟩ := h
    obtain ⟨u, hu, h⟩ := Option.bind_eq_some_iff.mp h
    exact ih (h₀.snoc ho hu) h

/-! ## Traces -/

/-- A run with its actions -/
inductive Trace (step : σ → α → Option σ) (ok : σ → α → Prop) : σ → List α → σ → Prop
  | nil {s : σ} : Trace step ok s [] s
  | cons {s t u : σ} {a : α} {as : List α} :
      ok s a → step s a = some t → Trace step ok t as u → Trace step ok s (a :: as) u

/-- The labels of some actions, where they have one. -/
def labels (step : σ → α → Option σ) (label : σ → α → Option β) : σ → List α → List β
  | _, [] => []
  | s, a :: as => (label s a).toList ++ (step s a).elim [] fun t => labels step label t as

theorem labels_cons {step : σ → α → Option σ} {label : σ → α → Option β} {s t : σ} {a : α} (as : List α)
    (h : step s a = some t) : labels step label s (a :: as) = (label s a).toList ++ labels step label t as := by
  rw [labels, h]
  rfl

namespace Trace

variable {step : σ → α → Option σ} {ok : σ → α → Prop} {label : σ → α → Option β} {s t : σ} {as : List α}

theorem run (h : Trace step ok s as t) : Run step ok s t := by
  induction h with
  | nil => exact .refl
  | cons ho ht _ ih => exact (Run.refl.snoc ho ht).trans ih

/-- Each step may be allowed by less. -/
theorem mono {ok' : σ → α → Prop} (hok : ∀ s a, ok s a → ok' s a) (h : Trace step ok s as t) :
    Trace step ok' s as t := by
  induction h with
  | nil => exact .nil
  | cons ho ht _ ih => exact .cons (hok _ _ ho) ht ih

theorem trans {u : σ} {bs : List α} (h : Trace step ok s as t) (h' : Trace step ok t bs u) :
    Trace step ok s (as ++ bs) u := by
  induction h with
  | nil => exact h'
  | cons ho ht _ ih => exact .cons ho ht (ih h')

theorem of_exec [∀ s a, Decidable (ok s a)] (as : List α) (h : exec step ok s as = some t) : Trace step ok s as t := by
  induction as generalizing s with
  | nil => cases h; exact .nil
  | cons a as ih =>
    simp only [exec, Option.ite_none_right_eq_some] at h
    obtain ⟨ho, h⟩ := h
    obtain ⟨u, hu, h⟩ := Option.bind_eq_some_iff.mp h
    exact .cons ho hu (ih h)

/-- A trace of a system is, seen through `abs`, the trace of its labels: each step is the step of that system that its
label names, or leaves the abstract state as it is and has none. -/
theorem simulate {step' : τ → β → Option τ} {ok' : τ → β → Prop} {I : σ → Prop} (abs : σ → τ)
    (hI : ∀ {s t a}, I s → ok s a → step s a = some t → I t)
    (hsim : ∀ {s t a}, I s → ok s a → step s a = some t →
      label s a = none ∧ abs t = abs s ∨
        ∃ b, label s a = some b ∧ ok' (abs s) b ∧ step' (abs s) b = some (abs t))
    (h : Trace step ok s as t) (hs : I s) :
    I t ∧ Trace step' ok' (abs s) (labels step label s as) (abs t) := by
  induction h with
  | nil => exact ⟨hs, .nil⟩
  | @cons s t u a as ho ht _ ih =>
    obtain ⟨hu, htrace⟩ := ih (hI hs ho ht)
    refine ⟨hu, ?_⟩
    rw [labels_cons as ht]
    obtain ⟨hlabel, heq⟩ | ⟨b, hlabel, hb, heq⟩ := hsim hs ho ht
    · rw [hlabel, ← heq]
      exact htrace
    · rw [hlabel]
      exact .cons hb heq htrace

/-- If each step makes up for an action by its label or puts it off, the labels of a trace and what is put off in the
end make up for its actions. -/
theorem count_labels [BEq α] [BEq β] {I : σ → Prop} (a₀ : α) (b₀ : β) (pending : σ → Nat)
    (hI : ∀ {s t a}, I s → ok s a → step s a = some t → I t)
    (hstep : ∀ {s t a}, I s → ok s a → step s a = some t →
      (label s a).toList.count b₀ + pending t = [a].count a₀ + pending s)
    (h : Trace step ok s as t) (hs : I s) :
    (labels step label s as).count b₀ + pending t = as.count a₀ + pending s := by
  induction h with
  | nil => simp [labels]
  | @cons s t u a as ho ht _ ih =>
    have hlater := ih (hI hs ho ht)
    have hnow := hstep hs ho ht
    rw [labels_cons as ht, List.count_append, List.count_cons]
    rw [List.count_singleton] at hnow
    omega

end Trace

end Metor.Lib
