import Mathlib.Data.List.Induction

/-!
# Runs under a condition

A condition on the steps of a run, each in the state that it finds, and the invariants that such
steps keep. An invariant may speak of what has happened in the run so far.
-/

namespace Infra

variable {σ α : Type*} {step : σ → α → σ} {G : σ → α → Prop}

/-- Every step of the run meets the condition. -/
def Along (step : σ → α → σ) (G : σ → α → Prop) : σ → List α → Prop
  | _, [] => True
  | s, a :: rest => G s a ∧ Along step G (step s a) rest

instance Along.decidable [∀ s a, Decidable (G s a)] : ∀ (run : List α) (s : σ),
    Decidable (Along step G s run)
  | [], _ => isTrue trivial
  | a :: rest, s =>
    have := Along.decidable rest (step s a)
    inferInstanceAs (Decidable (G s a ∧ Along step G (step s a) rest))

theorem Along.append_left {first rest : List α} {s : σ} (h : Along step G s (first ++ rest)) :
    Along step G s first := by
  induction first generalizing s with
  | nil => trivial
  | cons a first ih => exact ⟨h.1, ih h.2⟩

theorem Along.append_right {first rest : List α} {s : σ} (h : Along step G s (first ++ rest)) :
    Along step G (first.foldl step s) rest := by
  induction first generalizing s with
  | nil => exact h
  | cons a first ih => exact ih h.2

theorem Along.invariant {I : σ → Prop} (hstep : ∀ s a, I s → G s a → I (step s a))
    {run : List α} : ∀ {s : σ}, Along step G s run → I s → I (run.foldl step s) := by
  induction run with
  | nil => exact fun _ hs => hs
  | cons a rest ih => exact fun h hs => ih h.2 (hstep _ a hs h.1)

/-- Where the condition is exactly what keeps `P`, the runs that keep `P` all along are those whose
steps meet it. -/
theorem Along.invariant_iff {I P : σ → Prop} (hI : ∀ s a, I s → I (step s a))
    (hstep : ∀ s a, I s → P s → (P (step s a) ↔ G s a)) (run : List α) {s : σ} (hi : I s)
    (hs : P s) :
    (∀ first rest, run = first ++ rest → P (first.foldl step s)) ↔ Along step G s run := by
  induction run generalizing s with
  | nil =>
    refine iff_of_true (fun first rest hrun => ?_) trivial
    rw [(List.append_eq_nil_iff.mp hrun.symm).1]
    exact hs
  | cons a run ih =>
    constructor
    · intro h
      have hnext : P (step s a) := h [a] run rfl
      refine ⟨(hstep s a hi hs).mp hnext, (ih (hI s a hi) hnext).mp fun first rest hrun => ?_⟩
      exact h (a :: first) rest (by rw [hrun]; rfl)
    · rintro ⟨ha, hrest⟩ first rest hrun
      have hnext : P (step s a) := (hstep s a hi hs).mpr ha
      cases first with
      | nil => exact hs
      | cons b first =>
        obtain ⟨rfl, htail⟩ := List.cons.inj hrun
        exact (ih (hI s a hi) hnext).mpr hrest first rest htail

/-! ## The past -/

/-- A step of the run, in the state that it found, was as `P` says. -/
def Happened (step : σ → α → σ) (P : σ → α → Prop) (s : σ) (run : List α) : Prop :=
  ∃ before a after, run = before ++ a :: after ∧ P (before.foldl step s) a

theorem Happened.append {P : σ → α → Prop} {s : σ} {run : List α} (h : Happened step P s run)
    (later : List α) : Happened step P s (run ++ later) := by
  obtain ⟨before, a, after, rfl, ha⟩ := h
  exact ⟨before, a, after ++ later, by simp, ha⟩

theorem Happened.last {P : σ → α → Prop} {s : σ} {run : List α} {a : α} (h : P (run.foldl step s) a) :
    Happened step P s (run ++ [a]) :=
  ⟨run, a, [], rfl, h⟩

/-- An invariant of the state and of the run that has led to it. -/
theorem history_invariant {I : List α → σ → Prop} {s : σ} (hs : I [] s)
    (hstep : ∀ run a, I run (run.foldl step s) → I (run ++ [a]) (step (run.foldl step s) a))
    (run : List α) : I run (run.foldl step s) := by
  induction run using List.reverseRecOn with
  | nil => exact hs
  | append_singleton run a ih =>
    rw [List.foldl_append]
    exact hstep run a ih

end Infra
