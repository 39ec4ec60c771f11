import Mathlib.Data.Nat.Basic

/-!
# Loops that leave with a result

A round of a loop goes on with a new state or leaves with a result. The loop runs on fuel; a variant
that every round decreases says how much is enough.
-/

namespace Infra

/-- Rounds until one of them leaves with a result. -/
def runLoop {σ ρ : Type*} (round : σ → σ ⊕ ρ) : ℕ → σ → Option ρ
  | 0, _ => none
  | fuel + 1, s =>
    match round s with
    | .inl s' => runLoop round fuel s'
    | .inr r => some r

section

variable {σ ρ : Type*} {round : σ → σ ⊕ ρ} {I : σ → Prop} {P : ρ → Prop} {fuel : ℕ} {s : σ} {r : ρ}

theorem runLoop_next {s' : σ} (h : round s = .inl s') :
    runLoop round (fuel + 1) s = runLoop round fuel s' := by
  rw [runLoop, h]

theorem runLoop_leave (h : round s = .inr r) : runLoop round (fuel + 1) s = some r := by
  rw [runLoop, h]

/-- More fuel gives the same result. -/
theorem runLoop_more (h : runLoop round fuel s = some r) {more : ℕ} (hmore : fuel ≤ more) :
    runLoop round more s = some r := by
  induction fuel generalizing s more with
  | zero => exact absurd h (by simp [runLoop])
  | succ fuel ih =>
    obtain ⟨more, rfl⟩ : ∃ n, more = n + 1 := ⟨more - 1, by omega⟩
    cases hround : round s with
    | inl s' =>
      rw [runLoop_next hround] at h ⊢
      exact ih h (by omega)
    | inr r' =>
      rw [runLoop_leave hround] at h ⊢
      exact h

/-- A loop whose rounds keep an invariant leaves as the last round has it. -/
theorem runLoop_result (hnext : ∀ s s', I s → round s = .inl s' → I s')
    (hleave : ∀ s r, I s → round s = .inr r → P r) (hs : I s)
    (h : runLoop round fuel s = some r) : P r := by
  induction fuel generalizing s with
  | zero => exact absurd h (by simp [runLoop])
  | succ fuel ih =>
    cases hround : round s with
    | inl s' =>
      rw [runLoop_next hround] at h
      exact ih (hnext s s' hs hround) h
    | inr r' =>
      rw [runLoop_leave hround] at h
      cases h
      exact hleave s r hs hround

/-- A loop whose rounds keep an invariant and decrease a variant leaves with a result, and the result
is as the last round has it. -/
theorem runLoop_ends (variant : σ → ℕ)
    (hnext : ∀ s s', I s → round s = .inl s' → I s' ∧ variant s' < variant s)
    (hleave : ∀ s r, I s → round s = .inr r → P r) (hs : I s) :
    ∃ fuel ≤ variant s + 1, ∃ r, runLoop round fuel s = some r ∧ P r := by
  induction hn : variant s using Nat.strong_induction_on generalizing s with
  | _ n ih =>
    cases hround : round s with
    | inl s' =>
      obtain ⟨hs', hless⟩ := hnext s s' hs hround
      obtain ⟨fuel, hfuel, r, hrun, hr⟩ := ih (variant s') (by omega) hs' rfl
      exact ⟨fuel + 1, by omega, r, by rw [runLoop_next hround]; exact hrun, hr⟩
    | inr r => exact ⟨1, by omega, r, runLoop_leave hround, hleave s r hs hround⟩

end

end Infra
