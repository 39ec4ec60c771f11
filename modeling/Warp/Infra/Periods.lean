import Mathlib.Data.List.Pairwise
import Mathlib.Order.Lattice

/-!
# Periods

Rows that are valid from a start until a stop, the stop excluded. A row without a stop is open.
-/

namespace Infra

class Period (ρ : Type*) (τ : outParam Type*) where
  start : ρ → τ
  stop : ρ → Option τ

variable {ρ τ : Type*} [Period ρ τ] [LinearOrder τ]

def ValidAt (r : ρ) (t : τ) : Prop :=
  Period.start r ≤ t ∧ ∀ u, Period.stop r = some u → t < u

/-- An instant at which both rows are valid. -/
def Overlap (r s : ρ) : Prop := ∃ t, ValidAt r t ∧ ValidAt s t

theorem Overlap.symm {r s : ρ} : Overlap r s → Overlap s r := fun ⟨t, hr, hs⟩ => ⟨t, hs, hr⟩

/-- A row that stops before another one starts does not overlap it. -/
theorem not_overlap_of_stop_le {r s : ρ} {u : τ} (hu : Period.stop r = some u)
    (h : u ≤ Period.start s) : ¬ Overlap r s := by
  rintro ⟨t, hr, hs⟩
  exact absurd (hr.2 u hu) (not_lt.mpr (le_trans h hs.1))

/-- Rows that are valid at fewer instants overlap less. -/
theorem Overlap.mono {r r' s s' : ρ} (hr : ∀ t, ValidAt r' t → ValidAt r t)
    (hs : ∀ t, ValidAt s' t → ValidAt s t) : Overlap r' s' → Overlap r s :=
  fun ⟨t, h, h'⟩ => ⟨t, hr t h, hs t h'⟩

/-- Rows that exclude each other are never valid at the same time. -/
def Timeline (excludes : ρ → ρ → Prop) (rows : List ρ) : Prop :=
  rows.Pairwise fun r s => excludes r s → ¬ Overlap r s

theorem Timeline.forall {excludes : ρ → ρ → Prop} (hsymm : ∀ r s, excludes r s → excludes s r)
    {rows : List ρ} (h : Timeline excludes rows) {r s : ρ} (hr : r ∈ rows) (hs : s ∈ rows)
    (hne : r ≠ s) (he : excludes r s) : ¬ Overlap r s := by
  have : Std.Symm (fun r s : ρ => excludes r s → ¬ Overlap r s) :=
    ⟨fun r s hrs hsr ho => hrs (hsymm s r hsr) ho.symm⟩
  exact List.Pairwise.forall h hr hs hne he

end Infra
