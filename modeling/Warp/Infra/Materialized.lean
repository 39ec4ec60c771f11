import Mathlib.Data.Set.Basic
import Mathlib.Order.Basic

/-!
# Materialized answers

An answer that depends on the time is computed for each key and stored. A key has wake-up times, at
which it must be looked at again. Until then the stored answer has to stay the one that a new
computation would give.
-/

namespace Infra

/-- What a computation answers for a key at a time, what is stored, and when to look again. -/
structure Materialized (κ τ α : Type*) where
  answer : κ → τ → Option α
  stored : κ → α
  wakeups : κ → Set τ

namespace Materialized

variable {κ τ α : Type*} [LinearOrder τ] {m m' : Materialized κ τ α} {k : κ} {now now' : τ}

/-- No wake-up of the key has come. -/
def Quiet (m : Materialized κ τ α) (k : κ) (t : τ) : Prop := ∀ s ∈ m.wakeups k, t < s

/-- From a time on, the stored answer is right whenever no wake-up of the key has come. -/
def CurrentFrom (m : Materialized κ τ α) (now : τ) (k : κ) : Prop :=
  ∀ t, now ≤ t → m.Quiet k t → m.answer k t = some (m.stored k)

/-- From a time on, the answer changes at wake-ups of the key only. -/
def Covered (m : Materialized κ τ α) (now : τ) (k : κ) : Prop :=
  ∀ t, now ≤ t → m.Quiet k t → m.answer k t = m.answer k now

theorem CurrentFrom.later (h : m.CurrentFrom now k) (hle : now ≤ now') : m.CurrentFrom now' k :=
  fun t ht => h t (hle.trans ht)

/-- A key that was looked at is current until its next wake-up. -/
theorem Covered.refreshed (h : m.Covered now k) (hnow : m.answer k now = some (m.stored k)) :
    m.CurrentFrom now k :=
  fun t ht hquiet => (h t ht hquiet).trans hnow

/-- A key whose answers and whose stored answer stay is current still, unless it lost a wake-up. -/
theorem CurrentFrom.undisturbed (h : m.CurrentFrom now k)
    (hanswer : ∀ t, m'.answer k t = m.answer k t) (hstored : m'.stored k = m.stored k)
    (hwakeups : m.wakeups k ⊆ m'.wakeups k) : m'.CurrentFrom now k := by
  intro t ht hquiet
  rw [hanswer, hstored]
  exact h t ht fun s hs => hquiet s (hwakeups hs)

end Materialized

end Infra
