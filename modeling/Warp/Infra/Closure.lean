import Mathlib.Data.Finset.Card
import Mathlib.Data.Finset.Union
import Mathlib.Logic.Relation

/-!
# Transitive closures over finite sets

The recursive query of a database: start with some rows, join the result with the table again and
again, and keep each row once. It ends on cyclic data as well.
-/

namespace Infra

variable {α : Type*}

/-- `n` rounds of a recursive `UNION` query. -/
def closureFrom [DecidableEq α] (next : α → Finset α) : ℕ → Finset α → Finset α
  | 0, S => S
  | n + 1, S => closureFrom next n (S ∪ S.biUnion next)

/-- `b` is one of the successors of `a`. -/
def Succ (next : α → Finset α) (a b : α) : Prop := b ∈ next a

/-- Some seed reaches the element. -/
def ReachedFrom (next : α → Finset α) (S : Finset α) (b : α) : Prop :=
  ∃ a ∈ S, Relation.ReflTransGen (Succ next) a b

section

variable [DecidableEq α] {next : α → Finset α} {S U : Finset α}

theorem subset_closureFrom {n : ℕ} {S : Finset α} : S ⊆ closureFrom next n S := by
  induction n generalizing S with
  | zero => exact subset_rfl
  | succ n ih =>
    have h : S ∪ S.biUnion next ⊆ closureFrom next n (S ∪ S.biUnion next) := ih
    exact Finset.union_subset_left h

theorem reached_of_mem_closureFrom {n : ℕ} {S : Finset α} {b : α}
    (h : b ∈ closureFrom next n S) : ReachedFrom next S b := by
  induction n generalizing S with
  | zero => exact ⟨b, h, Relation.ReflTransGen.refl⟩
  | succ n ih =>
    obtain ⟨a, ha, hab⟩ := ih h
    rcases Finset.mem_union.mp ha with ha | ha
    · exact ⟨a, ha, hab⟩
    · obtain ⟨c, hc, hca⟩ := Finset.mem_biUnion.mp ha
      exact ⟨c, hc, Relation.ReflTransGen.head hca hab⟩

/-- A set that contains its successors is not changed by further rounds. -/
theorem closureFrom_of_closed (h : S.biUnion next ⊆ S) (n : ℕ) : closureFrom next n S = S := by
  induction n with
  | zero => rfl
  | succ n ih =>
    rw [closureFrom, Finset.union_eq_left.mpr h]
    exact ih

theorem reached_mem_of_closed {T : Finset α} (hST : S ⊆ T) (hT : T.biUnion next ⊆ T) {b : α}
    (h : ReachedFrom next S b) : b ∈ T := by
  obtain ⟨a, ha, hab⟩ := h
  induction hab with
  | refl => exact hST ha
  | tail _ hbc ih => exact hT (Finset.mem_biUnion.mpr ⟨_, ih, hbc⟩)

/-- With as many rounds as there are elements the result is closed. -/
theorem closureFrom_closed (hU : ∀ a, next a ⊆ U) {n : ℕ} {S : Finset α} (hS : S ⊆ U)
    (hn : U.card ≤ S.card + n) :
    (closureFrom next n S).biUnion next ⊆ closureFrom next n S := by
  induction n generalizing S with
  | zero =>
    have he : S = U := Finset.eq_of_subset_of_card_le hS (by simpa using hn)
    intro b hb
    obtain ⟨a, _, hab⟩ := Finset.mem_biUnion.mp hb
    rw [closureFrom, he]
    exact hU a hab
  | succ n ih =>
    by_cases hc : S.biUnion next ⊆ S
    · rw [closureFrom_of_closed hc]
      exact hc
    · have hsub : S ∪ S.biUnion next ⊆ U := by
        refine Finset.union_subset hS fun b hb => ?_
        obtain ⟨a, _, hab⟩ := Finset.mem_biUnion.mp hb
        exact hU a hab
      have hlt : S.card < (S ∪ S.biUnion next).card := by
        refine Finset.card_lt_card ⟨Finset.subset_union_left, fun h => hc ?_⟩
        exact Finset.union_subset_right h
      rw [closureFrom]
      exact ih hsub (by omega)

theorem mem_closureFrom (hU : ∀ a, next a ⊆ U) {n : ℕ} (hS : S ⊆ U) (hn : U.card ≤ n) {b : α} :
    b ∈ closureFrom next n S ↔ ReachedFrom next S b := by
  constructor
  · exact reached_of_mem_closureFrom
  · refine reached_mem_of_closed subset_closureFrom (closureFrom_closed hU hS ?_)
    omega

end

/-- Starting from the successors of an element, one reaches what lies at least one step away. -/
theorem reachedFrom_next {next : α → Finset α} {a b : α} :
    ReachedFrom next (next a) b ↔ Relation.TransGen (Succ next) a b := by
  rw [Relation.TransGen.head'_iff]
  rfl

/-! ## Changing the relation -/

/-- Elements are reached in the same way when the two relations agree on what is reached. -/
theorem reached_congr {next next' : α → Finset α} {S : Finset α}
    (h : ∀ a, ReachedFrom next S a → next a = next' a) {b : α} (hb : ReachedFrom next S b) :
    ReachedFrom next' S b := by
  obtain ⟨a, ha, hab⟩ := hb
  induction hab with
  | refl => exact ⟨a, ha, Relation.ReflTransGen.refl⟩
  | tail hac hcd ih =>
    obtain ⟨s, hs, hsc⟩ := ih
    refine ⟨s, hs, hsc.tail ?_⟩
    rw [Succ, ← h _ ⟨a, ha, hac⟩]
    exact hcd

theorem reached_iff_of_agree {next next' : α → Finset α} {S : Finset α}
    (h : ∀ a, ReachedFrom next S a → next a = next' a) {b : α} :
    ReachedFrom next S b ↔ ReachedFrom next' S b := by
  refine ⟨reached_congr h, ?_⟩
  -- along a path of the second relation, every element is reached by the first
  rintro ⟨a, ha, hab⟩
  induction hab with
  | refl => exact ⟨a, ha, Relation.ReflTransGen.refl⟩
  | tail _ hcd ih =>
    obtain ⟨s, hs, hsc⟩ := ih
    refine ⟨s, hs, hsc.tail ?_⟩
    rw [Succ, h _ ⟨s, hs, hsc⟩]
    exact hcd

end Infra
