import Mathlib.Logic.Relation

/-!
# Acyclic relations

What becomes of the cycles of a relation when the edges out of one element are replaced.
-/

namespace Infra

variable {α : Type*} {R R' : α → α → Prop} {x m : α}

def Acyclic (R : α → α → Prop) : Prop := ∀ a, ¬Relation.TransGen R a a

theorem Acyclic.mono (h : Acyclic R) (hsub : ∀ a b, R' a b → R a b) : Acyclic R' :=
  fun a ha => h a (Relation.TransGen.mono hsub _ _ ha)

/-- A path over one additional edge goes without it, or up to it and on from its end. -/
theorem transGen_or_edge (hsub : ∀ a b, R' a b → R a b ∨ (a = x ∧ b = m)) {a b : α}
    (h : Relation.TransGen R' a b) :
    Relation.TransGen R a b ∨ (Relation.ReflTransGen R a x ∧ Relation.ReflTransGen R m b) := by
  induction h with
  | single hab =>
    rcases hsub _ _ hab with hab | ⟨rfl, rfl⟩
    · exact Or.inl (.single hab)
    · exact Or.inr ⟨.refl, .refl⟩
  | tail _ hbc ih =>
    rcases hsub _ _ hbc with hbc | ⟨rfl, rfl⟩
    · rcases ih with ih | ⟨hax, hmb⟩
      · exact Or.inl (ih.tail hbc)
      · exact Or.inr ⟨hax, hmb.tail hbc⟩
    · rcases ih with ih | ⟨hax, _⟩
      · exact Or.inr ⟨ih.to_reflTransGen, .refl⟩
      · exact Or.inr ⟨hax, .refl⟩

/-- An edge closes a cycle only where its end already leads to its start. -/
theorem Acyclic.of_edge (h : Acyclic R) (hsub : ∀ a b, R' a b → R a b ∨ (a = x ∧ b = m))
    (hback : ¬Relation.ReflTransGen R m x) : Acyclic R' := by
  intro a ha
  rcases transGen_or_edge hsub ha with ha | ⟨hax, hma⟩
  · exact h a ha
  · exact hback (hma.trans hax)

/-- A path to `x` does not need the edges out of `x`. -/
theorem reflTransGen_to (hkeep : ∀ a b, a ≠ x → R a b → R' a b) {a : α}
    (h : Relation.ReflTransGen R a x) : Relation.ReflTransGen R' a x := by
  induction h using Relation.ReflTransGen.head_induction_on with
  | refl => exact .refl
  | @head a b hab _ ih =>
    by_cases ha : a = x
    · rw [ha]
    · exact .head (hkeep a b ha hab) ih

/-- Replacing the edges out of `x` by one edge to `m` makes no cycle exactly when nothing leads from
`m` to `x`. -/
theorem Acyclic.redirect_iff (h : Acyclic R) (hkeep : ∀ a b, a ≠ x → (R' a b ↔ R a b))
    (hx : ∀ b, R' x b ↔ b = m) : Acyclic R' ↔ m ≠ x ∧ ¬Relation.TransGen R m x := by
  constructor
  · intro h'
    refine ⟨fun hm => h' x (.single ((hx x).mpr hm.symm)), fun hmx => ?_⟩
    have hback : Relation.ReflTransGen R' m x :=
      reflTransGen_to (fun a b ha hab => (hkeep a b ha).mpr hab) hmx.to_reflTransGen
    exact h' x (.head' ((hx m).mpr rfl) hback)
  · rintro ⟨hne, hmx⟩
    refine h.of_edge (x := x) (m := m) (fun a b hab => ?_) fun hback => ?_
    · by_cases ha : a = x
      · rw [ha] at hab
        exact Or.inr ⟨ha, (hx b).mp hab⟩
      · exact Or.inl ((hkeep a b ha).mp hab)
    · rcases Relation.reflTransGen_iff_eq_or_transGen.mp hback with he | hback
      · exact hne he.symm
      · exact hmx hback

end Infra
