import Mathlib.Data.List.Nodup

/-!
# Identifiers drawn from a counter

The identifiers of a structure are distinct and lie below a counter. Whoever adds to the structure takes
the counter's value and raises it. What holds of a part that was edited so then holds of the whole.
-/

namespace Infra

/-- The identifiers in use, with the next one that may be drawn. -/
structure InUse (ids : List ℕ) (next : ℕ) : Prop where
  nodup : ids.Nodup
  lt : ∀ n ∈ ids, n < next

/-- An edit that raised the counter from `next` to `last`. -/
structure Drawn (old new : List ℕ) (next last : ℕ) : Prop where
  le : next ≤ last
  mem : ∀ n ∈ new, n ∈ old ∨ next ≤ n ∧ n < last
  nodup : new.Nodup

theorem Drawn.inUse {old new : List ℕ} {next last : ℕ} (h : Drawn old new next last)
    (hold : InUse old next) : InUse new last where
  nodup := h.nodup
  lt := by
    intro n hn
    rcases h.mem n hn with hmem | ⟨_, hlt⟩
    · exact Nat.lt_of_lt_of_le (hold.lt n hmem) h.le
    · exact hlt

namespace InUse

theorem sublist {ids part : List ℕ} {next : ℕ} (h : InUse ids next) (hpart : part.Sublist ids) :
    InUse part next :=
  ⟨h.nodup.sublist hpart, fun n hn => h.lt n (hpart.subset hn)⟩

/-- Nothing is drawn where identifiers only go. -/
theorem drawn_of_sublist {old new : List ℕ} {next : ℕ} (h : InUse old next)
    (hsub : new.Sublist old) : Drawn old new next next :=
  ⟨Nat.le_refl next, fun _ hn => Or.inl (hsub.subset hn), (h.sublist hsub).nodup⟩

/-- The next identifier is put somewhere among the old ones. -/
theorem drawn_of_perm {old new : List ℕ} {next : ℕ} (h : InUse old next)
    (hperm : new.Perm (next :: old)) : Drawn old new next (next + 1) where
  le := Nat.le_succ next
  mem := by
    intro n hn
    rcases List.mem_cons.mp (hperm.mem_iff.mp hn) with rfl | hold
    · exact Or.inr ⟨Nat.le_refl n, Nat.lt_succ_self n⟩
    · exact Or.inl hold
  nodup := hperm.nodup_iff.mpr
    (List.nodup_cons.mpr ⟨fun hmem => Nat.lt_irrefl next (h.lt next hmem), h.nodup⟩)

/-- A part of the structure is edited: the one block that is chosen, among blocks and other identifiers. -/
theorem drawn_block {α : Type} {f : α → List ℕ} {chosen : α → Prop} [DecidablePred chosen]
    {own : List ℕ} {blocks : List α} {block edited : α} {next last : ℕ}
    (h : InUse (own ++ blocks.flatMap f) next) (hblock : block ∈ blocks)
    (hchosen : ∀ x ∈ blocks, chosen x → x = block)
    (honce : blocks.Pairwise fun x y => ¬(chosen x ∧ chosen y))
    (hedited : Drawn (f block) (f edited) next last) :
    Drawn (own ++ blocks.flatMap f)
      (own ++ (blocks.map fun x => if chosen x then edited else x).flatMap f) next last := by
  obtain ⟨hown, hflat, hapart⟩ := List.nodup_append.mp h.nodup
  obtain ⟨heach, hpairs⟩ := List.nodup_flatMap.mp hflat
  have hin : ∀ x ∈ blocks, ∀ n ∈ f x, n ∈ blocks.flatMap f := fun x hx n hn =>
    List.mem_flatMap.mpr ⟨x, hx, hn⟩
  have hlt : ∀ x ∈ blocks, ∀ n ∈ f x, n < next := fun x hx n hn =>
    h.lt n (List.mem_append_right _ (hin x hx n hn))
  -- an identifier of the edited block is none of another block
  have hother : ∀ x ∈ blocks, (f block).Disjoint (f x) → (f edited).Disjoint (f x) := by
    intro x hx hdisjoint n hn hnx
    rcases hedited.mem n hn with hold | ⟨hle, _⟩
    · exact hdisjoint hold hnx
    · exact Nat.not_lt.mpr hle (hlt x hx n hnx)
  have hmem : ∀ n ∈ (blocks.map fun x => if chosen x then edited else x).flatMap f,
      n ∈ blocks.flatMap f ∨ next ≤ n ∧ n < last := by
    intro n hn
    obtain ⟨y, hy, hny⟩ := List.mem_flatMap.mp hn
    obtain ⟨x, hx, rfl⟩ := List.mem_map.mp hy
    split at hny
    · exact (hedited.mem n hny).imp_left (hin block hblock n)
    · exact Or.inl (hin x hx n hny)
  refine ⟨hedited.le, fun n hn => ?_, List.nodup_append.mpr ⟨hown, List.nodup_flatMap.mpr ⟨?_, ?_⟩, ?_⟩⟩
  · rcases List.mem_append.mp hn with hn | hn
    · exact Or.inl (List.mem_append_left _ hn)
    · exact (hmem n hn).imp_left (List.mem_append_right _)
  · intro y hy
    obtain ⟨x, hx, rfl⟩ := List.mem_map.mp hy
    split
    · exact hedited.nodup
    · exact heach x hx
  · refine List.pairwise_map.mpr ((hpairs.and honce).imp_of_mem fun {x y} hx hy hxy => ?_)
    have hdisjoint : (f x).Disjoint (f y) := hxy.1
    have hnot : ¬(chosen x ∧ chosen y) := hxy.2
    show (f (if chosen x then edited else x)).Disjoint (f (if chosen y then edited else y))
    by_cases hcx : chosen x
    · rw [if_pos hcx, if_neg fun hcy => hnot ⟨hcx, hcy⟩]
      exact hother y hy (hchosen x hx hcx ▸ hdisjoint)
    · rw [if_neg hcx]
      by_cases hcy : chosen y
      · rw [if_pos hcy]
        exact List.disjoint_symm (hother x hx (hchosen y hy hcy ▸ List.disjoint_symm hdisjoint))
      · rw [if_neg hcy]
        exact hdisjoint
  · rintro n hn m hm rfl
    rcases hmem n hm with hold | ⟨hle, _⟩
    · exact hapart n hn n hold rfl
    · exact Nat.not_lt.mpr hle (h.lt n (List.mem_append_left _ hn))

end InUse

end Infra
