import Warp.Infra.Dict

/-!
# Synchronising rows with desired entries

The rows are matched by key against a dictionary of desired entries. A row that finds its key takes
the entry out and stays. The other rows end, and the entries that are left over become new rows.
-/

namespace Infra

structure KeyedSync (ρ κ δ : Type*) where
  kept : List ρ
  ended : List ρ
  leftover : Dict κ δ

variable {ρ κ δ : Type*} [DecidableEq κ]

def syncRows (key : ρ → κ) : List ρ → Dict κ δ → KeyedSync ρ κ δ
  | [], desired => ⟨[], [], desired⟩
  | r :: rows, desired =>
    if key r ∈ desired.keys then
      let rest := syncRows key rows (desired.erase (key r))
      { rest with kept := r :: rest.kept }
    else
      let rest := syncRows key rows desired
      { rest with ended := r :: rest.ended }

section

variable {key : ρ → κ} {r : ρ} {rows : List ρ} {desired : Dict κ δ}

@[simp] theorem syncRows_nil : syncRows key [] desired = ⟨[], [], desired⟩ := rfl

theorem syncRows_found (h : key r ∈ desired.keys) : syncRows key (r :: rows) desired =
    { syncRows key rows (desired.erase (key r)) with
      kept := r :: (syncRows key rows (desired.erase (key r))).kept } := if_pos h

theorem syncRows_missing (h : key r ∉ desired.keys) : syncRows key (r :: rows) desired =
    { syncRows key rows desired with ended := r :: (syncRows key rows desired).ended } := if_neg h

/-- Every row is kept or ended. -/
theorem syncRows_perm :
    ((syncRows key rows desired).kept ++ (syncRows key rows desired).ended).Perm rows := by
  induction rows generalizing desired with
  | nil => exact List.Perm.nil
  | cons r rows ih =>
    by_cases h : key r ∈ desired.keys
    · rw [syncRows_found h]
      exact List.Perm.cons r ih
    · rw [syncRows_missing h]
      exact List.perm_middle.trans (List.Perm.cons r ih)

theorem mem_syncRows :
    r ∈ rows ↔ r ∈ (syncRows key rows desired).kept ∨ r ∈ (syncRows key rows desired).ended := by
  rw [← List.mem_append]
  exact syncRows_perm.mem_iff.symm

theorem ended_sublist :
    (syncRows key rows desired).ended.Sublist rows := by
  induction rows generalizing desired with
  | nil => exact List.Sublist.slnil
  | cons r rows ih =>
    by_cases h : key r ∈ desired.keys
    · rw [syncRows_found h]
      exact List.Sublist.cons r ih
    · rw [syncRows_missing h]
      exact List.Sublist.cons_cons r ih

/-- The keys of the rows that stay and of the entries left over are the desired keys. -/
theorem syncRows_keys :
    ((syncRows key rows desired).kept.map key ++ (syncRows key rows desired).leftover.keys).Perm
      desired.keys := by
  induction rows generalizing desired with
  | nil => simp
  | cons r rows ih =>
    by_cases h : key r ∈ desired.keys
    · rw [syncRows_found h]
      exact (List.Perm.cons (key r) ih).trans (Dict.perm_cons_erase h)
    · rw [syncRows_missing h]
      exact ih

/-- The entries left over are those whose key no row has. -/
theorem leftover_entries : (syncRows key rows desired).leftover.entries =
    desired.entries.filter fun p => p.1 ∉ rows.map key := by
  induction rows generalizing desired with
  | nil => simp
  | cons r rows ih =>
    by_cases h : key r ∈ desired.keys
    · rw [syncRows_found h, ih, Dict.erase, List.filter_filter]
      refine List.filter_congr fun p _ => ?_
      simp only [List.map_cons, List.mem_cons, not_or, Bool.decide_and]
      exact Bool.and_comm _ _
    · rw [syncRows_missing h, ih]
      refine List.filter_congr fun p hp => decide_eq_decide.mpr ?_
      have hne : p.1 ≠ key r := by
        intro he
        exact h (he ▸ List.mem_map_of_mem hp)
      simp [hne]

theorem mem_leftover {p : κ × δ} : p ∈ (syncRows key rows desired).leftover.entries ↔
    p ∈ desired.entries ∧ ∀ r ∈ rows, key r ≠ p.1 := by
  rw [leftover_entries]
  simp

theorem leftover_subset {p : κ × δ} (hp : p ∈ (syncRows key rows desired).leftover.entries) :
    p ∈ desired.entries := (mem_leftover.mp hp).1

/-- With distinct keys, exactly the rows with a key that is not desired end. -/
theorem mem_ended_of_nodup (hn : (rows.map key).Nodup) :
    r ∈ (syncRows key rows desired).ended ↔ r ∈ rows ∧ key r ∉ desired.keys := by
  induction rows generalizing desired with
  | nil => simp
  | cons q rows ih =>
    obtain ⟨hq, hrows⟩ := List.nodup_cons.mp hn
    by_cases h : key q ∈ desired.keys
    · rw [syncRows_found h, ih hrows, Dict.mem_keys_erase, List.mem_cons]
      constructor
      · rintro ⟨hr, hk⟩
        have hne : key r ≠ key q := fun he => hq (he ▸ List.mem_map_of_mem hr)
        exact ⟨Or.inr hr, fun hd => hk ⟨hd, hne⟩⟩
      · rintro ⟨rfl | hr, hk⟩
        · exact absurd h hk
        · exact ⟨hr, fun hd => hk hd.1⟩
    · rw [syncRows_missing h, List.mem_cons, ih hrows, List.mem_cons]
      constructor
      · rintro (rfl | ⟨hr, hk⟩)
        · exact ⟨Or.inl rfl, h⟩
        · exact ⟨Or.inr hr, hk⟩
      · rintro ⟨rfl | hr, hk⟩
        · exact Or.inl rfl
        · exact Or.inr ⟨hr, hk⟩

/-- Rows with exactly the desired keys stay, and no entry is left over. -/
theorem syncRows_settled (h : (rows.map key).Perm desired.keys) :
    (syncRows key rows desired).ended = [] ∧ (syncRows key rows desired).leftover.values = [] := by
  have hn : (rows.map key).Nodup := h.nodup_iff.mpr desired.keys_nodup
  constructor
  · refine List.eq_nil_iff_forall_not_mem.mpr fun r hr => ?_
    obtain ⟨hrow, hkey⟩ := (mem_ended_of_nodup hn).mp hr
    exact hkey (h.mem_iff.mp (List.mem_map_of_mem hrow))
  · refine List.eq_nil_iff_forall_not_mem.mpr fun a ha => ?_
    obtain ⟨k, hp⟩ := Dict.mem_values.mp ha
    obtain ⟨hdesired, hnone⟩ := mem_leftover.mp hp
    obtain ⟨r, hr, hk⟩ := List.mem_map.mp (h.mem_iff.mpr (Dict.mem_keys.mpr ⟨a, hdesired⟩))
    exact hnone r hr hk

end

end Infra
