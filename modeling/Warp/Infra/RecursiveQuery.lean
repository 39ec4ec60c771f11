import Warp.Infra.Closure

/-!
# Recursive queries

A recursive `UNION` query keeps the rows found so far and a working table with the rows of the last
round. A round joins the working table with the base table and drops what was found before, and the
query ends with an empty working table.
-/

namespace Infra

variable {α : Type*}

structure RecursiveQuery (α : Type*) where
  result : Finset α
  working : Finset α

namespace RecursiveQuery

def start (seeds : Finset α) : RecursiveQuery α := ⟨seeds, seeds⟩

def round [DecidableEq α] (next : α → Finset α) (query : RecursiveQuery α) : RecursiveQuery α where
  result := query.result ∪ query.working.biUnion next
  working := query.working.biUnion next \ query.result

/-- The query after `n` rounds. -/
def rounds [DecidableEq α] (next : α → Finset α) : ℕ → RecursiveQuery α → RecursiveQuery α
  | 0, query => query
  | n + 1, query => rounds next n (query.round next)

/-- Every row is reached from the seeds, and only rows of the working table may have successors that
are missing. -/
structure Sound (next : α → Finset α) (seeds : Finset α) (query : RecursiveQuery α) : Prop where
  seeded : seeds ⊆ query.result
  reached : ∀ a ∈ query.result, ReachedFrom next seeds a
  working : query.working ⊆ query.result
  closed : ∀ a ∈ query.result, a ∉ query.working → next a ⊆ query.result

theorem sound_start {next : α → Finset α} {seeds : Finset α} : Sound next seeds (start seeds) where
  seeded := subset_rfl
  reached := fun a ha => ⟨a, ha, .refl⟩
  working := subset_rfl
  closed := fun _ ha hnot => absurd ha hnot

section

variable [DecidableEq α] {next : α → Finset α} {seeds bound : Finset α} {query : RecursiveQuery α}

theorem Sound.round (h : Sound next seeds query) : Sound next seeds (query.round next) where
  seeded := h.seeded.trans Finset.subset_union_left
  reached := by
    intro b hb
    rcases Finset.mem_union.mp hb with hb | hb
    · exact h.reached b hb
    · obtain ⟨a, ha, hab⟩ := Finset.mem_biUnion.mp hb
      obtain ⟨s, hs, hsa⟩ := h.reached a (h.working ha)
      exact ⟨s, hs, hsa.tail hab⟩
  working := fun a ha => Finset.mem_union_right _ (Finset.mem_sdiff.mp ha).1
  closed := by
    intro a ha hnot
    -- a row that is not new has been joined in this round or before
    have hold : a ∈ query.result := by
      by_contra hnew
      refine hnot (Finset.mem_sdiff.mpr ⟨?_, hnew⟩)
      exact (Finset.mem_union.mp ha).resolve_left hnew
    by_cases hworking : a ∈ query.working
    · exact (Finset.subset_biUnion_of_mem next hworking).trans Finset.subset_union_right
    · exact (h.closed a hold hworking).trans Finset.subset_union_left

/-- With an empty working table the query has found exactly what the seeds reach. -/
theorem Sound.mem_result (h : Sound next seeds query) (hempty : query.working = ∅) {b : α} :
    b ∈ query.result ↔ ReachedFrom next seeds b := by
  refine ⟨h.reached b, reached_mem_of_closed h.seeded fun c hc => ?_⟩
  obtain ⟨a, ha, hac⟩ := Finset.mem_biUnion.mp hc
  refine h.closed a ha ?_ hac
  rw [hempty]
  exact Finset.notMem_empty a

/-- A round that finds something leaves less to be found. -/
theorem card_round_lt (h : (query.round next).working ≠ ∅) :
    query.result.card < (query.round next).result.card := by
  obtain ⟨b, hb⟩ := Finset.nonempty_iff_ne_empty.mpr h
  obtain ⟨hb, hnot⟩ := Finset.mem_sdiff.mp hb
  refine Finset.card_lt_card ⟨Finset.subset_union_left, fun hsub => hnot ?_⟩
  exact hsub (Finset.mem_union_right _ hb)

/-- The query ends after as many rounds as there may be rows, whatever cycles the data has. -/
theorem exists_rounds_empty (hnext : ∀ a, next a ⊆ bound) (n : ℕ) {query : RecursiveQuery α}
    (hsound : Sound next seeds query) (hbound : query.result ⊆ bound)
    (hn : bound.card ≤ query.result.card + n) :
    ∃ m ≤ n + 1, (rounds next m query).working = ∅ ∧ Sound next seeds (rounds next m query) := by
  induction n generalizing query with
  | zero =>
    refine ⟨1, le_rfl, ?_, hsound.round⟩
    -- all rows are found already
    have hall : query.result = bound := Finset.eq_of_subset_of_card_le hbound (by omega)
    refine Finset.sdiff_eq_empty_iff_subset.mpr fun b hb => ?_
    obtain ⟨a, _, hab⟩ := Finset.mem_biUnion.mp hb
    rw [hall]
    exact hnext a hab
  | succ n ih =>
    by_cases hempty : (query.round next).working = ∅
    · exact ⟨1, by omega, hempty, hsound.round⟩
    · have hlt := card_round_lt hempty
      have hbound' : (query.round next).result ⊆ bound := by
        refine Finset.union_subset hbound fun b hb => ?_
        obtain ⟨a, _, hab⟩ := Finset.mem_biUnion.mp hb
        exact hnext a hab
      obtain ⟨m, hm, hdone⟩ := ih hsound.round hbound' (by omega)
      exact ⟨m + 1, by omega, hdone⟩

/-- From seeds within the bound the query ends and returns what the seeds reach. -/
theorem query_ends (hnext : ∀ a, next a ⊆ bound) (hseeds : seeds ⊆ bound) :
    ∃ n ≤ bound.card + 1, (rounds next n (start seeds)).working = ∅ ∧
      ∀ b, b ∈ (rounds next n (start seeds)).result ↔ ReachedFrom next seeds b := by
  obtain ⟨n, hn, hempty, hsound⟩ :=
    exists_rounds_empty hnext bound.card sound_start hseeds (Nat.le_add_left _ _)
  exact ⟨n, hn, hempty, fun b => hsound.mem_result hempty⟩

end

end RecursiveQuery

end Infra
