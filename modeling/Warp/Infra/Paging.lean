import Warp.Infra.Loop
import Mathlib.Data.List.Infix

/-!
# Reading a collection page by page

A reader asks for one page after the other until it has as many items as there are, or a page is empty.
A request counts the items and finds its page afterwards. Between any two of these reads new items may
come at the end of the collection. Then the reader has everything in the end, and nothing twice.
-/

namespace Infra

def page {α : Type*} (limit offset : ℕ) (items : List α) : List α := (items.drop offset).take limit

/-- The reader after some requests: what it has, and where its next page starts. -/
structure PageReading (α : Type*) where
  requests : ℕ
  items : List α
  offset : ℕ

/-- One request: the one with the number `n` counts `counted n` and takes its page from `found n`. -/
def readRound {α : Type*} (limit : ℕ) (counted found : ℕ → List α) (s : PageReading α) :
    PageReading α ⊕ PageReading α :=
  let items := page limit s.offset (found s.requests)
  let next : PageReading α := ⟨s.requests + 1, s.items ++ items, s.offset + items.length⟩
  if (counted s.requests).length ≤ next.items.length ∨ items = [] then .inr next else .inl next

def readPages {α : Type*} (limit : ℕ) (counted found : ℕ → List α) (fuel : ℕ) :
    Option (PageReading α) :=
  runLoop (readRound limit counted found) fuel ⟨0, [], 0⟩

section

variable {α κ : Type*} {limit : ℕ} {key : α → κ} {counted found : ℕ → List α} {s s' : PageReading α}

theorem page_length_le (limit offset : ℕ) (items : List α) :
    (page limit offset items).length ≤ items.length - offset := by
  rw [page, List.length_take, List.length_drop]
  omega

theorem map_page (f : α → κ) (limit offset : ℕ) (items : List α) :
    (page limit offset items).map f = page limit offset (items.map f) := by
  rw [page, page, List.map_take, List.map_drop]

theorem page_ne_nil {offset : ℕ} {items : List α} (hlimit : 1 ≤ limit)
    (hoffset : offset < items.length) : page limit offset items ≠ [] := by
  intro hnil
  have hlength := congrArg List.length hnil
  rw [page, List.length_take, List.length_drop, List.length_nil] at hlength
  omega

/-- Every item is on some page. -/
theorem exists_mem_page {items : List α} (hlimit : 1 ≤ limit) {a : α} :
    (∃ offset, a ∈ page limit offset items) ↔ a ∈ items := by
  constructor
  · rintro ⟨offset, ha⟩
    exact List.mem_of_mem_drop (List.mem_of_mem_take ha)
  · intro ha
    obtain ⟨before, after, rfl⟩ := List.append_of_mem ha
    refine ⟨before.length, ?_⟩
    obtain ⟨n, rfl⟩ := Nat.exists_eq_add_of_le' hlimit
    simp [page]

theorem take_append_page (limit offset : ℕ) (items : List α) :
    items.take offset ++ page limit offset items =
      items.take (offset + (page limit offset items).length) := by
  rw [List.take_add, page, List.length_take, ← List.take_take, List.take_length]

theorem readRound_next (h : readRound limit counted found s = .inl s') :
    s' = ⟨s.requests + 1, s.items ++ page limit s.offset (found s.requests),
        s.offset + (page limit s.offset (found s.requests)).length⟩ ∧
      s'.items.length < (counted s.requests).length ∧
      page limit s.offset (found s.requests) ≠ [] := by
  unfold readRound at h
  dsimp only at h
  split at h
  · exact absurd h (by simp)
  · next hgoes =>
    rw [not_or, not_le] at hgoes
    cases h
    exact ⟨rfl, hgoes⟩

theorem readRound_leave (h : readRound limit counted found s = .inr s') :
    s' = ⟨s.requests + 1, s.items ++ page limit s.offset (found s.requests),
        s.offset + (page limit s.offset (found s.requests)).length⟩ ∧
      ((counted s.requests).length ≤ s'.items.length ∨
        page limit s.offset (found s.requests) = []) := by
  unfold readRound at h
  dsimp only at h
  split at h
  · next hleaves =>
    cases h
    exact ⟨rfl, hleaves⟩
  · exact absurd h (by simp)

/-- The reader has nothing that it was not answered. -/
theorem readPages_found {fuel : ℕ} {got : PageReading α}
    (h : readPages limit counted found fuel = some got) :
    ∀ a ∈ got.items, ∃ n < got.requests, a ∈ found n := by
  have hread : ∀ s : PageReading α, (∀ a ∈ s.items, ∃ n < s.requests, a ∈ found n) →
      ∀ a ∈ s.items ++ page limit s.offset (found s.requests), ∃ n < s.requests + 1, a ∈ found n := by
    intro s hs a ha
    rcases List.mem_append.mp ha with ha | ha
    · obtain ⟨n, hn, hfound⟩ := hs a ha
      exact ⟨n, by omega, hfound⟩
    · exact ⟨s.requests, by omega, List.mem_of_mem_drop (List.mem_of_mem_take ha)⟩
  refine runLoop_result (I := fun s : PageReading α => ∀ a ∈ s.items, ∃ n < s.requests, a ∈ found n)
    (P := fun r => ∀ a ∈ r.items, ∃ n < r.requests, a ∈ found n)
    (fun s s' hs hround => ?_) (fun s r hs hround => ?_) (fun a ha => absurd ha (by simp)) h
  · obtain ⟨rfl, _⟩ := readRound_next hround
    exact hread s hs
  · obtain ⟨rfl, _⟩ := readRound_leave hround
    exact hread s hs

/-! ## Everything -/

/-- The reader has what the collection starts with. -/
structure UpTo (key : α → κ) (found : ℕ → List α) (s : PageReading α) : Prop where
  read : s.items.map key = ((found s.requests).map key).take s.offset
  within : s.offset ≤ (found s.requests).length

theorem UpTo.page (h : UpTo key found s) (limit : ℕ) :
    (s.items ++ Infra.page limit s.offset (found s.requests)).map key =
        ((found s.requests).map key).take
          (s.offset + (Infra.page limit s.offset (found s.requests)).length) ∧
      s.offset + (Infra.page limit s.offset (found s.requests)).length ≤
        (found s.requests).length := by
  constructor
  · rw [List.map_append, h.read, ← List.map_take, ← List.map_append, take_append_page, List.map_take]
  · have hle := page_length_le limit s.offset (found s.requests)
    have hwithin := h.within
    omega

theorem UpTo.next (h : UpTo key found s)
    (hgrows : ∀ n, ((found n).map key) <+: ((found (n + 1)).map key))
    (hround : readRound limit counted found s = .inl s') : UpTo key found s' := by
  obtain ⟨rfl, _, _⟩ := readRound_next hround
  obtain ⟨hread, hwithin⟩ := h.page limit
  obtain ⟨new, hnew⟩ := hgrows s.requests
  have hlength := congrArg List.length hnew
  rw [List.length_append, List.length_map, List.length_map] at hlength
  constructor
  · show _ = ((found (s.requests + 1)).map key).take _
    rw [hread, ← hnew, List.take_append_of_le_length]
    rw [List.length_map]
    exact hwithin
  · show s.offset + (Infra.page limit s.offset (found s.requests)).length ≤
      (found (s.requests + 1)).length
    omega

/-- If the collection only grows at its end, the reader has in the end what its last request counted, and
nothing but what it found. -/
theorem readPages_complete (hlimit : 1 ≤ limit)
    (hcounted : ∀ n, ((counted n).map key) <+: ((found n).map key))
    (hgrows : ∀ n, ((found n).map key) <+: ((found (n + 1)).map key)) {fuel : ℕ}
    {got : PageReading α} (h : readPages limit counted found fuel = some got) :
    ∃ last, got.requests = last + 1 ∧ ((counted last).map key) <+: (got.items.map key) ∧
      (got.items.map key) <+: ((found last).map key) := by
  refine runLoop_result (I := UpTo key found)
    (P := fun r => ∃ last, r.requests = last + 1 ∧ ((counted last).map key) <+: (r.items.map key) ∧
      (r.items.map key) <+: ((found last).map key))
    (fun s s' hs hround => hs.next hgrows hround) (fun s r hs hround => ?_) ?_ h
  · obtain ⟨rfl, hends⟩ := readRound_leave hround
    obtain ⟨hread, hwithin⟩ := hs.page limit
    refine ⟨s.requests, rfl, ?_, hread ▸ List.take_prefix _ _⟩
    rcases hends with hends | hnil
    · refine List.prefix_of_prefix_length_le (hcounted s.requests) (hread ▸ List.take_prefix _ _) ?_
      rw [List.length_map, List.length_map]
      exact hends
    · have hall : (found s.requests).length ≤ s.offset := by
        by_contra hnot
        exact page_ne_nil hlimit (not_le.mp hnot) hnil
      rw [hread, List.take_of_length_le]
      · exact hcounted s.requests
      · rw [List.length_map]
        omega
  · exact ⟨by simp, Nat.zero_le _⟩

/-- If the collection stays within a bound, the reader comes to an end. -/
theorem readPages_ends {bound : ℕ} (hbound : ∀ n, (counted n).length ≤ bound) :
    ∃ fuel ≤ bound + 1, ∃ got, readPages limit counted found fuel = some got := by
  have hnext : ∀ s s' : PageReading α, s.items.length ≤ bound →
      readRound limit counted found s = .inl s' →
        s'.items.length ≤ bound ∧ bound - s'.items.length < bound - s.items.length := by
    intro s s' hs hround
    obtain ⟨rfl, hless, hfound⟩ := readRound_next hround
    have hle := hbound s.requests
    have hpos := List.length_pos_iff.mpr hfound
    rw [List.length_append] at hless ⊢
    constructor <;> omega
  have hstart : (⟨0, [], 0⟩ : PageReading α).items.length ≤ bound := Nat.zero_le bound
  obtain ⟨fuel, hfuel, got, hgot, _⟩ := runLoop_ends (P := fun _ => True)
    (fun s : PageReading α => bound - s.items.length) hnext (fun _ _ _ _ => trivial) hstart
  exact ⟨fuel, hfuel, got, hgot⟩

end

end Infra
