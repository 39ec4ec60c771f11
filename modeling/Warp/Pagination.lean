import Warp.Infra.Paging

/-!
# Pagination

Lists are answered one page at a time, with the number of all items in a header.
-/

namespace Warp

open Infra

def defaultPageLimit : ℕ := 100

def maxPageLimit : ℕ := 500

/-- `PageParameters`, within the bounds that a request is checked for. -/
structure PageParameters where
  limit : ℕ := defaultPageLimit
  offset : ℕ := 0
  limit_bounds : 1 ≤ limit ∧ limit ≤ maxPageLimit

/-- The items of an answer with its headers. -/
structure Page (α : Type) where
  items : List α
  totalCount : ℕ
  limit : ℕ
  offset : ℕ
deriving DecidableEq, Repr

def Page.map {α β : Type} (f : α → β) (p : Page α) : Page β :=
  ⟨p.items.map f, p.totalCount, p.limit, p.offset⟩

/-- `paginate_scalars`: the rows as they are counted, and as the page is read from them. Another
transaction may commit in between. -/
def paginate {α : Type} (counted rows : List α) (pagination : PageParameters) : Page α where
  items := page pagination.limit pagination.offset rows
  totalCount := counted.length
  limit := pagination.limit
  offset := pagination.offset

/-! ## The reader of the frontend -/

/-- A round of `readAll`, with the answer to the request of a number. -/
def readAllRound {α : Type} (request : ℕ → PageParameters → Page α) (s : PageReading α) :
    PageReading α ⊕ PageReading α :=
  let found := request s.requests { limit := 500, offset := s.offset, limit_bounds := by decide }
  let next : PageReading α := ⟨s.requests + 1, s.items ++ found.items, s.offset + found.items.length⟩
  if found.totalCount ≤ next.items.length ∨ found.items = [] then .inr next else .inl next

/-- `readAll` -/
def readAll {α : Type} (request : ℕ → PageParameters → Page α) (fuel : ℕ) : Option (PageReading α) :=
  runLoop (readAllRound request) fuel ⟨0, [], 0⟩

/-- The reader of lists that are answered by `paginate`. -/
theorem readAll_paginate {α β : Type} {counted found : ℕ → List α} {f : ℕ → α → β}
    {request : ℕ → PageParameters → Page β}
    (h : ∀ n pagination, request n pagination =
      (paginate (counted n) (found n) pagination).map (f n)) (fuel : ℕ) :
    readAll request fuel =
      readPages 500 (fun n => (counted n).map (f n)) (fun n => (found n).map (f n)) fuel := by
  have hround : readAllRound request =
      readRound 500 (fun n => (counted n).map (f n)) fun n => (found n).map (f n) := by
    funext s
    simp only [readAllRound, readRound, h, paginate, Page.map, map_page, List.length_map]
  rw [readAll, readPages, hround]

end Warp
