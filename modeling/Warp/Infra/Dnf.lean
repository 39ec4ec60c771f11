import Mathlib.Data.List.Flatten
import Mathlib.Algebra.BigOperators.Group.List.Basic

/-!
# Disjunctive normal forms

A clause is the list of its atoms and holds when all of them do. A list of clauses holds when one
of them does.
-/

namespace Infra.Dnf

variable {α : Type*}

def clauseHolds (p : α → Bool) (clause : List α) : Bool := clause.all p

def holds (p : α → Bool) (clauses : List (List α)) : Bool := clauses.any (clauseHolds p)

/-- The conjunction of two lists of clauses: every clause of one joined with every one of the
other. -/
def product (left right : List (List α)) : List (List α) :=
  left.flatMap (fun l => right.map (fun r => l ++ r))

variable {p : α → Bool}

theorem holds_iff {clauses : List (List α)} :
    holds p clauses = true ↔ ∃ c ∈ clauses, ∀ a ∈ c, p a = true := by
  simp [holds, clauseHolds]

@[simp] theorem holds_single (a : α) : holds p [[a]] = p a := by
  simp [holds, clauseHolds]

@[simp] theorem holds_unit : holds p [[]] = true := by
  simp [holds, clauseHolds]

theorem holds_flatten (operands : List (List (List α))) :
    holds p operands.flatten = operands.any (holds p) := by
  simp only [holds, List.any_flatten]
  rfl

theorem holds_product (left right : List (List α)) :
    holds p (product left right) = (holds p left && holds p right) := by
  rw [Bool.eq_iff_iff, Bool.and_eq_true, holds_iff, holds_iff, holds_iff]
  constructor
  · rintro ⟨c, hc, hall⟩
    obtain ⟨l, hl, hc⟩ := List.mem_flatMap.mp hc
    obtain ⟨r, hr, rfl⟩ := List.mem_map.mp hc
    exact ⟨⟨l, hl, fun a ha => hall a (List.mem_append_left _ ha)⟩,
      ⟨r, hr, fun a ha => hall a (List.mem_append_right _ ha)⟩⟩
  · rintro ⟨⟨l, hl, hal⟩, ⟨r, hr, har⟩⟩
    refine ⟨l ++ r, List.mem_flatMap.mpr ⟨l, hl, List.mem_map_of_mem hr⟩, ?_⟩
    intro a ha
    rcases List.mem_append.mp ha with ha | ha
    · exact hal a ha
    · exact har a ha

theorem holds_foldl_product (operands : List (List (List α))) : ∀ acc : List (List α),
    holds p (operands.foldl product acc) = (holds p acc && operands.all (holds p)) := by
  induction operands with
  | nil => intro acc; simp
  | cons o rest ih =>
    intro acc
    rw [List.foldl_cons, ih, holds_product, List.all_cons, Bool.and_assoc]

theorem length_product (left right : List (List α)) :
    (product left right).length = left.length * right.length := by
  simp [product, List.length_flatMap, List.sum_replicate]

/-- The atoms of a product are atoms of one side. -/
theorem mem_product {left right : List (List α)} {c : List α} (h : c ∈ product left right) :
    ∃ l ∈ left, ∃ r ∈ right, c = l ++ r := by
  obtain ⟨l, hl, hc⟩ := List.mem_flatMap.mp h
  obtain ⟨r, hr, rfl⟩ := List.mem_map.mp hc
  exact ⟨l, hl, r, hr, rfl⟩

end Infra.Dnf
