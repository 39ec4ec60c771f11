import Warp.Errors
import Warp.Infra.Closure
import Warp.Infra.Outcome
import Mathlib.Data.Finset.Option

/-!
# The org chart

Ancestors and descendants are recursive queries over `manager_id`. They end on cyclic data too.
-/

namespace Warp

open Infra

/-- The manager of an employee, as a set with at most one element. -/
def managerIds (employees : Table Employee) (employeeId : ℕ) : Finset ℕ :=
  match employees.find? employeeId with
  | some e => e.managerId.toFinset
  | none => ∅

def directReports (employees : Table Employee) (employeeId : ℕ) : List Employee :=
  employees.select (fun e => e.managerId = some employeeId)

def directReportIds (employees : Table Employee) (employeeId : ℕ) : Finset ℕ :=
  ((directReports employees employeeId).map (fun e => e.id)).toFinset

def getAncestorIds (employees : Table Employee) (employeeId : ℕ) : Finset ℕ :=
  closureFrom (managerIds employees) employees.rows.length (managerIds employees employeeId)

def getDescendantIds (employees : Table Employee) (employeeId : ℕ) : Finset ℕ :=
  closureFrom (directReportIds employees) employees.rows.length
    (directReportIds employees employeeId)

def employeeIsManager (employees : Table Employee) (employeeId : ℕ) : Bool :=
  !(directReports employees employeeId).isEmpty

def employeeDirectReportCount (employees : Table Employee) (employeeId : ℕ) : ℕ :=
  (directReports employees employeeId).length

/-- The number of reporting hops from the employee to a root employee. -/
def employeeManagementLevel (employees : Table Employee) (employeeId : ℕ) : ℕ :=
  (getAncestorIds employees employeeId).card

def validateManagerAssignment (employees : Table Employee) (employeeId managerId : Option ℕ) :
    Except ServiceError Unit :=
  match managerId with
  | none => .ok ()
  | some managerId =>
    match employeeId with
    | none => ensure (employees.find? managerId).isSome (.employeeManagerNotFound managerId)
    | some employeeId =>
      if managerId = employeeId then
        .error (.employeeHierarchyConflict employeeId managerId "self_management")
      else if (employees.find? managerId).isNone then
        .error (.employeeManagerNotFound managerId)
      else
        ensure (employeeId ∉ getAncestorIds employees managerId)
          (.employeeHierarchyConflict employeeId managerId "reporting_cycle")

/-! ## What the queries return -/

section

variable {employees employees' : Table Employee} {a b id : ℕ}

theorem mem_managerIds :
    b ∈ managerIds employees a ↔ ∃ e ∈ employees, e.id = a ∧ e.managerId = some b := by
  unfold managerIds
  cases hf : employees.find? a with
  | none =>
    have hnone := Table.find?_eq_none.mp hf
    simp only [Finset.notMem_empty, false_iff]
    rintro ⟨e, he, hid, _⟩
    exact hnone e he hid
  | some e =>
    obtain ⟨he, hid⟩ := Table.find?_eq_some.mp hf
    simp only [Option.mem_toFinset, Option.mem_def]
    constructor
    · exact fun hm => ⟨e, he, hid, hm⟩
    · rintro ⟨e', he', hid', hm⟩
      have heq : e = e' := Table.key_inj he he' (hid.trans hid'.symm)
      rw [heq]
      exact hm

theorem mem_directReports {e : Employee} :
    e ∈ directReports employees a ↔ e ∈ employees ∧ e.managerId = some a := by
  simp [directReports]

theorem mem_directReportIds :
    b ∈ directReportIds employees a ↔ ∃ e ∈ employees, e.id = b ∧ e.managerId = some a := by
  simp only [directReportIds, List.mem_toFinset, List.mem_map, mem_directReports]
  constructor
  · rintro ⟨e, ⟨he, hm⟩, hid⟩
    exact ⟨e, he, hid, hm⟩
  · rintro ⟨e, he, hid, hm⟩
    exact ⟨e, ⟨he, hm⟩, hid⟩

/-- Reporting to somebody and managing somebody are converse relations. -/
theorem mem_managerIds_iff_directReportIds :
    b ∈ managerIds employees a ↔ a ∈ directReportIds employees b := by
  rw [mem_managerIds, mem_directReportIds]

/-- The ids that occur as a manager. -/
def allManagerIds (employees : Table Employee) : Finset ℕ :=
  (employees.rows.filterMap (fun e => e.managerId)).toFinset

theorem managerIds_subset : managerIds employees a ⊆ allManagerIds employees := by
  intro b hb
  obtain ⟨e, he, _, hm⟩ := mem_managerIds.mp hb
  simp only [allManagerIds, List.mem_toFinset, List.mem_filterMap]
  exact ⟨e, he, hm⟩

theorem card_allManagerIds : (allManagerIds employees).card ≤ employees.rows.length :=
  (List.toFinset_card_le _).trans (List.length_filterMap_le _ _)

def allEmployeeIds (employees : Table Employee) : Finset ℕ :=
  (employees.rows.map (fun e => e.id)).toFinset

theorem directReportIds_subset : directReportIds employees a ⊆ allEmployeeIds employees := by
  intro b hb
  obtain ⟨e, he, hid, _⟩ := mem_directReportIds.mp hb
  simp only [allEmployeeIds, List.mem_toFinset, List.mem_map]
  exact ⟨e, he, hid⟩

theorem card_allEmployeeIds : (allEmployeeIds employees).card ≤ employees.rows.length :=
  (List.toFinset_card_le _).trans (List.length_map _).le

/-- The ancestors are the managers at any distance of at least one. -/
theorem mem_getAncestorIds : b ∈ getAncestorIds employees a ↔
    Relation.TransGen (Succ (managerIds employees)) a b := by
  rw [← reachedFrom_next, getAncestorIds]
  exact mem_closureFrom (fun _ => managerIds_subset) managerIds_subset card_allManagerIds

theorem mem_getDescendantIds : b ∈ getDescendantIds employees a ↔
    Relation.TransGen (Succ (directReportIds employees)) a b := by
  rw [← reachedFrom_next, getDescendantIds]
  exact mem_closureFrom (fun _ => directReportIds_subset) directReportIds_subset
    card_allEmployeeIds

/-- What holds of an employee and passes on to reports holds of all descendants. -/
theorem descendants_within {W : ℕ → Prop}
    (hreports : ∀ e ∈ employees, ∀ m, e.managerId = some m → W m → W e.id) (ha : W a)
    (hb : b ∈ getDescendantIds employees a) : W b := by
  have hstep : ∀ c d, Succ (directReportIds employees) c d → W c → W d := by
    intro c d hd hc
    obtain ⟨e, he, rfl, hm⟩ := mem_directReportIds.mp hd
    exact hreports e he c hm hc
  induction mem_getDescendantIds.mp hb with
  | single h => exact hstep _ _ h ha
  | tail _ h ih => exact hstep _ _ h (ih (mem_getDescendantIds.mpr ‹_›))

/-- `a` is above `b` exactly when `b` is below `a`. -/
theorem mem_getAncestorIds_iff_getDescendantIds :
    a ∈ getAncestorIds employees b ↔ b ∈ getDescendantIds employees a := by
  rw [mem_getAncestorIds, mem_getDescendantIds, ← Relation.transGen_swap]
  have hrel : Function.swap (Succ (managerIds employees)) = Succ (directReportIds employees) := by
    funext x y
    exact propext mem_managerIds_iff_directReportIds
  rw [hrel]

/-- An employee whose own link and whose ancestors' links stay the same keeps its ancestors. -/
theorem getAncestorIds_congr (h0 : managerIds employees id = managerIds employees' id)
    (h : ∀ a ∈ getAncestorIds employees id, managerIds employees a = managerIds employees' a) :
    getAncestorIds employees id = getAncestorIds employees' id := by
  have hagree : ∀ c, ReachedFrom (managerIds employees) (managerIds employees id) c →
      managerIds employees c = managerIds employees' c := by
    intro c hc
    exact h c (mem_getAncestorIds.mpr (reachedFrom_next.mp hc))
  ext b
  rw [mem_getAncestorIds, mem_getAncestorIds, ← reachedFrom_next, ← reachedFrom_next, ← h0]
  exact reached_iff_of_agree hagree

end

end Warp
