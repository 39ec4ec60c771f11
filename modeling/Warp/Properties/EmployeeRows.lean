import Warp.Employees
import Warp.Properties.DerivedWrites

/-!
# What the employee service does to the employees

Creating adds one row with the next id, updating replaces one row, and deleting takes one away and
leaves its reports without a manager. Whatever else the service does, it does not touch the employees.
-/

namespace Warp

open Infra

/-- The foreign key on the manager, and ids that come from the sequence. -/
structure EmployeesSound (db : Db) : Prop where
  fresh : ∀ e ∈ db.facts.employees, e.id < db.sequences.employee
  managers : ∀ e ∈ db.facts.employees, ∀ m, e.managerId = some m →
    ∃ manager ∈ db.facts.employees, manager.id = m

theorem EmployeesSound.manager_lt {db : Db} (h : EmployeesSound db) {e : Employee}
    (he : e ∈ db.facts.employees) {m : ℕ} (hm : e.managerId = some m) :
    m < db.sequences.employee := by
  obtain ⟨manager, hmanager, rfl⟩ := h.managers e he m hm
  exact h.fresh manager hmanager

section

variable {employees : Table Employee} {employeeId : ℕ}

theorem mem_withoutEmployee {x : Employee} : x ∈ withoutEmployee employees employeeId ↔
    ∃ e ∈ employees, e.id ≠ employeeId ∧
      x = if e.managerId = some employeeId then { e with managerId := none } else e := by
  rw [withoutEmployee, Table.mem_modify]
  constructor
  · rintro ⟨e, he, rfl⟩
    obtain ⟨he, hid⟩ := Table.mem_filter.mp he
    exact ⟨e, he, of_decide_eq_true hid, rfl⟩
  · rintro ⟨e, he, hid, rfl⟩
    exact ⟨e, Table.mem_filter.mpr ⟨he, decide_eq_true hid⟩, rfl⟩

/-- A manager that a remaining row has, it had before, and it is not the deleted employee. -/
theorem withoutEmployee_manager {x : Employee} (hx : x ∈ withoutEmployee employees employeeId)
    {m : ℕ} (hm : x.managerId = some m) : m ≠ employeeId ∧ x ∈ employees := by
  obtain ⟨e, he, _, rfl⟩ := mem_withoutEmployee.mp hx
  by_cases hreport : e.managerId = some employeeId
  · rw [if_pos hreport] at hm
    cases hm
  · rw [if_neg hreport] at hm ⊢
    refine ⟨fun hid => hreport ?_, he⟩
    rw [hm, hid]

theorem withoutEmployee_id {x : Employee} (hx : x ∈ withoutEmployee employees employeeId) :
    x.id ≠ employeeId ∧ ∃ e ∈ employees, e.id = x.id := by
  obtain ⟨e, he, hid, rfl⟩ := mem_withoutEmployee.mp hx
  split <;> exact ⟨hid, e, he, rfl⟩

theorem withoutEmployee_keeps {e : Employee} (he : e ∈ employees) (hid : e.id ≠ employeeId) :
    ∃ x ∈ withoutEmployee employees employeeId, x.id = e.id := by
  refine ⟨_, mem_withoutEmployee.mpr ⟨e, he, hid, rfl⟩, ?_⟩
  split <;> rfl

end

/-! ## The manager check -/

/-- What the manager check lets through for an existing employee. -/
theorem validateManagerAssignment_apart {employees : Table Employee} {employeeId managerId : ℕ}
    {u : Unit}
    (h : validateManagerAssignment employees (some employeeId) (some managerId) = .ok u) :
    managerId ≠ employeeId ∧ employeeId ∉ getAncestorIds employees managerId := by
  rw [validateManagerAssignment] at h
  by_cases hself : managerId = employeeId
  · rw [if_pos hself] at h
    exact absurd h (by simp)
  · rw [if_neg hself] at h
    by_cases hnone : (employees.find? managerId).isNone
    · rw [if_pos hnone] at h
      exact absurd h (by simp)
    · rw [if_neg hnone, ensure_eq_ok, decide_eq_true_eq] at h
      exact ⟨hself, h⟩

theorem validateManagerAssignment_found {employees : Table Employee} {employeeId : Option ℕ}
    {managerId : ℕ} {u : Unit}
    (h : validateManagerAssignment employees employeeId (some managerId) = .ok u) :
    ∃ manager ∈ employees, manager.id = managerId := by
  have hsome : (employees.find? managerId).isSome = true := by
    cases employeeId with
    | none => exact ensure_eq_ok.mp h
    | some employeeId =>
      rw [validateManagerAssignment] at h
      by_cases hself : managerId = employeeId
      · rw [if_pos hself] at h
        cases h
      · rw [if_neg hself] at h
        by_cases hnone : (employees.find? managerId).isNone
        · rw [if_pos hnone] at h
          cases h
        · exact Option.isSome_iff_ne_none.mpr fun hn => hnone (by rw [hn]; rfl)
  obtain ⟨manager, hm⟩ := Option.isSome_iff_exists.mp hsome
  exact ⟨manager, Table.find?_eq_some.mp hm⟩

/-! ## Updated rows -/

theorem updatedEmployee_eq_ok {e e' : Employee} {data : EmployeeUpdate}
    (h : updatedEmployee e data = .ok e') :
    e'.id = e.id ∧ e'.managerId = data.managerId.getD e.managerId := by
  simp only [updatedEmployee, bind_eq_ok, pure_eq_ok] at h
  obtain ⟨_, _, _, _, _, _, _, _, _, _, rfl⟩ := h
  exact ⟨rfl, rfl⟩

/-- Rows without a changed field are the same. -/
theorem eq_of_changedColumns_nil {e e' : Employee} (hid : e'.id = e.id)
    (h : changedColumns e e' = []) : e' = e := by
  simp only [changedColumns, List.append_eq_nil_iff, ite_eq_right_iff, List.cons_ne_nil, imp_false,
    not_not] at h
  obtain ⟨⟨⟨⟨⟨⟨hname, hstate⟩, hdepartment⟩, htype⟩, hlocation⟩, hstart⟩, hmanager⟩ := h
  cases e
  cases e'
  simp_all

/-! ## The service -/

section

variable {db db' : Db} {actor : Actor} {now : DateTime}

theorem reconcileImpacted_derives {mutation : EmployeeMutation}
    (h : reconcileImpacted db mutation actor now = .ok db') : Derives db db' := by
  simp only [reconcileImpacted, bind_eq_ok] at h
  obtain ⟨_, _, hrun⟩ := h
  exact derives_reconcileMap hrun

theorem syncChangedTenure_derives {employee : Employee} {changed : List String}
    (h : syncChangedTenure db employee changed now = .ok db') : Derives db db' := by
  unfold syncChangedTenure at h
  split at h
  · exact derives_syncTenure h
  · cases h
    exact .refl

theorem createEmployee_rows {data : EmployeeCreate} {employee : Employee}
    (h : createEmployee db data actor now = .ok (db', employee)) :
    validateManagerAssignment db.facts.employees none data.managerId = .ok () ∧
      employee = data.row db.sequences.employee ∧
      db'.facts.employees = db.facts.employees.insert employee ∧
      db'.sequences.employee = db.sequences.employee + 1 := by
  simp only [createEmployee, bind_eq_ok, pure_eq_ok] at h
  obtain ⟨_, hvalid, db₁, hreconcile, db₂, htenure, hout⟩ := h
  cases hout
  have hkept := derives_kept
    ((reconcileImpacted_derives hreconcile).trans (derives_syncTenure htenure))
  refine ⟨hvalid, rfl, ?_, hkept.employeeSequence⟩
  rw [hkept.facts]
  rfl

theorem updateEmployee_rows {e e' : Employee} {data : EmployeeUpdate} (he : e ∈ db.facts.employees)
    (h : updateEmployee db e data actor now = .ok (db', e')) :
    checkedManager db.facts.employees e.id data.managerId = .ok () ∧ e'.id = e.id ∧
      e'.managerId = data.managerId.getD e.managerId ∧
      db'.facts.employees = db.facts.employees.insert e' ∧
      db'.sequences.employee = db.sequences.employee := by
  simp only [updateEmployee, bind_eq_ok] at h
  obtain ⟨_, hchecked, updated, hupdated, hout⟩ := h
  obtain ⟨hid, hmanager⟩ := updatedEmployee_eq_ok hupdated
  by_cases hnil : changedColumns e updated = []
  · rw [if_pos hnil] at hout
    cases hout
    have hsame := eq_of_changedColumns_nil hid hnil
    rw [hsame] at hmanager
    refine ⟨hchecked, rfl, hmanager, Table.ext_mem fun x => ?_, rfl⟩
    rw [Table.mem_insert]
    constructor
    · intro hx
      by_cases hkey : x.id = e.id
      · exact Or.inl (Table.key_inj hx he hkey)
      · exact Or.inr ⟨hx, hkey⟩
    · rintro (rfl | ⟨hx, _⟩)
      · exact he
      · exact hx
  · rw [if_neg hnil] at hout
    simp only [bind_eq_ok, pure_eq_ok] at hout
    obtain ⟨db₁, hreconcile, db₂, htenure, hout⟩ := hout
    cases hout
    have hkept := derives_kept
      ((reconcileImpacted_derives hreconcile).trans (syncChangedTenure_derives htenure))
    refine ⟨hchecked, hid, hmanager, ?_, hkept.employeeSequence⟩
    rw [hkept.facts]
    rfl

theorem deleteEmployee_rows {e : Employee} (h : deleteEmployee db e actor now = .ok db') :
    db'.facts.employees = withoutEmployee db.facts.employees e.id ∧
      db'.sequences.employee = db.sequences.employee := by
  have hkept := derives_kept (derives_reconcileMap h)
  refine ⟨?_, hkept.employeeSequence⟩
  rw [hkept.facts]
  rfl

end

/-! ## The constraints stay -/

section

variable {db db' : Db} {e : Employee}

theorem EmployeesSound.insert_new (h : EmployeesSound db) (hid : e.id = db.sequences.employee)
    (hmanager : ∀ m, e.managerId = some m → ∃ manager ∈ db.facts.employees, manager.id = m)
    (hrows : db'.facts.employees = db.facts.employees.insert e)
    (hseq : db'.sequences.employee = db.sequences.employee + 1) : EmployeesSound db' := by
  have hkeep : ∀ x ∈ db.facts.employees, x ∈ db'.facts.employees := by
    intro x hx
    rw [hrows]
    refine Table.mem_insert.mpr (Or.inr ⟨hx, ?_⟩)
    show x.id ≠ e.id
    rw [hid]
    exact (h.fresh x hx).ne
  constructor
  · intro x hx
    rw [hseq]
    rw [hrows] at hx
    rcases Table.mem_insert.mp hx with rfl | ⟨hx, _⟩
    · rw [hid]
      exact Nat.lt_succ_self _
    · exact (h.fresh x hx).trans (Nat.lt_succ_self _)
  · intro x hx m hm
    rw [hrows] at hx
    have hold : ∃ manager ∈ db.facts.employees, manager.id = m := by
      rcases Table.mem_insert.mp hx with rfl | ⟨hx, _⟩
      · exact hmanager m hm
      · exact h.managers x hx m hm
    obtain ⟨manager, hmem, hid'⟩ := hold
    exact ⟨manager, hkeep manager hmem, hid'⟩

theorem EmployeesSound.insert_same {e' : Employee} (h : EmployeesSound db)
    (he : e ∈ db.facts.employees) (hid : e'.id = e.id)
    (hmanager : ∀ m, e'.managerId = some m → ∃ manager ∈ db.facts.employees, manager.id = m)
    (hrows : db'.facts.employees = db.facts.employees.insert e')
    (hseq : db'.sequences.employee = db.sequences.employee) : EmployeesSound db' := by
  have hkeep : ∀ x ∈ db.facts.employees, ∃ y ∈ db'.facts.employees, y.id = x.id := by
    intro x hx
    rw [hrows]
    by_cases hkey : x.id = e'.id
    · exact ⟨e', Table.mem_insert_self, hkey.symm⟩
    · exact ⟨x, Table.mem_insert.mpr (Or.inr ⟨hx, hkey⟩), rfl⟩
  constructor
  · intro x hx
    rw [hseq]
    rw [hrows] at hx
    rcases Table.mem_insert.mp hx with rfl | ⟨hx, _⟩
    · rw [hid]
      exact h.fresh e he
    · exact h.fresh x hx
  · intro x hx m hm
    rw [hrows] at hx
    have hold : ∃ manager ∈ db.facts.employees, manager.id = m := by
      rcases Table.mem_insert.mp hx with rfl | ⟨hx, _⟩
      · exact hmanager m hm
      · exact h.managers x hx m hm
    obtain ⟨manager, hmem, rfl⟩ := hold
    exact hkeep manager hmem

theorem EmployeesSound.without (h : EmployeesSound db) {employeeId : ℕ}
    (hrows : db'.facts.employees = withoutEmployee db.facts.employees employeeId)
    (hseq : db'.sequences.employee = db.sequences.employee) : EmployeesSound db' := by
  constructor
  · intro x hx
    rw [hrows] at hx
    obtain ⟨_, y, hy, hid⟩ := withoutEmployee_id hx
    rw [hseq, ← hid]
    exact h.fresh y hy
  · intro x hx m hm
    rw [hrows] at hx
    obtain ⟨hne, hx⟩ := withoutEmployee_manager hx hm
    obtain ⟨manager, hmanager, rfl⟩ := h.managers x hx m hm
    rw [hrows]
    exact withoutEmployee_keeps hmanager hne

/-- A manager that an update leaves or sets exists. -/
theorem checkedManager_found (h : EmployeesSound db) {data : EmployeeUpdate}
    (he : e ∈ db.facts.employees)
    (hchecked : checkedManager db.facts.employees e.id data.managerId = .ok ()) {m : ℕ}
    (hm : data.managerId.getD e.managerId = some m) :
    ∃ manager ∈ db.facts.employees, manager.id = m := by
  cases hd : data.managerId with
  | none =>
    rw [hd] at hm
    exact h.managers e he m hm
  | some managerId =>
    rw [hd] at hm hchecked
    have hm : managerId = some m := hm
    rw [hm] at hchecked
    exact validateManagerAssignment_found
      (show validateManagerAssignment db.facts.employees (some e.id) (some m) = .ok () from hchecked)

end

end Warp
