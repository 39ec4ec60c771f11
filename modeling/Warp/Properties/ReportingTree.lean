import Warp.Infra.RecursiveQuery
import Warp.Operations
import Warp.Properties.EmployeeRows
import Warp.Properties.ReportingForest

/-!
# The reporting tree of a sequence of requests

One request after another, nobody ever comes to report to themselves. The level of an employee is
the number of hops to the top, and the two recursive queries end on every table.
-/

namespace Warp

open Infra

/-! ## The recursive queries -/

/-- The state of the ancestor query after some rounds. -/
def ancestorQuery (employees : Table Employee) (employeeId rounds : ℕ) : RecursiveQuery ℕ :=
  (RecursiveQuery.start (managerIds employees employeeId)).rounds (managerIds employees) rounds

def descendantQuery (employees : Table Employee) (employeeId rounds : ℕ) : RecursiveQuery ℕ :=
  (RecursiveQuery.start (directReportIds employees employeeId)).rounds (directReportIds employees)
    rounds

theorem ancestorQuery_ends (employees : Table Employee) (employeeId : ℕ) :
    ∃ n ≤ employees.rows.length + 1, (ancestorQuery employees employeeId n).working = ∅ ∧
      (ancestorQuery employees employeeId n).result = getAncestorIds employees employeeId := by
  obtain ⟨n, hn, hempty, hresult⟩ := RecursiveQuery.query_ends
    (fun _ => managerIds_subset) (@managerIds_subset employees employeeId)
  refine ⟨n, hn.trans (Nat.succ_le_succ card_allManagerIds), hempty, ?_⟩
  ext b
  rw [mem_getAncestorIds, ← reachedFrom_next]
  exact hresult b

theorem descendantQuery_ends (employees : Table Employee) (employeeId : ℕ) :
    ∃ n ≤ employees.rows.length + 1, (descendantQuery employees employeeId n).working = ∅ ∧
      (descendantQuery employees employeeId n).result =
        getDescendantIds employees employeeId := by
  obtain ⟨n, hn, hempty, hresult⟩ := RecursiveQuery.query_ends
    (fun _ => directReportIds_subset) (@directReportIds_subset employees employeeId)
  refine ⟨n, hn.trans (Nat.succ_le_succ card_allEmployeeIds), hempty, ?_⟩
  ext b
  rw [mem_getDescendantIds, ← reachedFrom_next]
  exact hresult b

/-! ## Levels -/

/-- An employee reports to another over a number of hops. -/
inductive ReportsOver (employees : Table Employee) : ℕ → ℕ → ℕ → Prop where
  | self (id : ℕ) : ReportsOver employees 0 id id
  | manager {e : Employee} {m n top : ℕ} : e ∈ employees → e.managerId = some m →
      ReportsOver employees n m top → ReportsOver employees (n + 1) e.id top

/-- The managers exist, and nobody is above themselves. -/
structure ReportingTree (employees : Table Employee) : Prop where
  managers : ∀ e ∈ employees, ∀ m, e.managerId = some m → ∃ manager ∈ employees, manager.id = m
  acyclic : Acyclic (Succ (managerIds employees))

section

variable {employees : Table Employee} {e : Employee}

theorem managerIds_of_mem (he : e ∈ employees) : managerIds employees e.id = e.managerId.toFinset := by
  ext b
  rw [mem_managerIds, Option.mem_toFinset, Option.mem_def]
  constructor
  · rintro ⟨r, hr, hid, hm⟩
    rw [← Table.key_inj hr he hid]
    exact hm
  · exact fun hm => ⟨e, he, rfl, hm⟩

theorem getAncestorIds_root (he : e ∈ employees) (hm : e.managerId = none) :
    getAncestorIds employees e.id = ∅ := by
  ext b
  rw [mem_getAncestorIds, Relation.TransGen.head'_iff]
  refine iff_of_false ?_ (Finset.notMem_empty b)
  rintro ⟨m, hedge, _⟩
  have hedge : m ∈ managerIds employees e.id := hedge
  rw [managerIds_of_mem he, hm] at hedge
  exact absurd hedge (by simp)

/-- The ancestors of an employee are the manager and the manager's ancestors. -/
theorem getAncestorIds_step (he : e ∈ employees) {m : ℕ} (hm : e.managerId = some m) :
    getAncestorIds employees e.id = insert m (getAncestorIds employees m) := by
  ext b
  rw [Finset.mem_insert, mem_getAncestorIds, mem_getAncestorIds, Relation.TransGen.head'_iff]
  have hedge : ∀ c, Succ (managerIds employees) e.id c ↔ c = m := by
    intro c
    show c ∈ managerIds employees e.id ↔ c = m
    rw [managerIds_of_mem he, hm]
    simp
  simp only [hedge, exists_eq_left, Relation.reflTransGen_iff_eq_or_transGen]

theorem employeeManagementLevel_root (he : e ∈ employees) (hm : e.managerId = none) :
    employeeManagementLevel employees e.id = 0 := by
  rw [employeeManagementLevel, getAncestorIds_root he hm, Finset.card_empty]

theorem ReportingTree.level_step (h : ReportingTree employees) (he : e ∈ employees) {m : ℕ}
    (hm : e.managerId = some m) :
    employeeManagementLevel employees e.id = employeeManagementLevel employees m + 1 := by
  have hnot : m ∉ getAncestorIds employees m := fun hmem => h.acyclic m (mem_getAncestorIds.mp hmem)
  rw [employeeManagementLevel, getAncestorIds_step he hm, Finset.card_insert_of_notMem hnot,
    employeeManagementLevel]

/-- The level counts the hops to an employee without a manager. -/
theorem ReportingTree.level (h : ReportingTree employees) (n : ℕ) : ∀ e ∈ employees,
    employeeManagementLevel employees e.id = n →
      ∃ root ∈ employees, root.managerId = none ∧ ReportsOver employees n e.id root.id := by
  induction n with
  | zero =>
    intro e he hlevel
    cases hm : e.managerId with
    | none => exact ⟨e, he, hm, .self _⟩
    | some m =>
      rw [h.level_step he hm] at hlevel
      exact absurd hlevel (Nat.succ_ne_zero _)
  | succ n ih =>
    intro e he hlevel
    cases hm : e.managerId with
    | none =>
      rw [employeeManagementLevel_root he hm] at hlevel
      exact absurd hlevel.symm (Nat.succ_ne_zero n)
    | some m =>
      rw [h.level_step he hm] at hlevel
      obtain ⟨manager, hmanager, rfl⟩ := h.managers e he m hm
      obtain ⟨root, hroot, hnone, hhops⟩ := ih manager hmanager (Nat.succ.inj hlevel)
      exact ⟨root, hroot, hnone, .manager he hm hhops⟩

end

/-! ## Requests one after another -/

/-- The requests that create, change or delete an employee. -/
def Operation.OnEmployees : Operation → Prop
  | .createEmployee _ => True
  | .updateEmployee _ _ => True
  | .deleteEmployee _ => True
  | _ => False

/-- A changed row closes no cycle if its manager stays or has passed the check. -/
theorem acyclic_changed {employees : Table Employee} {e e' : Employee} (he : e ∈ employees)
    (hid : e'.id = e.id) (h : Acyclic (Succ (managerIds employees)))
    (hmanager : ∀ m, e'.managerId = some m → e.managerId = some m ∨
      (m ≠ e.id ∧ e.id ∉ getAncestorIds employees m)) :
    Acyclic (Succ (managerIds (employees.insert e'))) := by
  -- every edge is an old one, or leads from the employee to the manager of the new row
  have hedge : ∀ a b, Succ (managerIds (employees.insert e')) a b →
      Succ (managerIds employees) a b ∨ (a = e.id ∧ e'.managerId = some b) := by
    intro a b hab
    obtain ⟨r, hr, rfl, hm⟩ := mem_managerIds.mp hab
    rcases Table.mem_insert.mp hr with rfl | ⟨hr, _⟩
    · exact Or.inr ⟨hid, hm⟩
    · exact Or.inl (mem_managerIds.mpr ⟨r, hr, rfl, hm⟩)
  by_cases hkept : ∀ m, e'.managerId = some m → e.managerId = some m
  · refine h.mono fun a b hab => ?_
    rcases hedge a b hab with hold | ⟨rfl, hm⟩
    · exact hold
    · exact mem_managerIds.mpr ⟨e, he, rfl, hkept b hm⟩
  · push Not at hkept
    obtain ⟨m, hm, hnew⟩ := hkept
    obtain ⟨hne, hnot⟩ := (hmanager m hm).resolve_left hnew
    refine h.of_edge (x := e.id) (m := m) (fun a b hab => ?_) fun hback => ?_
    · refine (hedge a b hab).imp_right fun ⟨ha, hb⟩ => ⟨ha, ?_⟩
      exact Option.some.inj (hb.symm.trans hm)
    · rcases Relation.reflTransGen_iff_eq_or_transGen.mp hback with heq | hback
      · exact hne heq.symm
      · exact hnot (mem_getAncestorIds.mpr hback)

/-- The tree with ids that come from the sequence. -/
structure ReportingSound (db : Db) : Prop where
  rows : EmployeesSound db
  acyclic : Acyclic (Succ (managerIds db.facts.employees))

section

variable {db db' : Db} {actor : Actor} {now : DateTime}

theorem ReportingSound.create (h : ReportingSound db) {data : EmployeeCreate} {e : Employee}
    (hrun : createEmployee db data actor now = .ok (db', e)) : ReportingSound db' := by
  obtain ⟨hvalid, rfl, hrows, hseq⟩ := createEmployee_rows hrun
  have hmanager : ∀ m, (data.row db.sequences.employee).managerId = some m →
      ∃ manager ∈ db.facts.employees, manager.id = m := by
    intro m hm
    have hm : data.managerId = some m := hm
    rw [hm] at hvalid
    exact validateManagerAssignment_found hvalid
  refine ⟨h.rows.insert_new rfl hmanager hrows hseq, ?_⟩
  rw [hrows, ← managerForest_iff]
  refine (managerForest_iff.mpr h.acyclic).insert (fun hself => ?_) fun r hr hnamed => ?_
  · -- the manager has a smaller id than the new employee
    obtain ⟨manager, hmem, hid⟩ := hmanager _ hself
    exact absurd hid (h.rows.fresh manager hmem).ne
  · exact absurd (h.rows.manager_lt hr hnamed) (lt_irrefl _)

theorem ReportingSound.update (h : ReportingSound db) {e e' : Employee} {data : EmployeeUpdate}
    (he : e ∈ db.facts.employees) (hrun : updateEmployee db e data actor now = .ok (db', e')) :
    ReportingSound db' := by
  obtain ⟨hchecked, hid, hmanager, hrows, hseq⟩ := updateEmployee_rows he hrun
  refine ⟨h.rows.insert_same he hid (fun m hm => ?_) hrows hseq, ?_⟩
  · rw [hmanager] at hm
    exact checkedManager_found h.rows he hchecked hm
  · rw [hrows]
    refine acyclic_changed he hid h.acyclic fun m hm => ?_
    rw [hmanager] at hm
    cases hsupplied : data.managerId with
    | none =>
      rw [hsupplied] at hm
      exact Or.inl hm
    | some managerId =>
      rw [hsupplied] at hm hchecked
      have hm : managerId = some m := hm
      rw [hm] at hchecked
      exact Or.inr (validateManagerAssignment_apart hchecked)

theorem ReportingSound.delete (h : ReportingSound db) {e : Employee}
    (hrun : deleteEmployee db e actor now = .ok db') : ReportingSound db' := by
  obtain ⟨hrows, hseq⟩ := deleteEmployee_rows hrun
  refine ⟨h.rows.without hrows hseq, h.acyclic.mono fun a b hab => ?_⟩
  rw [hrows] at hab
  obtain ⟨r, hr, hid, hm⟩ := mem_managerIds.mp hab
  exact mem_managerIds.mpr ⟨r, (withoutEmployee_manager hr hm).2, hid, hm⟩

theorem ReportingSound.step (h : ReportingSound db) {call : OperationCall}
    (hcall : call.operation.OnEmployees) : ReportingSound (operationStep db call) := by
  unfold operationStep
  cases hrun : runOperation db call.actor call.now call.operation with
  | error e => exact h
  | ok db' =>
    cases hop : call.operation with
    | createEmployee data =>
      rw [hop] at hrun
      obtain ⟨⟨_, e⟩, hcreate, rfl⟩ := exceptMap_eq_ok.mp hrun
      exact h.create hcreate
    | updateEmployee employeeId data =>
      rw [hop] at hrun
      simp only [runOperation, bind_eq_ok, exceptMap_eq_ok] at hrun
      obtain ⟨e, he, ⟨_, e'⟩, hupdate, rfl⟩ := hrun
      exact h.update (getEmployee_eq_ok he).1 hupdate
    | deleteEmployee employeeId =>
      rw [hop] at hrun
      simp only [runOperation, bind_eq_ok] at hrun
      obtain ⟨e, _, hdelete⟩ := hrun
      exact h.delete hdelete
    | _ =>
      rw [hop] at hcall
      exact absurd hcall (by simp [Operation.OnEmployees])

theorem ReportingSound.run (calls : List OperationCall) {db : Db} (h : ReportingSound db)
    (hcalls : ∀ call ∈ calls, call.operation.OnEmployees) :
    ReportingSound (runOperations db calls) := by
  induction calls generalizing db with
  | nil => exact h
  | cons call rest ih =>
    exact ih (h.step (hcalls call List.mem_cons_self))
      fun later hlater => hcalls later (List.mem_cons_of_mem _ hlater)

end

/-- Requests on employees, one after another and from no employees at all, leave no dangling manager
and no cycle, the level counts the hops to the top, and being above and being below are converse. The
queries for both end on every table, also on one with cycles. -/
theorem sequential_reporting_forest {db : Db} (hempty : db.facts.employees = .empty)
    (calls : List OperationCall) (hcalls : ∀ call ∈ calls, call.operation.OnEmployees) :
    (∀ e ∈ (runOperations db calls).facts.employees, ∀ m, e.managerId = some m →
      ∃ manager ∈ (runOperations db calls).facts.employees, manager.id = m) ∧
    Acyclic (Succ (managerIds (runOperations db calls).facts.employees)) ∧
    (∀ e ∈ (runOperations db calls).facts.employees,
      ∃ root ∈ (runOperations db calls).facts.employees, root.managerId = none ∧
        ReportsOver (runOperations db calls).facts.employees
          (employeeManagementLevel (runOperations db calls).facts.employees e.id) e.id root.id) ∧
    (∀ a e, a ∈ getAncestorIds (runOperations db calls).facts.employees e ↔
      e ∈ getDescendantIds (runOperations db calls).facts.employees a) ∧
    ∀ (employees : Table Employee) (id : ℕ),
      (∃ n, (ancestorQuery employees id n).working = ∅ ∧
        (ancestorQuery employees id n).result = getAncestorIds employees id) ∧
      ∃ n, (descendantQuery employees id n).working = ∅ ∧
        (descendantQuery employees id n).result = getDescendantIds employees id := by
  have hstart : ReportingSound db :=
    { rows := ⟨by simp [hempty], by simp [hempty]⟩
      acyclic := by
        intro a ha
        obtain ⟨b, hb, _⟩ := Relation.TransGen.head'_iff.mp ha
        obtain ⟨e, he, _⟩ := mem_managerIds.mp hb
        rw [hempty] at he
        exact absurd he Table.not_mem_empty }
  have hsound := hstart.run calls hcalls
  have htree : ReportingTree (runOperations db calls).facts.employees :=
    ⟨hsound.rows.managers, hsound.acyclic⟩
  refine ⟨htree.managers, htree.acyclic, fun e he => htree.level _ e he rfl,
    fun a e => mem_getAncestorIds_iff_getDescendantIds, fun employees id => ⟨?_, ?_⟩⟩
  · obtain ⟨n, _, hends⟩ := ancestorQuery_ends employees id
    exact ⟨n, hends⟩
  · obtain ⟨n, _, hends⟩ := descendantQuery_ends employees id
    exact ⟨n, hends⟩

def hired (name : String) (managerId : Option ℕ) : Operation :=
  .createEmployee
    { name := name, state := "CA", department := "Engineering", employeeType := "full_time"
      startDate := .on 2026 1 10, managerId := managerId }

/-- Three employees in a chain; the request that would close the chain to a cycle is refused. -/
def chainCalls : List OperationCall :=
  [⟨.system, startOfDay (.on 2026 1 10), hired "Ada" none⟩,
    ⟨.system, startOfDay (.on 2026 1 11), hired "Ben" (some 1)⟩,
    ⟨.system, startOfDay (.on 2026 1 12), hired "Cleo" (some 2)⟩,
    ⟨.system, startOfDay (.on 2026 1 13), .updateEmployee 1 { managerId := some (some 3) }⟩]

theorem sequential_reporting_forest_chain :
    employeeManagementLevel (runOperations .empty chainCalls).facts.employees 3 = 2 ∧
    ∀ e ∈ (runOperations .empty chainCalls).facts.employees,
      ∃ root ∈ (runOperations .empty chainCalls).facts.employees, root.managerId = none ∧
        ReportsOver (runOperations .empty chainCalls).facts.employees
          (employeeManagementLevel (runOperations .empty chainCalls).facts.employees e.id)
          e.id root.id := by
  refine ⟨by decide +kernel, ?_⟩
  have hcalls : ∀ call ∈ chainCalls, call.operation.OnEmployees := by
    simp [chainCalls, hired, Operation.OnEmployees]
  exact (sequential_reporting_forest rfl chainCalls hcalls).2.2.1

end Warp
