import Warp.Operations
import Warp.Properties.ImpactedEmployees
import Warp.Properties.ReportingTree
import Warp.Properties.TenureTransitions

/-!
# Whom an operation on an employee leaves out

A new, changed or deleted employee changes what conditions see of some others. Whoever is not among
those that the operation reconciles matches the same policies before and after it.
-/

namespace Warp

open Infra

/-! ## Matches that stay the same -/

theorem evaluateConditionWithEvidence_congr {context context' : ConditionEvaluationContext}
    (h : ∀ resolver : Resolver, resolver.resolve context' = resolver.resolve context)
    (definition : ConditionFieldDefinition) (operator : Operator) (value : String) :
    evaluateConditionWithEvidence context' definition operator value =
      evaluateConditionWithEvidence context definition operator value := by
  simp only [evaluateConditionWithEvidence, h]

theorem matchedClauses_congr {context context' : ConditionEvaluationContext}
    (h : ∀ resolver : Resolver, resolver.resolve context' = resolver.resolve context)
    (rules : Rules) (versionIds : List ℕ) :
    matchedClauses rules context' versionIds = matchedClauses rules context versionIds := by
  have hcondition : evaluateCompiledCondition rules context' =
      evaluateCompiledCondition rules context := by
    funext condition
    simp only [evaluateCompiledCondition, evaluateConditionWithEvidence_congr h]
  have hclause : evaluateClause rules context' = evaluateClause rules context := by
    funext clause
    simp only [evaluateClause, hcondition]
  simp only [matchedClauses, hclause]

/-- With the same rules, the same groups and the same look at the reporting lines, an employee matches
the same policies with the same evidence. -/
theorem findPolicyMatches_congr {facts facts' : Facts} {x : Employee} {day : Date}
    (hrules : facts'.toRules = facts.toRules) (hx : x ∈ facts.employees)
    (hx' : x ∈ facts'.employees) (hgroups : groupRows facts' x.id = groupRows facts x.id)
    (h : SameReporting facts.employees facts'.employees x.id) :
    findPolicyMatches facts' x.id day = findPolicyMatches facts x.id day := by
  have hfind : facts.employees.find? x.id = some x := Table.find?_key hx
  have hfind' : facts'.employees.find? x.id = some x := Table.find?_key hx'
  have hclauses : ∀ versionIds, matchedClauses facts.toRules ⟨facts'.employees, x, day⟩ versionIds =
      matchedClauses facts.toRules ⟨facts.employees, x, day⟩ versionIds :=
    matchedClauses_congr (fun resolver => h.resolve resolver) facts.toRules
  simp only [findPolicyMatches, hfind, hfind', hrules, hclauses, matchOrigins, hgroups]

/-! ## The operations -/

/-- The ids that the operation reconciles. -/
def impactedIds (db : Db) : Operation → Except ServiceError (List ℕ)
  | .createEmployee data =>
    let employee := data.row db.sequences.employee
    findImpactedEmployeeIds (db.addEmployee employee).facts
      ⟨employee.id, employeeColumns, none, some employee⟩
  | .updateEmployee employeeId data => do
    let employee ← getEmployee db.facts employeeId
    let updated ← updatedEmployee employee data
    findImpactedEmployeeIds (db.saveEmployee updated).facts
      ⟨updated.id, changedColumns employee updated, some employee, some updated⟩
  | .deleteEmployee employeeId => do
    let employee ← getEmployee db.facts employeeId
    return sortedSet
      (getDescendantIds db.facts.employees employee.id ∪ employee.managerId.toFinset)
  | _ => .ok []

/-- The employee that the operation is about. -/
def operationEmployee (db : Db) : Operation → ℕ
  | .updateEmployee employeeId _ => employeeId
  | .deleteEmployee employeeId => employeeId
  | _ => db.sequences.employee

/-- The employee is there as before, every condition field has its value, and the same policies
match. -/
structure SeenAsBefore (facts facts' : Facts) (x : Employee) : Prop where
  row : x ∈ facts'.employees
  fields : ∀ spec ∈ conditionFieldSpecs, ∀ day, spec.resolver.resolve ⟨facts'.employees, x, day⟩ =
    spec.resolver.resolve ⟨facts.employees, x, day⟩
  policies : ∀ day, findPolicyMatches facts' x.id day = findPolicyMatches facts x.id day

theorem SameReporting.seenAsBefore {facts facts' : Facts} {x : Employee}
    (h : SameReporting facts.employees facts'.employees x.id)
    (hrules : facts'.toRules = facts.toRules) (hx : x ∈ facts.employees)
    (hx' : x ∈ facts'.employees) (hgroups : groupRows facts' x.id = groupRows facts x.id) :
    SeenAsBefore facts facts' x where
  row := hx'
  fields := fun spec _ _ => h.resolve spec.resolver
  policies := fun _ => findPolicyMatches_congr hrules hx hx' hgroups h

/-- The deleted employee leaves the groups of the others as they are. -/
theorem groupRows_removeEmployee (db : Db) {employeeId other : ℕ} (hne : other ≠ employeeId) :
    groupRows (db.removeEmployee employeeId).facts other = groupRows db.facts other := by
  have hmemberships : (db.removeEmployee employeeId).facts.employeeGroupMemberships.select
      (fun m => m.employeeId = other) =
      db.facts.employeeGroupMemberships.select (fun m => m.employeeId = other) := by
    refine Table.select_congr fun m => ?_
    show m ∈ db.facts.employeeGroupMemberships.filter _ ∧ _ ↔ _
    rw [Table.mem_filter, decide_eq_true_eq, decide_eq_true_eq]
    constructor
    · exact fun ⟨⟨hm, _⟩, hother⟩ => ⟨hm, hother⟩
    · exact fun ⟨hm, hother⟩ => ⟨⟨hm, hother.trans_ne hne⟩, hother⟩
  rw [groupRows, hmemberships]
  rfl

section

variable {db db' : Db} {actor : Actor} {now : DateTime}

theorem createEmployee_impact {data : EmployeeCreate} {e : Employee} (hrows : EmployeesSound db)
    (hcatalog : CatalogSynced db.facts.conditionFieldDefinitions db.facts.conditionFieldDependencies)
    (hrun : createEmployee db data actor now = .ok (db', e)) :
    ∃ ids, impactedIds db (.createEmployee data) = .ok ids ∧ ∀ x ∈ db.facts.employees,
      x.id ∉ ids → SeenAsBefore db.facts db'.facts x := by
  simp only [createEmployee, bind_eq_ok, pure_eq_ok] at hrun
  obtain ⟨_, _, db₁, hreconcile, db₂, htenure, hout⟩ := hrun
  cases hout
  have hfacts := (derives_kept
    ((reconcileImpacted_derives hreconcile).trans (derives_syncTenure htenure))).facts
  simp only [reconcileImpacted, bind_eq_ok] at hreconcile
  obtain ⟨ids, hids, _⟩ := hreconcile
  have hfresh : ∀ r ∈ db.facts.employees, r.id ≠ (data.row db.sequences.employee).id :=
    fun r hr => (hrows.fresh r hr).ne
  refine ⟨ids, hids, fun x hx hnot => ?_⟩
  rw [hfacts]
  refine SameReporting.seenAsBefore ?_ rfl hx (Table.mem_insert.mpr (Or.inr ⟨hx, hfresh x hx⟩)) rfl
  exact sameReporting_created hfresh hrows.managers hcatalog hids hx hnot

theorem updateEmployee_impact {data : EmployeeUpdate} {employeeId : ℕ} {e e' : Employee}
    (hcatalog : CatalogSynced db.facts.conditionFieldDefinitions db.facts.conditionFieldDependencies)
    (he : getEmployee db.facts employeeId = .ok e)
    (hrun : updateEmployee db e data actor now = .ok (db', e')) :
    ∃ ids, impactedIds db (.updateEmployee employeeId data) = .ok ids ∧ ∀ x ∈ db.facts.employees,
      x.id ≠ employeeId → x.id ∉ ids → SeenAsBefore db.facts db'.facts x := by
  obtain ⟨hmem, hid⟩ := getEmployee_eq_ok he
  simp only [updateEmployee, bind_eq_ok] at hrun
  obtain ⟨_, _, updated, hupdated, hout⟩ := hrun
  have hsame := (updatedEmployee_eq_ok hupdated).1
  simp only [impactedIds, bind_eq_ok]
  by_cases hnil : changedColumns e updated = []
  · -- nothing changes, and nobody is concerned
    rw [if_pos hnil] at hout
    cases hout
    refine ⟨[], ⟨e, he, updated, hupdated, ?_⟩, fun x hx _ _ => ⟨hx, fun _ _ _ => rfl, fun _ => rfl⟩⟩
    rw [findImpactedEmployeeIds, if_pos hnil]
  · rw [if_neg hnil] at hout
    simp only [bind_eq_ok, pure_eq_ok] at hout
    obtain ⟨db₁, hreconcile, db₂, htenure, hout⟩ := hout
    cases hout
    have hfacts := (derives_kept
      ((reconcileImpacted_derives hreconcile).trans (syncChangedTenure_derives htenure))).facts
    simp only [reconcileImpacted, bind_eq_ok] at hreconcile
    obtain ⟨ids, hids, _⟩ := hreconcile
    refine ⟨ids, ⟨e, he, e', hupdated, hids⟩, fun x hx hne hnot => ?_⟩
    rw [← hid] at hne
    rw [hfacts]
    refine SameReporting.seenAsBefore ?_ rfl hx (Table.mem_insert.mpr (Or.inr ⟨hx, ?_⟩)) rfl
    · exact sameReporting_updated hmem hsame hcatalog hids hx hne hnot
    · show x.id ≠ e'.id
      rw [hsame]
      exact hne

theorem deleteEmployee_impact {employeeId : ℕ} {e : Employee}
    (he : getEmployee db.facts employeeId = .ok e)
    (hrun : deleteEmployee db e actor now = .ok db') :
    ∃ ids, impactedIds db (.deleteEmployee employeeId) = .ok ids ∧ ∀ x ∈ db.facts.employees,
      x.id ≠ employeeId → x.id ∉ ids → SeenAsBefore db.facts db'.facts x := by
  obtain ⟨hmem, hid⟩ := getEmployee_eq_ok he
  have hfacts := (derives_kept (derives_reconcileMap hrun)).facts
  simp only [impactedIds, bind_eq_ok, pure_eq_ok]
  refine ⟨_, ⟨e, he, rfl⟩, fun x hx hne hnot => ?_⟩
  rw [← hid] at hne
  rw [mem_sortedSet, Finset.mem_union, Option.mem_toFinset, not_or] at hnot
  obtain ⟨hx', hsame⟩ := sameReporting_deleted hmem hx hne hnot.2 hnot.1
  rw [hfacts]
  refine SameReporting.seenAsBefore hsame rfl hx hx' ?_
  exact groupRows_removeEmployee db hne

end

/-- Whoever an accepted operation on an employee does not reconcile keeps the value of every condition
field and matches the same policies on every day. -/
theorem employee_impact_complete {db db' : Db} {actor : Actor} {now : DateTime}
    {operation : Operation} (hop : operation.OnEmployees) (hrows : EmployeesSound db)
    (hcatalog : CatalogSynced db.facts.conditionFieldDefinitions db.facts.conditionFieldDependencies)
    (hrun : runOperation db actor now operation = .ok db') :
    ∃ ids, impactedIds db operation = .ok ids ∧ ∀ x ∈ db.facts.employees,
      x.id ≠ operationEmployee db operation → x.id ∉ ids → SeenAsBefore db.facts db'.facts x := by
  cases operation with
  | createEmployee data =>
    obtain ⟨⟨_, e⟩, hcreate, rfl⟩ := exceptMap_eq_ok.mp hrun
    obtain ⟨ids, hids, himpact⟩ := createEmployee_impact hrows hcatalog hcreate
    exact ⟨ids, hids, fun x hx _ => himpact x hx⟩
  | updateEmployee employeeId data =>
    simp only [runOperation, bind_eq_ok, exceptMap_eq_ok] at hrun
    obtain ⟨e, he, ⟨_, e'⟩, hupdate, rfl⟩ := hrun
    exact updateEmployee_impact hcatalog he hupdate
  | deleteEmployee employeeId =>
    simp only [runOperation, bind_eq_ok] at hrun
    obtain ⟨e, he, hdelete⟩ := hrun
    exact deleteEmployee_impact he hdelete
  | _ => exact absurd hop (by simp [Operation.OnEmployees])

/-- Ada over Ben over Cleo, and Dora beside them. -/
def fourEmployees : Db :=
  runOperations laptopDb
    (chainCalls ++ [⟨.system, startOfDay (.on 2026 1 14), hired "Dora" none⟩])

def moveToAda : Operation := .updateEmployee 3 { managerId := some (some 1) }

/-- If Cleo moves from Ben to Ada, then Dora sees nothing of it. -/
theorem employee_impact_complete_move :
    ∃ db', runOperation fourEmployees .system (startOfDay (.on 2026 1 15)) moveToAda = .ok db' ∧
      impactedIds fourEmployees moveToAda = .ok [1, 2, 3] ∧
      ∀ x ∈ fourEmployees.facts.employees, x.id = 4 → SeenAsBefore fourEmployees.facts db'.facts x := by
  have hids : impactedIds fourEmployees moveToAda = .ok [1, 2, 3] := by decide +kernel
  have hrows : EmployeesSound fourEmployees := by constructor <;> decide +kernel
  have hcatalog : CatalogSynced fourEmployees.facts.conditionFieldDefinitions
      fourEmployees.facts.conditionFieldDependencies := by
    constructor <;> unfold Covers <;> decide +kernel
  have haccepted : (runOperation fourEmployees .system (startOfDay (.on 2026 1 15))
      moveToAda).toOption.isSome = true := by decide +kernel
  cases hrun : runOperation fourEmployees .system (startOfDay (.on 2026 1 15)) moveToAda with
  | error e =>
    rw [hrun] at haccepted
    exact absurd haccepted (by simp [Except.toOption])
  | ok db' =>
    refine ⟨db', rfl, hids, fun x hx hid => ?_⟩
    obtain ⟨ids, hids', himpact⟩ := employee_impact_complete (by trivial) hrows hcatalog hrun
    cases hids.symm.trans hids'
    exact himpact x hx (by rw [hid]; decide) (by rw [hid]; decide)

end Warp
