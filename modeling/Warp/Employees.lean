import Warp.ConditionImpacts
import Warp.TenureScheduling

/-!
# Employees

Creating, changing and deleting employees. Each change is recorded, the employees it concerns are
reconciled, and the tenure events follow the start date.
-/

namespace Warp

open Infra

/-! ## Requests -/

structure EmployeeCreate where
  name : String
  state : String
  department : String
  employeeType : String
  location : Option String := none
  startDate : Date
  managerId : Option ℕ := none
deriving DecidableEq, Repr

/-- `none` stands for a field that is not supplied, `some none` for null. -/
structure EmployeeUpdate where
  name : Option (Option String) := none
  state : Option (Option String) := none
  department : Option (Option String) := none
  employeeType : Option (Option String) := none
  location : Option (Option String) := none
  startDate : Option (Option Date) := none
  managerId : Option (Option ℕ) := none
deriving DecidableEq, Repr

def EmployeeCreate.row (data : EmployeeCreate) (id : ℕ) : Employee where
  id := id
  name := data.name
  state := data.state
  department := data.department
  employeeType := data.employeeType
  location := data.location
  startDate := data.startDate
  managerId := data.managerId

/-- The fields of `EmployeeCreate` -/
def employeeColumns : List String :=
  ["name", "state", "department", "employee_type", "location", "start_date", "manager_id"]

/-- A column that must not be null. -/
def requiredColumn {α : Type} (current : α) : Option (Option α) → Except ServiceError α
  | none => .ok current
  | some none => .error (.integrity "employees")
  | some (some value) => .ok value

/-- The row after the supplied fields are set. -/
def updatedEmployee (e : Employee) (data : EmployeeUpdate) : Except ServiceError Employee := do
  let name ← requiredColumn e.name data.name
  let state ← requiredColumn e.state data.state
  let department ← requiredColumn e.department data.department
  let employeeType ← requiredColumn e.employeeType data.employeeType
  let startDate ← requiredColumn e.startDate data.startDate
  return { id := e.id, name := name, state := state, department := department,
           employeeType := employeeType, location := data.location.getD e.location,
           startDate := startDate, managerId := data.managerId.getD e.managerId }

/-- The fields with another value than before. A field that is not supplied keeps its value. -/
def changedColumns (before after : Employee) : List String :=
  (if before.name ≠ after.name then ["name"] else [])
    ++ (if before.state ≠ after.state then ["state"] else [])
    ++ (if before.department ≠ after.department then ["department"] else [])
    ++ (if before.employeeType ≠ after.employeeType then ["employee_type"] else [])
    ++ (if before.location ≠ after.location then ["location"] else [])
    ++ (if before.startDate ≠ after.startDate then ["start_date"] else [])
    ++ (if before.managerId ≠ after.managerId then ["manager_id"] else [])

/-! ## Rows -/

def Db.withEmployees (db : Db) (employees : Table Employee) : Db :=
  { db with facts := { db.facts with employees := employees } }

def Db.addEmployee (db : Db) (e : Employee) : Db :=
  { db.withEmployees (db.facts.employees.insert e) with
    sequences := { db.sequences with employee := db.sequences.employee + 1 } }

def Db.saveEmployee (db : Db) (e : Employee) : Db :=
  db.withEmployees (db.facts.employees.insert e)

/-- The employees without one, whose reports have no manager then. -/
def withoutEmployee (employees : Table Employee) (employeeId : ℕ) : Table Employee :=
  (employees.filter fun e => e.id ≠ employeeId).modify
    (fun e => if e.managerId = some employeeId then { e with managerId := none } else e)
    fun e => by split <;> rfl

/-- The row with everything that belongs to it. -/
def Db.removeEmployee (db : Db) (employeeId : ℕ) : Db :=
  { db with
    facts :=
      { db.facts with
        employees := withoutEmployee db.facts.employees employeeId
        employeeGroupMemberships :=
          db.facts.employeeGroupMemberships.filter fun m => m.employeeId ≠ employeeId
        employeeOverrides :=
          db.facts.employeeOverrides.filter fun o => o.employeeId ≠ employeeId }
    employeePolicies := db.employeePolicies.filter fun l => l.employeeId ≠ employeeId
    employeeAssignments := db.employeeAssignments.filter fun a => a.employeeId ≠ employeeId }

/-! ## The service -/

/-- The reconciliation of the employees that a change concerns. -/
def reconcileImpacted (db : Db) (mutation : EmployeeMutation) (actor : Actor)
    (reconciliationAt : DateTime) : Except ServiceError Db := do
  let impactedIds ← findImpactedEmployeeIds db.facts mutation
  (reconcileEmployees db impactedIds (some reconciliationAt) actor reconciliationAt).map Prod.fst

def createEmployee (db : Db) (data : EmployeeCreate) (actor : Actor) (now : DateTime) :
    Except ServiceError (Db × Employee) := do
  validateManagerAssignment db.facts.employees none data.managerId
  let employee := data.row db.sequences.employee
  let db := recordAuditLog (db.addEmployee employee) actor "Employee" employee.id "created" none
    (some (.employee employee)) now
  let db ← reconcileImpacted db ⟨employee.id, employeeColumns, none, some employee⟩ actor now
  let db ← syncEmployeeTenureSchedules db employee now
  return (db, employee)

/-- The manager is checked only if the request supplies one. -/
def checkedManager (employees : Table Employee) (employeeId : ℕ) :
    Option (Option ℕ) → Except ServiceError Unit
  | none => .ok ()
  | some managerId => validateManagerAssignment employees (some employeeId) managerId

def syncChangedTenure (db : Db) (employee : Employee) (changed : List String) (now : DateTime) :
    Except ServiceError Db :=
  if changed.contains "start_date" then syncEmployeeTenureSchedules db employee now else .ok db

def updateEmployee (db : Db) (employee : Employee) (data : EmployeeUpdate) (actor : Actor)
    (now : DateTime) : Except ServiceError (Db × Employee) := do
  checkedManager db.facts.employees employee.id data.managerId
  let updated ← updatedEmployee employee data
  let changed := changedColumns employee updated
  if changed = [] then return (db, employee)
  else do
    let action := if changed.contains "manager_id" then "manager_changed" else "changed"
    let db := recordAuditLog (db.saveEmployee updated) actor "Employee" updated.id action
      (some (.employee employee)) (some (.employee updated)) now
    let db ← reconcileImpacted db ⟨updated.id, changed, some employee, some updated⟩ actor now
    let db ← syncChangedTenure db updated changed now
    return (db, updated)

def deleteEmployee (db : Db) (employee : Employee) (actor : Actor) (now : DateTime) :
    Except ServiceError Db := do
  let impactedIds := getDescendantIds db.facts.employees employee.id ∪ employee.managerId.toFinset
  let db := recordAuditLog
    ((cancelPendingReconciliations db .employee [employee.id] []).removeEmployee employee.id)
    actor "Employee" employee.id "deleted" (some (.employee employee)) none now
  (reconcileEmployees db (sortedSet impactedIds) (some now) actor now).map Prod.fst

end Warp
