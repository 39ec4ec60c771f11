import Warp.Reconciliation

/-!
# Overrides of an employee

Creating, changing and removing overrides. A changed override is retired and replaced by a new one.
-/

namespace Warp

open Infra

/-! ## Values -/

/-- `normalize_assignment_value` -/
def normalizeAssignmentValue (definition : AssignmentFieldDefinition) (value : String) :
    Except ServiceError String :=
  let normalized := Text.strip value
  if normalized = "" then
    .error (.assignmentValue
      ("Assignment value for field '" ++ definition.name ++ "' must not be blank") definition.id
      definition.name value)
  else
    match definition.input with
    | .text => .ok normalized
    | .select options =>
      if normalized ∈ options then .ok normalized
      else .error (.assignmentValue
        ("Value '" ++ normalized ++ "' is not an allowed option for field '" ++ definition.name
          ++ "'") definition.id definition.name normalized)

/-! ## Lookups -/

def getEmployee (facts : Facts) (employeeId : ℕ) : Except ServiceError Employee :=
  orRaise (facts.employees.find? employeeId) (.notFound "Employee" employeeId)

theorem getEmployee_eq_ok {facts : Facts} {employeeId : ℕ} {e : Employee}
    (h : getEmployee facts employeeId = .ok e) : e ∈ facts.employees ∧ e.id = employeeId :=
  Table.find?_eq_some.mp (orRaise_eq_ok.mp h)

def getAssignmentFieldDefinition (rules : Rules) (fieldId : ℕ) :
    Except ServiceError AssignmentFieldDefinition :=
  orRaise (rules.assignmentFieldDefinitions.find? fieldId)
    (.notFound "Assignment field definition" fieldId)

/-- An active override of the employee. -/
def getOverride (overrides : Table EmployeeOverride) (employeeId overrideId : ℕ) :
    Except ServiceError EmployeeOverride :=
  orRaise ((overrides.find? overrideId).filter fun o =>
      o.employeeId = employeeId && o.retiredAt.isNone)
    (.employeeOverrideNotFound overrideId employeeId)

/-! ## Cardinality -/

/-- The active overrides of one field of an employee, apart from one of them. -/
def activeFieldOverrides (overrides : Table EmployeeOverride) (employeeId fieldId : ℕ)
    (excludedOverrideId : Option ℕ) : List EmployeeOverride :=
  overrides.select fun o => o.employeeId = employeeId
    && o.assignmentFieldDefinitionId = fieldId && o.retiredAt.isNone
    && some o.id ≠ excludedOverrideId

/-- `_validate_override_cardinality` -/
def validateOverrideCardinality (overrides : Table EmployeeOverride) (employeeId : ℕ)
    (definition : AssignmentFieldDefinition) (value : String) (excludedOverrideId : Option ℕ) :
    Except ServiceError Unit := do
  let existing := activeFieldOverrides overrides employeeId definition.id excludedOverrideId
  ensure (!(definition.cardinality = .one && !existing.isEmpty))
    (.employeeOverrideConflict ("Field '" ++ definition.name
        ++ "' accepts only one override value per employee") employeeId definition.id
      definition.name value)
  ensure (existing.all fun o => o.value ≠ value)
    (.employeeOverrideConflict ("Override value '" ++ value ++ "' already exists for field '"
        ++ definition.name ++ "'") employeeId definition.id definition.name value)

/-! ## Rows -/

def newOverride (id employeeId fieldId : ℕ) (value : String) : EmployeeOverride where
  id := id
  employeeId := employeeId
  assignmentFieldDefinitionId := fieldId
  value := value

def retireOverride (overrides : Table EmployeeOverride) (overrideId : ℕ) (retiredAt : DateTime) :
    Table EmployeeOverride :=
  overrides.modify (fun o => if o.id = overrideId then { o with retiredAt := some retiredAt } else o)
    fun o => by split <;> rfl

theorem mem_retireOverride {overrides : Table EmployeeOverride} {overrideId : ℕ} {now : DateTime}
    {o : EmployeeOverride} :
    o ∈ retireOverride overrides overrideId now ↔
      (o ∈ overrides ∧ o.id ≠ overrideId) ∨
        ∃ r ∈ overrides, r.id = overrideId ∧ { r with retiredAt := some now } = o :=
  Table.mem_modify_if

def Db.withOverrides (db : Db) (overrides : Table EmployeeOverride) : Db :=
  { db with facts := { db.facts with employeeOverrides := overrides } }

def Db.addOverride (db : Db) (o : EmployeeOverride) : Db :=
  { db.withOverrides (db.facts.employeeOverrides.insert o) with
    sequences := { db.sequences with employeeOverride := db.sequences.employeeOverride + 1 } }

def reconcileEmployee (db : Db) (employeeId : ℕ) (actor : Actor) (reconciliationAt : DateTime) :
    Except ServiceError Db :=
  (reconcileEmployees db [employeeId] (some reconciliationAt) actor reconciliationAt).map Prod.fst

/-! ## The service -/

def createEmployeeOverride (db : Db) (employeeId fieldId : ℕ) (value : String) (actor : Actor)
    (now : DateTime) : Except ServiceError (Db × EmployeeOverride) := do
  let employee ← getEmployee db.facts employeeId
  let definition ← getAssignmentFieldDefinition db.facts.toRules fieldId
  let value ← normalizeAssignmentValue definition value
  validateOverrideCardinality db.facts.employeeOverrides employeeId definition value none
  let override := newOverride db.sequences.employeeOverride employee.id definition.id value
  let db := recordAuditLog (db.addOverride override) actor "EmployeeOverride" override.id "created"
    none (some (.override override)) now
  let db ← reconcileEmployee db employee.id actor now
  return (db, override)

/-- The field that an update asks for, or else the one the override has. -/
def targetField (rules : Rules) (override : EmployeeOverride) (fieldId : Option ℕ) :
    Except ServiceError AssignmentFieldDefinition :=
  getAssignmentFieldDefinition rules (fieldId.getD override.assignmentFieldDefinitionId)

def updateEmployeeOverride (db : Db) (employeeId overrideId : ℕ) (fieldId : Option ℕ)
    (value : Option String) (actor : Actor) (now : DateTime) :
    Except ServiceError (Db × EmployeeOverride) := do
  let employee ← getEmployee db.facts employeeId
  let override ← getOverride db.facts.employeeOverrides employeeId overrideId
  let definition ← targetField db.facts.toRules override fieldId
  let targetValue ← normalizeAssignmentValue definition (value.getD override.value)
  if definition.id = override.assignmentFieldDefinitionId ∧ targetValue = override.value then
    return (db, override)
  else do
    validateOverrideCardinality db.facts.employeeOverrides employeeId definition targetValue
      (some override.id)
    let replacement :=
      newOverride db.sequences.employeeOverride employee.id definition.id targetValue
    let retired := db.withOverrides (retireOverride db.facts.employeeOverrides override.id now)
    let db := recordAuditLog (retired.addOverride replacement) actor "EmployeeOverride"
      replacement.id "changed" (some (.override override)) (some (.override replacement)) now
    let db ← reconcileEmployee db employee.id actor now
    return (db, replacement)

def deleteEmployeeOverride (db : Db) (employeeId overrideId : ℕ) (actor : Actor)
    (now : DateTime) : Except ServiceError Db := do
  let employee ← getEmployee db.facts employeeId
  let override ← getOverride db.facts.employeeOverrides employeeId overrideId
  let db := recordAuditLog
    (db.withOverrides (retireOverride db.facts.employeeOverrides override.id now)) actor
    "EmployeeOverride" override.id "removed" (some (.override override)) none now
  reconcileEmployee db employee.id actor now

end Warp
