import Warp.EmployeeOverrides
import Warp.Infra.Numbering

/-!
# Concurrent changes of overrides

The transactions that create, change and remove overrides, with the statements that read or write
`employee_overrides`. No unique key of that table speaks about the active overrides. The catalog and
the employees stay as they are.
-/

namespace Warp

open Infra

inductive OverrideOp where
  | create (employeeId fieldId : ℕ) (value : String)
  | insertRow (employeeId fieldId : ℕ) (value : String)
  | update (employeeId overrideId : ℕ) (fieldId : Option ℕ) (value : Option String) (now : DateTime)
  | checkUpdate (override : EmployeeOverride) (fieldId : Option ℕ) (value : Option String)
      (now : DateTime)
  | replaceRow (overrideId employeeId fieldId : ℕ) (value : String) (now : DateTime)
  | delete (employeeId overrideId : ℕ) (now : DateTime)
  | retireRow (overrideId : ℕ) (now : DateTime)

inductive OverrideWrite where
  | insert (o : EmployeeOverride)
  | retire (overrideId : ℕ) (now : DateTime)

def applyOverrideWrite (overrides : Table EmployeeOverride) : OverrideWrite → Table EmployeeOverride
  | .insert o => overrides.insert o
  | .retire overrideId now => retireOverride overrides overrideId now

/-- The update of `retired_at` locks the row. -/
def lockOverrideRows : OverrideOp → List ℕ
  | .replaceRow overrideId .. => [overrideId]
  | .retireRow overrideId _ => [overrideId]
  | _ => []

def requireOverrideRow (overrides : Table EmployeeOverride) (overrideId : ℕ) :
    Except ServiceError Unit :=
  ensure (overrides.find? overrideId).isSome (.staleData "employee_overrides")

def runOverrideOp (facts : Facts) (n : ℕ) (overrides : Table EmployeeOverride) :
    OverrideOp → Except ServiceError (List OverrideOp × List OverrideWrite)
  | .create employeeId fieldId value => do
    let employee ← getEmployee facts employeeId
    let definition ← getAssignmentFieldDefinition facts.toRules fieldId
    let value ← normalizeAssignmentValue definition value
    validateOverrideCardinality overrides employeeId definition value none
    return ([.insertRow employee.id definition.id value], [])
  | .insertRow employeeId fieldId value =>
    .ok ([], [.insert (newOverride n employeeId fieldId value)])
  | .update employeeId overrideId fieldId value now => do
    let _ ← getEmployee facts employeeId
    let override ← getOverride overrides employeeId overrideId
    return ([.checkUpdate override fieldId value now], [])
  | .checkUpdate override fieldId value now => do
    let definition ← targetField facts.toRules override fieldId
    let targetValue ← normalizeAssignmentValue definition (value.getD override.value)
    if definition.id = override.assignmentFieldDefinitionId ∧ targetValue = override.value then
      return ([], [])
    else do
      validateOverrideCardinality overrides override.employeeId definition targetValue
        (some override.id)
      return ([.replaceRow override.id override.employeeId definition.id targetValue now], [])
  | .replaceRow overrideId employeeId fieldId value now => do
    requireOverrideRow overrides overrideId
    return ([], [.retire overrideId now, .insert (newOverride n employeeId fieldId value)])
  | .delete employeeId overrideId now => do
    let _ ← getEmployee facts employeeId
    let override ← getOverride overrides employeeId overrideId
    return ([.retireRow override.id now], [])
  | .retireRow overrideId now => do
    requireOverrideRow overrides overrideId
    return ([], [.retire overrideId now])

def overrideCode (facts : Facts) :
    Code (Table EmployeeOverride) OverrideWrite OverrideOp ServiceError ℕ where
  apply := applyOverrideWrite
  locks _ _ op := lockOverrideRows op
  exec n _ overrides op := runOverrideOp facts n overrides op

/-! ## Requests -/

inductive OverrideTransaction where
  | createEmployeeOverride (employeeId fieldId : ℕ) (value : String)
  | updateEmployeeOverride (employeeId overrideId : ℕ) (fieldId : Option ℕ) (value : Option String)
      (now : DateTime)
  | deleteEmployeeOverride (employeeId overrideId : ℕ) (now : DateTime)

def OverrideTransaction.op : OverrideTransaction → OverrideOp
  | .createEmployeeOverride employeeId fieldId value => .create employeeId fieldId value
  | .updateEmployeeOverride employeeId overrideId fieldId value now =>
    .update employeeId overrideId fieldId value now
  | .deleteEmployeeOverride employeeId overrideId now => .delete employeeId overrideId now

abbrev OverrideWorld := World (Table EmployeeOverride) OverrideWrite OverrideOp ServiceError ℕ

def overrideWorld (overrides : Table EmployeeOverride) (transactions : List OverrideTransaction)
    (sequence : ℕ) : OverrideWorld :=
  World.init overrides (transactions.map fun transaction => [transaction.op]) sequence

end Warp
