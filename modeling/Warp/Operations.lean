import Warp.Employees
import Warp.Groups
import Warp.PolicyAuthoring

/-!
# Operations

Everything that changes the facts of the system, and the worker, as operations on the database. Each
runs in a transaction of its own: one that fails leaves nothing behind.
-/

namespace Warp

open Infra

inductive Operation where
  | createEmployee (data : EmployeeCreate)
  | updateEmployee (employeeId : ℕ) (data : EmployeeUpdate)
  | deleteEmployee (employeeId : ℕ)
  | refreshEmployee (employeeId : ℕ)
  | createPolicy (data : PolicyCreate)
  | addVersion (policyId : ℕ) (data : PolicyVersionCreate)
  | updatePolicy (policyId : ℕ) (data : PolicyUpdate)
  | createGroup (name : String)
  | updateGroup (groupId : ℕ) (name : Option String)
  | addEmployeeToGroup (groupId employeeId : ℕ)
  | removeEmployeeFromGroup (groupId employeeId : ℕ)
  | addPolicyToGroup (groupId policyId : ℕ)
  | removePolicyFromGroup (groupId policyId : ℕ)
  | updateGroupPolicies (groupId : ℕ) (addPolicyIds removePolicyIds : List ℕ)
  | createOverride (employeeId fieldId : ℕ) (value : String)
  | updateOverride (employeeId overrideId : ℕ) (fieldId : Option ℕ) (value : Option String)
  | deleteOverride (employeeId overrideId : ℕ)
  | reconcileDue (limit : ℕ)

/-- The database after the operation. The routes load the employee that an operation is about. -/
def runOperation (db : Db) (actor : Actor) (now : DateTime) : Operation → Except ServiceError Db
  | .createEmployee data => (createEmployee db data actor now).map Prod.fst
  | .updateEmployee employeeId data => do
    let employee ← getEmployee db.facts employeeId
    (updateEmployee db employee data actor now).map Prod.fst
  | .deleteEmployee employeeId => do
    let employee ← getEmployee db.facts employeeId
    deleteEmployee db employee actor now
  | .refreshEmployee employeeId => do
    let employee ← getEmployee db.facts employeeId
    reconcileEmployee db employee.id actor now
  | .createPolicy data => (createPolicy db data actor now).map Prod.fst
  | .addVersion policyId data => (addVersion db policyId data actor now).map Prod.fst
  | .updatePolicy policyId data => (updatePolicy db policyId data actor now).map Prod.fst
  | .createGroup name => .ok (createGroup db name actor now).1
  | .updateGroup groupId name => (updateGroup db groupId name actor now).map Prod.fst
  | .addEmployeeToGroup groupId employeeId =>
    (addEmployeeToGroup db groupId employeeId actor now).map Prod.fst
  | .removeEmployeeFromGroup groupId employeeId =>
    removeEmployeeFromGroup db groupId employeeId actor now
  | .addPolicyToGroup groupId policyId =>
    (addPolicyToGroup db groupId policyId actor now).map Prod.fst
  | .removePolicyFromGroup groupId policyId => removePolicyFromGroup db groupId policyId actor now
  | .updateGroupPolicies groupId addPolicyIds removePolicyIds =>
    updateGroupPolicies db groupId addPolicyIds removePolicyIds actor now
  | .createOverride employeeId fieldId value =>
    (createEmployeeOverride db employeeId fieldId value actor now).map Prod.fst
  | .updateOverride employeeId overrideId fieldId value =>
    (updateEmployeeOverride db employeeId overrideId fieldId value actor now).map Prod.fst
  | .deleteOverride employeeId overrideId => deleteEmployeeOverride db employeeId overrideId actor now
  | .reconcileDue limit => (reconcileDueEvents db now limit).map Prod.fst

structure OperationCall where
  actor : Actor
  now : DateTime
  operation : Operation

/-- The transaction of the call is rolled back if it fails. -/
def operationStep (db : Db) (call : OperationCall) : Db :=
  match runOperation db call.actor call.now call.operation with
  | .ok db' => db'
  | .error _ => db

def runOperations (db : Db) (calls : List OperationCall) : Db :=
  calls.foldl operationStep db

end Warp
