import Warp.Overrides

/-!
# The database

The facts together with everything the services derive from them: policy links, assignment history,
scheduled events and the audit log. Ids come from sequences, which never hand out an id twice.
-/

namespace Warp

open Infra

/-! ## Derived rows -/

structure EmployeePolicy where
  employeeId : ℕ
  policyId : ℕ
deriving DecidableEq, Repr

/-- A value that an employee has from `effectiveFrom` until `effectiveUntil`, or still has. -/
structure EmployeeAssignment where
  id : ℕ
  employeeId : ℕ
  assignmentFieldDefinitionId : ℕ
  value : String
  sourcePolicyVersionId : Option ℕ
  sourceOverrideId : Option ℕ
  explanation : Explanation
  effectiveFrom : DateTime
  effectiveUntil : Option DateTime
deriving DecidableEq, Repr

def EmployeeAssignment.identity (a : EmployeeAssignment) : AssignmentIdentity where
  assignmentFieldDefinitionId := a.assignmentFieldDefinitionId
  value := a.value
  sourcePolicyVersionId := a.sourcePolicyVersionId
  sourceOverrideId := a.sourceOverrideId

inductive EntityType where
  | policyVersion
  | employee
  | employeeOverride
deriving DecidableEq, Repr

def EntityType.text : EntityType → String
  | .policyVersion => "PolicyVersion"
  | .employee => "Employee"
  | .employeeOverride => "EmployeeOverride"

inductive TriggerType where
  | becomesEffective
  | expires
  | tenureThreshold
deriving DecidableEq, Repr

def TriggerType.text : TriggerType → String
  | .becomesEffective => "becomes_effective"
  | .expires => "expires"
  | .tenureThreshold => "tenure_threshold"

/-- A processed event has a `processed_at`, the others have none. -/
inductive EventStatus where
  | pending
  | processed (processedAt : DateTime)
  | cancelled
deriving DecidableEq, Repr

structure ScheduledReconciliation where
  id : ℕ
  entityType : EntityType
  entityId : ℕ
  triggerType : TriggerType
  scheduledAt : DateTime
  status : EventStatus
deriving DecidableEq, Repr

/-! ## The audit log -/

/-- What an audit entry keeps of a row. -/
inductive Snapshot where
  | employee (e : Employee)
  | group (g : Group)
  | policy (p : Policy)
  | policyVersion (v : PolicyVersion) (values : List PolicyFieldValue)
      (compiledClauses : List (List (String × Operator × String)))
  | override (o : EmployeeOverride)
  | assignment (a : EmployeeAssignment) (field : Option String)
  | membership (m : EmployeeGroupMembership)
  | groupPolicy (gp : GroupPolicy)
deriving DecidableEq, Repr

structure AuditLog where
  id : ℕ
  actor : String
  entityType : String
  entityId : ℕ
  action : String
  before : Option Snapshot
  after : Option Snapshot
  timestamp : DateTime
deriving DecidableEq, Repr

/-- An actor that `record_audit_log` accepts: 1 to 200 characters once stripped. -/
structure Actor where
  name : String
  valid : Text.strip name = name ∧ 1 ≤ name.length ∧ name.length ≤ 200

def Actor.ofText? (text : String) : Option Actor :=
  if h : Text.strip (Text.strip text) = Text.strip text ∧ 1 ≤ (Text.strip text).length ∧
      (Text.strip text).length ≤ 200 then
    some ⟨Text.strip text, h⟩
  else none

def Actor.system : Actor := ⟨"system", by decide +kernel⟩

/-! ## Tables -/

instance : Row EmployeePolicy (ℕ ×ₗ ℕ) := ⟨fun r => toLex (r.employeeId, r.policyId)⟩
instance : Row EmployeeAssignment ℕ := ⟨fun r => r.id⟩
instance : Row ScheduledReconciliation ℕ := ⟨fun r => r.id⟩
instance : Row AuditLog ℕ := ⟨fun r => r.id⟩

/-- The next id of each table. -/
structure Sequences where
  assignmentFieldDefinition : ℕ := 1
  conditionFieldDefinition : ℕ := 1
  conditionFieldDependency : ℕ := 1
  policy : ℕ := 1
  policyVersion : ℕ := 1
  compiledPolicyClause : ℕ := 1
  compiledPolicyCondition : ℕ := 1
  employee : ℕ := 1
  group : ℕ := 1
  employeeOverride : ℕ := 1
  employeeAssignment : ℕ := 1
  scheduledReconciliation : ℕ := 1
  auditLog : ℕ := 1
deriving DecidableEq, Repr

structure Db where
  facts : Facts
  employeePolicies : Table EmployeePolicy
  employeeAssignments : Table EmployeeAssignment
  scheduledReconciliations : Table ScheduledReconciliation
  auditLogs : Table AuditLog
  sequences : Sequences

def Db.empty : Db where
  facts := .empty
  employeePolicies := .empty
  employeeAssignments := .empty
  scheduledReconciliations := .empty
  auditLogs := .empty
  sequences := {}

/-- `record_audit_log` -/
def recordAuditLog (db : Db) (actor : Actor) (entityType : String) (entityId : ℕ) (action : String)
    (before after : Option Snapshot) (timestamp : DateTime) : Db :=
  { db with
    auditLogs := db.auditLogs.insert
      { id := db.sequences.auditLog
        actor := actor.name
        entityType := entityType
        entityId := entityId
        action := action
        before := before
        after := after
        timestamp := timestamp }
    sequences := { db.sequences with auditLog := db.sequences.auditLog + 1 } }

end Warp
