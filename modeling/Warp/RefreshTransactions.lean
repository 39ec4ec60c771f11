import Warp.Infra.Numbering
import Warp.Reconciliation

/-!
# Concurrent refreshes

The transactions that refresh employees, with their statements on assignment rows and the audit log.
What every employee should have was resolved before, and may be anything. A `SELECT ... FOR UPDATE`
finds its rows when it begins, locks one after the other, and leaves out those that another
transaction has ended meanwhile. Employees stay as they are.
-/

namespace Warp

open Infra

/-- One call of `refresh_employee_assignments`. -/
structure RefreshRequest where
  employeeId : ℕ
  desired : List FinalAssignment
  effectiveAt : DateTime
  actor : Actor

inductive RefreshOp where
  | refresh (request : RefreshRequest)
  | selectOpen (request : RefreshRequest)
  | lockRows (request : RefreshRequest) (found locked : List ℕ)
  | endRow (request : RefreshRequest) (a : EmployeeAssignment)
  | insertRow (request : RefreshRequest) (item : FinalAssignment)
  | recordCreated (request : RefreshRequest) (a : EmployeeAssignment)

inductive RefreshWrite where
  | endRow (a : EmployeeAssignment) (effectiveAt : DateTime)
  | insertRow (a : EmployeeAssignment)
  | record (entry : AuditLog)

def applyRefreshWrite (db : Db) : RefreshWrite → Db
  | .endRow a effectiveAt =>
    { db with employeeAssignments := endRow effectiveAt db.employeeAssignments a }
  | .insertRow a => { db with employeeAssignments := db.employeeAssignments.insert a }
  | .record entry => { db with auditLogs := db.auditLogs.insert entry }

/-- A row that has been deleted meanwhile is not locked. -/
def lockAssignmentRows (db : Db) : RefreshOp → List ℕ
  | .lockRows _ (assignmentId :: _) _ =>
    if (db.employeeAssignments.find? assignmentId).isSome then [assignmentId] else []
  | .endRow _ a => [a.id]
  | _ => []

/-- `ck_employee_assignment_exactly_one_source` -/
def FinalAssignment.hasOneSource (item : FinalAssignment) : Bool :=
  item.sourcePolicyVersionId.isSome != item.sourceOverrideId.isSome

def assignmentEntry (n : ℕ) (request : RefreshRequest) (action : String)
    (a : EmployeeAssignment) (before after : Option Snapshot) : AuditLog where
  id := n
  actor := request.actor.name
  entityType := "EmployeeAssignment"
  entityId := a.id
  action := action
  before := before
  after := after
  timestamp := request.effectiveAt

def snapshotAssignment (db : Db) (a : EmployeeAssignment) : Snapshot :=
  .assignment a (fieldName db.facts.toRules a.assignmentFieldDefinitionId)

/-- The rows that the `SELECT ... FOR UPDATE` returns. -/
def lockedAssignments (db : Db) (employeeId : ℕ) (locked : List ℕ) : List EmployeeAssignment :=
  (openAssignments db employeeId).filter fun a => locked.contains a.id

def runRefreshOp (n : ℕ) (db : Db) :
    RefreshOp → Except ServiceError (List RefreshOp × List RefreshWrite)
  | .refresh request => do
    rejectOutOfOrderReconciliation db request.employeeId request.effectiveAt
    return ([.selectOpen request], [])
  | .selectOpen request =>
    .ok ([.lockRows request ((openAssignments db request.employeeId).map fun a => a.id) []], [])
  | .lockRows request (assignmentId :: found) locked =>
    -- the condition is checked again on the row that is locked
    if (openAssignments db request.employeeId).any fun a => a.id = assignmentId then
      .ok ([.lockRows request found (assignmentId :: locked)], [])
    else .ok ([.lockRows request found locked], [])
  | .lockRows request [] locked =>
    let sync := syncRows EmployeeAssignment.assignmentKey
      (lockedAssignments db request.employeeId locked) (desiredByKey request.desired)
    .ok (sync.ended.map (.endRow request) ++ sync.leftover.values.map (.insertRow request), [])
  | .endRow request a => do
    -- `ck_employee_assignment_valid_effective_range`
    ensure (a.effectiveFrom ≤ request.effectiveAt) (.integrity "employee_assignments")
    return ([], [.endRow a request.effectiveAt,
      .record (assignmentEntry n request "ended" a (some (snapshotAssignment db a)) none)])
  | .insertRow request item => do
    ensure item.hasOneSource (.integrity "employee_assignments")
    let a := newAssignment n request.employeeId request.effectiveAt item
    return ([.recordCreated request a], [.insertRow a])
  | .recordCreated request a =>
    .ok ([], [.record (assignmentEntry n request "created" a none (some (snapshotAssignment db a)))])

def refreshCode : Code Db RefreshWrite RefreshOp ServiceError ℕ where
  apply := applyRefreshWrite
  locks _ db op := lockAssignmentRows db op
  exec n _ db op := runRefreshOp n db op

/-- A transaction refreshes some employees, one after the other. -/
abbrev RefreshTransaction := List RefreshRequest

/-- One counter numbers the rows of all tables. -/
def refreshWorld (db : Db) (transactions : List RefreshTransaction) :
    World Db RefreshWrite RefreshOp ServiceError ℕ :=
  World.init db (transactions.map fun requests => requests.map .refresh)
    (max db.sequences.employeeAssignment db.sequences.auditLog)

end Warp
