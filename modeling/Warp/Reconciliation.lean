import Warp.Database
import Warp.Infra.KeyedSync
import Warp.Infra.Periods

/-!
# Reconciliation

Brings the open assignment rows of an employee in line with the desired assignments: rows that are
still desired stay, the others end, and what is missing starts at the time of the reconciliation.
-/

namespace Warp

open Infra

instance : Period EmployeeAssignment DateTime where
  start a := a.effectiveFrom
  stop a := a.effectiveUntil

/-! ## Keys -/

/-- `_stable_explanation` and `json.dumps` -/
def stableExplanation (e : Explanation) : String := (e.toJson.without "evaluation_date").dumps

/-- `_assignment_key` -/
abbrev AssignmentKey := AssignmentIdentity × String

def FinalAssignment.assignmentKey (item : FinalAssignment) : AssignmentKey :=
  (item.identity, stableExplanation item.explanation)

def EmployeeAssignment.assignmentKey (a : EmployeeAssignment) : AssignmentKey :=
  (a.identity, stableExplanation a.explanation)

/-! ## Queries -/

/-- `resolve_employee_assignments`: the values of the persisted policy links. -/
def resolveEmployeeAssignments (db : Db) (employeeId : ℕ) (evaluationDate : Date) :
    Except ServiceError (List ResolvedAssignment) :=
  resolvePolicyAssignments db.facts.toRules
    ((db.employeePolicies.select fun l => l.employeeId = employeeId).map fun l => l.policyId)
    evaluationDate none

def employeeRows (db : Db) (employeeId : ℕ) : List EmployeeAssignment :=
  db.employeeAssignments.select fun a => a.employeeId = employeeId

/-- The rows that are read `FOR UPDATE`. -/
def openAssignments (db : Db) (employeeId : ℕ) : List EmployeeAssignment :=
  db.employeeAssignments.select fun a => a.employeeId = employeeId && a.effectiveUntil.isNone

def EmployeeAssignment.validAt (a : EmployeeAssignment) (asOf : DateTime) : Bool :=
  a.effectiveFrom ≤ asOf && (match a.effectiveUntil with
    | none => true
    | some u => asOf < u)

/-- `get_employee_assignments_as_of` -/
def getEmployeeAssignmentsAsOf (db : Db) (employeeId : ℕ) (asOf : DateTime) :
    List EmployeeAssignment :=
  orderBy (fun a => toLex (a.assignmentFieldDefinitionId, toLex (a.value, a.id)))
    (db.employeeAssignments.select fun a => a.employeeId = employeeId && a.validAt asOf)

def latestStart? (db : Db) (employeeId : ℕ) : Option DateTime :=
  ((employeeRows db employeeId).map fun a => a.effectiveFrom).max?

def rejectOutOfOrderReconciliation (db : Db) (employeeId : ℕ) (reconciliationAt : DateTime) :
    Except ServiceError Unit :=
  match latestStart? db employeeId with
  | none => .ok ()
  | some latest =>
    ensure (latest ≤ reconciliationAt)
      (.assignmentReconciliationOrder employeeId reconciliationAt latest)

def reconciliationTimestamp (evaluationDate : Option Date) (reconciliationAt : Option DateTime)
    (now : DateTime) : DateTime :=
  match reconciliationAt, evaluationDate with
  | some t, _ => t
  | none, some day => startOfDay day
  | none, none => now

/-- The desired assignments: given by the caller, or resolved from the policy links. -/
def finalAssignments (db : Db) (employeeId : ℕ) (evaluationDate : Date)
    (desired : Option (List FinalAssignment)) : Except ServiceError (List FinalAssignment) :=
  match desired with
  | some items => .ok items
  | none =>
    (resolveEmployeeAssignments db employeeId evaluationDate).map fun resolved =>
      applyEmployeeOverrides db.facts.toRules resolved (activeOverrides db.facts employeeId)

/-- `desired_by_key` -/
def desiredByKey (items : List FinalAssignment) : Dict AssignmentKey FinalAssignment :=
  .ofList (items.map fun item => (item.assignmentKey, item))

/-- The open rows against the desired assignments. -/
def syncAssignments (db : Db) (employeeId : ℕ) (items : List FinalAssignment) :
    KeyedSync EmployeeAssignment AssignmentKey FinalAssignment :=
  syncRows EmployeeAssignment.assignmentKey (openAssignments db employeeId) (desiredByKey items)

/-! ## Ending and creating rows -/

def fieldName (rules : Rules) (fieldId : ℕ) : Option String :=
  (rules.assignmentFieldDefinitions.find? fieldId).map fun f => f.name

/-- A row that would be valid for no time is deleted. -/
def endRow (effectiveAt : DateTime) (rows : Table EmployeeAssignment) (a : EmployeeAssignment) :
    Table EmployeeAssignment :=
  if a.effectiveFrom = effectiveAt then rows.filter fun r => r.id ≠ a.id
  else rows.modify (fun r => if r.id = a.id then { r with effectiveUntil := some effectiveAt } else r)
    fun r => by split <;> rfl

def endAssignment (effectiveAt : DateTime) (actor : Actor) (db : Db) (a : EmployeeAssignment) : Db :=
  recordAuditLog
    { db with employeeAssignments := endRow effectiveAt db.employeeAssignments a }
    actor "EmployeeAssignment" a.id "ended"
    (some (.assignment a (fieldName db.facts.toRules a.assignmentFieldDefinitionId))) none
    effectiveAt

def newAssignment (id employeeId : ℕ) (effectiveAt : DateTime) (item : FinalAssignment) :
    EmployeeAssignment where
  id := id
  employeeId := employeeId
  assignmentFieldDefinitionId := item.assignmentFieldDefinitionId
  value := item.value
  sourcePolicyVersionId := item.sourcePolicyVersionId
  sourceOverrideId := item.sourceOverrideId
  explanation := item.explanation
  effectiveFrom := effectiveAt
  effectiveUntil := none

def createAssignment (actor : Actor) (db : Db) (a : EmployeeAssignment) : Db :=
  recordAuditLog
    { db with
      employeeAssignments := db.employeeAssignments.insert a
      sequences := { db.sequences with employeeAssignment := a.id + 1 } }
    actor "EmployeeAssignment" a.id "created" none
    (some (.assignment a (fieldName db.facts.toRules a.assignmentFieldDefinitionId)))
    a.effectiveFrom

/-- The rows for the entries that no row has, numbered from `id`. -/
def newAssignments (employeeId : ℕ) (effectiveAt : DateTime) :
    ℕ → List FinalAssignment → List EmployeeAssignment
  | _, [] => []
  | id, item :: rest =>
    newAssignment id employeeId effectiveAt item
      :: newAssignments employeeId effectiveAt (id + 1) rest

/-! ## Refreshing an employee -/

/-- Writes the outcome of the synchronisation. -/
def writeAssignments (db : Db) (employeeId : ℕ) (effectiveAt : DateTime) (actor : Actor)
    (sync : KeyedSync EmployeeAssignment AssignmentKey FinalAssignment) : Db :=
  (newAssignments employeeId effectiveAt db.sequences.employeeAssignment
    sync.leftover.values).foldl (createAssignment actor)
      (sync.ended.foldl (endAssignment effectiveAt actor) db)

/-- The rows that are open afterwards, by field and value. -/
def activeAssignments (db : Db) (employeeId : ℕ) (effectiveAt : DateTime)
    (sync : KeyedSync EmployeeAssignment AssignmentKey FinalAssignment) : List EmployeeAssignment :=
  orderBy (fun a => toLex (a.assignmentFieldDefinitionId, toLex (a.value, a.id)))
    (sync.kept ++ newAssignments employeeId effectiveAt db.sequences.employeeAssignment
      sync.leftover.values)

def refreshEmployeeAssignments (db : Db) (employeeId : ℕ) (evaluationDate : Option Date)
    (reconciliationAt : Option DateTime) (actor : Actor) (desired : Option (List FinalAssignment))
    (now : DateTime) : Except ServiceError (Db × List EmployeeAssignment) :=
  match rejectOutOfOrderReconciliation db employeeId
      (reconciliationTimestamp evaluationDate reconciliationAt now) with
  | .error e => .error e
  | .ok () =>
    match finalAssignments db employeeId (evaluationDate.getD
        (reconciliationTimestamp evaluationDate reconciliationAt now).date) desired with
    | .error e => .error e
    | .ok items =>
      .ok (writeAssignments db employeeId
          (reconciliationTimestamp evaluationDate reconciliationAt now) actor
          (syncAssignments db employeeId items),
        activeAssignments db employeeId
          (reconciliationTimestamp evaluationDate reconciliationAt now)
          (syncAssignments db employeeId items))

/-! ## Reconciling a batch -/

/-- `replace_employee_policies` -/
def replaceEmployeePolicies (db : Db) (employeeId : ℕ) (policyIds : List ℕ) : Db :=
  { db with
    employeePolicies := policyIds.foldl (fun links policyId => links.insert ⟨employeeId, policyId⟩)
      (db.employeePolicies.filter fun l => l.employeeId ≠ employeeId) }

/-- The batch: sorted, without duplicates and unknown ids. -/
def presentEmployees (facts : Facts) (employeeIds : List ℕ) : List ℕ :=
  (sortedSet employeeIds.toFinset).filter fun id => (facts.employees.find? id).isSome

def applyResolution (effectiveAt : DateTime) (actor : Actor)
    (state : Db × List (ℕ × List EmployeeAssignment)) (resolution : EmployeeAssignmentResolution) :
    Except ServiceError (Db × List (ℕ × List EmployeeAssignment)) :=
  match refreshEmployeeAssignments
      (replaceEmployeePolicies state.1 resolution.employeeId resolution.policyIds)
      resolution.employeeId (some effectiveAt.date) (some effectiveAt) actor
      (some resolution.assignments) effectiveAt with
  | .error e => .error e
  | .ok (db, rows) => .ok (db, state.2 ++ [(resolution.employeeId, rows)])

/-- Reconciles a deduplicated employee batch at one consistent instant. -/
def reconcileEmployees (db : Db) (employeeIds : List ℕ) (reconciliationAt : Option DateTime)
    (actor : Actor) (now : DateTime) : Except ServiceError (Db × List (ℕ × List EmployeeAssignment)) :=
  match traverseAll (fun id => resolveEmployeeAssignmentsForDate db.facts id
      (reconciliationAt.getD now).date) (presentEmployees db.facts employeeIds) with
  | .error e => .error e
  | .ok resolutions => runAll (applyResolution (reconciliationAt.getD now) actor) (db, []) resolutions

end Warp
