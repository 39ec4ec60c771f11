import Warp.Reconciliation

/-!
# Scheduled reconciliations

Events that make the worker reconcile at a later time. An event belongs to a policy version, an
employee or an override, and a key of four columns identifies it.
-/

namespace Warp

open Infra

/-! ## Events -/

structure EventKey where
  entityType : EntityType
  entityId : ℕ
  triggerType : TriggerType
  scheduledAt : DateTime
deriving DecidableEq, Repr

def ScheduledReconciliation.eventKey (e : ScheduledReconciliation) : EventKey where
  entityType := e.entityType
  entityId := e.entityId
  triggerType := e.triggerType
  scheduledAt := e.scheduledAt

def supportedTriggers : EntityType → List TriggerType
  | .policyVersion => [.becomesEffective, .expires]
  | .employee => [.tenureThreshold]
  | .employeeOverride => [.becomesEffective, .expires]

/-- `_validate_event` -/
def validateEvent (key : EventKey) : Except ServiceError Unit :=
  if key.entityId = 0 then .error (.scheduledReconciliation "entity_id must be positive")
  else ensure ((supportedTriggers key.entityType).contains key.triggerType)
    (.scheduledReconciliation ("Unsupported trigger '" ++ key.triggerType.text ++ "' for "
      ++ key.entityType.text))

def findEvent? (events : Table ScheduledReconciliation) (key : EventKey) :
    Option ScheduledReconciliation :=
  (events.select fun e => e.eventKey = key).head?

def setEventStatus (events : Table ScheduledReconciliation) (eventIds : List ℕ)
    (status : EventStatus) : Table ScheduledReconciliation :=
  events.modify (fun e => if e.id ∈ eventIds then { e with status := status } else e)
    fun e => by split <;> rfl

def newEvent (id : ℕ) (key : EventKey) : ScheduledReconciliation where
  id := id
  entityType := key.entityType
  entityId := key.entityId
  triggerType := key.triggerType
  scheduledAt := key.scheduledAt
  status := .pending

/-! ## Scheduling and cancelling -/

/-- Creates an event, or restores a cancelled one. -/
def scheduleReconciliation (db : Db) (key : EventKey) : Except ServiceError Db :=
  match validateEvent key with
  | .error e => .error e
  | .ok () =>
    match findEvent? db.scheduledReconciliations key with
    | none =>
      .ok { db with
        scheduledReconciliations :=
          db.scheduledReconciliations.insert (newEvent db.sequences.scheduledReconciliation key)
        sequences := { db.sequences with
          scheduledReconciliation := db.sequences.scheduledReconciliation + 1 } }
    | some event =>
      if event.status = .cancelled then
        .ok { db with
          scheduledReconciliations :=
            setEventStatus db.scheduledReconciliations [event.id] .pending }
      else .ok db

/-- The pending events of some entities, except those with a key to keep. -/
def obsoleteEvents (events : Table ScheduledReconciliation) (entityType : EntityType)
    (entityIds : List ℕ) (keep : List EventKey) : List ℕ :=
  (events.select fun e => e.entityType = entityType && entityIds.contains e.entityId
    && e.status = .pending && !keep.contains e.eventKey).map fun e => e.id

def cancelPendingReconciliations (db : Db) (entityType : EntityType) (entityIds : List ℕ)
    (keep : List EventKey) : Db :=
  { db with
    scheduledReconciliations := setEventStatus db.scheduledReconciliations
      (obsoleteEvents db.scheduledReconciliations entityType entityIds keep) .cancelled }

/-- Cancels what is no longer desired and schedules what is. -/
def replaceEvents (db : Db) (entityType : EntityType) (entityIds : List ℕ)
    (desired : List EventKey) : Except ServiceError Db :=
  runAll scheduleReconciliation (cancelPendingReconciliations db entityType entityIds desired)
    desired

/-! ## Events of a policy -/

def policyVersionsOf (rules : Rules) (policyId : ℕ) : List PolicyVersion :=
  orderBy (fun v => v.versionNumber) (rules.policyVersions.select fun v => v.policyId = policyId)

/-- An event on a day, if that is still to come. -/
def futureEvent (entityType : EntityType) (entityId : ℕ) (triggerType : TriggerType) (day : Date)
    (now : DateTime) : List EventKey :=
  if now < startOfDay day then [⟨entityType, entityId, triggerType, startOfDay day⟩] else []

/-- The last day of the calendar has no next day, so a version that ends on it never expires. -/
def versionEvents (now : DateTime) (v : PolicyVersion) : List EventKey :=
  futureEvent .policyVersion v.id .becomesEffective v.effectiveFrom now
    ++ match v.effectiveUntil.bind Date.succ? with
      | none => []
      | some next => futureEvent .policyVersion v.id .expires next now

def desiredVersionEvents (rules : Rules) (policyId : ℕ) (now : DateTime) : List EventKey :=
  if rules.policyActive policyId then
    (policyVersionsOf rules policyId).flatMap (versionEvents now)
  else []

def syncPolicyVersionSchedules (db : Db) (policyId : ℕ) (now : DateTime) :
    Except ServiceError Db :=
  replaceEvents db .policyVersion ((policyVersionsOf db.facts.toRules policyId).map fun v => v.id)
    (desiredVersionEvents db.facts.toRules policyId now)

/-! ## The worker -/

/-- `refresh_employees_affected_by_policy`: every employee is a candidate. -/
def refreshEmployeesAffectedByPolicy (db : Db) (reconciliationAt : DateTime) (actor : Actor) :
    Except ServiceError Db :=
  (reconcileEmployees db (db.facts.employees.rows.map fun e => e.id) (some reconciliationAt) actor
    reconciliationAt).map Prod.fst

def getDueReconciliations (events : Table ScheduledReconciliation) (asOf : DateTime) (limit : ℕ) :
    Except ServiceError (List ScheduledReconciliation) :=
  if limit = 0 then .error (.scheduledReconciliation "limit must be positive")
  else .ok ((orderBy (fun e => toLex (e.scheduledAt, e.id))
    (events.select fun e => e.status = .pending && e.scheduledAt ≤ asOf)).take limit)

/-- What the events of a batch ask for. -/
structure DueEntities where
  policies : Finset ℕ := ∅
  employees : Finset ℕ := ∅
  overrideEmployees : Finset ℕ := ∅
deriving DecidableEq

def collectEntity (facts : Facts) (due : DueEntities) (event : ScheduledReconciliation) :
    Except ServiceError DueEntities :=
  match validateEvent event.eventKey with
  | .error e => .error e
  | .ok () =>
    match event.entityType with
    | .policyVersion =>
      match facts.policyVersions.find? event.entityId with
      | none => .error (.scheduledReconciliationEntityNotFound "PolicyVersion" event.entityId)
      | some version => .ok { due with policies := insert version.policyId due.policies }
    | .employee =>
      match facts.employees.find? event.entityId with
      | none => .error (.scheduledReconciliationEntityNotFound "Employee" event.entityId)
      | some employee => .ok { due with employees := insert employee.id due.employees }
    | .employeeOverride =>
      match facts.employeeOverrides.find? event.entityId with
      | none => .error (.scheduledReconciliationEntityNotFound "EmployeeOverride" event.entityId)
      | some override =>
        .ok { due with overrideEmployees := insert override.employeeId due.overrideEmployees }

def reconcileDueEmployee (processedAt : DateTime) (db : Db) (employeeId : ℕ) :
    Except ServiceError Db :=
  (reconcileEmployees db [employeeId] (some processedAt) .system processedAt).map Prod.fst

def refreshOverrideEmployee (processedAt : DateTime) (db : Db) (employeeId : ℕ) :
    Except ServiceError Db :=
  (refreshEmployeeAssignments db employeeId (some processedAt.date) (some processedAt) .system none
    processedAt).map Prod.fst

/-- Policies first, each with all employees, then the employees of the other events. -/
def reconcileEntities (db : Db) (due : DueEntities) (processedAt : DateTime) :
    Except ServiceError Db :=
  match runAll (fun db _ => refreshEmployeesAffectedByPolicy db processedAt .system) db
      (sortedSet due.policies) with
  | .error e => .error e
  | .ok db =>
    match runAll (reconcileDueEmployee processedAt) db (sortedSet due.employees) with
    | .error e => .error e
    | .ok db =>
      runAll (refreshOverrideEmployee processedAt) db
        ((sortedSet due.overrideEmployees).filter (· ∉ due.employees))

/-- Processes one due batch. -/
def reconcileDueEvents (db : Db) (processedAt : DateTime) (limit : ℕ) :
    Except ServiceError (Db × List ScheduledReconciliation) :=
  match getDueReconciliations db.scheduledReconciliations processedAt limit with
  | .error e => .error e
  | .ok events =>
    match runAll (collectEntity db.facts) {} events with
    | .error e => .error e
    | .ok due =>
      match reconcileEntities db due processedAt with
      | .error e => .error e
      | .ok db =>
        .ok ({ db with
          scheduledReconciliations := setEventStatus db.scheduledReconciliations
            (events.map fun e => e.id) (.processed processedAt) }, events)

end Warp
