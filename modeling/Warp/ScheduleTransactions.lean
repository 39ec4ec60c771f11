import Warp.EmployeeTransactions
import Warp.PolicyAuthoring
import Warp.VersionTransactions

/-!
# Concurrent changes of the schedule

The transactions that add policy versions, create, change and delete employees, and process due
events, with their statements on employees, policy versions and events. An event names its entity
without a foreign key. The reconciliations in between write nothing that these statements read, and
are left out. So are the transactions that create a policy or change its status, which synchronise the
schedule too.
-/

namespace Warp

open Infra

inductive ScheduleOp where
  | employee (now : DateTime) (op : EmployeeOp)
  | addVersion (policyId : ℕ) (data : PolicyVersionCreate) (actor : Actor) (now : DateTime)
  | createVersion (policy : Policy) (input : PolicyVersionInput) (now : DateTime)
  | insertClause (versionId : ℕ) (clause : CompiledClause)
  | insertCondition (clauseId : ℕ) (condition : CompiledCondition)
  | syncVersions (policy : Policy) (now : DateTime)
  | selectEmployees (now : DateTime)
  | syncEmployee (employee : Employee) (now : DateTime)
  | selectPending (entityType : EntityType) (entityIds : List ℕ) (keep : List EventKey)
  | schedule (key : EventKey)
  | insertEvent (key : EventKey)
  | setStatus (event : ScheduledReconciliation) (status : EventStatus)
  | selectDue (processedAt : DateTime) (limit : ℕ)
  | collect (event : ScheduledReconciliation)

inductive ScheduleWrite where
  | employee (x : EmployeeWrite)
  | version (x : VersionWrite)
  | values (versionId : ℕ) (values : List (ℕ × String))
  | clause (clause : CompiledPolicyClause)
  | condition (condition : CompiledPolicyCondition)
  | insertEvent (event : ScheduledReconciliation)
  | setStatus (event : ScheduledReconciliation) (status : EventStatus)

inductive ScheduleLock where
  | employee (employeeId : ℕ)
  | policy (policyId : ℕ)
  | event (eventId : ℕ)
  /-- `uq_scheduled_reconciliation_event` -/
  | eventKey (key : EventKey)
deriving DecidableEq

/-! ## Writes -/

/-- The `UPDATE` names the event row, whose key never changes. -/
def updateEventStatus (events : Table ScheduledReconciliation) (event : ScheduledReconciliation)
    (status : EventStatus) : Table ScheduledReconciliation :=
  events.modify
    (fun e => if e.id = event.id ∧ e.eventKey = event.eventKey then { e with status := status }
      else e) fun e => by split <;> rfl

def Db.withRules (db : Db) (rules : Rules) : Db :=
  { db with facts := { db.facts with toRules := rules } }

def applyScheduleWrite (db : Db) : ScheduleWrite → Db
  | .employee (.delete employeeId) => db.removeEmployee employeeId
  | .employee x => db.withEmployees (applyEmployeeWrite db.facts.employees x)
  | .version x =>
    db.withRules { db.facts.toRules with
      policyVersions := applyVersionWrite db.facts.policyVersions x }
  | .values versionId values => db.withRules (storeValues versionId values db.facts.toRules)
  | .clause clause =>
    db.withRules { db.facts.toRules with
      compiledPolicyClauses := db.facts.compiledPolicyClauses.insert clause }
  | .condition condition =>
    db.withRules { db.facts.toRules with
      compiledPolicyConditions := db.facts.compiledPolicyConditions.insert condition }
  | .insertEvent event =>
    { db with scheduledReconciliations := db.scheduledReconciliations.insert event }
  | .setStatus event status =>
    { db with
      scheduledReconciliations := updateEventStatus db.scheduledReconciliations event status }

/-- On the rows that an event was read from, the update is the one by id. -/
theorem updateEventStatus_of_mem {events : Table ScheduledReconciliation}
    {event : ScheduledReconciliation} (h : event ∈ events) (status : EventStatus) :
    updateEventStatus events event status = setEventStatus events [event.id] status := by
  refine Table.ext_mem fun x => ?_
  rw [updateEventStatus, setEventStatus, Table.mem_modify, Table.mem_modify]
  refine exists_congr fun e => and_congr_right fun he => ?_
  by_cases hid : e.id = event.id
  · rw [if_pos ⟨hid, by rw [Table.key_inj he h hid]⟩, if_pos (List.mem_singleton.mpr hid)]
  · rw [if_neg fun hboth => hid hboth.1, if_neg fun hmem => hid (List.mem_singleton.mp hmem)]

/-! ## Statements -/

/-- `FOR UPDATE SKIP LOCKED`: rows that another transaction holds are passed over. -/
def unlockedDue (available : ScheduleLock → Bool) (events : Table ScheduledReconciliation)
    (asOf : DateTime) (limit : ℕ) : Except ServiceError (List ScheduledReconciliation) :=
  getDueReconciliations (events.filter fun e => available (.event e.id)) asOf limit

def lockScheduleRows (available : ScheduleLock → Bool) (db : Db) : ScheduleOp → List ScheduleLock
  | .employee _ op => (lockEmployeeRows db.facts.employees op).map .employee
  | .createVersion policy _ _ => [.policy policy.id]
  | .insertEvent key => [.eventKey key]
  | .setStatus event _ => [.event event.id]
  | .selectDue processedAt limit =>
    match unlockedDue available db.scheduledReconciliations processedAt limit with
    | .error _ => []
    | .ok events => events.map fun e => .event e.id
  | _ => []

/-- The pending events are cancelled right before the row of their employee is deleted. -/
def beforeEmployee (now : DateTime) : EmployeeOp → List ScheduleOp
  | .deleteRow employeeId =>
    [.selectPending .employee [employeeId] [], .employee now (.deleteRow employeeId)]
  | op => [.employee now op]

/-- The events follow a new row, and a new start date. -/
def afterEmployee (n : ℕ) (now : DateTime) : EmployeeOp → List ScheduleOp
  | .insertRow data => [.syncEmployee (data.row n) now]
  | .updateRow loaded updated =>
    if (changedColumns loaded updated).contains "start_date" then [.syncEmployee updated now] else []
  | _ => []

/-- `create_policy_version`. While the policy row is locked the versions of the policy stay as they
are, so its statements see what the first one sees. -/
def createVersionWrites (n policyId : ℕ) (input : PolicyVersionInput)
    (versions : Table PolicyVersion) : Except ServiceError (List VersionWrite) :=
  (runStatements applyVersionWrite (createPolicyVersionProgram n policyId input).statements versions
    (createPolicyVersionProgram n policyId input).memory []).map Prod.snd

/-- The rules with the policy that the session has loaded. -/
def sessionRules (rules : Rules) (policy : Policy) : Rules :=
  { rules with policies := rules.policies.insert policy }

/-- `ck_scheduled_reconciliation_processed_at`: a processed row stays processed. -/
def requireStatusChange (events : Table ScheduledReconciliation) (eventId : ℕ)
    (status : EventStatus) : Except ServiceError Unit :=
  match events.find? eventId, status with
  | none, _ => .error (.staleData "scheduled_reconciliations")
  | some _, .processed _ => .ok ()
  | some e, _ =>
    ensure (e.status = .pending ∨ e.status = .cancelled) (.integrity "scheduled_reconciliations")

/-- The events of some entities that are to be cancelled, or of the rows that were locked. -/
def loadEvents (events : Table ScheduledReconciliation) (eventIds : List ℕ) :
    List ScheduledReconciliation :=
  eventIds.filterMap events.find?

def runScheduleOp (locked : ScheduleLock → Bool) (n : ℕ) (db : Db) :
    ScheduleOp → Except ServiceError (List ScheduleOp × List ScheduleWrite)
  | .employee now op => do
    let (more, writes) ← runEmployeeOp n db.facts.employees op
    return (more.flatMap (beforeEmployee now) ++ afterEmployee n now op, writes.map .employee)
  | .addVersion policyId data actor now => do
    let policy ← policyById db.facts.toRules policyId
    let input ← policyVersionInput db.facts data actor
    return ([.createVersion policy input now], [])
  | .createVersion policy input now => do
    let writes ← createVersionWrites n policy.id input db.facts.policyVersions
    checkVersionRows db.facts.toRules input
    return (input.compiledClauses.map (.insertClause n)
        ++ [.syncVersions policy now, .selectEmployees now],
      writes.map .version ++ [.values n input.values])
  | .insertClause versionId clause =>
    .ok (clause.map (.insertCondition n), [.clause ⟨n, versionId⟩])
  | .insertCondition clauseId condition =>
    .ok ([], (conditionRows n clauseId [condition]).map .condition)
  | .syncVersions policy now =>
    let desired := desiredVersionEvents (sessionRules db.facts.toRules policy) policy.id now
    let ids := (policyVersionsOf db.facts.toRules policy.id).map fun v => v.id
    .ok (.selectPending .policyVersion ids desired :: desired.map .schedule, [])
  | .selectEmployees now => .ok (db.facts.employees.rows.map fun e => .syncEmployee e now, [])
  | .syncEmployee employee now => do
    let desired ← desiredTenureEvents db.facts.toRules employee now
    return (.selectPending .employee [employee.id] desired :: desired.map .schedule, [])
  | .selectPending entityType entityIds keep =>
    let ids := obsoleteEvents db.scheduledReconciliations entityType entityIds keep
    .ok ((loadEvents db.scheduledReconciliations ids).map fun e => .setStatus e .cancelled, [])
  | .schedule key => do
    validateEvent key
    match findEvent? db.scheduledReconciliations key with
    | none => return ([.insertEvent key], [])
    | some event =>
      return (if event.status = .cancelled then [.setStatus event .pending] else [], [])
  | .insertEvent key => do
    ensure (findEvent? db.scheduledReconciliations key).isNone
      (.integrity "scheduled_reconciliations")
    return ([], [.insertEvent (newEvent n key)])
  | .setStatus event status => do
    requireStatusChange db.scheduledReconciliations event.id status
    return ([], [.setStatus event status])
  | .selectDue processedAt limit => do
    let events ← unlockedDue locked db.scheduledReconciliations processedAt limit
    return (events.map .collect ++ events.map fun e => .setStatus e (.processed processedAt), [])
  | .collect event => (collectEntity db.facts {} event).map fun _ => ([], [])

def scheduleCode : Code Db ScheduleWrite ScheduleOp ServiceError ScheduleLock where
  apply := applyScheduleWrite
  locks := lockScheduleRows
  exec n rows db op := runScheduleOp (fun k => rows.contains k) n db op

/-! ## Requests -/

inductive ScheduleTransaction where
  | employee (transaction : EmployeeTransaction) (now : DateTime)
  | addVersion (policyId : ℕ) (data : PolicyVersionCreate) (actor : Actor) (now : DateTime)
  | reconcileDueEvents (processedAt : DateTime) (limit : ℕ)

def ScheduleTransaction.op : ScheduleTransaction → ScheduleOp
  | .employee transaction now => .employee now transaction.op
  | .addVersion policyId data actor now => .addVersion policyId data actor now
  | .reconcileDueEvents processedAt limit => .selectDue processedAt limit

/-- One counter numbers the rows of all tables. -/
def Sequences.latest (s : Sequences) : ℕ :=
  max (max s.employee s.scheduledReconciliation)
    (max s.policyVersion (max s.compiledPolicyClause s.compiledPolicyCondition))

abbrev ScheduleWorld := World Db ScheduleWrite ScheduleOp ServiceError ScheduleLock

def scheduleWorld (db : Db) (transactions : List ScheduleTransaction) : ScheduleWorld :=
  World.init db (transactions.map fun transaction => [transaction.op]) db.sequences.latest

end Warp
