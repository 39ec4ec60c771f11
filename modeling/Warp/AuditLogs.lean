import Warp.Auth.Visibility
import Warp.Database
import Warp.Pagination

/-!
# The list of audit entries

Callers read the audit log through two filters. One hides what is about employees outside their scope,
the other what is about assignment fields that they do not see. Both look at the keys of the snapshots.
-/

namespace Warp

open Infra Auth

/-! ## Keys of a snapshot -/

/-- `["employee_id"]` -/
def Snapshot.employeeId? : Snapshot → Option ℕ
  | .override o => some o.employeeId
  | .assignment a _ => some a.employeeId
  | .membership m => some m.employeeId
  | .employee _ | .group _ | .policy _ | .policyVersion .. | .groupPolicy _ => none

/-- `["assignment_field_definition_id"]` -/
def Snapshot.fieldId? : Snapshot → Option ℕ
  | .override o => some o.assignmentFieldDefinitionId
  | .assignment a _ => some a.assignmentFieldDefinitionId
  | .employee _ | .group _ | .policy _ | .policyVersion .. | .membership _ | .groupPolicy _ => none

/-- `["policy_id"]` -/
def Snapshot.policyId? : Snapshot → Option ℕ
  | .policyVersion v _ _ => some v.policyId
  | .groupPolicy key => some key.policyId
  | .employee _ | .group _ | .policy _ | .override _ | .assignment .. | .membership _ => none

/-- `["name"]` -/
def Snapshot.name? : Snapshot → Option String
  | .employee e => some e.name
  | .group g => some g.name
  | .policy p => some p.name
  | .policyVersion .. | .override _ | .assignment .. | .membership _ | .groupPolicy _ => none

/-- `coalesce(after[key], before[key])`, which is also what the later of the two snapshots says in the
merged one. -/
def AuditLog.lookup {α : Type} (key : Snapshot → Option α) (entry : AuditLog) : Option α :=
  (entry.after.bind key).or (entry.before.bind key)

/-! ## Employees -/

def AuditLog.groupMembershipEvent (entry : AuditLog) : Bool :=
  entry.entityType = "Group" && (entry.action = "employee_added" || entry.action = "employee_removed")

/-- An entry about a user with an employee. The operations of this model write none. -/
def AuditLog.linkedUserEvent (entry : AuditLog) : Bool :=
  entry.entityType = "User" && (entry.lookup Snapshot.employeeId?).isSome

def AuditLog.employeeSnapshot (entry : AuditLog) : Bool :=
  entry.entityType = "EmployeeAssignment" || entry.entityType = "EmployeeOverride"

def AuditLog.employeeRelated (entry : AuditLog) : Bool :=
  entry.entityType = "Employee" || entry.employeeSnapshot || entry.groupMembershipEvent
    || entry.linkedUserEvent

/-- `id in ids`, which no missing id is -/
def idIn (ids : Finset ℕ) (id : Option ℕ) : Bool := id.any fun id => id ∈ ids

def AuditLog.visibleEmployeeEvent (visibleIds : Finset ℕ) (entry : AuditLog) : Bool :=
  (entry.entityType = "Employee" && entry.entityId ∈ visibleIds)
    || (entry.employeeSnapshot && idIn visibleIds (entry.lookup Snapshot.employeeId?))
    || (entry.groupMembershipEvent && idIn visibleIds (entry.lookup Snapshot.employeeId?))
    || (entry.linkedUserEvent
      && (entry.before.bind Snapshot.employeeId?).all (fun id => id ∈ visibleIds)
      && (entry.after.bind Snapshot.employeeId?).all (fun id => id ∈ visibleIds))

/-- `apply_audit_visibility` -/
def applyAuditVisibility (visibility : EmployeeVisibility) (entry : AuditLog) : Bool :=
  if visibility.unrestricted then true
  else if visibility.employeeIds = ∅ then !entry.employeeRelated
  else !entry.employeeRelated || entry.visibleEmployeeEvent visibility.employeeIds

/-! ## Assignment fields -/

/-- The fields that the versions of a policy have values for. -/
def policyFieldIds (rules : Rules) (policyId : ℕ) : List ℕ :=
  (rules.policyFieldValues.select fun value =>
    (rules.policyVersions.find? value.policyVersionId).any fun v => v.policyId = policyId).map
      fun value => value.assignmentFieldDefinitionId

/-- `visible_policy_condition`: no version of the policy has a value for a hidden field. -/
def visiblePolicyCondition (rules : Rules) (visibility : AssignmentFieldVisibility) (policyId : ℕ) :
    Bool :=
  visibility.unrestricted
    || (policyFieldIds rules policyId).all fun fieldId => fieldId ∈ visibility.assignmentFieldIds

/-- `visible_policy_ids` -/
def visiblePolicyIds (rules : Rules) (visibility : AssignmentFieldVisibility) : Option (Finset ℕ) :=
  if visibility.unrestricted then none
  else some ((rules.policies.select fun p => visiblePolicyCondition rules visibility p.id).map
    fun p => p.id).toFinset

def AuditLog.groupPolicyEvent (entry : AuditLog) : Bool :=
  entry.entityType = "Group" && (entry.action = "policy_attached" || entry.action = "policy_detached")

def AuditLog.domainRelated (entry : AuditLog) : Bool :=
  entry.entityType = "AssignmentFieldDefinition" || entry.employeeSnapshot
    || entry.entityType = "Policy" || entry.entityType = "PolicyVersion" || entry.groupPolicyEvent

def AuditLog.visibleDomainEvent (fieldIds policyIds : Finset ℕ) (entry : AuditLog) : Bool :=
  (entry.entityType = "AssignmentFieldDefinition" && entry.entityId ∈ fieldIds)
    || (entry.employeeSnapshot && idIn fieldIds (entry.lookup Snapshot.fieldId?))
    || (entry.entityType = "Policy" && entry.entityId ∈ policyIds)
    || (entry.entityType = "PolicyVersion" && idIn policyIds (entry.lookup Snapshot.policyId?))
    || (entry.groupPolicyEvent && idIn policyIds (entry.lookup Snapshot.policyId?))

/-- `apply_assignment_field_audit_visibility` -/
def applyAssignmentFieldAuditVisibility (rules : Rules) (visibility : AssignmentFieldVisibility)
    (entry : AuditLog) : Bool :=
  if visibility.unrestricted then true
  else !entry.domainRelated || entry.visibleDomainEvent visibility.assignmentFieldIds
    ((visiblePolicyIds rules visibility).getD ∅)

/-! ## The statement -/

/-- The query of a request. A search has at most 200 characters. -/
structure AuditLogQuery where
  entityType : Option String := none
  entityId : Option ℕ := none
  actor : Option String := none
  action : Option String := none
  fromTimestamp : Option DateTime := none
  toTimestamp : Option DateTime := none
  search : Option String := none
  descending : Bool := false
  search_bound : ∀ text ∈ search, text.length ≤ 200

/-- `ILIKE` of the database, of a text and a pattern. -/
abbrev Ilike := String → String → Bool

/-- `audit_log_statement`. An empty search is none. -/
def AuditLogQuery.selects (q : AuditLogQuery) (ilike : Ilike) (entry : AuditLog) : Bool :=
  q.entityType.all (fun entityType => entry.entityType = entityType)
    && q.entityId.all (fun entityId => entry.entityId = entityId)
    && q.actor.all (fun actor => entry.actor = actor)
    && q.action.all (fun action => entry.action = action)
    && q.fromTimestamp.all (fun t => t ≤ entry.timestamp)
    && q.toTimestamp.all (fun t => entry.timestamp ≤ t)
    && (given? q.search).all fun text =>
      let pattern := "%" ++ Text.strip text ++ "%"
      ilike entry.actor pattern || ilike entry.entityType pattern || ilike entry.action pattern

def AuditLogQuery.ordered (q : AuditLogQuery) (entries : List AuditLog) : List AuditLog :=
  if q.descending then
    orderBy (fun e => toLex (OrderDual.toDual e.timestamp, OrderDual.toDual e.id)) entries
  else orderBy (fun e => toLex (e.timestamp, e.id)) entries

/-! ## Labels -/

/-- `re.sub(r"(?<=[a-z])(?=[A-Z])", " ", value)` -/
def spaceWords : List Char → List Char
  | c :: d :: rest =>
    if ('a' ≤ c && c ≤ 'z') && ('A' ≤ d && d ≤ 'Z') then c :: ' ' :: spaceWords (d :: rest)
    else c :: spaceWords (d :: rest)
  | rest => rest

/-- `_humanize_entity_type`, for names in ASCII -/
def humanizeEntityType (value : String) : String :=
  match (spaceWords value.toList).map fun c => if c = '_' then ' ' else c with
  | [] => ""
  | c :: rest => String.ofList (c.toUpper :: rest)

def employeeSuffix? (entityType : String) : Option String :=
  if entityType = "EmployeeAssignment" then some "Assignment"
  else if entityType = "EmployeeOverride" then some "Manual override"
  else if entityType = "EmployeeGroupMembership" then some "Group membership"
  else none

/-- `version_names`: the version with the name of its policy. -/
def versionName? (rules : Rules) (versionId : ℕ) : Option String :=
  (rules.policyVersions.find? versionId).bind fun v =>
    (rules.policies.find? v.policyId).map fun p =>
      p.name ++ " · Version " ++ toString v.versionNumber

/-- `_entity_label`: the name that the entity has now, or else had then. -/
def entityLabel (facts : Facts) (entry : AuditLog) : String :=
  let snapshotName := given? (entry.lookup Snapshot.name?)
  if entry.entityType = "Employee" then
    ((facts.employees.find? entry.entityId).map fun e => e.name).getD
      (snapshotName.getD "Employee")
  else if entry.entityType = "Policy" then
    ((facts.policies.find? entry.entityId).map fun p => p.name).getD (snapshotName.getD "Policy")
  else if entry.entityType = "Group" then
    ((facts.groups.find? entry.entityId).map fun g => g.name).getD (snapshotName.getD "Group")
  else if entry.entityType = "PolicyVersion" then
    (versionName? facts.toRules entry.entityId).getD "Policy version"
  else
    match employeeSuffix? entry.entityType with
    | some suffix =>
      let employee := (entry.lookup Snapshot.employeeId?).bind facts.employees.find?
      match given? (employee.map fun e => e.name) with
      | some name => name ++ " · " ++ suffix
      | none => suffix
    | none => snapshotName.getD (humanizeEntityType entry.entityType)

structure AuditLogRead where
  event : AuditLog
  entityLabel : String
deriving DecidableEq, Repr

/-! ## Routes -/

/-- The entries that a caller sees. -/
def visibleAuditLogs (db : Db) (visibility : EmployeeVisibility)
    (fieldVisibility : AssignmentFieldVisibility) : List AuditLog :=
  db.auditLogs.select fun entry => applyAuditVisibility visibility entry
    && applyAssignmentFieldAuditVisibility db.facts.toRules fieldVisibility entry

/-- `facets`: the entity types and the actions that occur. -/
def auditLogFacets (db : Db) (visibility : EmployeeVisibility)
    (fieldVisibility : AssignmentFieldVisibility) : List String × List String :=
  let visibleValues (column : AuditLog → String) : List String :=
    sortedSet ((visibleAuditLogs db visibility fieldVisibility).map column).toFinset
  (visibleValues fun e => e.entityType, visibleValues fun e => e.action)

/-- `list_all` of the audit entries -/
def listAuditLogs (db : Db) (ilike : Ilike) (visibility : EmployeeVisibility)
    (fieldVisibility : AssignmentFieldVisibility) (q : AuditLogQuery) (pagination : PageParameters) :
    Page AuditLogRead :=
  let rows := q.ordered ((visibleAuditLogs db visibility fieldVisibility).filter fun entry =>
    q.selects ilike entry)
  (paginate rows rows pagination).map fun entry => ⟨entry, entityLabel db.facts entry⟩

end Warp
