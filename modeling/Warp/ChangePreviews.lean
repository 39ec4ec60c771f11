import Warp.EmployeeRequests
import Warp.Operations

/-!
# Previews of changes

A preview makes a change inside a savepoint, compares the open assignment rows that the caller may see
before and after it, and rolls everything back. The answer never shows the id of a row that only the
preview has created.
-/

namespace Warp

open Infra Auth

/-! ## Requests -/

inductive PolicyChange where
  | policyCreate (policy : PolicyCreate)
  | policyVersionCreate (policyId : ℕ) (version : PolicyVersionCreate)

inductive MembershipAction where
  | add
  | remove
deriving DecidableEq, Repr

inductive OverrideChange where
  | create (fieldId : ℕ) (value : String)
  | update (overrideId : ℕ) (fieldId : Option ℕ) (value : Option String)
  | delete (overrideId : ℕ)

/-- The changes whose preview lists assignments of all employees. -/
inductive NonPolicyChange where
  | policyStatus (policyId : ℕ) (status : PolicyStatus)
  | groupMembership (action : MembershipAction) (groupId employeeId : ℕ)
  | employeeOverride (employeeId : ℕ) (change : OverrideChange)

/-- The employees and fields that the caller of a preview sees. -/
structure PreviewScope where
  employees : EmployeeVisibility
  fields : AssignmentFieldVisibility

/-- The open rows in the order of the queries. -/
def visibleOpenRows (db : Db) (scope : PreviewScope) : List EmployeeAssignment :=
  orderBy (fun a => toLex (a.employeeId, toLex (a.assignmentFieldDefinitionId, toLex (a.value, a.id))))
    (db.employeeAssignments.select fun a => a.effectiveUntil.isNone &&
      scope.employees.canAccess a.employeeId &&
      scope.fields.canAccess a.assignmentFieldDefinitionId)

/-! ## Policies -/

/-- The key of a row with all of its explanation -/
def EmployeeAssignment.previewKey (a : EmployeeAssignment) : AssignmentIdentity × String :=
  (a.identity, a.explanation.toJson.dumps)

def currentAssignmentKeys (db : Db) (scope : PreviewScope) :
    Dict ℕ (List (AssignmentIdentity × String)) :=
  .collect ((visibleOpenRows db scope).map fun a => (a.employeeId, a.previewKey))

def applyPolicyChange (db : Db) (data : PolicyChange) (actor : Actor) (now : DateTime) :
    Except ServiceError Db :=
  match data with
  | .policyCreate data => do
    let policy : Policy := ⟨db.sequences.policy, data.name, data.status, some actor.name⟩
    let added :=
      { db.withPolicies (db.facts.policies.insert policy) with
        sequences := { db.sequences with policy := db.sequences.policy + 1 } }
    let db := recordAuditLog added actor "Policy" policy.id "created" none (some (.policy policy)) now
    let (db, _) ← createPolicyVersionFromInput db policy.id data.toPolicyVersionCreate actor now
    refreshEmployeesAffectedByPolicy db now actor
  | .policyVersionCreate policyId data => do
    let policy ← policyById db.facts.toRules policyId
    let (db, _) ← createPolicyVersionFromInput db policy.id data actor now
    refreshEmployeesAffectedByPolicy db now actor

structure PolicyPreviewEmployee where
  employeeId : ℕ
  employeeName : Option String
  department : Option String
deriving DecidableEq, Repr

structure PolicyPreviewAssignment where
  assignmentFieldDefinitionId : ℕ
  assignmentFieldName : Option String
  value : String
deriving DecidableEq, Repr

structure PolicyAssignmentPreview where
  affectedEmployees : List PolicyPreviewEmployee
  assignmentsPerMatch : List PolicyPreviewAssignment
  /-- The error that the conflict message words -/
  conflict : Option ServiceError
deriving DecidableEq, Repr

def PolicyChange.version : PolicyChange → PolicyVersionCreate
  | .policyCreate data => data.toPolicyVersionCreate
  | .policyVersionCreate _ data => data

/-- The request as the change leaves it: `create_policy_version_from_input` writes the values back in
normal form, before anything that a preview reports as a conflict. -/
def PolicyChange.normalized (rules : Rules) (data : PolicyChange) : PolicyChange :=
  match normalizedValues rules data.version.values, data with
  | .error _, data => data
  | .ok values, .policyCreate policy => .policyCreate { policy with values := values }
  | .ok values, .policyVersionCreate policyId version =>
    .policyVersionCreate policyId { version with values := values }

/-- `_policy_assignment_preview`. Foreign keys keep the lookups of names from failing. -/
def policyAssignmentPreview (db : Db) (data : PolicyChange) (affected : List ℕ)
    (conflict : Option ServiceError) : PolicyAssignmentPreview where
  affectedEmployees := affected.map fun id =>
    ⟨id, (db.facts.employees.find? id).map fun e => e.name,
      (db.facts.employees.find? id).map fun e => e.department⟩
  assignmentsPerMatch := data.version.values.map fun value =>
    ⟨value.1, fieldName db.facts.toRules value.1, value.2⟩
  conflict := conflict

/-- The errors that a preview of a policy reports as conflicts -/
def ServiceError.isPolicyPreviewConflict : ServiceError → Bool
  | .effectivePolicyVersionConflict .. | .employeeHierarchyConflict .. | .policyConflict _
  | .policyVersionOverlap .. => true
  | _ => false

def affectedEmployees (before after : Dict ℕ (List (AssignmentIdentity × String))) : List ℕ :=
  (sortedSet (before.keys ++ after.keys).toFinset).filter fun id =>
    (before.get? id).getD [] ≠ (after.get? id).getD []

/-- What is written before a conflict changes no field and no employee that is shown. -/
def previewPolicy (db : Db) (data : PolicyChange) (actor : Actor) (scope : PreviewScope)
    (now : DateTime) : Except ServiceError PolicyAssignmentPreview :=
  match applyPolicyChange db data actor now with
  | .ok changed =>
    .ok (policyAssignmentPreview changed (data.normalized db.facts.toRules)
      (affectedEmployees (currentAssignmentKeys db scope) (currentAssignmentKeys changed scope)) none)
  | .error e =>
    if e.isPolicyPreviewConflict then
      .ok (policyAssignmentPreview db (data.normalized db.facts.toRules) [] (some e))
    else .error e

/-! ## Proposed rows -/

/-- `_MutationContext` -/
structure MutationContext where
  includedEmployeeIds : Finset ℕ := ∅
  proposedEmployeeIds : Finset ℕ := ∅
  proposedPolicyVersionIds : Finset ℕ := ∅
  proposedPolicyIds : Finset ℕ := ∅
  proposedConditionClauseIds : Finset ℕ := ∅
  proposedOverrideIds : Finset ℕ := ∅

/-- `item in ids`; as a key of a set, a truth value is the number 0 or 1. -/
def Json.isIn (ids : Finset ℕ) : Json → Bool
  | .int n => 0 ≤ n && n.toNat ∈ ids
  | .bool b => b.toNat ∈ ids
  | _ => false

/-- The field holds the id of a proposed row. -/
def MutationContext.proposes (context : MutationContext) (parentKey : Option String) (key : String)
    (item : Json) : Bool :=
  (key ∈ ["policy_version_id", "source_policy_version_id"] &&
      item.isIn context.proposedPolicyVersionIds) ||
    (key = "policy_id" && item.isIn context.proposedPolicyIds) ||
    (key = "clause_id" && item.isIn context.proposedConditionClauseIds) ||
    (key ∈ ["override_id", "source_override_id"] && item.isIn context.proposedOverrideIds) ||
    (key = "id" && parentKey = some "policy" && item.isIn context.proposedPolicyIds) ||
    (key = "id" && parentKey = some "policy_version" &&
      item.isIn context.proposedPolicyVersionIds) ||
    (key = "id" && parentKey = some "override" && item.isIn context.proposedOverrideIds)

/-- `result[key] = value` -/
def Json.setField (key : String) (value : Json) : List (String × Json) → List (String × Json)
  | [] => [(key, value)]
  | (k, v) :: rest => if k = key then (key, value) :: rest else (k, v) :: setField key value rest

mutual

/-- `_sanitize_explanation` -/
def MutationContext.sanitize (context : MutationContext) (parentKey : Option String) : Json → Json
  | .null => .null
  | .bool b => .bool b
  | .int n => .int n
  | .str s => .str s
  | .arr items => .arr (context.sanitizeItems parentKey items)
  | .obj fields => .obj (context.sanitizeFields parentKey [] fields)

def MutationContext.sanitizeItems (context : MutationContext) (parentKey : Option String) :
    List Json → List Json
  | [] => []
  | item :: rest => context.sanitize parentKey item :: context.sanitizeItems parentKey rest

/-- The loop over the fields, with the result so far. -/
def MutationContext.sanitizeFields (context : MutationContext) (parentKey : Option String) :
    List (String × Json) → List (String × Json) → List (String × Json)
  | result, [] => result
  | result, (key, item) :: rest =>
    if context.proposes parentKey key item then
      context.sanitizeFields parentKey
        (Json.setField "source_is_proposed" (.bool true) (Json.setField key .null result)) rest
    else
      context.sanitizeFields parentKey
        (Json.setField key (context.sanitize (some key) item) result) rest

end

/-! ## Assignments -/

inductive SourceType where
  | policyVersion
  | override
deriving DecidableEq, Repr

def SourceType.text : SourceType → String
  | .policyVersion => "policy_version"
  | .override => "override"

structure AssignmentPreview where
  assignmentFieldDefinitionId : ℕ
  assignmentFieldName : Option String
  value : String
  sourceType : SourceType
  sourceId : Option ℕ
  sourceIsProposed : Bool
  explanation : Json

def optionInt : Option ℕ → Json
  | none => .null
  | some n => .int n

/-- `_assignment_key` -/
def AssignmentPreview.key (item : AssignmentPreview) : String :=
  (Json.obj [("assignment_field_definition_id", .int item.assignmentFieldDefinitionId),
    ("assignment_field_name", optionText item.assignmentFieldName), ("value", .str item.value),
    ("source_type", .str item.sourceType.text), ("source_id", optionInt item.sourceId),
    ("source_is_proposed", .bool item.sourceIsProposed), ("explanation", item.explanation)]).dumps

def EmployeeAssignment.sourceType (a : EmployeeAssignment) : SourceType :=
  if a.sourcePolicyVersionId.isSome then .policyVersion else .override

def EmployeeAssignment.sourceId (a : EmployeeAssignment) : Option ℕ :=
  a.sourcePolicyVersionId <|> a.sourceOverrideId

def EmployeeAssignment.sourceIsProposed (context : MutationContext) (a : EmployeeAssignment) : Bool :=
  match a.sourcePolicyVersionId with
  | some id => id ∈ context.proposedPolicyVersionIds
  | none => a.sourceOverrideId.any fun id => id ∈ context.proposedOverrideIds

/-- How a row is shown -/
def previewRow (rules : Rules) (context : MutationContext) (a : EmployeeAssignment) :
    AssignmentPreview where
  assignmentFieldDefinitionId := a.assignmentFieldDefinitionId
  assignmentFieldName := fieldName rules a.assignmentFieldDefinitionId
  value := a.value
  sourceType := a.sourceType
  sourceId := if a.sourceIsProposed context then none else a.sourceId
  sourceIsProposed := a.sourceIsProposed context
  explanation := context.sanitize none a.explanation.toJson

/-- `_current_assignments`. A new employee is visible to the one who proposes it. -/
def currentAssignments (db : Db) (scope : PreviewScope) (context : MutationContext) :
    Dict ℕ (List AssignmentPreview) :=
  let employees : EmployeeVisibility :=
    { scope.employees with
      employeeIds := scope.employees.employeeIds ∪ context.proposedEmployeeIds }
  .collect ((visibleOpenRows db { scope with employees := employees }).map fun a =>
    (a.employeeId, previewRow db.facts.toRules context a))

/-! ## Changes -/

/-- `_list_difference` -/
def listDifference (left right : List AssignmentPreview) : List AssignmentPreview :=
  left.filter fun item => item.key ∉ right.map AssignmentPreview.key

def byField (assignments : List AssignmentPreview) : Dict ℕ (List AssignmentPreview) :=
  .collect (assignments.map fun item => (item.assignmentFieldDefinitionId, item))

structure FieldPreviewChange where
  assignmentFieldDefinitionId : ℕ
  assignmentFieldName : Option String
  before : List AssignmentPreview
  after : List AssignmentPreview

/-- `_changed_fields` -/
def changedFields (before after : List AssignmentPreview) : List FieldPreviewChange :=
  (sortedSet ((byField before).keys ++ (byField after).keys).toFinset).filterMap fun fieldId =>
    let beforeItems := ((byField before).get? fieldId).getD []
    let afterItems := ((byField after).get? fieldId).getD []
    if beforeItems.map AssignmentPreview.key = afterItems.map AssignmentPreview.key then none
    else
      let items := if afterItems.isEmpty then beforeItems else afterItems
      some ⟨fieldId, items.head?.bind fun item => item.assignmentFieldName, beforeItems, afterItems⟩

structure EmployeePreviewChange where
  employeeId : Option ℕ
  employeeName : Option String
  before : List AssignmentPreview
  after : List AssignmentPreview
  added : List AssignmentPreview
  removed : List AssignmentPreview
  changed : List FieldPreviewChange

/-- `item.added or item.removed or item.changed` -/
def EmployeePreviewChange.any (item : EmployeePreviewChange) : Bool :=
  !item.added.isEmpty || !item.removed.isEmpty || !item.changed.isEmpty

def employeeChange (db : Db) (before after : Dict ℕ (List AssignmentPreview))
    (context : MutationContext) (employeeId : ℕ) : EmployeePreviewChange :=
  let beforeItems := (before.get? employeeId).getD []
  let afterItems := (after.get? employeeId).getD []
  { employeeId := if employeeId ∈ context.proposedEmployeeIds then none else some employeeId
    employeeName := (db.facts.employees.find? employeeId).map fun e => e.name
    before := beforeItems
    after := afterItems
    added := listDifference afterItems beforeItems
    removed := listDifference beforeItems afterItems
    changed := changedFields beforeItems afterItems }

/-- `_assignment_changes` -/
def assignmentChanges (db : Db) (before after : Dict ℕ (List AssignmentPreview))
    (context : MutationContext) : List EmployeePreviewChange :=
  (sortedSet ((before.keys ++ after.keys).toFinset ∪ context.includedEmployeeIds)).filterMap
    fun employeeId =>
      let item := employeeChange db before after context employeeId
      if item.any || employeeId ∈ context.includedEmployeeIds then some item else none

/-! ## Previews -/

def applyStatusChange (db : Db) (policyId : ℕ) (status : PolicyStatus) (actor : Actor)
    (now : DateTime) : Except ServiceError Db := do
  let policy ← policyById db.facts.toRules policyId
  let after : Policy := { policy with status := status }
  if policy = after then return db
  else
    let action := if status = .archived then "archived" else "changed"
    let db := recordAuditLog (db.withPolicies (db.facts.policies.insert after)) actor "Policy"
      policy.id action (some (.policy policy)) (some (.policy after)) now
    let db ← syncPolicyVersionSchedules db policy.id now
    let db ← syncAllEmployeeTenureSchedules db now
    refreshEmployeesAffectedByPolicy db now actor

def applyMembershipChange (db : Db) (action : MembershipAction) (groupId employeeId : ℕ)
    (actor : Actor) (now : DateTime) : Except ServiceError Db :=
  match action with
  | .add => (addEmployeeToGroup db groupId employeeId actor now).map Prod.fst
  | .remove => removeEmployeeFromGroup db groupId employeeId actor now

/-- The database after the change, and the override that it proposes -/
def applyOverrideChange (db : Db) (employeeId : ℕ) (change : OverrideChange) (actor : Actor)
    (now : DateTime) : Except ServiceError (Db × Finset ℕ) :=
  match change with
  | .create fieldId value => do
    let (db, override) ← createEmployeeOverride db employeeId fieldId value actor now
    return (db, {override.id})
  | .update overrideId fieldId value => do
    let (db, override) ← updateEmployeeOverride db employeeId overrideId fieldId value actor now
    return (db, if override.id = overrideId then ∅ else {override.id})
  | .delete overrideId => do
    let db ← deleteEmployeeOverride db employeeId overrideId actor now
    return (db, ∅)

/-- `_apply_change`; the previews of employees and policies never come here. -/
def applyChange (db : Db) (data : NonPolicyChange) (actor : Actor) (scope : PreviewScope)
    (now : DateTime) : Except RequestError (Db × MutationContext) :=
  match data with
  | .policyStatus policyId status => do
    let db ← (applyStatusChange db policyId status actor now).mapError .service
    return (db, {})
  | .groupMembership action groupId employeeId => do
    let _ ← (visibleEmployeeOr404 db.facts.employees scope.employees employeeId).mapError .auth
    let db ← (applyMembershipChange db action groupId employeeId actor now).mapError .service
    return (db, { includedEmployeeIds := {employeeId} })
  | .employeeOverride employeeId change => do
    let _ ← (visibleEmployeeOr404 db.facts.employees scope.employees employeeId).mapError .auth
    let (db, proposed) ← (applyOverrideChange db employeeId change actor now).mapError .service
    return (db, { includedEmployeeIds := {employeeId}, proposedOverrideIds := proposed })

structure ChangePreviewAnswer where
  valid : Bool
  affectedEmployeeCount : ℕ
  changes : List EmployeePreviewChange
  conflicts : List ServiceError

/-- The errors that a preview reports as conflicts -/
def ServiceError.isPreviewConflict : ServiceError → Bool
  | .effectivePolicyVersionConflict .. | .employeeHierarchyConflict ..
  | .employeeOverrideConflict .. | .policyConflict _ | .policyVersionOverlap .. => true
  | _ => false

/-- `preview` of the changes that are listed for all employees, once the caller may ask for it -/
def preview (db : Db) (data : NonPolicyChange) (actor : Actor) (scope : PreviewScope)
    (now : DateTime) : Except RequestError ChangePreviewAnswer :=
  match applyChange db data actor scope now with
  | .ok (changed, context) =>
    let changes := assignmentChanges changed (currentAssignments db scope {})
      (currentAssignments changed scope context) context
    .ok
      { valid := true
        affectedEmployeeCount := (changes.filter EmployeePreviewChange.any).length
        changes := changes
        conflicts := [] }
  | .error (.service e) =>
    if e.isPreviewConflict then
      .ok { valid := false, affectedEmployeeCount := 0, changes := [], conflicts := [e] }
    else .error (.service e)
  | .error (.auth e) => .error (.auth e)

end Warp
