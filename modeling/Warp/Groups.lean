import Warp.EmployeeOverrides

/-!
# Groups

Groups with their members and their policies. A change of members or policies reconciles the
employees it concerns.
-/

namespace Warp

open Infra

/-! ## Lookups and rows -/

def getGroup (facts : Facts) (groupId : ℕ) : Except ServiceError Group :=
  orRaise (facts.groups.find? groupId) (.notFound "Group" groupId)

def getPolicy (rules : Rules) (policyId : ℕ) : Except ServiceError Policy :=
  orRaise (rules.policies.find? policyId) (.notFound "Policy" policyId)

def Db.withGroups (db : Db) (groups : Table Group) : Db :=
  { db with facts := { db.facts with groups := groups } }

def Db.withMemberships (db : Db) (memberships : Table EmployeeGroupMembership) : Db :=
  { db with facts := { db.facts with employeeGroupMemberships := memberships } }

def Db.withGroupPolicies (db : Db) (groupPolicies : Table GroupPolicy) : Db :=
  { db with facts := { db.facts with groupPolicies := groupPolicies } }

/-- `list_group_employees`, by id -/
def listGroupEmployees (facts : Facts) (groupId : ℕ) : List ℕ :=
  (facts.employees.select fun e =>
    (facts.employeeGroupMemberships.find? (toLex (e.id, groupId))).isSome).map fun e => e.id

/-- `_refresh_group_members` -/
def refreshGroupMembers (db : Db) (groupId : ℕ) (actor : Actor) (now : DateTime) :
    Except ServiceError Db := do
  let _ ← getGroup db.facts groupId
  (reconcileEmployees db (listGroupEmployees db.facts groupId) (some now) actor now).map Prod.fst

/-! ## Groups -/

def createGroup (db : Db) (name : String) (actor : Actor) (now : DateTime) : Db × Group :=
  let group : Group := ⟨db.sequences.group, name⟩
  (recordAuditLog
    { db.withGroups (db.facts.groups.insert group) with
      sequences := { db.sequences with group := db.sequences.group + 1 } }
    actor "Group" group.id "created" none (some (.group group)) now, group)

def updateGroup (db : Db) (groupId : ℕ) (name : Option String) (actor : Actor) (now : DateTime) :
    Except ServiceError (Db × Group) := do
  let group ← getGroup db.facts groupId
  match name with
  | none => return (db, group)
  | some name =>
    if name = group.name then return (db, group)
    else
      let renamed : Group := ⟨group.id, name⟩
      return (recordAuditLog (db.withGroups (db.facts.groups.insert renamed)) actor "Group" group.id
        "changed" (some (.group group)) (some (.group renamed)) now, renamed)

/-! ## Members -/

def addEmployeeToGroup (db : Db) (groupId employeeId : ℕ) (actor : Actor) (now : DateTime) :
    Except ServiceError (Db × Employee) := do
  let _ ← getGroup db.facts groupId
  let employee ← getEmployee db.facts employeeId
  match db.facts.employeeGroupMemberships.find? (toLex (employeeId, groupId)) with
  | some _ => return (db, employee)
  | none => do
    let membership : EmployeeGroupMembership := ⟨employeeId, groupId⟩
    let db := recordAuditLog
      (db.withMemberships (db.facts.employeeGroupMemberships.insert membership)) actor "Group"
      groupId "employee_added" none (some (.membership membership)) now
    let db ← reconcileEmployee db employee.id actor now
    return (db, employee)

def removeEmployeeFromGroup (db : Db) (groupId employeeId : ℕ) (actor : Actor) (now : DateTime) :
    Except ServiceError Db := do
  let _ ← getGroup db.facts groupId
  let employee ← getEmployee db.facts employeeId
  match db.facts.employeeGroupMemberships.find? (toLex (employeeId, groupId)) with
  | none => return db
  | some membership =>
    let db := recordAuditLog
      (db.withMemberships (db.facts.employeeGroupMemberships.filter fun m => m ≠ membership)) actor
      "Group" groupId "employee_removed" (some (.membership membership)) none now
    reconcileEmployee db employee.id actor now

/-! ## Policies -/

/-- `_attach_policy` -/
def attachPolicy (db : Db) (key : GroupPolicy) (actor : Actor) (now : DateTime) : Db :=
  recordAuditLog (db.withGroupPolicies (db.facts.groupPolicies.insert key)) actor "Group"
    key.groupId "policy_attached" none (some (.groupPolicy key)) now

/-- `_detach_policy` -/
def detachPolicy (db : Db) (key : GroupPolicy) (actor : Actor) (now : DateTime) : Db :=
  recordAuditLog (db.withGroupPolicies (db.facts.groupPolicies.filter fun gp => gp ≠ key)) actor
    "Group" key.groupId "policy_detached" (some (.groupPolicy key)) none now

def attached (db : Db) (groupId policyId : ℕ) : Bool :=
  (db.facts.groupPolicies.find? (toLex (groupId, policyId))).isSome

def addPolicyToGroup (db : Db) (groupId policyId : ℕ) (actor : Actor) (now : DateTime) :
    Except ServiceError (Db × Policy) := do
  let _ ← getGroup db.facts groupId
  let policy ← getPolicy db.facts.toRules policyId
  if attached db groupId policyId then return (db, policy)
  else do
    let db ← refreshGroupMembers (attachPolicy db ⟨groupId, policyId⟩ actor now) groupId actor now
    return (db, policy)

def removePolicyFromGroup (db : Db) (groupId policyId : ℕ) (actor : Actor) (now : DateTime) :
    Except ServiceError Db := do
  let _ ← getGroup db.facts groupId
  let _ ← getPolicy db.facts.toRules policyId
  if attached db groupId policyId then
    refreshGroupMembers (detachPolicy db ⟨groupId, policyId⟩ actor now) groupId actor now
  else return db

/-- One policy to detach, and whether anything has changed so far. -/
def detachStep (groupId : ℕ) (actor : Actor) (now : DateTime) (state : Db × Bool) (policyId : ℕ) :
    Db × Bool :=
  if attached state.1 groupId policyId then
    (detachPolicy state.1 ⟨groupId, policyId⟩ actor now, true)
  else state

def attachStep (groupId : ℕ) (actor : Actor) (now : DateTime) (state : Db × Bool) (policyId : ℕ) :
    Db × Bool :=
  if attached state.1 groupId policyId then state
  else (attachPolicy state.1 ⟨groupId, policyId⟩ actor now, true)

def updateGroupPolicies (db : Db) (groupId : ℕ) (addPolicyIds removePolicyIds : List ℕ)
    (actor : Actor) (now : DateTime) : Except ServiceError Db := do
  let _ ← getGroup db.facts groupId
  let _ ← traverseAll (getPolicy db.facts.toRules)
    (sortedSet (addPolicyIds ++ removePolicyIds).toFinset)
  let detached := removePolicyIds.foldl (detachStep groupId actor now) (db, false)
  let changed := addPolicyIds.foldl (attachStep groupId actor now) detached
  if changed.2 then refreshGroupMembers changed.1 groupId actor now else return changed.1

end Warp
