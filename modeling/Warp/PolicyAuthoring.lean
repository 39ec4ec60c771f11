import Warp.EmployeeOverrides
import Warp.PolicyVersions
import Warp.TenureScheduling

/-!
# Authoring policies

A version is checked against the catalogs, its condition tree is compiled, and it is stored with the
events that follow from it. The routes that change a policy reconcile all employees.
-/

namespace Warp

open Infra

/-! ## Requests -/

/-- A condition with its value in normal form. -/
structure ConditionCreate where
  field : String
  operator : Operator
  value : String
deriving DecidableEq, Repr

inductive ConditionGroupCreate where
  | mk (logicalOperator : LogicalOperator) (conditions : List ConditionCreate)
      (childGroups : List ConditionGroupCreate)

structure PolicyVersionCreate where
  priority : ℤ
  effectiveFrom : Date
  effectiveUntil : Option Date := none
  createdBy : Option String := none
  conditionGroup : ConditionGroupCreate
  values : List (ℕ × String)

structure PolicyCreate extends PolicyVersionCreate where
  name : String
  status : PolicyStatus := .active

structure PolicyUpdate where
  name : Option String := none
  status : Option PolicyStatus := none

mutual

/-- `_condition_items` -/
def conditionItems : ConditionGroupCreate → List ConditionCreate
  | .mk _ conditions children => conditions ++ conditionItemsOf children

def conditionItemsOf : List ConditionGroupCreate → List ConditionCreate
  | [] => []
  | child :: rest => conditionItems child ++ conditionItemsOf rest

end

/-! ## Checks -/

/-- `_validate_assignment_field_definitions` together with the values in normal form. -/
def normalizedValues (rules : Rules) (values : List (ℕ × String)) :
    Except ServiceError (List (ℕ × String)) := do
  let missing := (sortedSet (values.map Prod.fst).toFinset).filter fun id =>
    (rules.assignmentFieldDefinitions.find? id).isNone
  ensure missing.isEmpty (.notFoundAll "Assignment field definitions" missing)
  traverseAll (fun item => do
    let definition ← getAssignmentFieldDefinition rules item.1
    let value ← normalizeAssignmentValue definition item.2
    return (item.1, value)) values

def activeDefinition? (rules : Rules) (key : String) : Option ConditionFieldDefinition :=
  (rules.conditionFieldDefinitions.select fun d => d.key = key && d.active).head?

/-- `get_condition_field_definitions` of the keys that a tree uses. -/
def requireConditionFields (rules : Rules) (keys : List String) : Except ServiceError Unit :=
  let missing := (sortedSet keys.toFinset).filter fun key => (activeDefinition? rules key).isNone
  ensure missing.isEmpty (.conditionField ("Condition fields not found: ["
    ++ String.intercalate ", " (missing.map fun key => "'" ++ key ++ "'") ++ "]"))

/-- The employees that the conditions of a tree refer to. -/
def employeeReferences (rules : Rules) (items : List ConditionCreate) : List ℕ :=
  items.filterMap fun item =>
    match activeDefinition? rules item.field with
    | none => none
    | some d =>
      if d.dataType = "employee_reference" then (Text.parseInt? item.value).map Int.toNat else none

/-- `_validate_employee_condition_references` -/
def requireEmployeeReferences (facts : Facts) (items : List ConditionCreate) :
    Except ServiceError Unit :=
  let missing := (sortedSet (employeeReferences facts.toRules items).toFinset).filter fun id =>
    (facts.employees.find? id).isNone
  ensure missing.isEmpty (.notFoundAll "Condition employee references" missing)

def canonicalCondition (rules : Rules) (item : ConditionCreate) :
    Except ServiceError CompiledCondition :=
  (orRaise (activeDefinition? rules item.field)
    (.conditionField ("Condition fields not found: ['" ++ item.field ++ "']"))).map fun d =>
      ⟨d, item.operator, item.value⟩

mutual

/-- `_build_canonical_condition_tree` -/
def canonicalTree (rules : Rules) : ConditionGroupCreate → Except ServiceError ConditionGroup
  | .mk logicalOperator conditions children =>
    match traverseAll (canonicalCondition rules) conditions with
    | .error e => .error e
    | .ok links =>
      match canonicalTrees rules children with
      | .error e => .error e
      | .ok groups => .ok (.mk logicalOperator links groups)

def canonicalTrees (rules : Rules) :
    List ConditionGroupCreate → Except ServiceError (List ConditionGroup)
  | [] => .ok []
  | child :: rest =>
    match canonicalTree rules child with
    | .error e => .error e
    | .ok group =>
      match canonicalTrees rules rest with
      | .error e => .error e
      | .ok groups => .ok (group :: groups)

end

/-! ## Versions -/

/-- The checked request, ready to be stored. -/
def policyVersionInput (facts : Facts) (data : PolicyVersionCreate) (actor : Actor) :
    Except ServiceError PolicyVersionInput := do
  let values ← normalizedValues facts.toRules data.values
  let items := conditionItems data.conditionGroup
  requireConditionFields facts.toRules (items.map fun item => item.field)
  requireEmployeeReferences facts items
  let canonicalRoot ← canonicalTree facts.toRules data.conditionGroup
  let compiledClauses ← compilePolicyVersionClauses canonicalRoot
  return { priority := data.priority
           effectiveFrom := data.effectiveFrom
           effectiveUntil := data.effectiveUntil
           createdBy := some (data.createdBy.getD actor.name)
           values := values
           compiledClauses := compiledClauses }

def createPolicyVersionFromInput (db : Db) (policyId : ℕ) (data : PolicyVersionCreate)
    (actor : Actor) (now : DateTime) : Except ServiceError (Db × PolicyVersion) := do
  let input ← policyVersionInput db.facts data actor
  let (db, version) ← createPolicyVersion db policyId input actor now
  let db ← syncPolicyVersionSchedules db policyId now
  let db ← syncAllEmployeeTenureSchedules db now
  return (db, version)

/-! ## Routes -/

def Db.withPolicies (db : Db) (policies : Table Policy) : Db :=
  { db with facts := { db.facts with policies := policies } }

def policyById (rules : Rules) (policyId : ℕ) : Except ServiceError Policy :=
  orRaise (rules.policies.find? policyId) (.notFound "Policy" policyId)

/-- `create`, once the caller may create the policy. -/
def createPolicy (db : Db) (data : PolicyCreate) (actor : Actor) (now : DateTime) :
    Except ServiceError (Db × Policy) := do
  let policy : Policy := ⟨db.sequences.policy, data.name, data.status, some actor.name⟩
  let added :=
    { db.withPolicies (db.facts.policies.insert policy) with
      sequences := { db.sequences with policy := db.sequences.policy + 1 } }
  let db := recordAuditLog added actor "Policy" policy.id "created" none (some (.policy policy)) now
  let (db, _) ← createPolicyVersionFromInput db policy.id data.toPolicyVersionCreate actor now
  let db ← refreshEmployeesAffectedByPolicy db now actor
  return (db, policy)

/-- `add_version`, once the caller may add versions to the policy. -/
def addVersion (db : Db) (policyId : ℕ) (data : PolicyVersionCreate) (actor : Actor)
    (now : DateTime) : Except ServiceError (Db × PolicyVersion) := do
  let policy ← policyById db.facts.toRules policyId
  let (db, version) ← createPolicyVersionFromInput db policy.id data actor now
  let db ← refreshEmployeesAffectedByPolicy db now actor
  return (db, version)

/-- A change of the status changes which versions count, so everything follows. -/
def followStatus (db : Db) (before after : Policy) (actor : Actor) (now : DateTime) :
    Except ServiceError Db :=
  if before.status = after.status then .ok db
  else do
    let db ← syncPolicyVersionSchedules db after.id now
    let db ← syncAllEmployeeTenureSchedules db now
    refreshEmployeesAffectedByPolicy db now actor

/-- `patch`, once the caller may change the policy like that. -/
def updatePolicy (db : Db) (policyId : ℕ) (data : PolicyUpdate) (actor : Actor) (now : DateTime) :
    Except ServiceError (Db × Policy) := do
  let policy ← policyById db.facts.toRules policyId
  let changed : Policy :=
    { policy with name := data.name.getD policy.name, status := data.status.getD policy.status }
  if changed = policy then return (db, policy)
  else do
    let action := if policy.status ≠ .archived ∧ changed.status = .archived then "archived" else "changed"
    let db := recordAuditLog (db.withPolicies (db.facts.policies.insert changed)) actor "Policy"
      policy.id action (some (.policy policy)) (some (.policy changed)) now
    let db ← followStatus db policy changed actor now
    return (db, changed)

end Warp
