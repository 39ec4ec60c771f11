import Warp.ScheduledReconciliations

/-!
# Tenure schedules

An employee's tenure reaches the thresholds of the active rules on certain days. Each of those that
is still to come has an event.
-/

namespace Warp

open Infra

def isTenureDefinition (definition : ConditionFieldDefinition) : Bool :=
  definition.key = "tenure" && definition.active

/-- The version of a condition row, if it is a tenure condition of an active policy. -/
def tenureVersion? (rules : Rules) (c : CompiledPolicyCondition) : Option PolicyVersion := do
  let definition ← rules.conditionFieldDefinitions.find? c.conditionFieldDefinitionId
  let clause ← rules.compiledPolicyClauses.find? c.clauseId
  let version ← rules.policyVersions.find? clause.policyVersionId
  if isTenureDefinition definition && rules.policyActive version.policyId then some version
  else none

/-- The tenure conditions of the active policies with their versions, by condition id. -/
def tenureConditions (rules : Rules) : List (CompiledPolicyCondition × PolicyVersion) :=
  rules.compiledPolicyConditions.rows.filterMap fun c => (tenureVersion? rules c).map fun v => (c, v)

def tenureEventsOf (employee : Employee) (now : DateTime)
    (condition : CompiledPolicyCondition × PolicyVersion) : Except ServiceError (List EventKey) :=
  (tenureTransitionDates employee.startDate condition.1.operator condition.1.value).map fun days =>
    (days.filter condition.2.effectiveOn).flatMap fun day =>
      futureEvent .employee employee.id .tenureThreshold day now

/-- The keys of a Python dictionary: the first of equal ones stays. -/
def desiredTenureEvents (rules : Rules) (employee : Employee) (now : DateTime) :
    Except ServiceError (List EventKey) :=
  (traverseAll (tenureEventsOf employee now) (tenureConditions rules)).map fun keys =>
    keys.flatten.eraseDups

/-- Makes one employee's pending tenure events match all active rules. -/
def syncEmployeeTenureSchedules (db : Db) (employee : Employee) (now : DateTime) :
    Except ServiceError Db :=
  match desiredTenureEvents db.facts.toRules employee now with
  | .error e => .error e
  | .ok desired => replaceEvents db .employee [employee.id] desired

def syncAllEmployeeTenureSchedules (db : Db) (now : DateTime) : Except ServiceError Db :=
  runAll (fun db employee => syncEmployeeTenureSchedules db employee now) db
    db.facts.employees.rows

end Warp
