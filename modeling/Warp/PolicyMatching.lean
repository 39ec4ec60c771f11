import Warp.EffectiveVersions
import Warp.PolicyCompiler

/-!
# Policy matching

Which policies an employee matches on a date, by a compiled clause that holds or through a group,
with the evidence for each match.
-/

namespace Warp

open Infra

/-! ## Evidence -/

structure ConditionMatchEvidence where
  field : String
  operator : Operator
  expected : ExplanationValue
  actual : ExplanationValue
  result : Bool
deriving DecidableEq, Repr

structure ClauseMatchEvidence where
  clauseId : ℕ
  conditions : List ConditionMatchEvidence
deriving DecidableEq, Repr

inductive PolicyMatchOrigin where
  | conditionMatch (matchedClauses : List ClauseMatchEvidence)
  | group (groupId : ℕ) (groupName : String)
deriving DecidableEq, Repr

structure PolicyMatch where
  policyId : ℕ
  policyVersionId : ℕ
  policyName : String
  versionNumber : ℕ
  priority : ℤ
  origins : List PolicyMatchOrigin
deriving DecidableEq, Repr

/-! ## Compiled clauses -/

def clauseConditions (rules : Rules) (clause : CompiledPolicyClause) :
    List CompiledPolicyCondition :=
  rules.compiledPolicyConditions.select (fun c => c.clauseId = clause.id)

/-- The clauses of some versions, by version and id. -/
def versionClauses (rules : Rules) (versionIds : List ℕ) : List CompiledPolicyClause :=
  orderBy (fun c => toLex (c.policyVersionId, c.id))
    (rules.compiledPolicyClauses.select (fun c => versionIds.contains c.policyVersionId))

def evaluateCompiledCondition (rules : Rules) (context : ConditionEvaluationContext)
    (condition : CompiledPolicyCondition) : Except ServiceError ConditionMatchEvidence :=
  match rules.conditionFieldDefinitions.find? condition.conditionFieldDefinitionId with
  | none => .error (.notFound "ConditionFieldDefinition" condition.conditionFieldDefinitionId)
  | some definition =>
    match evaluateConditionWithEvidence context definition condition.operator condition.value with
    | .error e => .error e
    | .ok evaluation =>
      .ok { field := definition.key
            operator := condition.operator
            expected := evaluation.expected
            actual := evaluation.actual
            result := evaluation.result }

/-- Every condition of the clause is evaluated, also after one that does not hold. -/
def evaluateClause (rules : Rules) (context : ConditionEvaluationContext)
    (clause : CompiledPolicyClause) : Except ServiceError ClauseMatchEvidence :=
  match traverseAll (evaluateCompiledCondition rules context) (clauseConditions rules clause) with
  | .error e => .error e
  | .ok conditions => .ok ⟨clause.id, conditions⟩

/-- A clause without conditions never matches. -/
def ClauseMatchEvidence.isMatch (evidence : ClauseMatchEvidence) : Bool :=
  !evidence.conditions.isEmpty && evidence.conditions.all (fun c => c.result)

/-- The matched clauses with their version ids, in clause order. -/
def matchedClauses (rules : Rules) (context : ConditionEvaluationContext) (versionIds : List ℕ) :
    Except ServiceError (List (ℕ × ClauseMatchEvidence)) :=
  match traverseAll (fun clause => (evaluateClause rules context clause).map
      fun evidence => (clause.policyVersionId, evidence)) (versionClauses rules versionIds) with
  | .error e => .error e
  | .ok evaluated => .ok (evaluated.filter fun p => p.2.isMatch)

/-! ## Matches of an employee -/

/-- Group, group name and policy of every policy attached to a group of the employee. -/
def groupRows (facts : Facts) (employeeId : ℕ) : List (ℕ × String × ℕ) :=
  orderBy (fun r => toLex (r.1, r.2.2))
    ((facts.employeeGroupMemberships.select (fun m => m.employeeId = employeeId)).flatMap fun m =>
      match facts.groups.find? m.groupId with
      | none => []
      | some group =>
        (facts.groupPolicies.select (fun gp => gp.groupId = group.id)).map fun gp =>
          (group.id, group.name, gp.policyId))

def policyName (rules : Rules) (policyId : ℕ) : String :=
  match rules.policies.find? policyId with
  | none => ""
  | some policy => policy.name

/-- `version_id` to the policy of that version. -/
def versionPolicy? (versions : List PolicyVersion) (versionId : ℕ) : Option ℕ :=
  (versions.find? (fun v => v.id = versionId)).map (fun v => v.policyId)

/-- One origin for the matched clauses of a version, and one for each group of the policy. -/
def matchOrigins (facts : Facts) (employeeId : ℕ) (effective : Dict ℕ PolicyVersion)
    (clauses : List (ℕ × ClauseMatchEvidence)) : List (ℕ × PolicyMatchOrigin) :=
  (Dict.collect clauses).entries.filterMap (fun p =>
      (versionPolicy? effective.values p.1).map fun policyId =>
        (policyId, PolicyMatchOrigin.conditionMatch p.2))
    ++ ((groupRows facts employeeId).filter (fun r => r.2.2 ∈ effective.keys)).map fun r =>
      (r.2.2, PolicyMatchOrigin.group r.1 r.2.1)

def policyMatch (rules : Rules) (version : PolicyVersion) (origins : List PolicyMatchOrigin) :
    PolicyMatch where
  policyId := version.policyId
  policyVersionId := version.id
  policyName := policyName rules version.policyId
  versionNumber := version.versionNumber
  priority := version.priority
  origins := origins

/-- Date-effective policy matches with condition and group evidence. -/
def findPolicyMatches (facts : Facts) (employeeId : ℕ) (evaluationDate : Date) :
    Except ServiceError (Dict ℕ PolicyMatch) :=
  match facts.employees.find? employeeId with
  | none => .ok .empty
  | some employee =>
    match getEffectivePolicyVersions facts.toRules none evaluationDate with
    | .error e => .error e
    | .ok effective =>
      let context : ConditionEvaluationContext := ⟨facts.employees, employee, evaluationDate⟩
      match matchedClauses facts.toRules context (effective.values.map (fun v => v.id)) with
      | .error e => .error e
      | .ok clauses =>
        .ok ((Dict.collect (matchOrigins facts employeeId effective clauses)).sortByKey.filterMap
          fun policyId origins =>
            (effective.get? policyId).map fun version => policyMatch facts.toRules version origins)

def findMatchingPolicyIds (facts : Facts) (employeeId : ℕ) (evaluationDate : Date) :
    Except ServiceError (List ℕ) :=
  match findPolicyMatches facts employeeId evaluationDate with
  | .error e => .error e
  | .ok found => .ok found.keys

end Warp
