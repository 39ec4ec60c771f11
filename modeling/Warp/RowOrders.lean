import Warp.Reconciliation

/-!
# Row orders

Two queries of a resolution leave the order of their rows open: the conditions of a clause come in any
order, and so do candidates that the sort does not tell apart. A row order is what the database makes
of both queries. The definitions here are those of a resolution, with the row order as an argument.
-/

namespace Warp

open Infra

/-- The orders in which the rows of the two queries are returned. -/
structure RowOrder (rules : Rules) where
  conditions : CompiledPolicyClause → List CompiledPolicyCondition
  candidates : List ℕ → List Candidate
  conditions_perm : ∀ clause, (conditions clause).Perm (clauseConditions rules clause)
  candidates_perm : ∀ versionIds, (candidates versionIds).Perm (policyCandidates rules versionIds)
  candidates_sorted : ∀ versionIds,
    (candidates versionIds).Pairwise fun c d => candidateOrder c ≤ candidateOrder d

namespace RowOrder

/-- The rows by their ids. -/
def byId (rules : Rules) : RowOrder rules where
  conditions := clauseConditions rules
  candidates := policyCandidates rules
  conditions_perm := fun _ => List.Perm.refl _
  candidates_perm := fun _ => List.Perm.refl _
  candidates_sorted := fun _ => orderBy_sorted candidateOrder _

/-- One condition before the others of its clause. -/
def conditionFirst (rules : Rules) (c : CompiledPolicyCondition) : RowOrder rules where
  conditions := fun clause => toFront c (clauseConditions rules clause)
  candidates := policyCandidates rules
  conditions_perm := fun _ => toFront_perm c _
  candidates_perm := fun _ => List.Perm.refl _
  candidates_sorted := fun _ => orderBy_sorted candidateOrder _

/-- One candidate before the others that the sort does not tell apart from it. -/
def candidateFirst (rules : Rules) (c : Candidate) : RowOrder rules where
  conditions := clauseConditions rules
  candidates := fun versionIds =>
    orderBy candidateOrder (toFront c (policyCandidates rules versionIds))
  conditions_perm := fun _ => List.Perm.refl _
  candidates_perm := fun _ => (perm_orderBy _ _).trans (toFront_perm c _)
  candidates_sorted := fun _ => orderBy_sorted candidateOrder _

end RowOrder

/-! ## Matching -/

def evaluateClauseIn {rules : Rules} (order : RowOrder rules) (context : ConditionEvaluationContext)
    (clause : CompiledPolicyClause) : Except ServiceError ClauseMatchEvidence :=
  match traverseAll (evaluateCompiledCondition rules context) (order.conditions clause) with
  | .error e => .error e
  | .ok conditions => .ok ⟨clause.id, conditions⟩

def matchedClausesIn {rules : Rules} (order : RowOrder rules) (context : ConditionEvaluationContext)
    (versionIds : List ℕ) : Except ServiceError (List (ℕ × ClauseMatchEvidence)) :=
  match traverseAll (fun clause => (evaluateClauseIn order context clause).map
      fun evidence => (clause.policyVersionId, evidence)) (versionClauses rules versionIds) with
  | .error e => .error e
  | .ok evaluated => .ok (evaluated.filter fun p => p.2.isMatch)

def findPolicyMatchesIn (facts : Facts) (order : RowOrder facts.toRules) (employeeId : ℕ)
    (evaluationDate : Date) : Except ServiceError (Dict ℕ PolicyMatch) :=
  match facts.employees.find? employeeId with
  | none => .ok .empty
  | some employee =>
    match getEffectivePolicyVersions facts.toRules none evaluationDate with
    | .error e => .error e
    | .ok effective =>
      match matchedClausesIn order ⟨facts.employees, employee, evaluationDate⟩
          (effective.values.map (fun v => v.id)) with
      | .error e => .error e
      | .ok clauses =>
        .ok ((Dict.collect (matchOrigins facts employeeId effective clauses)).sortByKey.filterMap
          fun policyId origins =>
            (effective.get? policyId).map fun version => policyMatch facts.toRules version origins)

/-! ## Resolving -/

def resolvePolicyAssignmentsIn {rules : Rules} (order : RowOrder rules) (policyIds : List ℕ)
    (evaluationDate : Date) (policyMatches : PolicyMatches) :
    Except ServiceError (List ResolvedAssignment) :=
  match getEffectivePolicyVersions rules (some policyIds) evaluationDate with
  | .error e => .error e
  | .ok effective =>
    resolveCandidates policyMatches (order.candidates (effective.values.map (fun v => v.id)))

def resolveEmployeeAssignmentsIn (facts : Facts) (order : RowOrder facts.toRules) (employeeId : ℕ)
    (evaluationDate : Date) : Except ServiceError EmployeeAssignmentResolution :=
  match findPolicyMatchesIn facts order employeeId evaluationDate with
  | .error e => .error e
  | .ok policyMatches =>
    match resolvePolicyAssignmentsIn order policyMatches.keys evaluationDate
        (some policyMatches) with
    | .error e => .error e
    | .ok policyAssignments =>
      .ok { employeeId := employeeId
            evaluationDate := evaluationDate
            policyIds := policyMatches.keys
            assignments := (applyEmployeeOverrides facts.toRules policyAssignments
              (activeOverrides facts employeeId)).map (FinalAssignment.dated evaluationDate) }

/-- The stable keys of the assignments that an employee would have; `none` if the resolution raises. -/
def resolvedKeys (facts : Facts) (order : RowOrder facts.toRules) (employeeId : ℕ)
    (evaluationDate : Date) : Option (Finset AssignmentKey) :=
  (resolveEmployeeAssignmentsIn facts order employeeId evaluationDate).toOption.map fun r =>
    (r.assignments.map FinalAssignment.assignmentKey).toFinset

/-- By id this is the resolution. -/
theorem resolveEmployeeAssignmentsIn_byId (facts : Facts) (employeeId : ℕ) (evaluationDate : Date) :
    resolveEmployeeAssignmentsIn facts (.byId _) employeeId evaluationDate =
      resolveEmployeeAssignmentsForDate facts employeeId evaluationDate := rfl

end Warp
