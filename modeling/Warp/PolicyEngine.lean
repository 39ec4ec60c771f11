import Warp.PolicyMatching

/-!
# The policy engine

Turns the outputs of the matched effective versions into assignments. A one-valued field takes the
value of the highest priority, a many-valued field takes every value once.
-/

namespace Warp

open Infra

/-! ## Explanations -/

inductive CandidateOutcome where
  | selected
  | duplicateValue
  | lowerPriority
deriving DecidableEq, Repr

inductive ExplanationOrigin where
  | persistedPolicyLink
  | origin (o : PolicyMatchOrigin)
deriving DecidableEq, Repr

structure CandidateSummary where
  policyId : ℕ
  policyName : String
  policyVersionId : ℕ
  versionNumber : ℕ
  value : String
  priority : ℤ
  selected : Bool
  outcome : CandidateOutcome
  origins : List ExplanationOrigin
deriving DecidableEq, Repr

structure PolicyExplanation where
  policyId : ℕ
  policyName : String
  policyVersionId : ℕ
  versionNumber : ℕ
  origins : List ExplanationOrigin
  field : String
  cardinality : Cardinality
  strategy : String
  sourceSelection : Option String
  priority : ℤ
  candidates : List CandidateSummary
deriving DecidableEq, Repr

structure ResolvedAssignment where
  assignmentFieldDefinitionId : ℕ
  value : String
  sourcePolicyVersionId : ℕ
  explanation : PolicyExplanation
deriving DecidableEq, Repr

/-! ## Candidates -/

/-- An output value with its version, the name of its policy and its field. -/
structure Candidate where
  value : String
  version : PolicyVersion
  policyName : String
  field : AssignmentFieldDefinition
deriving DecidableEq, Repr

def candidateOf? (rules : Rules) (row : PolicyFieldValue) : Option Candidate :=
  match rules.policyVersions.find? row.policyVersionId,
    rules.assignmentFieldDefinitions.find? row.assignmentFieldDefinitionId with
  | some version, some field =>
    some ⟨row.value, version, policyName rules version.policyId, field⟩
  | _, _ => none

/-- The order of the candidates: by field, highest priority first, then by version id. -/
def candidateOrder (c : Candidate) : ℕ ×ₗ ℤ ×ₗ ℕ :=
  toLex (c.field.id, toLex (-c.version.priority, c.version.id))

def policyCandidates (rules : Rules) (versionIds : List ℕ) : List Candidate :=
  orderBy candidateOrder
    ((rules.policyFieldValues.select (fun row => versionIds.contains row.policyVersionId)).filterMap
      (candidateOf? rules))

/-! ## Resolution -/

abbrev PolicyMatches := Option (Dict ℕ PolicyMatch)

/-- `policy_matches.get(policy_id) if policy_matches else None` -/
def matchFor (policyMatches : PolicyMatches) (policyId : ℕ) : Option PolicyMatch :=
  policyMatches.bind fun found => found.get? policyId

def explanationOrigins : Option PolicyMatch → List ExplanationOrigin
  | none => [.persistedPolicyLink]
  | some found => found.origins.map .origin

def candidateOutcome (winner candidate : Candidate) : CandidateOutcome :=
  if candidate = winner then .selected
  else if candidate.value = winner.value then .duplicateValue
  else .lowerPriority

def candidateSummary (policyMatches : PolicyMatches) (winner candidate : Candidate) :
    CandidateSummary where
  policyId := candidate.version.policyId
  policyName := candidate.policyName
  policyVersionId := candidate.version.id
  versionNumber := candidate.version.versionNumber
  value := candidate.value
  priority := candidate.version.priority
  selected := candidate = winner
  outcome := candidateOutcome winner candidate
  origins := explanationOrigins (matchFor policyMatches candidate.version.policyId)

def policyExplanation (field : AssignmentFieldDefinition) (winner : Candidate)
    (candidates : List Candidate) (policyMatches : PolicyMatches) : PolicyExplanation where
  policyId := winner.version.policyId
  policyName := winner.policyName
  policyVersionId := winner.version.id
  versionNumber := winner.version.versionNumber
  origins := explanationOrigins (matchFor policyMatches winner.version.policyId)
  field := field.name
  cardinality := field.cardinality
  strategy := if field.cardinality = .one then field.conflictResolution else "set_union"
  sourceSelection :=
    if field.cardinality = .many then some "highest_priority_then_lowest_version_id" else none
  priority := winner.version.priority
  candidates := candidates.map (candidateSummary policyMatches winner)

def conflictCandidate (c : Candidate) : ConflictCandidate where
  policyId := c.version.policyId
  policyName := c.policyName
  policyVersionId := c.version.id
  versionNumber := c.version.versionNumber
  value := c.value
  priority := c.version.priority

/-- The candidates of the first one's priority. -/
def winners (first : Candidate) (rest : List Candidate) : List Candidate :=
  (first :: rest).filter (fun c => c.version.priority = first.version.priority)

/-- `_resolve_one` on the candidates `first :: rest` of a field. -/
def resolveOne (field : AssignmentFieldDefinition) (first : Candidate) (rest : List Candidate)
    (policyMatches : PolicyMatches) : Except ServiceError ResolvedAssignment :=
  if (winners first rest).any (fun c => c.value ≠ first.value) then
    .error (.policyConflict
      { assignmentFieldDefinitionId := field.id
        assignmentFieldName := field.name
        priority := first.version.priority
        candidates := (winners first rest).map conflictCandidate })
  else
    .ok { assignmentFieldDefinitionId := field.id
          value := first.value
          sourcePolicyVersionId := first.version.id
          explanation := policyExplanation field first (first :: rest) policyMatches }

/-- The first candidate of each value, in the order of the candidates. -/
def uniqueCandidates (candidates : List Candidate) : Dict String Candidate :=
  Dict.firsts (candidates.map fun c => (c.value, c))

def resolveMany (field : AssignmentFieldDefinition) (candidates : List Candidate)
    (policyMatches : PolicyMatches) : List ResolvedAssignment :=
  (uniqueCandidates candidates).values.map fun item =>
    { assignmentFieldDefinitionId := item.field.id
      value := item.value
      sourcePolicyVersionId := item.version.id
      explanation := policyExplanation field item
        (candidates.filter (fun c => c.value = item.value)) policyMatches }

def resolveField (policyMatches : PolicyMatches) (candidates : List Candidate) :
    Except ServiceError (List ResolvedAssignment) :=
  match candidates with
  | [] => .ok []
  | first :: rest =>
    match first.field.cardinality with
    | .one => (resolveOne first.field first rest policyMatches).map fun r => [r]
    | .many => .ok (resolveMany first.field (first :: rest) policyMatches)

def resolveCandidates (policyMatches : PolicyMatches) (candidates : List Candidate) :
    Except ServiceError (List ResolvedAssignment) :=
  match traverseAll (fun g => resolveField policyMatches g.2)
      (groupBy (fun c : Candidate => c.field.id) candidates) with
  | .error e => .error e
  | .ok resolved => .ok resolved.flatten

/-- Resolves the values of an explicitly calculated set of policies. -/
def resolvePolicyAssignments (rules : Rules) (policyIds : List ℕ) (evaluationDate : Date)
    (policyMatches : PolicyMatches) : Except ServiceError (List ResolvedAssignment) :=
  match getEffectivePolicyVersions rules (some policyIds) evaluationDate with
  | .error e => .error e
  | .ok effective =>
    resolveCandidates policyMatches
      (policyCandidates rules (effective.values.map (fun v => v.id)))

end Warp
