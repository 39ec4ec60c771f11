import Warp.PolicyEngine

/-!
# Overrides

Active overrides of an employee replace every policy value of the overridden fields.
-/

namespace Warp

open Infra

/-! ## Final assignments -/

/-- A policy assignment that an override replaces. -/
structure ReplacedAssignment where
  value : String
  sourcePolicyVersionId : ℕ
  policyName : Option String
deriving DecidableEq, Repr

structure OverrideExplanation where
  id : ℕ
  value : String
  field : Option String
  fieldId : ℕ
  cardinality : Option Cardinality
  replacedPolicyAssignments : List ReplacedAssignment
deriving DecidableEq, Repr

inductive ExplanationReason where
  | policy (e : PolicyExplanation)
  | manualOverride (e : OverrideExplanation)
deriving DecidableEq, Repr

/-- `evaluation_date` is set when the assignment was resolved for a date. -/
structure Explanation where
  evaluationDate : Option Date
  reason : ExplanationReason
deriving DecidableEq, Repr

structure FinalAssignment where
  assignmentFieldDefinitionId : ℕ
  value : String
  sourcePolicyVersionId : Option ℕ
  sourceOverrideId : Option ℕ
  explanation : Explanation
deriving DecidableEq, Repr

/-- Field, value and source: what an assignment says, without its explanation. -/
structure AssignmentIdentity where
  assignmentFieldDefinitionId : ℕ
  value : String
  sourcePolicyVersionId : Option ℕ
  sourceOverrideId : Option ℕ
deriving DecidableEq, Repr

def FinalAssignment.identity (item : FinalAssignment) : AssignmentIdentity where
  assignmentFieldDefinitionId := item.assignmentFieldDefinitionId
  value := item.value
  sourcePolicyVersionId := item.sourcePolicyVersionId
  sourceOverrideId := item.sourceOverrideId

def policyFinal (item : ResolvedAssignment) : FinalAssignment where
  assignmentFieldDefinitionId := item.assignmentFieldDefinitionId
  value := item.value
  sourcePolicyVersionId := some item.sourcePolicyVersionId
  sourceOverrideId := none
  explanation := ⟨none, .policy item.explanation⟩

def overrideFinal (rules : Rules) (resolved : List ResolvedAssignment)
    (o : EmployeeOverride) : FinalAssignment where
  assignmentFieldDefinitionId := o.assignmentFieldDefinitionId
  value := o.value
  sourcePolicyVersionId := none
  sourceOverrideId := some o.id
  explanation :=
    let field := rules.assignmentFieldDefinitions.find? o.assignmentFieldDefinitionId
    { evaluationDate := none
      reason := .manualOverride
        { id := o.id
          value := o.value
          field := field.map fun f => f.name
          fieldId := o.assignmentFieldDefinitionId
          cardinality := field.map fun f => f.cardinality
          replacedPolicyAssignments :=
            (resolved.filter (fun item =>
              item.assignmentFieldDefinitionId = o.assignmentFieldDefinitionId)).map fun item =>
                ⟨item.value, item.sourcePolicyVersionId, some item.explanation.policyName⟩ } }

/-- Replaces every policy value of an overridden field with its override values. -/
def applyEmployeeOverrides (rules : Rules) (resolvedAssignments : List ResolvedAssignment)
    (overrides : List EmployeeOverride) : List FinalAssignment :=
  let overriddenFieldIds := overrides.map fun o => o.assignmentFieldDefinitionId
  orderBy (fun item => toLex (item.assignmentFieldDefinitionId, item.value))
    ((resolvedAssignments.filter
        (fun item => item.assignmentFieldDefinitionId ∉ overriddenFieldIds)).map policyFinal
      ++ overrides.map (overrideFinal rules resolvedAssignments))

/-- The overrides of an employee that are not retired. -/
def activeOverrides (facts : Facts) (employeeId : ℕ) : List EmployeeOverride :=
  orderBy (fun o => toLex (o.assignmentFieldDefinitionId, toLex (o.value, o.id)))
    (facts.employeeOverrides.select (fun o => o.employeeId = employeeId && o.retiredAt.isNone))

/-! ## Resolution for a date -/

structure EmployeeAssignmentResolution where
  employeeId : ℕ
  evaluationDate : Date
  policyIds : List ℕ
  assignments : List FinalAssignment
deriving DecidableEq, Repr

def FinalAssignment.dated (evaluationDate : Date) (item : FinalAssignment) : FinalAssignment :=
  { item with explanation := { item.explanation with evaluationDate := some evaluationDate } }

/-- Calculates one employee's desired assignments without persisting projections. -/
def resolveEmployeeAssignmentsForDate (facts : Facts) (employeeId : ℕ) (evaluationDate : Date) :
    Except ServiceError EmployeeAssignmentResolution :=
  match findPolicyMatches facts employeeId evaluationDate with
  | .error e => .error e
  | .ok policyMatches =>
    match resolvePolicyAssignments facts.toRules policyMatches.keys evaluationDate
        (some policyMatches) with
    | .error e => .error e
    | .ok policyAssignments =>
      .ok { employeeId := employeeId
            evaluationDate := evaluationDate
            policyIds := policyMatches.keys
            assignments := (applyEmployeeOverrides facts.toRules policyAssignments
              (activeOverrides facts employeeId)).map (FinalAssignment.dated evaluationDate) }

/-! ## JSON -/

def Cardinality.text : Cardinality → String
  | .one => "one"
  | .many => "many"

def CandidateOutcome.text : CandidateOutcome → String
  | .selected => "selected"
  | .duplicateValue => "duplicate_value"
  | .lowerPriority => "lower_priority"

def optionText : Option String → Json
  | none => .null
  | some s => .str s

def ConditionMatchEvidence.toJson (c : ConditionMatchEvidence) : Json :=
  .obj [("field", .str c.field), ("operator", .str c.operator.text),
    ("expected", c.expected.toJson), ("actual", c.actual.toJson), ("result", .bool c.result)]

def ClauseMatchEvidence.toJson (c : ClauseMatchEvidence) : Json :=
  .obj [("clause_id", .int c.clauseId),
    ("conditions", .arr (c.conditions.map ConditionMatchEvidence.toJson))]

def ExplanationOrigin.toJson : ExplanationOrigin → Json
  | .persistedPolicyLink => .obj [("type", .str "persisted_policy_link")]
  | .origin (.group groupId groupName) =>
    .obj [("type", .str "group"), ("group_id", .int groupId), ("group_name", .str groupName)]
  | .origin (.conditionMatch clauses) =>
    .obj [("type", .str "condition_match"),
      ("matched_clauses", .arr (clauses.map ClauseMatchEvidence.toJson))]

def CandidateSummary.toJson (c : CandidateSummary) : Json :=
  .obj [("policy_id", .int c.policyId), ("policy_name", .str c.policyName),
    ("policy_version_id", .int c.policyVersionId), ("version_number", .int c.versionNumber),
    ("value", .str c.value), ("priority", .int c.priority), ("selected", .bool c.selected),
    ("outcome", .str c.outcome.text),
    ("origins", .arr (c.origins.map ExplanationOrigin.toJson))]

def PolicyExplanation.fields (e : PolicyExplanation) : List (String × Json) :=
  [("reason", .str "policy"),
    ("policy", .obj [("id", .int e.policyId), ("name", .str e.policyName)]),
    ("policy_version",
      .obj [("id", .int e.policyVersionId), ("version_number", .int e.versionNumber)]),
    ("origins", .arr (e.origins.map ExplanationOrigin.toJson)),
    ("selection", .obj [("field", .str e.field), ("cardinality", .str e.cardinality.text),
      ("strategy", .str e.strategy), ("source_selection", optionText e.sourceSelection),
      ("priority", .int e.priority),
      ("candidates", .arr (e.candidates.map CandidateSummary.toJson))])]

def ReplacedAssignment.toJson (r : ReplacedAssignment) : Json :=
  .obj [("value", .str r.value), ("source_policy_version_id", .int r.sourcePolicyVersionId),
    ("policy_name", optionText r.policyName)]

def OverrideExplanation.fields (e : OverrideExplanation) : List (String × Json) :=
  [("reason", .str "manual_override"),
    ("override", .obj [("id", .int e.id), ("value", .str e.value)]),
    ("selection", .obj [("field", optionText e.field), ("field_id", .int e.fieldId),
      ("cardinality", optionText (e.cardinality.map Cardinality.text)),
      ("strategy", .str "override_replaces_policy"),
      ("replaced_policy_assignments",
        .arr (e.replacedPolicyAssignments.map ReplacedAssignment.toJson))])]

def Explanation.toJson (e : Explanation) : Json :=
  .obj ((match e.evaluationDate with
      | none => []
      | some day => [("evaluation_date", .str day.isoformat)])
    ++ match e.reason with
      | .policy p => p.fields
      | .manualOverride o => o.fields)

end Warp
