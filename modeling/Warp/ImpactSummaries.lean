import Warp.AssignmentQueries

/-!
# Assignment summaries

Counts of the assignments of a population, per field, with samples of the values. A future summary
counts the employees whose resolution conflicts and reports the first hundred of the conflicts.
-/

namespace Warp

open Infra

def maxValueSamples : ℕ := 20

def maxConflictSamples : ℕ := 100

structure SummaryAssignment where
  employeeId : ℕ
  assignmentFieldDefinitionId : ℕ
  value : String
  sourcePolicyVersionId : Option ℕ
  sourceOverrideId : Option ℕ
deriving DecidableEq, Repr

structure AssignmentFieldAccumulator where
  employeeIds : Finset ℕ := ∅
  values : Finset String := ∅
  assignmentCount : ℕ := 0
  policyAssignmentCount : ℕ := 0
  overrideAssignmentCount : ℕ := 0

/-- Code and message are fixed by the conflict itself. -/
structure ImpactSummaryConflict where
  employeeId : ℕ
  conflict : PolicyConflict
deriving DecidableEq, Repr

structure AssignmentFieldSummary where
  assignmentFieldDefinition : AssignmentFieldDefinition
  assignedEmployeeCount : ℕ
  assignmentCount : ℕ
  policyAssignmentCount : ℕ
  overrideAssignmentCount : ℕ
  distinctValueCount : ℕ
  valueSamples : List String
  valuesTruncated : Bool
deriving DecidableEq, Repr

inductive SummaryScope where
  | population
  | employee (employeeId : ℕ)
deriving DecidableEq, Repr

structure AssignmentSummary where
  scope : SummaryScope
  evaluationDate : Date
  mode : AssignmentQueryMode
  complete : Bool
  employeeCount : ℕ
  employeesWithAssignments : ℕ
  employeesWithoutAssignments : ℤ
  assignmentCount : ℕ
  policyAssignmentCount : ℕ
  overrideAssignmentCount : ℕ
  fieldCount : ℕ
  fields : List AssignmentFieldSummary
  conflictedEmployeeCount : ℕ
  conflicts : List ImpactSummaryConflict
  conflictsTruncated : Bool
deriving DecidableEq, Repr

/-! ## Collecting the assignments -/

/-- What the loop over the employees has collected. -/
structure SummaryState where
  assignments : List SummaryAssignment := []
  conflicts : List ImpactSummaryConflict := []
  conflictedEmployeeCount : ℕ := 0
deriving DecidableEq, Repr

def summaryAssignmentOfRow (a : EmployeeAssignment) : SummaryAssignment where
  employeeId := a.employeeId
  assignmentFieldDefinitionId := a.assignmentFieldDefinitionId
  value := a.value
  sourcePolicyVersionId := a.sourcePolicyVersionId
  sourceOverrideId := a.sourceOverrideId

def summaryAssignmentOfItem (employeeId : ℕ) (item : FinalAssignment) : SummaryAssignment where
  employeeId := employeeId
  assignmentFieldDefinitionId := item.assignmentFieldDefinitionId
  value := item.value
  sourcePolicyVersionId := item.sourcePolicyVersionId
  sourceOverrideId := item.sourceOverrideId

/-- The visible rows of some employees that are valid at `effectiveAt`. -/
def persistedAssignments (db : Db) (employeeIds : List ℕ) (effectiveAt : DateTime)
    (visible : Option (Finset ℕ)) : List SummaryAssignment :=
  (orderBy (fun a => toLex (a.employeeId, a.id))
    (visibleRows visible (db.employeeAssignments.select fun a =>
      employeeIds.contains a.employeeId && a.validAt effectiveAt))).map summaryAssignmentOfRow

def SummaryState.addConflict (state : SummaryState) (employeeId : ℕ) (conflict : PolicyConflict) :
    SummaryState :=
  { state with
    conflictedEmployeeCount := state.conflictedEmployeeCount + 1
    conflicts :=
      if state.conflicts.length < maxConflictSamples then
        state.conflicts ++ [⟨employeeId, conflict⟩]
      else state.conflicts }

/-- A conflict is recorded, any other error ends the summary. -/
def summarizeEmployee (facts : Facts) (evaluationDate : Date) (visible : Option (Finset ℕ))
    (state : SummaryState) (employeeId : ℕ) : Except ServiceError SummaryState :=
  match resolveEmployeeAssignmentsForDate facts employeeId evaluationDate with
  | .error (.policyConflict conflict) => .ok (state.addConflict employeeId conflict)
  | .error e => .error e
  | .ok resolution =>
    .ok { state with
      assignments := state.assignments
        ++ (visibleItems visible resolution.assignments).map (summaryAssignmentOfItem employeeId) }

/-! ## Counting -/

def AssignmentFieldAccumulator.add (accumulator : AssignmentFieldAccumulator)
    (a : SummaryAssignment) : AssignmentFieldAccumulator where
  employeeIds := insert a.employeeId accumulator.employeeIds
  values := insert a.value accumulator.values
  assignmentCount := accumulator.assignmentCount + 1
  policyAssignmentCount :=
    accumulator.policyAssignmentCount + if a.sourcePolicyVersionId.isSome then 1 else 0
  overrideAssignmentCount :=
    accumulator.overrideAssignmentCount + if a.sourcePolicyVersionId.isSome then 0 else 1

def fieldAccumulators (assignments : List SummaryAssignment) : Dict ℕ AssignmentFieldAccumulator :=
  assignments.foldl (fun d a => d.update a.assignmentFieldDefinitionId {} fun acc => acc.add a)
    .empty

/-- `_assignment_field_summary` on an entry of the accumulators. -/
def assignmentFieldSummary (rules : Rules) (entry : ℕ × AssignmentFieldAccumulator) :
    Except ServiceError AssignmentFieldSummary :=
  (fieldDefinition rules entry.1).map fun definition =>
    let values := sortedSet entry.2.values
    { assignmentFieldDefinition := definition
      assignedEmployeeCount := entry.2.employeeIds.card
      assignmentCount := entry.2.assignmentCount
      policyAssignmentCount := entry.2.policyAssignmentCount
      overrideAssignmentCount := entry.2.overrideAssignmentCount
      distinctValueCount := values.length
      valueSamples := values.take maxValueSamples
      valuesTruncated := maxValueSamples < values.length }

/-- The employees of a summary, in the order of their ids. -/
def summaryEmployees (facts : Facts) (employeeId : Option ℕ)
    (visibleEmployeeIds : Option (Finset ℕ)) : List ℕ :=
  (facts.employees.select fun e =>
    (match employeeId with
      | none => true
      | some id => e.id = id)
    && (match visibleEmployeeIds with
      | none => true
      | some ids => e.id ∈ ids)).map fun e => e.id

def summaryScope : Option ℕ → SummaryScope
  | none => .population
  | some employeeId => .employee employeeId

def assignmentSummary (rules : Rules) (scope : SummaryScope) (evaluationDate : Date)
    (mode : AssignmentQueryMode) (employeeIds : List ℕ) (state : SummaryState) :
    Except ServiceError AssignmentSummary :=
  let withAssignments := (state.assignments.map fun a => a.employeeId).toFinset.card
  (traverseAll (assignmentFieldSummary rules)
    (fieldAccumulators state.assignments).sortByKey.entries).map fun fields =>
      { scope := scope
        evaluationDate := evaluationDate
        mode := mode
        complete := state.conflictedEmployeeCount = 0
        employeeCount := employeeIds.length
        employeesWithAssignments := withAssignments
        employeesWithoutAssignments :=
          (employeeIds.length : ℤ) - state.conflictedEmployeeCount - withAssignments
        assignmentCount := state.assignments.length
        policyAssignmentCount :=
          (state.assignments.filter fun a => a.sourcePolicyVersionId.isSome).length
        overrideAssignmentCount :=
          (state.assignments.filter fun a => a.sourcePolicyVersionId.isNone).length
        fieldCount := fields.length
        fields := fields
        conflictedEmployeeCount := state.conflictedEmployeeCount
        conflicts := state.conflicts
        conflictsTruncated := state.conflicts.length < state.conflictedEmployeeCount }

def buildAssignmentSummary (db : Db) (evaluationDate : Date) (employeeId : Option ℕ)
    (visibleEmployeeIds visible : Option (Finset ℕ)) (now : DateTime) :
    Except ServiceError AssignmentSummary :=
  let employeeIds := summaryEmployees db.facts employeeId visibleEmployeeIds
  let summary := assignmentSummary db.facts.toRules (summaryScope employeeId) evaluationDate
  if evaluationDate < now.date then
    summary .recordedHistory employeeIds
      { assignments := persistedAssignments db employeeIds (startOfDay evaluationDate) visible }
  else if evaluationDate = now.date then
    summary .currentPersisted employeeIds
      { assignments := persistedAssignments db employeeIds now visible }
  else
    match runAll (summarizeEmployee db.facts evaluationDate visible) {} employeeIds with
    | .error e => .error e
    | .ok state => summary .calculatedFuture employeeIds state

/-! ## The impact of a policy -/

structure PolicyFieldAccumulator where
  configuredValues : Finset String := ∅
  selectedEmployeeIds : Finset ℕ := ∅
  suppressedEmployeeIds : Finset ℕ := ∅
  selectedAssignmentCount : ℕ := 0
  suppressedAssignmentCount : ℕ := 0

structure PolicyFieldImpactSummary where
  assignmentFieldDefinition : AssignmentFieldDefinition
  configuredValueCount : ℕ
  configuredValueSamples : List String
  configuredValuesTruncated : Bool
  selectedEmployeeCount : ℕ
  selectedAssignmentCount : ℕ
  suppressedByOverrideEmployeeCount : ℕ
  suppressedByOverrideAssignmentCount : ℕ
deriving DecidableEq, Repr

inductive ImpactMode where
  | current
  | calculatedFuture
deriving DecidableEq, Repr

structure PolicyImpactSummary where
  policyId : ℕ
  policyName : String
  policyStatus : PolicyStatus
  evaluationDate : Date
  mode : ImpactMode
  calculationBasis : String
  complete : Bool
  effective : Bool
  effectivePolicyVersionId : Option ℕ
  effectiveVersionNumber : Option ℕ
  totalEmployeeCount : ℕ
  matchedEmployeeCount : ℕ
  directMatchEmployeeCount : ℕ
  groupMatchEmployeeCount : ℕ
  directAndGroupMatchEmployeeCount : ℕ
  selectedEmployeeCount : ℕ
  selectedAssignmentCount : ℕ
  matchedWithoutSelectedAssignmentCount : ℕ
  suppressedByOverrideEmployeeCount : ℕ
  suppressedByOverrideAssignmentCount : ℕ
  fields : List PolicyFieldImpactSummary
  conflictedEmployeeCount : ℕ
  conflicts : List ImpactSummaryConflict
  conflictsTruncated : Bool
deriving DecidableEq, Repr

/-- The variables of the loop over the employees. -/
structure ImpactState where
  fieldAccumulators : Dict ℕ PolicyFieldAccumulator
  matchedEmployeeCount : ℕ := 0
  directMatchEmployeeCount : ℕ := 0
  groupMatchEmployeeCount : ℕ := 0
  directAndGroupMatchEmployeeCount : ℕ := 0
  selectedEmployeeCount : ℕ := 0
  selectedAssignmentCount : ℕ := 0
  matchedWithoutSelectedAssignmentCount : ℕ := 0
  suppressedEmployeeCount : ℕ := 0
  suppressedAssignmentCount : ℕ := 0
  conflictedEmployeeCount : ℕ := 0
  conflicts : List ImpactSummaryConflict := []

def PolicyMatchOrigin.isDirect : PolicyMatchOrigin → Bool
  | .conditionMatch _ => true
  | .group _ _ => false

def PolicyMatchOrigin.isGroup : PolicyMatchOrigin → Bool
  | .conditionMatch _ => false
  | .group _ _ => true

def ImpactState.countMatch (state : ImpactState) (policyMatch : PolicyMatch) : ImpactState :=
  let hasDirectOrigin := policyMatch.origins.any PolicyMatchOrigin.isDirect
  let hasGroupOrigin := policyMatch.origins.any PolicyMatchOrigin.isGroup
  { state with
    matchedEmployeeCount := state.matchedEmployeeCount + 1
    directMatchEmployeeCount := state.directMatchEmployeeCount + hasDirectOrigin.toNat
    groupMatchEmployeeCount := state.groupMatchEmployeeCount + hasGroupOrigin.toNat
    directAndGroupMatchEmployeeCount :=
      state.directAndGroupMatchEmployeeCount + (hasDirectOrigin && hasGroupOrigin).toNat }

def ImpactState.addConflict (state : ImpactState) (employeeId : ℕ) (conflict : PolicyConflict) :
    ImpactState :=
  { state with
    conflictedEmployeeCount := state.conflictedEmployeeCount + 1
    conflicts :=
      if state.conflicts.length < maxConflictSamples then
        state.conflicts ++ [⟨employeeId, conflict⟩]
      else state.conflicts }

def PolicyFieldAccumulator.addSelected (employeeId : ℕ) (accumulator : PolicyFieldAccumulator) :
    PolicyFieldAccumulator :=
  { accumulator with
    selectedEmployeeIds := insert employeeId accumulator.selectedEmployeeIds
    selectedAssignmentCount := accumulator.selectedAssignmentCount + 1 }

def PolicyFieldAccumulator.addSuppressed (employeeId : ℕ) (accumulator : PolicyFieldAccumulator) :
    PolicyFieldAccumulator :=
  { accumulator with
    suppressedEmployeeIds := insert employeeId accumulator.suppressedEmployeeIds
    suppressedAssignmentCount := accumulator.suppressedAssignmentCount + 1 }

/-- Changes the accumulator of the assignment's field. There is one for every field of the version,
which keeps the lookup from failing. -/
def accumulate (add : PolicyFieldAccumulator → PolicyFieldAccumulator)
    (accumulators : Dict ℕ PolicyFieldAccumulator) (item : ResolvedAssignment) :
    Except ServiceError (Dict ℕ PolicyFieldAccumulator) :=
  if item.assignmentFieldDefinitionId ∈ accumulators.keys then
    .ok (accumulators.modify item.assignmentFieldDefinitionId add)
  else .error (.notFound "AssignmentFieldDefinition" item.assignmentFieldDefinitionId)

def ImpactState.addAssignments (state : ImpactState) (overriddenFieldIds : List ℕ) (employeeId : ℕ)
    (policyAssignments : List ResolvedAssignment) : Except ServiceError ImpactState :=
  let selected := policyAssignments.filter fun item =>
    item.assignmentFieldDefinitionId ∉ overriddenFieldIds
  let suppressed := policyAssignments.filter fun item =>
    item.assignmentFieldDefinitionId ∈ overriddenFieldIds
  match runAll (accumulate (PolicyFieldAccumulator.addSelected employeeId))
      state.fieldAccumulators selected with
  | .error e => .error e
  | .ok accumulators =>
    match runAll (accumulate (PolicyFieldAccumulator.addSuppressed employeeId))
        accumulators suppressed with
    | .error e => .error e
    | .ok accumulators =>
      .ok { state with
        fieldAccumulators := accumulators
        selectedEmployeeCount := state.selectedEmployeeCount + if selected = [] then 0 else 1
        selectedAssignmentCount := state.selectedAssignmentCount + selected.length
        matchedWithoutSelectedAssignmentCount :=
          state.matchedWithoutSelectedAssignmentCount + if selected = [] then 1 else 0
        suppressedEmployeeCount := state.suppressedEmployeeCount + if suppressed = [] then 0 else 1
        suppressedAssignmentCount := state.suppressedAssignmentCount + suppressed.length }

/-- One turn of the loop over the employees. -/
def summarizeMatch (facts : Facts) (policyId : ℕ) (version : PolicyVersion) (evaluationDate : Date)
    (state : ImpactState) (employeeId : ℕ) : Except ServiceError ImpactState :=
  match findPolicyMatches facts employeeId evaluationDate with
  | .error e => .error e
  | .ok policyMatches =>
    match policyMatches.get? policyId with
    | none => .ok state
    | some policyMatch =>
      match resolvePolicyAssignments facts.toRules policyMatches.keys evaluationDate
          (some policyMatches) with
      | .error (.policyConflict conflict) =>
        .ok ((state.countMatch policyMatch).addConflict employeeId conflict)
      | .error e => .error e
      | .ok resolved =>
        (state.countMatch policyMatch).addAssignments
          ((activeOverrides facts employeeId).map fun o => o.assignmentFieldDefinitionId) employeeId
          (resolved.filter fun item => item.sourcePolicyVersionId = version.id)

def versionValues (rules : Rules) (version : PolicyVersion) : List PolicyFieldValue :=
  rules.policyFieldValues.select fun row => row.policyVersionId = version.id

/-- One accumulator for each field of the version, by field id. -/
def initialAccumulators (rules : Rules) (version : PolicyVersion) : Dict ℕ PolicyFieldAccumulator :=
  let values := versionValues rules version
  .ofList ((sortedSet (values.map fun row => row.assignmentFieldDefinitionId).toFinset).map
    fun fieldId => (fieldId,
      { configuredValues := ((values.filter fun row =>
          row.assignmentFieldDefinitionId = fieldId).map fun row => row.value).toFinset }))

/-- `_policy_field_summary` on an entry of the accumulators. -/
def policyFieldSummary (rules : Rules) (entry : ℕ × PolicyFieldAccumulator) :
    Except ServiceError PolicyFieldImpactSummary :=
  (fieldDefinition rules entry.1).map fun definition =>
    let values := sortedSet entry.2.configuredValues
    { assignmentFieldDefinition := definition
      configuredValueCount := values.length
      configuredValueSamples := values.take maxValueSamples
      configuredValuesTruncated := maxValueSamples < values.length
      selectedEmployeeCount := entry.2.selectedEmployeeIds.card
      selectedAssignmentCount := entry.2.selectedAssignmentCount
      suppressedByOverrideEmployeeCount := entry.2.suppressedEmployeeIds.card
      suppressedByOverrideAssignmentCount := entry.2.suppressedAssignmentCount }

/-- The summary after the loop. -/
def policyImpactSummary (rules : Rules) (policy : Policy) (version : Option PolicyVersion)
    (evaluationDate : Date) (mode : ImpactMode) (employeeIds : List ℕ) (state : ImpactState) :
    Except ServiceError PolicyImpactSummary :=
  (traverseAll (policyFieldSummary rules) state.fieldAccumulators.sortByKey.entries).map fun fields =>
    { policyId := policy.id
      policyName := policy.name
      policyStatus := policy.status
      evaluationDate := evaluationDate
      mode := mode
      calculationBasis := "live_resolution_current_employee_facts"
      complete := state.conflictedEmployeeCount = 0
      effective := version.isSome
      effectivePolicyVersionId := version.map fun v => v.id
      effectiveVersionNumber := version.map fun v => v.versionNumber
      totalEmployeeCount := employeeIds.length
      matchedEmployeeCount := state.matchedEmployeeCount
      directMatchEmployeeCount := state.directMatchEmployeeCount
      groupMatchEmployeeCount := state.groupMatchEmployeeCount
      directAndGroupMatchEmployeeCount := state.directAndGroupMatchEmployeeCount
      selectedEmployeeCount := state.selectedEmployeeCount
      selectedAssignmentCount := state.selectedAssignmentCount
      matchedWithoutSelectedAssignmentCount := state.matchedWithoutSelectedAssignmentCount
      suppressedByOverrideEmployeeCount := state.suppressedEmployeeCount
      suppressedByOverrideAssignmentCount := state.suppressedAssignmentCount
      fields := fields
      conflictedEmployeeCount := state.conflictedEmployeeCount
      conflicts := state.conflicts
      conflictsTruncated := state.conflicts.length < state.conflictedEmployeeCount }

/-- Without an effective version nothing is counted. -/
def buildPolicyImpactSummary (facts : Facts) (policy : Policy) (evaluationDate : Date)
    (visibleEmployeeIds : Option (Finset ℕ)) (today : Date) :
    Except ServiceError PolicyImpactSummary :=
  let employeeIds := summaryEmployees facts none visibleEmployeeIds
  match getEffectivePolicyVersion facts.toRules policy.id evaluationDate with
  | .error e => .error e
  | .ok effectiveVersion =>
    let mode := if evaluationDate = today then ImpactMode.current else .calculatedFuture
    let summary := policyImpactSummary facts.toRules policy effectiveVersion evaluationDate mode
      employeeIds
    match effectiveVersion with
    | none => summary { fieldAccumulators := .empty }
    | some version =>
      match runAll (summarizeMatch facts policy.id version evaluationDate)
          { fieldAccumulators := initialAccumulators facts.toRules version } employeeIds with
      | .error e => .error e
      | .ok state => summary state

end Warp
