import Warp.Reconciliation

/-!
# Assignment queries

Answers about recorded, current and future assignments. The past and the present are read from the
assignment rows, the future is resolved from the policies.
-/

namespace Warp

open Infra

inductive AssignmentQueryMode where
  | recordedHistory
  | currentPersisted
  | calculatedFuture
deriving DecidableEq, Repr

structure AssignmentQueryValue where
  assignmentFieldDefinition : AssignmentFieldDefinition
  value : String
  sourcePolicyVersionId : Option ℕ
  sourceOverrideId : Option ℕ
  explanation : Explanation
  persistedAssignmentId : Option ℕ := none
  effectiveFrom : Option DateTime := none
  effectiveUntil : Option DateTime := none
deriving DecidableEq, Repr

structure EmployeeAssignmentQueryResult where
  employeeId : ℕ
  evaluationDate : Date
  mode : AssignmentQueryMode
  assignments : List AssignmentQueryValue
deriving DecidableEq, Repr

/-- `visible is None or field_id in visible` -/
def fieldVisible (visible : Option (Finset ℕ)) (fieldId : ℕ) : Bool :=
  match visible with
  | none => true
  | some ids => fieldId ∈ ids

/-- The definition behind a field id. A foreign key keeps the lookup from failing. -/
def fieldDefinition (rules : Rules) (fieldId : ℕ) : Except ServiceError AssignmentFieldDefinition :=
  orRaise (rules.assignmentFieldDefinitions.find? fieldId)
    (.notFound "AssignmentFieldDefinition" fieldId)

/-! ## Values -/

def persistedValue (rules : Rules) (a : EmployeeAssignment) :
    Except ServiceError AssignmentQueryValue :=
  (fieldDefinition rules a.assignmentFieldDefinitionId).map fun field =>
    { assignmentFieldDefinition := field
      value := a.value
      sourcePolicyVersionId := a.sourcePolicyVersionId
      sourceOverrideId := a.sourceOverrideId
      explanation := a.explanation
      persistedAssignmentId := some a.id
      effectiveFrom := some a.effectiveFrom
      effectiveUntil := a.effectiveUntil }

def calculatedValue (rules : Rules) (item : FinalAssignment) :
    Except ServiceError AssignmentQueryValue :=
  (fieldDefinition rules item.assignmentFieldDefinitionId).map fun field =>
    { assignmentFieldDefinition := field
      value := item.value
      sourcePolicyVersionId := item.sourcePolicyVersionId
      sourceOverrideId := item.sourceOverrideId
      explanation := item.explanation }

def visibleRows (visible : Option (Finset ℕ)) (rows : List EmployeeAssignment) :
    List EmployeeAssignment :=
  rows.filter fun a => fieldVisible visible a.assignmentFieldDefinitionId

def visibleItems (visible : Option (Finset ℕ)) (items : List FinalAssignment) :
    List FinalAssignment :=
  items.filter fun item => fieldVisible visible item.assignmentFieldDefinitionId

/-! ## Queries -/

/-- The rows that are valid at `effectiveAt`. -/
def persistedResult (db : Db) (evaluationDate : Date) (mode : AssignmentQueryMode)
    (effectiveAt : DateTime) (visible : Option (Finset ℕ)) (employeeId : ℕ) :
    Except ServiceError EmployeeAssignmentQueryResult :=
  (traverseAll (persistedValue db.facts.toRules)
    (visibleRows visible (getEmployeeAssignmentsAsOf db employeeId effectiveAt))).map
      fun values => ⟨employeeId, evaluationDate, mode, values⟩

def calculatedResult (rules : Rules) (visible : Option (Finset ℕ))
    (resolution : EmployeeAssignmentResolution) :
    Except ServiceError EmployeeAssignmentQueryResult :=
  (traverseAll (calculatedValue rules) (visibleItems visible resolution.assignments)).map
    fun values => ⟨resolution.employeeId, resolution.evaluationDate, .calculatedFuture, values⟩

/-- Every employee is resolved before the values of hidden fields are dropped. -/
def calculatedResults (facts : Facts) (ids : List ℕ) (evaluationDate : Date)
    (visible : Option (Finset ℕ)) : Except ServiceError (List EmployeeAssignmentQueryResult) :=
  match traverseAll (fun id => resolveEmployeeAssignmentsForDate facts id evaluationDate) ids with
  | .error e => .error e
  | .ok resolutions => traverseAll (calculatedResult facts.toRules visible) resolutions

def queryEmployeeAssignments (db : Db) (employeeIds : List ℕ) (evaluationDate : Date)
    (visible : Option (Finset ℕ)) (now : DateTime) :
    Except ServiceError (List EmployeeAssignmentQueryResult) :=
  let ids := sortedSet employeeIds.toFinset
  let missingIds := ids.filter fun id => (db.facts.employees.find? id).isNone
  if missingIds ≠ [] then .error (.notFoundAll "Employees" missingIds)
  else if evaluationDate < now.date then
    traverseAll (persistedResult db evaluationDate .recordedHistory (startOfDay evaluationDate)
      visible) ids
  else if evaluationDate = now.date then
    traverseAll (persistedResult db evaluationDate .currentPersisted now visible) ids
  else calculatedResults db.facts ids evaluationDate visible

end Warp
