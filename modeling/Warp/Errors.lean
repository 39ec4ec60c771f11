import Warp.Models

/-!
# Errors of the services

One constructor for each exception class, with the data of its `metadata` or of its text.
-/

namespace Warp

/-- A candidate as a conflict reports it. -/
structure ConflictCandidate where
  policyId : ℕ
  policyName : String
  policyVersionId : ℕ
  versionNumber : ℕ
  value : String
  priority : ℤ
deriving DecidableEq, Repr

structure PolicyConflict where
  assignmentFieldDefinitionId : ℕ
  assignmentFieldName : String
  priority : ℤ
  candidates : List ConflictCandidate
deriving DecidableEq, Repr

inductive ServiceError where
  /-- `PolicyConflictError` -/
  | policyConflict (conflict : PolicyConflict)
  /-- `EffectivePolicyVersionConflictError` -/
  | effectivePolicyVersionConflict (policyId : ℕ) (evaluationDate : Date)
  /-- `PolicyVersionOverlapError` -/
  | policyVersionOverlap (message : String) (policyId : ℕ) (effectiveFrom : Date)
      (effectiveUntil : Option Date) (overlappingPolicyVersionId : Option ℕ)
  /-- `PolicyCompilationError` -/
  | policyCompilation (message : String)
  /-- `ConditionFieldError` -/
  | conditionField (message : String)
  /-- `ConditionImpactError` -/
  | conditionImpact (message : String)
  /-- `AssignmentValueError` -/
  | assignmentValue (message : String) (assignmentFieldDefinitionId : ℕ)
      (assignmentFieldName : String) (value : String)
  /-- `AssignmentReconciliationOrderError` -/
  | assignmentReconciliationOrder (employeeId : ℕ) (requestedAt latestAssignmentStart : DateTime)
  /-- `EmployeeManagerNotFoundError` -/
  | employeeManagerNotFound (managerId : ℕ)
  /-- `EmployeeHierarchyConflictError` -/
  | employeeHierarchyConflict (employeeId managerId : ℕ) (reason : String)
  /-- `EmployeeOverrideConflictError` -/
  | employeeOverrideConflict (message : String) (employeeId assignmentFieldDefinitionId : ℕ)
      (assignmentFieldName value : String)
  /-- `EmployeeOverrideResourceNotFoundError` of an override -/
  | employeeOverrideNotFound (overrideId employeeId : ℕ)
  /-- A lookup by id that finds nothing: the resource and its id. -/
  | notFound (resource : String) (id : ℕ)
  /-- Lookups by id of which some find nothing. -/
  | notFoundAll (resource : String) (ids : List ℕ)
  /-- `ScheduledReconciliationError` -/
  | scheduledReconciliation (message : String)
  /-- `ScheduledReconciliationEntityNotFoundError` -/
  | scheduledReconciliationEntityNotFound (entityType : String) (entityId : ℕ)
  /-- `IntegrityError` of the database on a key or a column that must not be null -/
  | integrity (table : String)
  /-- `DataError` of the database on a number that its column cannot hold -/
  | data (table : String)
  /-- `StaleDataError`: the row to be written is gone. -/
  | staleData (table : String)
  /-- A `ValueError` or `OverflowError` of date arithmetic that leaves the years 1 to 9999. -/
  | dateOutOfRange
deriving DecidableEq, Repr

end Warp
