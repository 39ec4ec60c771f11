import Warp.Dates
import Warp.Infra.Table
import Mathlib.Data.String.Basic

/-!
# Rows and tables

The mapped classes with the columns that the modelled services read. `Rules` are the tables behind
the policies and the two catalogs, `Facts` adds the people, groups and overrides. Everything that
reconciliation derives from the facts lives in `Db`.
-/

namespace Warp

open Infra

/-! ## Catalogs -/

inductive Cardinality where
  | one
  | many
deriving DecidableEq, Repr

/-- `input` of an assignment field: a text, or a choice among options. -/
inductive AssignmentInput where
  | text
  | select (options : List String)
deriving DecidableEq, Repr

structure AssignmentFieldDefinition where
  id : ℕ
  name : String
  cardinality : Cardinality
  conflictResolution : String := "priority"
  input : AssignmentInput := .text
deriving DecidableEq, Repr

inductive FieldType where
  | static
  | derived
deriving DecidableEq, Repr

structure ConditionFieldDefinition where
  id : ℕ
  key : String
  fieldType : FieldType
  dataType : String
  resolverKey : Option String
  sourceTable : Option String
  sourceColumn : Option String
  active : Bool := true
deriving DecidableEq, Repr

inductive DependencyType where
  | column
  | relationship
  | time
deriving DecidableEq, Repr

structure ConditionFieldDependency where
  id : ℕ
  conditionFieldDefinitionId : ℕ
  dependencyType : DependencyType
  dependencyKey : String
  sourceTable : Option String
  sourceColumn : Option String
  role : String
  impactResolverKey : String
deriving DecidableEq, Repr

/-! ## Policies -/

inductive PolicyStatus where
  | draft
  | active
  | archived
deriving DecidableEq, Repr

structure Policy where
  id : ℕ
  name : String
  status : PolicyStatus
  createdBy : Option String := none
deriving DecidableEq, Repr

structure PolicyVersion where
  id : ℕ
  policyId : ℕ
  versionNumber : ℕ
  priority : ℤ
  effectiveFrom : Date
  effectiveUntil : Option Date
  createdBy : Option String := none
deriving DecidableEq, Repr

structure PolicyFieldValue where
  policyVersionId : ℕ
  assignmentFieldDefinitionId : ℕ
  value : String
deriving DecidableEq, Repr

inductive Operator where
  | eq
  | lt
  | le
  | gt
  | ge
deriving DecidableEq, Repr

def Operator.text : Operator → String
  | .eq => "="
  | .lt => "<"
  | .le => "<="
  | .gt => ">"
  | .ge => ">="

structure CompiledPolicyClause where
  id : ℕ
  policyVersionId : ℕ
deriving DecidableEq, Repr

structure CompiledPolicyCondition where
  id : ℕ
  clauseId : ℕ
  conditionFieldDefinitionId : ℕ
  operator : Operator
  value : String
deriving DecidableEq, Repr

/-! ## People and groups -/

structure Employee where
  id : ℕ
  name : String
  state : String
  department : String
  employeeType : String
  location : Option String
  startDate : Date
  managerId : Option ℕ
deriving DecidableEq, Repr

structure Group where
  id : ℕ
  name : String
deriving DecidableEq, Repr

structure EmployeeGroupMembership where
  employeeId : ℕ
  groupId : ℕ
deriving DecidableEq, Repr

structure GroupPolicy where
  groupId : ℕ
  policyId : ℕ
deriving DecidableEq, Repr

structure EmployeeOverride where
  id : ℕ
  employeeId : ℕ
  assignmentFieldDefinitionId : ℕ
  value : String
  retiredAt : Option DateTime := none
deriving DecidableEq, Repr

/-! ## Primary keys -/

instance : Row AssignmentFieldDefinition ℕ := ⟨fun r => r.id⟩
instance : Row ConditionFieldDefinition ℕ := ⟨fun r => r.id⟩
instance : Row ConditionFieldDependency ℕ := ⟨fun r => r.id⟩
instance : Row Policy ℕ := ⟨fun r => r.id⟩
instance : Row PolicyVersion ℕ := ⟨fun r => r.id⟩
instance : Row PolicyFieldValue (ℕ ×ₗ ℕ ×ₗ String) :=
  ⟨fun r => toLex (r.policyVersionId, toLex (r.assignmentFieldDefinitionId, r.value))⟩
instance : Row CompiledPolicyClause ℕ := ⟨fun r => r.id⟩
instance : Row CompiledPolicyCondition ℕ := ⟨fun r => r.id⟩
instance : Row Employee ℕ := ⟨fun r => r.id⟩
instance : Row Group ℕ := ⟨fun r => r.id⟩
instance : Row EmployeeGroupMembership (ℕ ×ₗ ℕ) := ⟨fun r => toLex (r.employeeId, r.groupId)⟩
instance : Row GroupPolicy (ℕ ×ₗ ℕ) := ⟨fun r => toLex (r.groupId, r.policyId)⟩
instance : Row EmployeeOverride ℕ := ⟨fun r => r.id⟩

/-! ## Facts -/

/-- The catalogs and the policies with their versions, outputs and compiled clauses. -/
structure Rules where
  assignmentFieldDefinitions : Table AssignmentFieldDefinition
  conditionFieldDefinitions : Table ConditionFieldDefinition
  conditionFieldDependencies : Table ConditionFieldDependency
  policies : Table Policy
  policyVersions : Table PolicyVersion
  policyFieldValues : Table PolicyFieldValue
  compiledPolicyClauses : Table CompiledPolicyClause
  compiledPolicyConditions : Table CompiledPolicyCondition

structure Facts extends Rules where
  employees : Table Employee
  groups : Table Group
  employeeGroupMemberships : Table EmployeeGroupMembership
  groupPolicies : Table GroupPolicy
  employeeOverrides : Table EmployeeOverride

def Rules.empty : Rules where
  assignmentFieldDefinitions := .empty
  conditionFieldDefinitions := .empty
  conditionFieldDependencies := .empty
  policies := .empty
  policyVersions := .empty
  policyFieldValues := .empty
  compiledPolicyClauses := .empty
  compiledPolicyConditions := .empty

def Facts.empty : Facts where
  toRules := .empty
  employees := .empty
  groups := .empty
  employeeGroupMemberships := .empty
  groupPolicies := .empty
  employeeOverrides := .empty

end Warp
