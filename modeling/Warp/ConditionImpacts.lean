import Warp.OrgChart
import Warp.Infra.Ordering

/-!
# Condition impacts

Which employees a change of an employee row can concern. The condition fields name, for each column
they depend on, a resolver that finds them.
-/

namespace Warp

open Infra

structure EmployeeMutation where
  employeeId : ℕ
  changedColumns : List String
  before : Option Employee
  after : Option Employee

abbrev ImpactResolver := Table Employee → EmployeeMutation → Finset ℕ

def changedEmployee : ImpactResolver := fun _ mutation => {mutation.employeeId}

def oldAndNewManagers : ImpactResolver := fun _ mutation =>
  (mutation.before.bind fun e => e.managerId).toFinset
    ∪ (mutation.after.bind fun e => e.managerId).toFinset

def movedSubtree : ImpactResolver := fun employees mutation =>
  match employees.find? mutation.employeeId with
  | none => ∅
  | some _ => insert mutation.employeeId (getDescendantIds employees mutation.employeeId)

/-- `IMPACT_RESOLVERS` -/
def impactResolvers : List (String × ImpactResolver) :=
  [("changed_employee", changedEmployee), ("old_and_new_managers", oldAndNewManagers),
    ("moved_subtree", movedSubtree)]

/-- The active fields that depend on a changed column of `employees` name their resolvers. -/
def dependsOnChange (facts : Facts) (mutation : EmployeeMutation)
    (d : ConditionFieldDependency) : Bool :=
  ((facts.conditionFieldDefinitions.find? d.conditionFieldDefinitionId).any fun f => f.active)
    && d.sourceTable = some "employees"
    && d.sourceColumn.any fun column => mutation.changedColumns.contains column

def resolverKeys (facts : Facts) (mutation : EmployeeMutation) : Finset String :=
  ((facts.conditionFieldDependencies.select (dependsOnChange facts mutation)).map
    fun d => d.impactResolverKey).toFinset

def resolveImpact (facts : Facts) (mutation : EmployeeMutation) (key : String) :
    Except ServiceError (Finset ℕ) :=
  match impactResolvers.lookup key with
  | none => .error (.conditionImpact ("Unsupported condition impact resolver: " ++ key))
  | some resolver => .ok (resolver facts.employees mutation)

/-- The existing employees that need a reconciliation after a change, by id. -/
def findImpactedEmployeeIds (facts : Facts) (mutation : EmployeeMutation) :
    Except ServiceError (List ℕ) :=
  if mutation.changedColumns = [] then .ok []
  else do
    let impacted ← traverseAll (resolveImpact facts mutation)
      (sortedSet (resolverKeys facts mutation))
    return (sortedSet (impacted.foldl (· ∪ ·) ∅)).filter fun id =>
      (facts.employees.find? id).isSome

end Warp
