import Warp.AuditLogs
import Warp.Groups

/-!
# Directories

The list of the groups counts members and policies, as far as the caller sees them. Every statement of a
request reads what is committed by then.
-/

namespace Warp

open Infra Auth

structure GroupDirectoryRead where
  id : ℕ
  name : String
  memberCount : ℕ
  policyCount : ℕ
deriving DecidableEq, Repr

/-- A search has at most 200 characters. -/
structure GroupSearch where
  text : Option String := none
  bound : ∀ s ∈ text, s.length ≤ 200

/-- The statement of the list, by id. An empty search is none. -/
def groupStatement (ilike : Ilike) (search : GroupSearch) (facts : Facts) : List Group :=
  facts.groups.select fun g =>
    (given? search.text).all fun text => ilike g.name ("%" ++ Text.strip text ++ "%")

/-- `member_counts` of a group -/
def memberCount (facts : Facts) (visibility : EmployeeVisibility) (groupId : ℕ) : ℕ :=
  (facts.employeeGroupMemberships.select fun m => m.groupId = groupId
    && (facts.employees.find? m.employeeId).isSome && visibility.canAccess m.employeeId).length

/-- `policy_counts` of a group -/
def policyCount (facts : Facts) (fieldVisibility : AssignmentFieldVisibility) (groupId : ℕ) : ℕ :=
  (facts.groupPolicies.select fun gp => gp.groupId = groupId
    && (facts.policies.find? gp.policyId).isSome
    && visiblePolicyCondition facts.toRules fieldVisibility gp.policyId).length

/-- What the statements of one request find committed. -/
structure DirectoryReads where
  counted : Facts
  found : Facts
  memberships : Facts
  policies : Facts

def DirectoryReads.groupRead (reads : DirectoryReads) (visibility : EmployeeVisibility)
    (fieldVisibility : AssignmentFieldVisibility) (g : Group) : GroupDirectoryRead where
  id := g.id
  name := g.name
  memberCount := memberCount reads.memberships visibility g.id
  policyCount := policyCount reads.policies fieldVisibility g.id

/-- `list_all` of the groups -/
def listAllGroups (reads : DirectoryReads) (ilike : Ilike) (visibility : EmployeeVisibility)
    (fieldVisibility : AssignmentFieldVisibility) (search : GroupSearch)
    (pagination : PageParameters) : Page GroupDirectoryRead :=
  (paginate (groupStatement ilike search reads.counted) (groupStatement ilike search reads.found)
    pagination).map (reads.groupRead visibility fieldVisibility)

/-- `getGroups` of the frontend, by what each request finds and what its caller sees by then -/
def getGroups (reads : ℕ → DirectoryReads) (ilike : Ilike) (visibility : ℕ → EmployeeVisibility)
    (fieldVisibility : ℕ → AssignmentFieldVisibility) (fuel : ℕ) :
    Option (PageReading GroupDirectoryRead) :=
  readAll (fun n pagination => listAllGroups (reads n) ilike (visibility n) (fieldVisibility n)
    { bound := by simp } pagination) fuel

end Warp
