import Warp.Auth.AccessControl
import Warp.Infra.Ordering

/-!
# Roles

Creating, changing and deleting roles, and the permissions that a user has through them.
-/

namespace Warp.Auth

open Infra

/-- `WILDCARD_PERMISSION` -/
def wildcardPermission : String := "*"

/-- The keys of `PERMISSIONS` -/
def permissionCatalog : List String :=
  ["employees:read", "employees:create", "employees:update", "employees:delete", "policies:read",
    "policies:create", "policies:update", "policies:version:create", "policies:activate",
    "policies:archive", "groups:read", "groups:create", "groups:update", "assignments:read",
    "assignments:manage", "settings:read", "settings:manage", "audit:read", "access:read",
    "access:review", "access:manage", "api_credentials:manage", "changes:preview"]

/-- The roles of a user. -/
def rolesOf (roles : Table Role) (user : User) : List Role :=
  roles.select fun r => user.roleIds.contains r.id

def effectivePermissions (roles : Table Role) (user : User) : Finset String :=
  if user.isRoot then {wildcardPermission}
  else ((rolesOf roles user).flatMap fun r => r.permissions).toFinset

def authorizePermissions (granted required : Finset String) : Except AuthError Unit :=
  ensure (wildcardPermission ∈ granted || required ⊆ granted)
    (.permissionDenied (sortedSet required) (sortedSet granted))

/-! ## Checks -/

def roleById (db : AuthDb) (roleId : ℕ) : Except AuthError Role :=
  orRaise (db.roles.find? roleId) (.lookup s!"Role {roleId} was not found")

def validatePermissions (permissions : List String) : Except AuthError (List String) := do
  let normalized := sortedSet permissions.toFinset
  let unknown := normalized.filter (· ∉ permissionCatalog)
  ensure unknown.isEmpty (.value ("Unknown permissions: " ++ String.intercalate ", " unknown))
  return normalized

/-- `_assignment_field_links`: the ids of the fields that the role is linked to. -/
def assignmentFieldLinks (db : AuthDb) (scope : AssignmentFieldScope)
    (assignmentFieldIds : List ℕ) : Except AuthError (List ℕ) := do
  let uniqueIds := sortedSet assignmentFieldIds.toFinset
  ensure (!(scope = .selected && uniqueIds.isEmpty))
    (.value "Selected assignment fields must include at least one field")
  ensure (!(scope ≠ .selected && !uniqueIds.isEmpty))
    (.value "Assignment field IDs are only valid for selected scope")
  let missing := uniqueIds.filter fun id => (db.assignmentFieldDefinitions.find? id).isNone
  ensure missing.isEmpty
    (.value ("Unknown assignment field IDs: " ++ String.intercalate ", " (missing.map toString)))
  return uniqueIds

/-- The name of a role, unless it is blank or taken by a role other than `roleId`. -/
def checkedRoleName (c : Ctx) (db : AuthDb) (roleId : Option ℕ) (name : String) :
    Except AuthError String := do
  let normalizedName := Text.strip name
  ensure (normalizedName ≠ "") (.value "Role name cannot be blank")
  ensure (db.roles.rows.all fun r =>
      c.platform.lower r.name ≠ c.platform.casefold normalizedName || some r.id = roleId)
    (.value "A role with this name already exists")
  return normalizedName

def strippedDescription (description : Option String) : Option String :=
  (given? description).map Text.strip

/-! ## Changes -/

def AuthDb.addRole (db : AuthDb) (role : Role) : AuthDb :=
  { db with
    roles := db.roles.insert role
    sequences := { db.sequences with role := db.sequences.role + 1 } }

def AuthDb.saveRole (db : AuthDb) (role : Role) : AuthDb :=
  { db with roles := db.roles.insert role }

/-- The unique key on the name. -/
def uniqueRoleName (db : AuthDb) (role : Role) : Except AuthError Unit :=
  ensure (db.roles.rows.all fun r => r.name ≠ role.name || r.id = role.id) (.integrity "roles")

structure RoleInput where
  name : String
  description : Option String := none
  permissions : List String := []
  employeeScope : EmployeeScope := .none
  assignmentFieldScope : AssignmentFieldScope := .none
  assignmentFieldIds : List ℕ := []

def createRole (c : Ctx) (db : AuthDb) (data : RoleInput) (actor : String) :
    Except AuthError (AuthDb × Role) := do
  let name ← checkedRoleName c db none data.name
  let permissions ← validatePermissions data.permissions
  let links ← assignmentFieldLinks db data.assignmentFieldScope data.assignmentFieldIds
  let role : Role :=
    { id := db.sequences.role
      name := name
      description := strippedDescription data.description
      employeeScope := data.employeeScope
      assignmentFieldScope := data.assignmentFieldScope
      createdBy := actor
      permissions := permissions
      assignmentFieldIds := links }
  uniqueRoleName db role
  return (db.addRole role, role)

/-- What a role update asks for. `none` stands for a value that is not supplied. -/
structure RoleUpdate where
  name : Option String := none
  description : Option (Option String) := none
  permissions : Option (List String) := none
  employeeScope : Option EmployeeScope := none
  assignmentFieldScope : Option AssignmentFieldScope := none
  assignmentFieldIds : Option (List ℕ) := none

def renamedRole (c : Ctx) (db : AuthDb) (role : Role) : Option String → Except AuthError Role
  | none => .ok role
  | some name => do
    let name ← checkedRoleName c db (some role.id) name
    return { role with name := name }

def permittedRole (role : Role) : Option (List String) → Except AuthError Role
  | none => .ok role
  | some permissions => do
    let permissions ← validatePermissions permissions
    return { role with permissions := permissions }

/-- The fields that the role is to be linked to: those supplied, or else those it has if it stays or
becomes selective. -/
def selectedFieldIds (role : Role) (scope : AssignmentFieldScope) : Option (List ℕ) → List ℕ
  | some ids => ids
  | none => if scope = .selected then role.assignmentFieldIds else []

def linkedRole (db : AuthDb) (role : Role) (scope : Option AssignmentFieldScope)
    (ids : Option (List ℕ)) : Except AuthError Role :=
  if scope.isNone ∧ ids.isNone then .ok role
  else do
    let resulting := scope.getD role.assignmentFieldScope
    let links ← assignmentFieldLinks db resulting (selectedFieldIds role resulting ids)
    return { role with assignmentFieldScope := resulting, assignmentFieldIds := links }

/-- The row after `update_role`. -/
def updatedRole (c : Ctx) (db : AuthDb) (role : Role) (data : RoleUpdate) :
    Except AuthError Role := do
  let role ← renamedRole c db role data.name
  let role ← permittedRole
    { role with description := (data.description.map strippedDescription).getD role.description }
    data.permissions
  linkedRole db { role with employeeScope := data.employeeScope.getD role.employeeScope }
    data.assignmentFieldScope data.assignmentFieldIds

def updateRole (c : Ctx) (db : AuthDb) (role : Role) (data : RoleUpdate) :
    Except AuthError (AuthDb × Role) := do
  let updated ← updatedRole c db role data
  uniqueRoleName db updated
  return (db.saveRole updated, updated)

def deleteRole (db : AuthDb) (role : Role) : Except AuthError AuthDb := do
  ensure (db.users.rows.all fun u => !u.roleIds.contains role.id)
    (.value "A role assigned to users cannot be deleted")
  return { db with roles := db.roles.filter fun r => r.id ≠ role.id }

end Warp.Auth
