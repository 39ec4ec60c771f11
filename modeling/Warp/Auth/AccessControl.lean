import Warp.Auth.HumanAuth
import Mathlib.Data.Finset.Sort

/-!
# User administration

Creating, changing, resetting and disabling the accounts of others.
-/

namespace Warp.Auth

open Infra

def userById (db : AuthDb) (userId : ℕ) : Except AuthError User :=
  orRaise (db.users.find? userId) (.lookup s!"User {userId} was not found")

/-- `roles_by_ids`: the ids of the roles, in order and without repetition. -/
def rolesByIds (db : AuthDb) (roleIds : List ℕ) : Except AuthError (List ℕ) := do
  let uniqueIds := roleIds.toFinset.sort (· ≤ ·)
  let missing := uniqueIds.filter fun id => (db.roles.find? id).isNone
  ensure missing.isEmpty
    (.value ("Unknown role IDs: " ++ String.intercalate ", " (missing.map toString)))
  return uniqueIds

def validateEmployeeLink (db : AuthDb) (employeeId userId : Option ℕ) : Except AuthError Unit :=
  match employeeId with
  | none => .ok ()
  | some employeeId => do
    ensure (db.employees.find? employeeId).isSome (.value s!"Employee {employeeId} was not found")
    ensure (db.users.rows.all fun u => u.employeeId ≠ some employeeId || userId = some u.id)
      (.value "This employee is already linked to another user")

def createUser (c : Ctx) (db : AuthDb) (name email password : String) (roleIds : List ℕ)
    (employeeId : Option ℕ) : Except AuthError (AuthDb × User) := do
  let normalizedEmail := normalizeEmail c email
  let normalizedName := Text.strip name
  ensure (normalizedName ≠ "") (.value "User name cannot be blank")
  ensure (db.users.rows.all (·.email ≠ normalizedEmail))
    (.value "A user with this email already exists")
  let roles ← rolesByIds db roleIds
  ensure (!roles.isEmpty) (.value "A non-Root user must have at least one role")
  validateEmployeeLink db employeeId none
  let user : User :=
    { id := db.sequences.user
      name := normalizedName
      email := normalizedEmail
      passwordHash := hashPassword c 1 password
      passwordChangeRequired := true
      employeeId := employeeId
      roleIds := roles }
  return (db.addUser user, user)

/-- What a user update asks for; an outer `none` stands for a value that is not supplied. -/
structure UserUpdate where
  name : Option String := none
  status : Option UserStatus := none
  roleIds : Option (List ℕ) := none
  employeeId : Option (Option ℕ) := none

def changedName (user : User) : Option String → Except AuthError User
  | none => .ok user
  | some name => do
    ensure (Text.strip name ≠ "") (.value "User name cannot be blank")
    return { user with name := Text.strip name }

def changedStatus (user : User) (actorUserId : Option ℕ) : Option UserStatus → Except AuthError User
  | none => .ok user
  | some status => do
    ensure (!(actorUserId = some user.id && status ≠ .active))
      (.value "You cannot suspend or disable your own account")
    return { user with status := status }

def changedRoles (db : AuthDb) (user : User) (actorUserId : Option ℕ) :
    Option (List ℕ) → Except AuthError User
  | none => .ok user
  | some roleIds => do
    ensure (actorUserId ≠ some user.id) (.value "You cannot change your own role assignments")
    let roles ← rolesByIds db roleIds
    ensure (!roles.isEmpty) (.value "A non-Root user must have at least one role")
    return { user with roleIds := roles }

def changedEmployee (db : AuthDb) (user : User) : Option (Option ℕ) → Except AuthError User
  | none => .ok user
  | some employeeId => do
    validateEmployeeLink db employeeId (some user.id)
    return { user with employeeId := employeeId }

/-- The row after `update_user`. -/
def updatedUser (db : AuthDb) (user : User) (data : UserUpdate) (actorUserId : Option ℕ) :
    Except AuthError User := do
  let user ← changedName user data.name
  let user ← changedStatus user actorUserId data.status
  let user ← changedRoles db user actorUserId data.roleIds
  changedEmployee db user data.employeeId

def updateUser (c : Ctx) (db : AuthDb) (user : User) (data : UserUpdate)
    (actorUserId : Option ℕ) : Except AuthError (AuthDb × User) := do
  ensure (!user.isRoot) (.value "The Root user cannot be modified through user management")
  let updated ← updatedUser db user data actorUserId
  let db := db.saveUser updated
  if data.status = none ∨ data.status = some .active then return (db, updated)
  else return (revokeUserSessions c db user.id none, updated)

def resetUserPassword (c : Ctx) (db : AuthDb) (user : User) (password : String) :
    Except AuthError (AuthDb × User) := do
  ensure (!user.isRoot) (.value "Use account security to change the Root password")
  let user :=
    { user with
      passwordHash := hashPassword c 1 password
      passwordChangeRequired := true
      passwordChangedAt := some c.now }
  return (revokeUserSessions c (db.saveUser user) user.id none, user)

def disableUser (c : Ctx) (db : AuthDb) (user : User) (actorUserId : Option ℕ) :
    Except AuthError (AuthDb × User) := do
  ensure (!user.isRoot) (.value "The Root user cannot be deleted")
  ensure (actorUserId ≠ some user.id) (.value "You cannot delete your own account")
  let user := { user with status := .disabled }
  return (revokeUserSessions c (db.saveUser user) user.id none, user)

end Warp.Auth
