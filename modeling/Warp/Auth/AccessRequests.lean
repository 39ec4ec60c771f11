import Warp.Auth.Requests
import Warp.Auth.Visibility

/-!
# Requests for roles and users

The routes of `/roles` and `/users`, with the permission and the scopes that they check, and runs of
them together with the root setup.
-/

namespace Warp.Auth

open Infra

/-- A change of roles or users. -/
inductive AccessAction where
  | createRole (data : RoleInput)
  | updateRole (roleId : ℕ) (data : RoleUpdate)
  | deleteRole (roleId : ℕ)
  | user (action : AdminAction)

/-- `authorize_operation`: every change needs the permission to manage users and roles. -/
def authorizeOperation (db : AuthDb) : Principal → Except AuthError Unit
  | .service => .ok ()
  | .user userId => do
    let user ← userById db userId
    authorizePermissions (effectivePermissions db.roles user) {"access:manage"}

/-- The scope checks of `add_user` and `change_user`. -/
def checkUserScope (db : AuthDb) (v : EmployeeVisibility) : AdminAction → Except AuthError Unit
  | .createUser _ _ _ _ employeeId => requireVisible db.employees v employeeId
  | .updateUser userId data => do
    let user ← userById db userId
    match data.employeeId with
    | none => return ()
    | some employeeId => do
      requireVisible db.employees v user.employeeId
      requireVisible db.employees v employeeId
  | .resetUserPassword .. | .disableUser _ => .ok ()

/-- `principal.subject`, as far as a role keeps it. -/
def Principal.subject (db : AuthDb) : Principal → String
  | .service => "service"
  | .user userId => ((db.users.find? userId).map fun u => u.email).getD ""

def runAccessAction (c : Ctx) (db : AuthDb) (principal : Principal) :
    AccessAction → Except AuthError AuthDb
  | .createRole data => (createRole c db data (principal.subject db)).map Prod.fst
  | .updateRole roleId data => do
    let role ← roleById db roleId
    (updateRole c db role data).map Prod.fst
  | .deleteRole roleId => do
    let role ← roleById db roleId
    deleteRole db role
  | .user action => do
    checkUserScope db (employeeVisibility db db.employees principal) action
    (runAdminAction c db principal.userId action).map Prod.fst

inductive AccessRequest where
  | setupRoot (name email password : String) (clientIp userAgent : Option String)
  | change (principal : Principal) (action : AccessAction)

def runAccessRequest (c : Ctx) (db : AuthDb) : AccessRequest → Except AuthError AuthDb
  | .setupRoot name email password clientIp userAgent =>
    (createRootUser c db name email password clientIp userAgent).map Prod.fst
  | .change principal action => do
    authorizeOperation db principal
    runAccessAction c db principal action

/-- A request that is refused changes nothing. -/
def accessStep (db : AuthDb) (call : Ctx × AccessRequest) : AuthDb :=
  match runAccessRequest call.1 db call.2 with
  | .ok db' => db'
  | .error _ => db

def runAccess (db : AuthDb) (calls : List (Ctx × AccessRequest)) : AuthDb :=
  calls.foldl accessStep db

end Warp.Auth
