import Warp.Employees
import Warp.Auth.Visibility
import Warp.Auth.AccessControl

/-!
# Requests for employees

The routes that create, change and delete an employee, with the permissions and the scopes that they
check for the caller.
-/

namespace Warp

open Infra Auth

/-- The accounts next to the policy data. -/
structure Workspace where
  auth : AuthDb
  db : Db

inductive RequestError where
  | auth (e : AuthError)
  | service (e : ServiceError)
deriving DecidableEq, Repr

inductive EmployeeRequest where
  | create (data : EmployeeCreate)
  | update (employeeId : ℕ) (data : EmployeeUpdate)
  | delete (employeeId : ℕ)

/-- `required_permissions` -/
def EmployeeRequest.requiredPermissions : EmployeeRequest → Finset String
  | .create _ => {"employees:create"}
  | .update .. => {"employees:update"}
  | .delete _ => {"employees:delete"}

def authorizeEmployees (auth : AuthDb) (required : Finset String) :
    Principal → Except AuthError Unit
  | .service => .ok ()
  | .user userId => do
    let user ← userById auth userId
    authorizePermissions (effectivePermissions auth.roles user) required

def Workspace.visibility (ws : Workspace) (principal : Principal) : EmployeeVisibility :=
  employeeVisibility ws.auth ws.db.facts.employees principal

def Workspace.withDb (ws : Workspace) (db : Db) : Workspace :=
  { auth := { ws.auth with employees := db.facts.employees }, db := db }

/-- The accounts of a deleted employee lose their link. -/
def unlinkEmployee (users : Table User) (employeeId : ℕ) : Table User :=
  users.modify (fun u => if u.employeeId = some employeeId then { u with employeeId := none } else u)
    fun u => by split <;> rfl

def Workspace.unlink (ws : Workspace) (employeeId : ℕ) : Workspace :=
  { ws with auth := { ws.auth with users := unlinkEmployee ws.auth.users employeeId } }

/-- A new manager must be visible. -/
def checkNewManager (employees : Table Employee) (v : EmployeeVisibility) (employee : Employee) :
    Option (Option ℕ) → Except AuthError Unit
  | some (some managerId) =>
    if some managerId = employee.managerId then .ok ()
    else requireVisible employees v (some managerId)
  | _ => .ok ()

/-- The workspace after the request, and the employee that it creates. -/
def runEmployeeRequest (ws : Workspace) (principal : Principal) (actor : Actor) (now : DateTime) :
    EmployeeRequest → Except RequestError (Workspace × Option Employee)
  | .create data => do
    (requireEmployeeCreationScope ws.db.facts.employees (ws.visibility principal)
      data.managerId).mapError .auth
    let (db, employee) ← (createEmployee ws.db data actor now).mapError .service
    return (ws.withDb db, some employee)
  | .update employeeId data => do
    let employee ← (visibleEmployeeOr404 ws.db.facts.employees (ws.visibility principal)
      employeeId).mapError .auth
    (checkNewManager ws.db.facts.employees (ws.visibility principal) employee
      data.managerId).mapError .auth
    let (db, _) ← (updateEmployee ws.db employee data actor now).mapError .service
    return (ws.withDb db, none)
  | .delete employeeId => do
    let employee ← (visibleEmployeeOr404 ws.db.facts.employees (ws.visibility principal)
      employeeId).mapError .auth
    let db ← (deleteEmployee ws.db employee actor now).mapError .service
    return ((ws.withDb db).unlink employee.id, none)

structure EmployeeCall where
  actor : Actor
  now : DateTime
  request : EmployeeRequest

/-- The permission of the operation comes before the route. -/
def acceptEmployeeCall (ws : Workspace) (principal : Principal) (call : EmployeeCall) :
    Except RequestError (Workspace × Option Employee) := do
  (authorizeEmployees ws.auth call.request.requiredPermissions principal).mapError .auth
  runEmployeeRequest ws principal call.actor call.now call.request

/-! ## Runs -/

/-- The workspace together with the ids of the employees created so far. -/
abbrev ScopedRun := Workspace × Finset ℕ

/-- A request that is refused changes nothing. -/
def scopedStep (principal : Principal) (run : ScopedRun) (call : EmployeeCall) : ScopedRun :=
  match acceptEmployeeCall run.1 principal call with
  | .error _ => run
  | .ok (ws, none) => (ws, run.2)
  | .ok (ws, some employee) => (ws, insert employee.id run.2)

def runScoped (principal : Principal) (ws : Workspace) (calls : List EmployeeCall) : ScopedRun :=
  calls.foldl (scopedStep principal) (ws, ∅)

end Warp
