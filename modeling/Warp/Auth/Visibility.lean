import Warp.Auth.Roles
import Warp.OrgChart

/-!
# Data scopes

The employees and the assignment fields that a principal may see, resolved from its roles on every
request, and the checks of the routes that use them.
-/

namespace Warp.Auth

open Infra

/-- The caller of a request: a credential of a program, or a user. -/
inductive Principal where
  | service
  | user (userId : ℕ)
deriving DecidableEq, Repr

/-- `user_id` of a principal -/
def Principal.userId : Principal → Option ℕ
  | .service => none
  | .user userId => some userId

/-! ## Employees -/

structure EmployeeVisibility where
  unrestricted : Bool
  employeeIds : Finset ℕ := ∅
  canCreateReports : Bool := false

def EmployeeVisibility.canAccess (v : EmployeeVisibility) (employeeId : ℕ) : Bool :=
  v.unrestricted || employeeId ∈ v.employeeIds

def employeeScopes (roles : Table Role) (user : User) : List EmployeeScope :=
  (rolesOf roles user).map fun r => r.employeeScope

/-- What a user sees that is linked to an employee. -/
def linkedVisibility (employees : Table Employee) (scopes : List EmployeeScope) (employeeId : ℕ) :
    EmployeeVisibility where
  unrestricted := false
  employeeIds :=
    (if .self ∈ scopes ∨ .reportingTree ∈ scopes then {employeeId} else ∅) ∪
      (if .reportingTree ∈ scopes then getDescendantIds employees employeeId else ∅)
  canCreateReports := .reportingTree ∈ scopes

def userVisibility (roles : Table Role) (employees : Table Employee) (user : User) :
    EmployeeVisibility :=
  if user.isRoot then { unrestricted := true, canCreateReports := true }
  else if .all ∈ employeeScopes roles user then { unrestricted := true, canCreateReports := true }
  else
    match user.employeeId with
    | none => { unrestricted := false }
    | some employeeId => linkedVisibility employees (employeeScopes roles user) employeeId

/-- `employee_visibility` -/
def employeeVisibility (db : AuthDb) (employees : Table Employee) : Principal → EmployeeVisibility
  | .service => { unrestricted := true, canCreateReports := true }
  | .user userId =>
    match db.users.find? userId with
    | none => { unrestricted := false }
    | some user => userVisibility db.roles employees user

def visibleEmployeeOr404 (employees : Table Employee) (v : EmployeeVisibility) (employeeId : ℕ) :
    Except AuthError Employee := do
  ensure (v.canAccess employeeId) (.http 404 s!"Employee {employeeId} not found")
  orRaise (employees.find? employeeId) (.http 404 s!"Employee {employeeId} not found")

/-- A check that is made only for a value that is there. -/
def forGiven (check : ℕ → Except AuthError Unit) : Option ℕ → Except AuthError Unit
  | none => .ok ()
  | some id => check id

def requireVisible (employees : Table Employee) (v : EmployeeVisibility) :
    Option ℕ → Except AuthError Unit :=
  forGiven fun employeeId => (visibleEmployeeOr404 employees v employeeId).map fun _ => ()

/-- `require_employee_creation_scope` -/
def requireEmployeeCreationScope (employees : Table Employee) (v : EmployeeVisibility)
    (managerId : Option ℕ) : Except AuthError Unit :=
  if v.unrestricted then .ok ()
  else do
    ensure (v.canCreateReports && managerId.any v.canAccess)
      (.http 403 "The new employee must report to an employee within your visible reporting tree")
    requireVisible employees v managerId

/-! ## What a user sees -/

section

variable {roles : Table Role} {employees : Table Employee} {user : User} {r : Role}

theorem mem_rolesOf : r ∈ rolesOf roles user ↔ r ∈ roles ∧ r.id ∈ user.roleIds := by
  simp [rolesOf]

theorem mem_employeeScopes {s : EmployeeScope} :
    s ∈ employeeScopes roles user ↔ ∃ r ∈ rolesOf roles user, r.employeeScope = s := by
  simp [employeeScopes]

theorem linkedVisibility_canAccess {scopes : List EmployeeScope} {e i : ℕ} :
    (linkedVisibility employees scopes e).canAccess i = true ↔
      (i = e ∧ (.self ∈ scopes ∨ .reportingTree ∈ scopes)) ∨
        (.reportingTree ∈ scopes ∧ i ∈ getDescendantIds employees e) := by
  simp only [EmployeeVisibility.canAccess, linkedVisibility, Bool.false_or, decide_eq_true_eq,
    Finset.mem_union]
  by_cases hself : EmployeeScope.self ∈ scopes <;>
    by_cases htree : EmployeeScope.reportingTree ∈ scopes <;> simp [hself, htree]

theorem requireVisible_some {v : EmployeeVisibility} {e : ℕ} {u : Unit}
    (h : requireVisible employees v (some e) = .ok u) : v.canAccess e = true := by
  simp only [requireVisible, forGiven, visibleEmployeeOr404, exceptMap_eq_ok, bind_eq_ok,
    ensure_eq_ok] at h
  obtain ⟨_, ⟨_, hv, _⟩, _⟩ := h
  exact hv

theorem visibleEmployeeOr404_eq_ok {v : EmployeeVisibility} {e : ℕ} {row : Employee} :
    visibleEmployeeOr404 employees v e = .ok row ↔
      v.canAccess e = true ∧ row ∈ employees ∧ row.id = e := by
  simp only [visibleEmployeeOr404, bind_eq_ok, ensure_eq_ok, orRaise_eq_ok, exists_and_left,
    exists_const]
  exact and_congr_right fun _ => Table.find?_eq_some

/-- A new employee reports to somebody that the caller sees, and sees the reports of. -/
theorem requireEmployeeCreationScope_eq_ok {v : EmployeeVisibility} {managerId : Option ℕ} {u : Unit}
    (h : requireEmployeeCreationScope employees v managerId = .ok u) :
    v.unrestricted = true ∨
      (v.canCreateReports = true ∧ ∃ m, managerId = some m ∧ v.canAccess m = true) := by
  unfold requireEmployeeCreationScope at h
  by_cases hall : v.unrestricted = true
  · exact Or.inl hall
  · rw [if_neg hall] at h
    simp only [bind_eq_ok, ensure_eq_ok, Bool.and_eq_true] at h
    obtain ⟨_, ⟨hreports, hany⟩, _⟩ := h
    cases managerId with
    | none => cases hany
    | some m => exact Or.inr ⟨hreports, m, rfl, hany⟩

end

/-! ## Assignment fields -/

structure AssignmentFieldVisibility where
  unrestricted : Bool
  assignmentFieldIds : Finset ℕ := ∅

def AssignmentFieldVisibility.canAccess (v : AssignmentFieldVisibility) (fieldId : ℕ) : Bool :=
  v.unrestricted || fieldId ∈ v.assignmentFieldIds

def userFieldVisibility (roles : Table Role) (user : User) : AssignmentFieldVisibility :=
  if user.isRoot then { unrestricted := true }
  else if .all ∈ (rolesOf roles user).map fun r => r.assignmentFieldScope then
    { unrestricted := true }
  else
    { unrestricted := false
      assignmentFieldIds :=
        (((rolesOf roles user).filter fun r => r.assignmentFieldScope = .selected).flatMap fun r =>
          r.assignmentFieldIds).toFinset }

/-- `assignment_field_visibility` -/
def assignmentFieldVisibility (db : AuthDb) : Principal → AssignmentFieldVisibility
  | .service => { unrestricted := true }
  | .user userId =>
    match db.users.find? userId with
    | none => { unrestricted := false }
    | some user => userFieldVisibility db.roles user

end Warp.Auth
