import Warp.Employees
import Warp.Infra.Numbering

/-!
# Concurrent changes of the org chart

The transactions that create, change and delete employees, with the statements that read or write
`employees`. A write locks the rows that it changes. The shared lock of a foreign key only makes the
delete of that row wait, and is left out.
-/

namespace Warp

open Infra

inductive EmployeeOp where
  | create (data : EmployeeCreate)
  | insertRow (data : EmployeeCreate)
  | update (employeeId : ℕ) (data : EmployeeUpdate)
  | validate (loaded : Employee) (data : EmployeeUpdate)
  | updateRow (loaded updated : Employee)
  | delete (employeeId : ℕ)
  | clearManager (employeeId : ℕ)
  | deleteRow (employeeId : ℕ)

inductive EmployeeWrite where
  | insert (e : Employee)
  | update (loaded updated : Employee)
  | clearManager (employeeId : ℕ)
  | delete (employeeId : ℕ)

/-! ## Writes -/

/-- The columns that a request changed go to the row, the others stay as they are there. -/
def mergeEmployee (loaded updated row : Employee) : Employee where
  id := row.id
  name := mergeColumn loaded.name updated.name row.name
  state := mergeColumn loaded.state updated.state row.state
  department := mergeColumn loaded.department updated.department row.department
  employeeType := mergeColumn loaded.employeeType updated.employeeType row.employeeType
  location := mergeColumn loaded.location updated.location row.location
  startDate := mergeColumn loaded.startDate updated.startDate row.startDate
  managerId := mergeColumn loaded.managerId updated.managerId row.managerId

@[simp] theorem mergeEmployee_id (loaded updated row : Employee) :
    (mergeEmployee loaded updated row).id = row.id := rfl

def unmanaged (e : Employee) : Employee := { e with managerId := none }

@[simp] theorem unmanaged_id (e : Employee) : (unmanaged e).id = e.id := rfl

def modifyEmployee (employees : Table Employee) (employeeId : ℕ) (f : Employee → Employee)
    (h : ∀ e, (f e).id = e.id) : Table Employee :=
  employees.modify (fun e => if e.id = employeeId then f e else e) fun e => by
    split
    · exact h e
    · rfl

def applyEmployeeWrite (employees : Table Employee) : EmployeeWrite → Table Employee
  | .insert e => employees.insert e
  | .update loaded updated =>
    modifyEmployee employees loaded.id (mergeEmployee loaded updated)
      (mergeEmployee_id loaded updated)
  | .clearManager employeeId => modifyEmployee employees employeeId unmanaged unmanaged_id
  | .delete employeeId => withoutEmployee employees employeeId

/-- On the row that was loaded, the update is the one the service saves. -/
theorem mergeEmployee_loaded {loaded updated : Employee} (hid : updated.id = loaded.id) :
    mergeEmployee loaded updated loaded = updated := by
  unfold mergeEmployee
  simp only [mergeColumn_loaded, ← hid]

theorem applyEmployeeWrite_loaded {employees : Table Employee} {loaded updated : Employee}
    (hmem : loaded ∈ employees) (hid : updated.id = loaded.id) :
    applyEmployeeWrite employees (.update loaded updated) = employees.insert updated := by
  refine Table.ext_mem fun e => ?_
  rw [Table.mem_insert, applyEmployeeWrite, modifyEmployee, Table.mem_modify_if, or_comm]
  refine or_congr ?_ (and_congr_right fun _ => not_congr (by rw [← hid]; rfl))
  constructor
  · rintro ⟨r, hr, hrow, rfl⟩
    rw [Table.key_inj hr hmem hrow, mergeEmployee_loaded hid]
  · rintro rfl
    exact ⟨loaded, hmem, rfl, mergeEmployee_loaded hid⟩

/-! ## Statements -/

def lockEmployeeRows (employees : Table Employee) : EmployeeOp → List ℕ
  | .updateRow loaded _ => [loaded.id]
  | .clearManager employeeId => [employeeId]
  | .deleteRow employeeId =>
    employeeId :: (directReports employees employeeId).map fun e => e.id
  | _ => []

/-- The foreign key of `manager_id` -/
def checkManagerRow (employees : Table Employee) (managerId : Option ℕ) :
    Except ServiceError Unit :=
  ensure (managerId.all fun m => (employees.find? m).isSome) (.integrity "employees")

def requireRow (employees : Table Employee) (employeeId : ℕ) : Except ServiceError Unit :=
  ensure (employees.find? employeeId).isSome (.staleData "employees")

def runEmployeeOp (employeeId : ℕ) (employees : Table Employee) :
    EmployeeOp → Except ServiceError (List EmployeeOp × List EmployeeWrite)
  | .create data => do
    validateManagerAssignment employees none data.managerId
    return ([.insertRow data], [])
  | .insertRow data => do
    checkManagerRow employees data.managerId
    return ([], [.insert (data.row employeeId)])
  | .update id data => do
    let loaded ← orRaise (employees.find? id) (.notFound "Employee" id)
    return ([.validate loaded data], [])
  | .validate loaded data => do
    checkedManager employees loaded.id data.managerId
    let updated ← updatedEmployee loaded data
    return (if changedColumns loaded updated = [] then [] else [.updateRow loaded updated], [])
  | .updateRow loaded updated => do
    requireRow employees loaded.id
    if updated.managerId ≠ loaded.managerId then checkManagerRow employees updated.managerId
    return ([], [.update loaded updated])
  | .delete id => do
    let _ ← orRaise (employees.find? id) (.notFound "Employee" id)
    return ((directReports employees id).map (fun e => .clearManager e.id) ++ [.deleteRow id], [])
  | .clearManager id => do
    requireRow employees id
    return ([], [.clearManager id])
  | .deleteRow id => .ok ([], [.delete id])

def employeeCode : Code (Table Employee) EmployeeWrite EmployeeOp ServiceError ℕ where
  apply := applyEmployeeWrite
  locks _ employees op := lockEmployeeRows employees op
  exec n _ employees op := runEmployeeOp n employees op

/-! ## Requests -/

inductive EmployeeTransaction where
  | createEmployee (data : EmployeeCreate)
  | updateEmployee (employeeId : ℕ) (data : EmployeeUpdate)
  | deleteEmployee (employeeId : ℕ)

def EmployeeTransaction.op : EmployeeTransaction → EmployeeOp
  | .createEmployee data => .create data
  | .updateEmployee employeeId data => .update employeeId data
  | .deleteEmployee employeeId => .delete employeeId

abbrev EmployeeWorld := World (Table Employee) EmployeeWrite EmployeeOp ServiceError ℕ

def employeeWorld (employees : Table Employee) (transactions : List EmployeeTransaction)
    (sequence : ℕ) : EmployeeWorld :=
  World.init employees (transactions.map fun transaction => [transaction.op]) sequence

end Warp
