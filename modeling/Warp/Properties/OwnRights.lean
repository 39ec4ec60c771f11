import Warp.Properties.AccountState
import Warp.Infra.Runs

/-!
# The rights of an administrator

What a user may do and see is the union over its roles. An administrator cannot change its own role
assignments, but nothing keeps it from updating a role that it holds. Its rights stay within those it
started with as long as such updates ask for nothing else.
-/

namespace Warp.Auth

open Infra

/-! ## Rights -/

structure Rights where
  permissions : Finset String
  employees : EmployeeVisibility
  fields : AssignmentFieldVisibility

structure EmployeeVisibility.Within (v w : EmployeeVisibility) : Prop where
  unrestricted : v.unrestricted = true → w.unrestricted = true
  canCreateReports : v.canCreateReports = true → w.canCreateReports = true
  canAccess : ∀ id, v.canAccess id = true → w.canAccess id = true

structure AssignmentFieldVisibility.Within (v w : AssignmentFieldVisibility) : Prop where
  unrestricted : v.unrestricted = true → w.unrestricted = true
  canAccess : ∀ id, v.canAccess id = true → w.canAccess id = true

structure Rights.Within (r s : Rights) : Prop where
  permissions : r.permissions ⊆ s.permissions
  employees : r.employees.Within s.employees
  fields : r.fields.Within s.fields

theorem EmployeeVisibility.Within.trans {u v w : EmployeeVisibility} (h : u.Within v)
    (h' : v.Within w) : u.Within w :=
  ⟨fun hu => h'.unrestricted (h.unrestricted hu),
    fun hu => h'.canCreateReports (h.canCreateReports hu),
    fun id hu => h'.canAccess id (h.canAccess id hu)⟩

theorem Rights.Within.refl (r : Rights) : r.Within r :=
  ⟨Finset.Subset.refl _, ⟨id, id, fun _ => id⟩, ⟨id, fun _ => id⟩⟩

def userRights (roles : Table Role) (employees : Table Employee) (user : User) : Rights where
  permissions := effectivePermissions roles user
  employees := userVisibility roles employees user
  fields := userFieldVisibility roles user

/-- What one scope lets a user see that is linked to `employeeId`. -/
def scopeVisibility (employees : Table Employee) (employeeId : Option ℕ) (scope : EmployeeScope) :
    EmployeeVisibility :=
  if scope = .all then { unrestricted := true, canCreateReports := true }
  else
    match employeeId with
    | none => { unrestricted := false }
    | some employeeId => linkedVisibility employees [scope] employeeId

def roleFieldVisibility (r : Role) : AssignmentFieldVisibility :=
  if r.assignmentFieldScope = .all then { unrestricted := true }
  else
    { unrestricted := false
      assignmentFieldIds :=
        if r.assignmentFieldScope = .selected then r.assignmentFieldIds.toFinset else ∅ }

/-- The rights that one role gives to a user that is linked to `employeeId`. -/
def roleRights (employees : Table Employee) (employeeId : Option ℕ) (r : Role) : Rights where
  permissions := r.permissions.toFinset
  employees := scopeVisibility employees employeeId r.employeeScope
  fields := roleFieldVisibility r

section

variable {roles : Table Role} {employees : Table Employee} {user : User} {r : Role}

/-- A user sees what one of its roles lets it see. -/
theorem userVisibility_within_iff (hroot : user.isRoot = false) {w : EmployeeVisibility} :
    (userVisibility roles employees user).Within w ↔
      ∀ r ∈ rolesOf roles user, (scopeVisibility employees user.employeeId r.employeeScope).Within w := by
  unfold userVisibility
  rw [hroot, if_neg (by simp)]
  by_cases hall : EmployeeScope.all ∈ employeeScopes roles user
  · rw [if_pos hall]
    obtain ⟨r, hr, hs⟩ := mem_employeeScopes.mp hall
    constructor
    · intro h q _
      -- within everything lies everything
      have heverything : ∀ v : EmployeeVisibility, v.Within w := fun v =>
        ⟨fun _ => h.unrestricted rfl, fun _ => h.canCreateReports rfl,
          fun i _ => h.canAccess i rfl⟩
      exact heverything _
    · intro h
      have hr := h r hr
      rw [hs] at hr
      exact hr
  · rw [if_neg hall]
    have hnotall : ∀ r ∈ rolesOf roles user, r.employeeScope ≠ .all :=
      fun r hr hs => hall (mem_employeeScopes.mpr ⟨r, hr, hs⟩)
    cases user.employeeId with
    | none =>
      -- without a link the user sees nobody, and so does every role alone
      have hnothing : EmployeeVisibility.Within { unrestricted := false } w :=
        ⟨by simp, by simp, by simp [EmployeeVisibility.canAccess]⟩
      refine iff_of_true hnothing fun r hr => ?_
      rw [scopeVisibility, if_neg (hnotall r hr)]
      exact hnothing
    | some e =>
      dsimp only
      constructor
      · intro h r hr
        have hmem := mem_employeeScopes.mpr ⟨r, hr, rfl⟩
        rw [scopeVisibility, if_neg (hnotall r hr)]
        refine ⟨fun hu => absurd hu (by simp [linkedVisibility]), fun hc => ?_, fun i hi => ?_⟩
        · have hs := List.mem_singleton.mp (of_decide_eq_true hc)
          exact h.canCreateReports (decide_eq_true (by rw [hs]; exact hmem))
        · refine h.canAccess i (linkedVisibility_canAccess.mpr ?_)
          rcases linkedVisibility_canAccess.mp hi with ⟨he, hs⟩ | ⟨hs, hd⟩
          · refine Or.inl ⟨he, hs.imp ?_ ?_⟩
            · exact fun hs => by rw [List.mem_singleton.mp hs]; exact hmem
            · exact fun hs => by rw [List.mem_singleton.mp hs]; exact hmem
          · exact Or.inr ⟨by rw [List.mem_singleton.mp hs]; exact hmem, hd⟩
      · intro h
        -- each scope alone comes from one role
        have hscope : ∀ s ∈ employeeScopes roles user,
            (linkedVisibility employees [s] e).Within w := by
          intro s hs
          obtain ⟨r, hr, rfl⟩ := mem_employeeScopes.mp hs
          have hw := h r hr
          rw [scopeVisibility, if_neg (hnotall r hr)] at hw
          exact hw
        refine ⟨fun hu => absurd hu (by simp [linkedVisibility]), fun hc => ?_, fun i hi => ?_⟩
        · have htree := hscope .reportingTree (of_decide_eq_true hc)
          exact htree.canCreateReports (by simp [linkedVisibility])
        · rcases linkedVisibility_canAccess.mp hi with ⟨he, hs | hs⟩ | ⟨hs, hd⟩
          · exact (hscope _ hs).canAccess i (linkedVisibility_canAccess.mpr
              (Or.inl ⟨he, Or.inl (List.mem_singleton.mpr rfl)⟩))
          · exact (hscope _ hs).canAccess i (linkedVisibility_canAccess.mpr
              (Or.inl ⟨he, Or.inr (List.mem_singleton.mpr rfl)⟩))
          · exact (hscope _ hs).canAccess i (linkedVisibility_canAccess.mpr
              (Or.inr ⟨List.mem_singleton.mpr rfl, hd⟩))

theorem roleFieldVisibility_canAccess {i : ℕ} : (roleFieldVisibility r).canAccess i = true ↔
    r.assignmentFieldScope = .all ∨ (r.assignmentFieldScope = .selected ∧ i ∈ r.assignmentFieldIds) := by
  unfold roleFieldVisibility AssignmentFieldVisibility.canAccess
  cases r.assignmentFieldScope <;> simp

theorem userFieldVisibility_within_iff (hroot : user.isRoot = false)
    {w : AssignmentFieldVisibility} :
    (userFieldVisibility roles user).Within w ↔
      ∀ r ∈ rolesOf roles user, (roleFieldVisibility r).Within w := by
  unfold userFieldVisibility
  rw [hroot, if_neg (by simp)]
  by_cases hall : AssignmentFieldScope.all ∈ (rolesOf roles user).map fun r => r.assignmentFieldScope
  · rw [if_pos hall]
    obtain ⟨r, hr, hs⟩ := List.mem_map.mp hall
    constructor
    · exact fun h q _ => ⟨fun _ => h.unrestricted rfl, fun i _ => h.canAccess i rfl⟩
    · intro h
      have hw := h r hr
      rw [roleFieldVisibility, if_pos hs] at hw
      exact hw
  · rw [if_neg hall]
    have hnotall : ∀ r ∈ rolesOf roles user, r.assignmentFieldScope ≠ .all :=
      fun r hr hs => hall (List.mem_map.mpr ⟨r, hr, hs⟩)
    -- the selected fields of the user are those of some role
    have hmem : ∀ i, AssignmentFieldVisibility.canAccess
        { unrestricted := false
          assignmentFieldIds :=
            (((rolesOf roles user).filter fun r => r.assignmentFieldScope = .selected).flatMap
              fun r => r.assignmentFieldIds).toFinset } i = true ↔
        ∃ r ∈ rolesOf roles user, r.assignmentFieldScope = .selected ∧ i ∈ r.assignmentFieldIds := by
      intro i
      simp [AssignmentFieldVisibility.canAccess, and_assoc]
    constructor
    · intro h r hr
      refine ⟨fun hu => ?_, fun i hi => h.canAccess i ((hmem i).mpr ?_)⟩
      · rw [roleFieldVisibility, if_neg (hnotall r hr)] at hu
        exact absurd hu (by simp)
      · rcases roleFieldVisibility_canAccess.mp hi with hs | hs
        · exact absurd hs (hnotall r hr)
        · exact ⟨r, hr, hs⟩
    · intro h
      refine ⟨by simp, fun i hi => ?_⟩
      obtain ⟨r, hr, hs⟩ := (hmem i).mp hi
      exact (h r hr).canAccess i (roleFieldVisibility_canAccess.mpr (Or.inr hs))

/-- The rights of a user are within a limit exactly when those of each of its roles are. -/
theorem userRights_within_iff (hroot : user.isRoot = false) {limit : Rights} :
    (userRights roles employees user).Within limit ↔
      ∀ r ∈ rolesOf roles user, (roleRights employees user.employeeId r).Within limit := by
  have hpermissions : effectivePermissions roles user ⊆ limit.permissions ↔
      ∀ r ∈ rolesOf roles user, r.permissions.toFinset ⊆ limit.permissions := by
    simp only [effectivePermissions, hroot, Bool.false_eq_true, if_false, Finset.subset_iff,
      List.mem_toFinset, List.mem_flatMap]
    exact ⟨fun h r hr p hp => h ⟨r, hr, hp⟩, fun h p ⟨r, hr, hp⟩ => h r hr hp⟩
  constructor
  · intro h r hr
    exact ⟨hpermissions.mp h.permissions r hr,
      (userVisibility_within_iff hroot).mp h.employees r hr,
      (userFieldVisibility_within_iff hroot).mp h.fields r hr⟩
  · intro h
    exact ⟨hpermissions.mpr fun r hr => (h r hr).permissions,
      (userVisibility_within_iff hroot).mpr fun r hr => (h r hr).employees,
      (userFieldVisibility_within_iff hroot).mpr fun r hr => (h r hr).fields⟩

end

/-! ## One change of a role -/

/-- An update of a role asks for nothing beyond `limit`, for a user that is linked to `employeeId`. -/
structure RoleUpdate.Within (data : RoleUpdate) (limit : Rights) (employees : Table Employee)
    (employeeId : Option ℕ) : Prop where
  permissions : ∀ requested, data.permissions = some requested →
    ∀ p ∈ requested, p ∈ limit.permissions
  employeeScope : ∀ scope, data.employeeScope = some scope →
    (scopeVisibility employees employeeId scope).Within limit.employees
  fieldScope : data.assignmentFieldScope = some .all → limit.fields.unrestricted = true
  fieldIds : ∀ ids, data.assignmentFieldIds = some ids →
    ∀ i ∈ ids, limit.fields.canAccess i = true

section

variable {db : AuthDb} {role role' : Role} {data : RoleUpdate} {limit : Rights}
  {employees : Table Employee} {employeeId : Option ℕ}

theorem mem_validatePermissions {requested granted : List String}
    (h : validatePermissions requested = .ok granted) (p : String) :
    p ∈ granted ↔ p ∈ requested := by
  simp only [validatePermissions, bind_eq_ok, pure_eq_ok] at h
  obtain ⟨_, _, rfl⟩ := h
  simp

theorem RoleUpdated.permissions_within_iff (h : RoleUpdated db role data role')
    (hrole : role.permissions.toFinset ⊆ limit.permissions) :
    role'.permissions.toFinset ⊆ limit.permissions ↔
      ∀ requested, data.permissions = some requested → ∀ p ∈ requested, p ∈ limit.permissions := by
  rcases h.permissions with ⟨hnone, hsame⟩ | ⟨requested, hsome, hvalid⟩
  · rw [hsame]
    exact iff_of_true hrole (by simp [hnone])
  · simp only [Finset.subset_iff, List.mem_toFinset, mem_validatePermissions hvalid, hsome,
      Option.some.injEq, forall_eq']

theorem RoleUpdated.employees_within_iff (h : RoleUpdated db role data role')
    (hrole : (scopeVisibility employees employeeId role.employeeScope).Within limit.employees) :
    (scopeVisibility employees employeeId role'.employeeScope).Within limit.employees ↔
      ∀ scope, data.employeeScope = some scope →
        (scopeVisibility employees employeeId scope).Within limit.employees := by
  rw [h.employeeScope]
  cases data.employeeScope with
  | none => exact iff_of_true hrole (by simp)
  | some scope => simp

theorem roleFieldVisibility_within_iff {w : AssignmentFieldVisibility} :
    (roleFieldVisibility role).Within w ↔
      (role.assignmentFieldScope = .all → w.unrestricted = true) ∧
        (role.assignmentFieldScope = .selected →
          ∀ i ∈ role.assignmentFieldIds, w.canAccess i = true) := by
  constructor
  · intro h
    refine ⟨fun hall => h.unrestricted ?_, fun hs i hi => h.canAccess i ?_⟩
    · rw [roleFieldVisibility, if_pos hall]
    · exact roleFieldVisibility_canAccess.mpr (Or.inr ⟨hs, hi⟩)
  · rintro ⟨hall, hselected⟩
    refine ⟨fun hu => hall ?_, fun i hi => ?_⟩
    · by_contra hne
      rw [roleFieldVisibility, if_neg hne] at hu
      exact absurd hu (by simp)
    · rcases roleFieldVisibility_canAccess.mp hi with hs | ⟨hs, hi⟩
      · rw [AssignmentFieldVisibility.canAccess, hall hs, Bool.true_or]
      · exact hselected hs i hi

theorem RoleUpdated.fields_within_iff (h : RoleUpdated db role data role')
    (hlinks : role.assignmentFieldIds ≠ [] ↔ role.assignmentFieldScope = .selected)
    (hrole : (roleFieldVisibility role).Within limit.fields) :
    (roleFieldVisibility role').Within limit.fields ↔
      (data.assignmentFieldScope = some .all → limit.fields.unrestricted = true) ∧
        ∀ ids, data.assignmentFieldIds = some ids →
          ∀ i ∈ ids, limit.fields.canAccess i = true := by
  obtain ⟨hall, hselected⟩ := roleFieldVisibility_within_iff.mp hrole
  rcases h.fields with ⟨hs, hi, hscope, hids⟩ | ⟨hscope, hl⟩
  · refine iff_of_true ?_ (by simp [hs, hi])
    rw [roleFieldVisibility_within_iff, hscope, hids]
    exact ⟨hall, hselected⟩
  · obtain ⟨hiff, hmem⟩ := assignmentFieldLinks_scope hl
    rw [roleFieldVisibility_within_iff]
    constructor
    · rintro ⟨hall', hselected'⟩
      refine ⟨fun hs => hall' (by rw [hscope, hs]; rfl), fun ids hids i hi => ?_⟩
      -- Ids are only accepted for a selective role, which is then linked to exactly these.
      have hi : i ∈ role'.assignmentFieldIds := (hmem i).mpr (by rw [hids]; exact hi)
      exact hselected' (hiff.mp (List.ne_nil_of_mem hi)) i hi
    · rintro ⟨hs, hids⟩
      refine ⟨fun hall' => ?_, fun hsel i hi => ?_⟩
      · cases hd : data.assignmentFieldScope with
        | none =>
          rw [hscope, hd] at hall'
          exact hall hall'
        | some scope =>
          rw [hscope, hd] at hall'
          exact hs (by rw [hd, ← hall']; rfl)
      · have hi := (hmem i).mp hi
        cases hd : data.assignmentFieldIds with
        | none =>
          rw [hd, selectedFieldIds, if_pos hsel] at hi
          exact hselected (hlinks.mp (List.ne_nil_of_mem hi)) i hi
        | some ids =>
          rw [hd] at hi
          exact hids ids hd i hi

/-- An updated role stays within the limit exactly when the update asks for nothing else. -/
theorem RoleUpdated.within_iff (h : RoleUpdated db role data role')
    (hlinks : role.assignmentFieldIds ≠ [] ↔ role.assignmentFieldScope = .selected)
    (hrole : (roleRights employees employeeId role).Within limit) :
    (roleRights employees employeeId role').Within limit ↔ data.Within limit employees employeeId := by
  have hp := h.permissions_within_iff hrole.permissions
  have he := h.employees_within_iff hrole.employees
  have hf := h.fields_within_iff hlinks hrole.fields
  constructor
  · intro hw
    have hfields := hf.mp hw.fields
    exact ⟨hp.mp hw.permissions, he.mp hw.employees, hfields.1, hfields.2⟩
  · intro hw
    exact ⟨hp.mpr hw.permissions, he.mpr hw.employeeScope, hf.mpr ⟨hw.fieldScope, hw.fieldIds⟩⟩

end

/-! ## One change of the own link -/

section

variable {roles roles' : Table Role} {employees : Table Employee} {user user' : User} {limit : Rights}

theorem EmployeeVisibility.within_of_unrestricted {v w : EmployeeVisibility}
    (hu : w.unrestricted = true) (hc : w.canCreateReports = true) : v.Within w :=
  ⟨fun _ => hu, fun _ => hc, fun _ _ => by rw [EmployeeVisibility.canAccess, hu, Bool.true_or]⟩

theorem scopeVisibility_none {scope : EmployeeScope} (h : scope ≠ .all) (w : EmployeeVisibility) :
    (scopeVisibility employees none scope).Within w := by
  rw [scopeVisibility, if_neg h]
  exact ⟨by simp, by simp, by simp [EmployeeVisibility.canAccess]⟩

theorem rolesOf_congr (h : user'.roleIds = user.roleIds) :
    rolesOf roles user' = rolesOf roles user := by
  rw [rolesOf, rolesOf, h]

theorem effectivePermissions_congr (hids : user'.roleIds = user.roleIds)
    (hroot : user'.isRoot = user.isRoot) :
    effectivePermissions roles user' = effectivePermissions roles user := by
  rw [effectivePermissions, effectivePermissions, hroot, rolesOf_congr hids]

theorem userFieldVisibility_congr (hids : user'.roleIds = user.roleIds)
    (hroot : user'.isRoot = user.isRoot) :
    userFieldVisibility roles user' = userFieldVisibility roles user := by
  rw [userFieldVisibility, userFieldVisibility, hroot, rolesOf_congr hids]

theorem userRights_congr (hids : user'.roleIds = user.roleIds)
    (hroot : user'.isRoot = user.isRoot) (hlink : user'.employeeId = user.employeeId) :
    userRights roles employees user' = userRights roles employees user := by
  have hvisibility : userVisibility roles employees user' = userVisibility roles employees user := by
    unfold userVisibility employeeScopes
    rw [rolesOf_congr hids, hroot, hlink]
  rw [userRights, userRights, effectivePermissions_congr hids hroot, hvisibility,
    userFieldVisibility_congr hids hroot]

/-- A user that links itself to an employee it sees does not see more by that. -/
theorem userVisibility_relink (hids : user'.roleIds = user.roleIds) (hroot : user.isRoot = false)
    (hroot' : user'.isRoot = false)
    (hlink : ∀ e, user'.employeeId = some e → (userVisibility roles employees user).canAccess e = true) :
    (userVisibility roles employees user').Within (userVisibility roles employees user) := by
  have hself : (userVisibility roles employees user).Within (userVisibility roles employees user) :=
    ⟨id, id, fun _ => id⟩
  have hroles := (userVisibility_within_iff hroot).mp hself
  rw [userVisibility_within_iff hroot', rolesOf_congr hids]
  intro r hr
  by_cases hall : EmployeeScope.all ∈ employeeScopes roles user
  · have heq : userVisibility roles employees user =
        { unrestricted := true, canCreateReports := true } := by
      rw [userVisibility, hroot, if_neg (by simp), if_pos hall]
    rw [heq]
    exact EmployeeVisibility.within_of_unrestricted rfl rfl
  · have hnot : r.employeeScope ≠ .all := fun hs => hall (mem_employeeScopes.mpr ⟨r, hr, hs⟩)
    cases he' : user'.employeeId with
    | none => exact scopeVisibility_none hnot _
    | some e' =>
      have hsees := hlink e' he'
      cases he : user.employeeId with
      | none =>
        rw [userVisibility, hroot, if_neg (by simp), if_neg hall, he] at hsees
        exact absurd hsees (by simp [EmployeeVisibility.canAccess])
      | some e =>
        have heq : userVisibility roles employees user =
            linkedVisibility employees (employeeScopes roles user) e := by
          rw [userVisibility, hroot, if_neg (by simp), if_neg hall, he]
        have hr' := hroles r hr
        rw [he, scopeVisibility, if_neg hnot] at hr'
        rw [scopeVisibility, if_neg hnot]
        refine ⟨fun hu => absurd hu (by simp [linkedVisibility]), hr'.canCreateReports, ?_⟩
        intro i hi
        rcases linkedVisibility_canAccess.mp hi with ⟨rfl, _⟩ | ⟨hs, hi⟩
        · exact hsees
        · -- The subtree below the new link is part of the one below the old link.
          have htree : EmployeeScope.reportingTree ∈ employeeScopes roles user := by
            rw [List.mem_singleton.mp hs]
            exact mem_employeeScopes.mpr ⟨r, hr, rfl⟩
          rw [heq] at hsees ⊢
          refine linkedVisibility_canAccess.mpr (Or.inr ⟨htree, ?_⟩)
          rcases linkedVisibility_canAccess.mp hsees with ⟨rfl, _⟩ | ⟨_, he'⟩
          · exact hi
          · rw [mem_getDescendantIds] at hi he' ⊢
            exact he'.trans hi

theorem userRights_relink (hids : user'.roleIds = user.roleIds) (hroot : user.isRoot = false)
    (hroot' : user'.isRoot = false)
    (hlink : ∀ e, user'.employeeId = some e → (userVisibility roles employees user).canAccess e = true)
    (h : (userRights roles employees user).Within limit) :
    (userRights roles employees user').Within limit := by
  have hsame : user'.isRoot = user.isRoot := hroot'.trans hroot.symm
  refine ⟨?_, (userVisibility_relink hids hroot hroot' hlink).trans h.employees, ?_⟩
  · show effectivePermissions roles user' ⊆ limit.permissions
    rw [effectivePermissions_congr hids hsame]
    exact h.permissions
  · show (userFieldVisibility roles user').Within limit.fields
    rw [userFieldVisibility_congr hids hsame]
    exact h.fields

theorem userRights_of_rolesOf_subset (hroot : user.isRoot = false)
    (hroles : ∀ r ∈ rolesOf roles' user, r ∈ rolesOf roles user)
    (h : (userRights roles employees user).Within limit) :
    (userRights roles' employees user).Within limit :=
  (userRights_within_iff hroot).mpr fun r hr => (userRights_within_iff hroot).mp h r (hroles r hr)

end

/-! ## One request of the actor -/

/-- The rights of the user `actor` in a state. -/
def ownRights (db : AuthDb) (actor : ℕ) : Rights where
  permissions :=
    match db.users.find? actor with
    | none => ∅
    | some user => effectivePermissions db.roles user
  employees := employeeVisibility db db.employees (.user actor)
  fields := assignmentFieldVisibility db (.user actor)

theorem ownRights_eq {db : AuthDb} {user : User} (h : user ∈ db.users) :
    ownRights db user.id = userRights db.roles db.employees user := by
  have hfind : db.users.find? user.id = some user := Table.find?_key h
  simp only [ownRights, userRights, employeeVisibility, assignmentFieldVisibility, hfind]

def asActor (actor : ℕ) (call : Ctx × AccessAction) : Ctx × AccessRequest :=
  (call.1, .change (.user actor) call.2)

def Accepted (db : AuthDb) (call : Ctx × AccessRequest) : Prop :=
  ∃ db', runAccessRequest call.1 db call.2 = .ok db'

/-- An update of a role that the actor holds asks for nothing beyond `limit`. -/
def OwnRoleWithin (limit : Rights) (actor : ℕ) (db : AuthDb) : AccessAction → Prop
  | .updateRole roleId data => ∀ user ∈ db.users, user.id = actor → roleId ∈ user.roleIds →
    data.Within limit db.employees user.employeeId
  | _ => True

/-- A call that is refused may ask for anything. -/
def AsksWithin (limit : Rights) (actor : ℕ) (db : AuthDb) (call : Ctx × AccessAction) : Prop :=
  Accepted db (asActor actor call) → OwnRoleWithin limit actor db call.2

section

variable {db db' : AuthDb} {limit : Rights} {actor : User} {action : AccessAction}

theorem checkUserScope_link {v : EmployeeVisibility} {userId : ℕ} {data : UserUpdate} {e : ℕ}
    {u : Unit} (h : checkUserScope db v (.updateUser userId data) = .ok u)
    (hlink : data.employeeId = some (some e)) : v.canAccess e = true := by
  simp only [checkUserScope, hlink, bind_eq_ok] at h
  obtain ⟨_, _, _, _, hnew⟩ := h
  exact requireVisible_some hnew

/-- The actor is a user other than the root, in a sound state. -/
structure Administrator (actor : ℕ) (db : AuthDb) : Prop where
  sound : AccountsSound db
  present : ∃ user ∈ db.users, user.id = actor ∧ user.isRoot = false

theorem ownRights_createRole {role : Role} (h : AccountsSound db) (hm : actor ∈ db.users)
    (hroot : actor.isRoot = false) (hid : role.id = db.sequences.role)
    (hw : (userRights db.roles db.employees actor).Within limit) :
    (userRights (db.addRole role).roles db.employees actor).Within limit := by
  refine userRights_of_rolesOf_subset hroot (fun r hr => ?_) hw
  obtain ⟨hr, hheld⟩ := mem_rolesOf.mp hr
  rcases Table.mem_insert.mp hr with rfl | ⟨hr, _⟩
  · -- The id of the new role is above those of the roles that anybody holds.
    obtain ⟨q, hq, hqid⟩ := h.rolesHeld actor hm _ hheld
    have hlt := h.rolesFresh q hq
    rw [hqid, hid] at hlt
    exact absurd hlt (lt_irrefl _)
  · exact mem_rolesOf.mpr ⟨hr, hheld⟩

theorem ownRights_updateRole {role role' : Role} {data : RoleUpdate} (h : AccountsSound db)
    (hm : actor ∈ db.users) (hroot : actor.isRoot = false) (hrole : role ∈ db.roles)
    (hupdated : RoleUpdated db role data role')
    (hw : (userRights db.roles db.employees actor).Within limit) :
    (userRights (db.saveRole role').roles db.employees actor).Within limit ↔
      OwnRoleWithin limit actor.id db (.updateRole role.id data) := by
  have hrights := (userRights_within_iff hroot).mp hw
  have hself : role'.id ∈ actor.roleIds → role' ∈ rolesOf (db.saveRole role').roles actor :=
    fun hheld => mem_rolesOf.mpr ⟨Table.mem_insert_self, hheld⟩
  have hiff : role.id ∈ actor.roleIds →
      ((roleRights db.employees actor.employeeId role').Within limit ↔
        data.Within limit db.employees actor.employeeId) :=
    fun hheld => hupdated.within_iff (h.fieldLinks role hrole)
      (hrights role (mem_rolesOf.mpr ⟨hrole, hheld⟩))
  rw [userRights_within_iff hroot]
  constructor
  · intro hafter user hu hid hheld
    have huser : user = actor := Table.key_inj hu hm hid
    rw [huser] at hheld ⊢
    exact (hiff hheld).mp (hafter role' (hself (by rw [hupdated.id]; exact hheld)))
  · intro hasks r hr
    obtain ⟨hr, hheld⟩ := mem_rolesOf.mp hr
    rcases Table.mem_insert.mp hr with rfl | ⟨hr, _⟩
    · rw [hupdated.id] at hheld
      exact (hiff hheld).mpr (hasks actor hm rfl hheld)
    · exact hrights r (mem_rolesOf.mpr ⟨hr, hheld⟩)

theorem ownRights_user {adminAction : AdminAction} (h : AccountsSound db) (hm : actor ∈ db.users)
    (hroot : actor.isRoot = false)
    (hscope : checkUserScope db (employeeVisibility db db.employees (.user actor.id)) adminAction =
      .ok ())
    (heffect : UserEffect db db' (some actor.id) adminAction)
    (hw : (userRights db.roles db.employees actor).Within limit) :
    db'.roles = db.roles ∧ db'.employees = db.employees ∧ ∃ user ∈ db'.users, user.id = actor.id ∧
      user.isRoot = false ∧ (userRights db.roles db.employees user).Within limit := by
  cases heffect with
  | added user hafter hid _ _ _ =>
    subst hafter
    refine ⟨rfl, rfl, actor, Table.mem_insert.mpr (Or.inr ⟨hm, ?_⟩), rfl, hroot, hw⟩
    show actor.id ≠ user.id
    rw [hid]
    exact (h.usersFresh actor hm).ne
  | saved user user' hum hur hid hur' hroles hlink hsaves =>
    refine ⟨hsaves.roles, hsaves.employees, ?_⟩
    rw [hsaves.users]
    by_cases hactor : user.id = actor.id
    -- the actor's own account: the roles stay, and a new link must be visible already
    · have huser : user = actor := Table.key_inj hum hm hactor
      subst huser
      have hids : user'.roleIds = user.roleIds := by
        rcases hroles with hsame | ⟨hother, _⟩
        · exact hsame
        · exact absurd rfl hother
      refine ⟨user', Table.mem_insert_self, hid, hur', ?_⟩
      rcases hlink with hsame | ⟨data, rfl, hdata⟩
      · rw [userRights_congr hids (hur'.trans hur.symm) hsame]
        exact hw
      · refine userRights_relink hids hur hur' (fun e he => ?_) hw
        have hsees := checkUserScope_link hscope (hdata.trans (congrArg some he))
        have hfind : db.users.find? user.id = some user := Table.find?_key hum
        simpa only [employeeVisibility, hfind] using hsees
    · refine ⟨actor, Table.mem_insert.mpr (Or.inr ⟨hm, fun hkey => ?_⟩), rfl, hroot, hw⟩
      exact hactor (hid.symm.trans hkey.symm)

theorem Administrator.accessEffect (hsound : AccountsSound db) (hm : actor ∈ db.users)
    (hroot : actor.isRoot = false) (he : AccessEffect db db' (.user actor.id) action) :
    Administrator actor.id db' := by
  refine ⟨hsound.accessEffect he, ?_⟩
  cases he with
  | createRole data role hdb _ _ =>
    subst hdb
    exact ⟨actor, hm, rfl, hroot⟩
  | updateRole data role role' _ hdb _ =>
    subst hdb
    exact ⟨actor, hm, rfl, hroot⟩
  | deleteRole role _ _ hdb =>
    subst hdb
    exact ⟨actor, hm, rfl, hroot⟩
  | user adminAction hscope heffect =>
    obtain ⟨_, _, user, hu, hid, hur, _⟩ :=
      ownRights_user hsound hm hroot hscope heffect (Rights.Within.refl _)
    exact ⟨user, hu, hid, hur⟩

/-- What an accepted request leaves of the actor's rights. -/
theorem ownRights_accessEffect (hsound : AccountsSound db) (hm : actor ∈ db.users)
    (hroot : actor.isRoot = false) (he : AccessEffect db db' (.user actor.id) action)
    (hw : (ownRights db actor.id).Within limit) :
    (ownRights db' actor.id).Within limit ↔ OwnRoleWithin limit actor.id db action := by
  rw [ownRights_eq hm] at hw
  cases he with
  | createRole data role hdb hid _ =>
    subst hdb
    have heq := ownRights_eq (show actor ∈ (db.addRole role).users from hm)
    rw [heq]
    exact iff_of_true (ownRights_createRole hsound hm hroot hid hw) trivial
  | updateRole data role role' hrole hdb hupdated =>
    subst hdb
    have heq := ownRights_eq (show actor ∈ (db.saveRole role').users from hm)
    rw [heq]
    exact ownRights_updateRole hsound hm hroot hrole hupdated hw
  | deleteRole role _ _ hdb =>
    have hm' : actor ∈ db'.users := by
      rw [hdb]
      exact hm
    rw [ownRights_eq hm', hdb]
    refine iff_of_true (userRights_of_rolesOf_subset hroot (fun r hr => ?_) hw) trivial
    obtain ⟨hr, hheld⟩ := mem_rolesOf.mp hr
    exact mem_rolesOf.mpr ⟨(Table.mem_filter.mp hr).1, hheld⟩
  | user adminAction hscope heffect =>
    obtain ⟨hroles, hemployees, user, hu, hid, _, hafter⟩ :=
      ownRights_user hsound hm hroot hscope heffect hw
    rw [← hid, ownRights_eq hu, hroles, hemployees]
    exact iff_of_true hafter trivial

end

/-! ## Runs of the actor -/

section

variable {limit : Rights} {actor : ℕ} {db : AuthDb}

def actorStep (actor : ℕ) (db : AuthDb) (call : Ctx × AccessAction) : AuthDb :=
  accessStep db (asActor actor call)

theorem accessStep_of_accepted {call : Ctx × AccessRequest} {db' : AuthDb}
    (h : runAccessRequest call.1 db call.2 = .ok db') : accessStep db call = db' := by
  rw [accessStep, h]

theorem accessStep_of_refused {call : Ctx × AccessRequest} (h : ¬Accepted db call) :
    accessStep db call = db := by
  unfold accessStep
  cases hrun : runAccessRequest call.1 db call.2 with
  | error e => rfl
  | ok db' => exact absurd ⟨db', hrun⟩ h

theorem accessEffect_of_accepted {call : Ctx × AccessAction} {db' : AuthDb}
    (h : runAccessRequest call.1 db (.change (.user actor) call.2) = .ok db') :
    AccessEffect db db' (.user actor) call.2 := by
  simp only [runAccessRequest, bind_eq_ok] at h
  obtain ⟨_, _, h⟩ := h
  exact runAccessAction_effect h

theorem Administrator.step (h : Administrator actor db) (call : Ctx × AccessAction) :
    Administrator actor (actorStep actor db call) := by
  by_cases haccepted : Accepted db (asActor actor call)
  · obtain ⟨db', hdb'⟩ := haccepted
    rw [actorStep, accessStep_of_accepted hdb']
    obtain ⟨user, hm, rfl, hroot⟩ := h.present
    exact accessEffect h.sound hm hroot (accessEffect_of_accepted hdb')
  · rw [actorStep, accessStep_of_refused haccepted]
    exact h

theorem ownRights_step (h : Administrator actor db) (hw : (ownRights db actor).Within limit)
    (call : Ctx × AccessAction) :
    (ownRights (actorStep actor db call) actor).Within limit ↔ AsksWithin limit actor db call := by
  by_cases haccepted : Accepted db (asActor actor call)
  · obtain ⟨db', hdb'⟩ := haccepted
    rw [actorStep, accessStep_of_accepted hdb']
    obtain ⟨user, hm, rfl, hroot⟩ := h.present
    rw [ownRights_accessEffect h.sound hm hroot (accessEffect_of_accepted hdb') hw]
    exact ⟨fun hasks _ => hasks, fun hasks => hasks ⟨db', hdb'⟩⟩
  · rw [actorStep, accessStep_of_refused haccepted]
    exact iff_of_true hw fun hyes => absurd hyes haccepted

/-- An administrator stays within the rights it starts with, all along a run of its requests, exactly
when no accepted update of a role that it holds asks for more. -/
theorem own_rights_within_iff (hsound : AccountsSound db)
    (hactor : ∃ user ∈ db.users, user.id = actor ∧ user.isRoot = false)
    (calls : List (Ctx × AccessAction)) :
    (∀ done todo, calls = done ++ todo →
        (ownRights (done.foldl (actorStep actor) db) actor).Within (ownRights db actor)) ↔
      Along (actorStep actor) (AsksWithin (ownRights db actor) actor) db calls :=
  Along.invariant_iff (I := Administrator actor)
    (P := fun s => (ownRights s actor).Within (ownRights db actor))
    (fun _ call h => h.step call) (fun _ call h hw => ownRights_step h hw call) calls
    ⟨hsound, hactor⟩ (Rights.Within.refl _)

end

/-! ## An administrator that updates its own role -/

/-- The root gives Ada a role to manage access, and no employees to see. -/
def officeCalls : List (Ctx × AccessRequest) :=
  [(plainCtx "a", .setupRoot "Root" "root@example" "password" none none),
    (plainCtx "b", .change (.user 1)
      (.createRole { name := "Access", permissions := ["access:manage"] })),
    (plainCtx "c", .change (.user 1)
      (.user (.createUser "Ada" "ada@example" "password" [1] none)))]

def office : AuthDb := runAccess emptyWorkspace officeCalls

/-- Ada asks for more in the role that she holds. -/
def ownRoleCall : Ctx × AccessAction :=
  (plainCtx "d", .updateRole 1
    { permissions := some ["access:manage", "employees:delete"], employeeScope := some .all })

theorem office_sound : AccountsSound office :=
  (runAccess_sound officeCalls (accountsSound_empty rfl rfl)).1

theorem office_administrator : ∃ user ∈ office.users, user.id = 2 ∧ user.isRoot = false := by
  have hrows : (office.users.find? 2).map (fun u => u.isRoot) = some false := by decide +kernel
  obtain ⟨user, hfind, hroot⟩ := Option.map_eq_some_iff.mp hrows
  obtain ⟨hm, hid⟩ := Table.find?_eq_some.mp hfind
  exact ⟨user, hm, hid, hroot⟩

theorem ownRoleCall_permissions : (ownRights office 2).permissions = {"access:manage"} ∧
    (ownRights (actorStep 2 office ownRoleCall) 2).permissions =
      {"access:manage", "employees:delete"} := by
  decide +kernel

theorem ownRoleCall_escalates :
    ¬(ownRights (actorStep 2 office ownRoleCall) 2).Within (ownRights office 2) := by
  intro h
  have hsub := h.permissions
  rw [ownRoleCall_permissions.1, ownRoleCall_permissions.2] at hsub
  exact absurd (hsub (show "employees:delete" ∈ _ by simp)) (by decide)

theorem own_rights_grow : (∃ user ∈ office.users, user.id = 2 ∧ user.isRoot = false) ∧
    Accepted office (asActor 2 ownRoleCall) ∧
    ¬(ownRights (actorStep 2 office ownRoleCall) 2).Within (ownRights office 2) := by
  refine ⟨office_administrator, ?_, ownRoleCall_escalates⟩
  by_contra hrefused
  refine ownRoleCall_escalates ?_
  rw [actorStep, accessStep_of_refused hrefused]
  exact Rights.Within.refl _

theorem own_rights_within_iff_office :
    ¬Along (actorStep 2) (AsksWithin (ownRights office 2) 2) office [ownRoleCall] := by
  intro h
  have hall := (own_rights_within_iff office_sound office_administrator [ownRoleCall]).mpr h
  exact ownRoleCall_escalates (hall [ownRoleCall] [] rfl)

end Warp.Auth
