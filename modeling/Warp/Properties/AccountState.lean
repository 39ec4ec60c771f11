import Warp.Auth.AccessRequests

/-!
# The state of the accounts

After the root setup there is one root user and it stays active, every other user has a role, and a
role is linked to assignment fields exactly when its scope selects them. Requests for roles and users
keep this, whether they go through or not.
-/

namespace Warp.Auth

open Infra

/-! ## The invariant -/

structure AccountsSound (db : AuthDb) : Prop where
  usersFresh : ∀ u ∈ db.users, u.id < db.sequences.user
  rolesFresh : ∀ r ∈ db.roles, r.id < db.sequences.role
  rolesHeld : ∀ u ∈ db.users, ∀ id ∈ u.roleIds, ∃ r ∈ db.roles, r.id = id
  rootActive : ∀ u ∈ db.users, u.isRoot = true → u.status = .active
  hasRole : ∀ u ∈ db.users, u.isRoot = false → u.roleIds ≠ []
  fieldLinks : ∀ r ∈ db.roles, r.assignmentFieldIds ≠ [] ↔ r.assignmentFieldScope = .selected

def OneRoot (db : AuthDb) : Prop :=
  ∃ root ∈ db.users, root.isRoot = true ∧ ∀ u ∈ db.users, u.isRoot = true → u = root

/-! ## Roles -/

section

variable {c : Ctx} {db db' : AuthDb} {role role' : Role} {roleId : ℕ}

theorem assignmentFieldLinks_scope {scope : AssignmentFieldScope} {ids links : List ℕ}
    (h : assignmentFieldLinks db scope ids = .ok links) :
    (links ≠ [] ↔ scope = .selected) ∧ ∀ i, i ∈ links ↔ i ∈ ids := by
  simp only [assignmentFieldLinks, bind_eq_ok, ensure_eq_ok, pure_eq_ok] at h
  obtain ⟨_, hselected, _, hother, _, _, rfl⟩ := h
  refine ⟨⟨fun hne => ?_, fun hs hnil => ?_⟩, fun i => by simp⟩
  · by_contra hs
    simp [hs, hne] at hother
  · simp [hs, hnil] at hselected

theorem roleById_eq_ok : roleById db roleId = .ok role ↔ role ∈ db.roles ∧ role.id = roleId := by
  rw [roleById, orRaise_eq_ok]
  exact Table.find?_eq_some

theorem renamedRole_eq_ok {name : Option String} (h : renamedRole c db role name = .ok role') :
    ∃ name, role' = { role with name := name } := by
  cases name with
  | none =>
    cases h
    exact ⟨role.name, rfl⟩
  | some name =>
    simp only [renamedRole, bind_eq_ok, pure_eq_ok] at h
    obtain ⟨name, _, rfl⟩ := h
    exact ⟨name, rfl⟩

theorem permittedRole_eq_ok {permissions : Option (List String)}
    (h : permittedRole role permissions = .ok role') :
    (permissions = none ∧ role' = role) ∨ ∃ requested granted, permissions = some requested ∧
      validatePermissions requested = .ok granted ∧ role' = { role with permissions := granted } := by
  cases permissions with
  | none =>
    cases h
    exact Or.inl ⟨rfl, rfl⟩
  | some requested =>
    simp only [permittedRole, bind_eq_ok, pure_eq_ok] at h
    obtain ⟨granted, hgranted, rfl⟩ := h
    exact Or.inr ⟨requested, granted, rfl, hgranted, rfl⟩

theorem linkedRole_eq_ok {scope : Option AssignmentFieldScope} {ids : Option (List ℕ)}
    (h : linkedRole db role scope ids = .ok role') :
    (scope = none ∧ ids = none ∧ role' = role) ∨ ∃ links,
      assignmentFieldLinks db (scope.getD role.assignmentFieldScope)
        (selectedFieldIds role (scope.getD role.assignmentFieldScope) ids) = .ok links ∧
      role' = { role with
        assignmentFieldScope := scope.getD role.assignmentFieldScope
        assignmentFieldIds := links } := by
  unfold linkedRole at h
  split at h
  · next hnone =>
    cases h
    exact Or.inl ⟨Option.isNone_iff_eq_none.mp hnone.1, Option.isNone_iff_eq_none.mp hnone.2, rfl⟩
  · simp only [bind_eq_ok, pure_eq_ok] at h
    obtain ⟨links, hlinks, rfl⟩ := h
    exact Or.inr ⟨links, hlinks, rfl⟩

/-- What an update makes of a role. -/
structure RoleUpdated (db : AuthDb) (role : Role) (data : RoleUpdate) (role' : Role) : Prop where
  id : role'.id = role.id
  employeeScope : role'.employeeScope = data.employeeScope.getD role.employeeScope
  permissions : (data.permissions = none ∧ role'.permissions = role.permissions) ∨
    ∃ requested, data.permissions = some requested ∧
      validatePermissions requested = .ok role'.permissions
  fields : (data.assignmentFieldScope = none ∧ data.assignmentFieldIds = none ∧
      role'.assignmentFieldScope = role.assignmentFieldScope ∧
      role'.assignmentFieldIds = role.assignmentFieldIds) ∨
    (role'.assignmentFieldScope = data.assignmentFieldScope.getD role.assignmentFieldScope ∧
      assignmentFieldLinks db role'.assignmentFieldScope
        (selectedFieldIds role role'.assignmentFieldScope data.assignmentFieldIds) =
          .ok role'.assignmentFieldIds)

theorem updatedRole_eq_ok {data : RoleUpdate} (h : updatedRole c db role data = .ok role') :
    RoleUpdated db role data role' := by
  simp only [updatedRole, bind_eq_ok] at h
  obtain ⟨renamed, hrenamed, permitted, hpermitted, hlinked⟩ := h
  obtain ⟨name, rfl⟩ := renamedRole_eq_ok hrenamed
  rcases permittedRole_eq_ok hpermitted with ⟨hp, rfl⟩ | ⟨requested, granted, hp, hg, rfl⟩
  · rcases linkedRole_eq_ok hlinked with ⟨hs, hi, rfl⟩ | ⟨links, hl, rfl⟩
    · exact ⟨rfl, rfl, Or.inl ⟨hp, rfl⟩, Or.inl ⟨hs, hi, rfl, rfl⟩⟩
    · exact ⟨rfl, rfl, Or.inl ⟨hp, rfl⟩, Or.inr ⟨rfl, hl⟩⟩
  · rcases linkedRole_eq_ok hlinked with ⟨hs, hi, rfl⟩ | ⟨links, hl, rfl⟩
    · exact ⟨rfl, rfl, Or.inr ⟨requested, hp, hg⟩, Or.inl ⟨hs, hi, rfl, rfl⟩⟩
    · exact ⟨rfl, rfl, Or.inr ⟨requested, hp, hg⟩, Or.inr ⟨rfl, hl⟩⟩

theorem RoleUpdated.links {data : RoleUpdate} (h : RoleUpdated db role data role')
    (hrole : role.assignmentFieldIds ≠ [] ↔ role.assignmentFieldScope = .selected) :
    role'.assignmentFieldIds ≠ [] ↔ role'.assignmentFieldScope = .selected := by
  rcases h.fields with ⟨_, _, hs, hi⟩ | ⟨_, hl⟩
  · rw [hs, hi]
    exact hrole
  · exact (assignmentFieldLinks_scope hl).1

theorem createRole_eq_ok {data : RoleInput} {actor : String}
    (h : createRole c db data actor = .ok (db', role)) :
    db' = db.addRole role ∧ role.id = db.sequences.role ∧
      (role.assignmentFieldIds ≠ [] ↔ role.assignmentFieldScope = .selected) := by
  simp only [createRole, bind_eq_ok, pure_eq_ok] at h
  obtain ⟨name, _, permissions, _, links, hlinks, _, _, hout⟩ := h
  cases hout
  exact ⟨rfl, rfl, (assignmentFieldLinks_scope hlinks).1⟩

theorem updateRole_eq_ok {data : RoleUpdate} (h : updateRole c db role data = .ok (db', role')) :
    db' = db.saveRole role' ∧ RoleUpdated db role data role' := by
  simp only [updateRole, bind_eq_ok, pure_eq_ok] at h
  obtain ⟨updated, hupdated, _, _, hout⟩ := h
  cases hout
  exact ⟨rfl, updatedRole_eq_ok hupdated⟩

theorem deleteRole_eq_ok (h : deleteRole db role = .ok db') :
    (∀ u ∈ db.users, role.id ∉ u.roleIds) ∧
      db' = { db with roles := db.roles.filter fun r => r.id ≠ role.id } := by
  simp only [deleteRole, bind_eq_ok, ensure_eq_ok, pure_eq_ok] at h
  obtain ⟨_, hnone, rfl⟩ := h
  refine ⟨fun u hu hid => ?_, rfl⟩
  simpa [hid] using List.all_eq_true.mp hnone u hu

/-! ## Users -/

theorem userById_eq_ok {user : User} {userId : ℕ} :
    userById db userId = .ok user ↔ user ∈ db.users ∧ user.id = userId := by
  rw [userById, orRaise_eq_ok]
  exact Table.find?_eq_some

theorem rolesByIds_eq_ok {requested roleIds : List ℕ} (h : rolesByIds db requested = .ok roleIds) :
    ∀ id ∈ roleIds, ∃ r ∈ db.roles, r.id = id := by
  simp only [rolesByIds, bind_eq_ok, ensure_eq_ok, pure_eq_ok] at h
  obtain ⟨_, hmissing, rfl⟩ := h
  intro id hid
  have hnot : id ∉ (requested.toFinset.sort (· ≤ ·)).filter
      fun id => (db.roles.find? id).isNone := by
    rw [List.isEmpty_iff.mp hmissing]
    exact List.not_mem_nil
  rw [List.mem_filter, not_and] at hnot
  have hsome : db.roles.find? id ≠ none := fun hn => hnot hid (by rw [hn]; rfl)
  obtain ⟨r, hr⟩ := Option.ne_none_iff_exists'.mp hsome
  exact ⟨r, Table.find?_eq_some.mp hr⟩

theorem createUser_eq_ok {name email password : String} {roleIds : List ℕ} {employeeId : Option ℕ}
    {user : User} (h : createUser c db name email password roleIds employeeId = .ok (db', user)) :
    db' = db.addUser user ∧ user.id = db.sequences.user ∧ user.isRoot = false ∧
      user.roleIds ≠ [] ∧ ∀ id ∈ user.roleIds, ∃ r ∈ db.roles, r.id = id := by
  simp only [createUser, bind_eq_ok, ensure_eq_ok, pure_eq_ok] at h
  obtain ⟨_, _, _, _, roles, hroles, _, hne, _, _, hout⟩ := h
  cases hout
  refine ⟨rfl, rfl, rfl, fun hnil => ?_, rolesByIds_eq_ok hroles⟩
  have hroles : roles = [] := hnil
  simp [hroles] at hne

/-- What an update of a user keeps and checks. -/
structure UserUpdated (db : AuthDb) (user : User) (data : UserUpdate) (actorUserId : Option ℕ)
    (user' : User) : Prop where
  id : user'.id = user.id
  isRoot : user'.isRoot = user.isRoot
  roles : (data.roleIds = none ∧ user'.roleIds = user.roleIds) ∨
    (actorUserId ≠ some user.id ∧ user'.roleIds ≠ [] ∧
      ∀ id ∈ user'.roleIds, ∃ r ∈ db.roles, r.id = id)
  employeeId : user'.employeeId = data.employeeId.getD user.employeeId

theorem updatedUser_eq_ok {user user' : User} {data : UserUpdate} {actorUserId : Option ℕ}
    (h : updatedUser db user data actorUserId = .ok user') :
    UserUpdated db user data actorUserId user' := by
  simp only [updatedUser, bind_eq_ok] at h
  obtain ⟨named, hnamed, placed, hplaced, roled, hroled, hlinked⟩ := h
  have h1 : ∃ name, named = { user with name := name } := by
    cases hn : data.name with
    | none =>
      rw [hn] at hnamed
      cases hnamed
      exact ⟨user.name, rfl⟩
    | some name =>
      simp only [hn, changedName, bind_eq_ok, pure_eq_ok] at hnamed
      obtain ⟨_, _, rfl⟩ := hnamed
      exact ⟨_, rfl⟩
  obtain ⟨name, rfl⟩ := h1
  have h2 : ∃ status, placed = { user with name := name, status := status } := by
    cases hs : data.status with
    | none =>
      rw [hs] at hplaced
      cases hplaced
      exact ⟨user.status, rfl⟩
    | some status =>
      simp only [hs, changedStatus, bind_eq_ok, pure_eq_ok] at hplaced
      obtain ⟨_, _, rfl⟩ := hplaced
      exact ⟨_, rfl⟩
  obtain ⟨status, rfl⟩ := h2
  have h3 : ∃ roleIds, roled = { user with name := name, status := status, roleIds := roleIds } ∧
      ((data.roleIds = none ∧ roleIds = user.roleIds) ∨ (actorUserId ≠ some user.id ∧
        roleIds ≠ [] ∧ ∀ id ∈ roleIds, ∃ r ∈ db.roles, r.id = id)) := by
    cases hr : data.roleIds with
    | none =>
      rw [hr] at hroled
      cases hroled
      exact ⟨user.roleIds, rfl, Or.inl ⟨rfl, rfl⟩⟩
    | some requested =>
      simp only [hr, changedRoles, bind_eq_ok, ensure_eq_ok, pure_eq_ok] at hroled
      obtain ⟨_, hactor, roleIds, hroleIds, _, hne, rfl⟩ := hroled
      refine ⟨roleIds, rfl, Or.inr ⟨of_decide_eq_true hactor, fun hnil => ?_,
        rolesByIds_eq_ok hroleIds⟩⟩
      simp [hnil] at hne
  obtain ⟨roleIds, rfl, hroles⟩ := h3
  cases he : data.employeeId with
  | none =>
    rw [he] at hlinked
    cases hlinked
    exact ⟨rfl, rfl, hroles, by rw [he]; rfl⟩
  | some employeeId =>
    simp only [he, changedEmployee, bind_eq_ok, pure_eq_ok] at hlinked
    obtain ⟨_, _, rfl⟩ := hlinked
    exact ⟨rfl, rfl, hroles, by rw [he]; rfl⟩

/-- One row of `users` is saved, and sessions may end. -/
structure SavesUser (db db' : AuthDb) (user : User) : Prop where
  users : db'.users = db.users.insert user
  roles : db'.roles = db.roles
  employees : db'.employees = db.employees
  userSequence : db'.sequences.user = db.sequences.user
  roleSequence : db'.sequences.role = db.sequences.role

theorem saveUser_saves (db : AuthDb) (user : User) : SavesUser db (db.saveUser user) user :=
  ⟨rfl, rfl, rfl, rfl, rfl⟩

theorem revoke_saves (c : Ctx) (db : AuthDb) (user : User) (userId : ℕ) (kept : Option ℕ) :
    SavesUser db (revokeUserSessions c (db.saveUser user) userId kept) user :=
  ⟨rfl, rfl, rfl, rfl, rfl⟩

theorem updateUser_eq_ok {user user' : User} {data : UserUpdate} {actorUserId : Option ℕ}
    (h : updateUser c db user data actorUserId = .ok (db', user')) :
    user.isRoot = false ∧ UserUpdated db user data actorUserId user' ∧ SavesUser db db' user' := by
  simp only [updateUser, bind_eq_ok, ensure_eq_ok] at h
  obtain ⟨_, hroot, updated, hupdated, hout⟩ := h
  refine ⟨by simpa using hroot, ?_⟩
  split at hout
  · cases hout
    exact ⟨updatedUser_eq_ok hupdated, saveUser_saves _ _⟩
  · cases hout
    exact ⟨updatedUser_eq_ok hupdated, revoke_saves _ _ _ _ _⟩

theorem resetUserPassword_eq_ok {user user' : User} {password : String}
    (h : resetUserPassword c db user password = .ok (db', user')) :
    user.isRoot = false ∧ (user'.id = user.id ∧ user'.isRoot = user.isRoot ∧
      user'.roleIds = user.roleIds ∧ user'.employeeId = user.employeeId) ∧ SavesUser db db' user' := by
  simp only [resetUserPassword, bind_eq_ok, ensure_eq_ok, pure_eq_ok] at h
  obtain ⟨_, hroot, hout⟩ := h
  cases hout
  exact ⟨by simpa using hroot, ⟨rfl, rfl, rfl, rfl⟩, revoke_saves _ _ _ _ _⟩

theorem disableUser_eq_ok {user user' : User} {actorUserId : Option ℕ}
    (h : disableUser c db user actorUserId = .ok (db', user')) :
    user.isRoot = false ∧ actorUserId ≠ some user.id ∧ (user'.id = user.id ∧
      user'.isRoot = user.isRoot ∧ user'.roleIds = user.roleIds ∧
        user'.employeeId = user.employeeId) ∧ SavesUser db db' user' := by
  simp only [disableUser, bind_eq_ok, ensure_eq_ok, pure_eq_ok] at h
  obtain ⟨_, hroot, _, hactor, hout⟩ := h
  cases hout
  exact ⟨by simpa using hroot, of_decide_eq_true hactor, ⟨rfl, rfl, rfl, rfl⟩,
    revoke_saves _ _ _ _ _⟩

/-! ## What a request changes -/

/-- The change of one row of `users` by a request of an administrator. -/
inductive UserEffect (db db' : AuthDb) (actorUserId : Option ℕ) (action : AdminAction) : Prop where
  | added (user : User) (after : db' = db.addUser user) (id : user.id = db.sequences.user)
      (isRoot : user.isRoot = false) (hasRole : user.roleIds ≠ [])
      (held : ∀ id ∈ user.roleIds, ∃ r ∈ db.roles, r.id = id)
  | saved (user user' : User) (found : user ∈ db.users) (isRoot : user.isRoot = false)
      (id : user'.id = user.id) (isRoot' : user'.isRoot = false)
      (roles : user'.roleIds = user.roleIds ∨ (actorUserId ≠ some user.id ∧ user'.roleIds ≠ [] ∧
        ∀ id ∈ user'.roleIds, ∃ r ∈ db.roles, r.id = id))
      (employeeId : user'.employeeId = user.employeeId ∨
        ∃ data, action = .updateUser user.id data ∧ data.employeeId = some user'.employeeId)
      (after : SavesUser db db' user')

theorem runAdminAction_accounts {action : AdminAction} {event : Option Event}
    {actorUserId : Option ℕ}
    (h : runAdminAction c db actorUserId action = .ok (db', event)) :
    UserEffect db db' actorUserId action := by
  cases action with
  | createUser name email password roleIds employeeId =>
    simp only [runAdminAction, bind_eq_ok, pure_eq_ok] at h
    obtain ⟨⟨_, user⟩, hcreate, hout⟩ := h
    cases hout
    obtain ⟨hdb, hid, hroot, hne, hheld⟩ := createUser_eq_ok hcreate
    exact .added user hdb hid hroot hne hheld
  | updateUser userId data =>
    simp only [runAdminAction, bind_eq_ok] at h
    obtain ⟨user, hfind, ⟨db'', user'⟩, hupdate, hout⟩ := h
    obtain ⟨hm, rfl⟩ := userById_eq_ok.mp hfind
    obtain ⟨hroot, hupdated, hsaves⟩ := updateUser_eq_ok hupdate
    have hdb : db'' = db' := by
      split at hout <;> cases hout <;> rfl
    subst hdb
    refine .saved user user' hm hroot hupdated.id (hupdated.isRoot.trans hroot)
      (hupdated.roles.imp_left And.right) ?_ hsaves
    cases he : data.employeeId with
    | none =>
      left
      rw [hupdated.employeeId, he]
      rfl
    | some employeeId =>
      refine Or.inr ⟨data, rfl, ?_⟩
      rw [hupdated.employeeId, he]
      rfl
  | resetUserPassword userId password =>
    simp only [runAdminAction, bind_eq_ok, pure_eq_ok] at h
    obtain ⟨user, hfind, ⟨_, user'⟩, hreset, hout⟩ := h
    cases hout
    obtain ⟨hm, rfl⟩ := userById_eq_ok.mp hfind
    obtain ⟨hroot, ⟨hid, hroot', hroles, hemployee⟩, hsaves⟩ := resetUserPassword_eq_ok hreset
    exact .saved user user' hm hroot hid (hroot'.trans hroot) (Or.inl hroles) (Or.inl hemployee)
      hsaves
  | disableUser userId =>
    simp only [runAdminAction, bind_eq_ok, pure_eq_ok] at h
    obtain ⟨user, hfind, ⟨_, user'⟩, hdisable, hout⟩ := h
    cases hout
    obtain ⟨hm, rfl⟩ := userById_eq_ok.mp hfind
    obtain ⟨hroot, _, ⟨hid, hroot', hroles, hemployee⟩, hsaves⟩ := disableUser_eq_ok hdisable
    exact .saved user user' hm hroot hid (hroot'.trans hroot) (Or.inl hroles) (Or.inl hemployee)
      hsaves

/-! ## One request -/

theorem AccountsSound.saveRole (h : AccountsSound db) (hrole : role ∈ db.roles)
    (hid : role'.id = role.id)
    (hlinks : role'.assignmentFieldIds ≠ [] ↔ role'.assignmentFieldScope = .selected) :
    AccountsSound (db.saveRole role') where
  usersFresh := h.usersFresh
  rolesFresh r hr := by
    rcases Table.mem_insert.mp hr with rfl | ⟨hr, _⟩
    · rw [hid]
      exact h.rolesFresh role hrole
    · exact h.rolesFresh r hr
  rolesHeld u hu i hi := by
    obtain ⟨r, hr, rfl⟩ := h.rolesHeld u hu i hi
    by_cases he : r.id = role'.id
    · exact ⟨role', Table.mem_insert_self, he.symm⟩
    · exact ⟨r, Table.mem_insert.mpr (Or.inr ⟨hr, he⟩), rfl⟩
  rootActive := h.rootActive
  hasRole := h.hasRole
  fieldLinks r hr := by
    rcases Table.mem_insert.mp hr with rfl | ⟨hr, _⟩
    · exact hlinks
    · exact h.fieldLinks r hr

theorem AccountsSound.addRole (h : AccountsSound db) (hid : role.id = db.sequences.role)
    (hlinks : role.assignmentFieldIds ≠ [] ↔ role.assignmentFieldScope = .selected) :
    AccountsSound (db.addRole role) where
  usersFresh := h.usersFresh
  rolesFresh r hr := by
    show r.id < db.sequences.role + 1
    rcases Table.mem_insert.mp hr with rfl | ⟨hr, _⟩
    · rw [hid]
      exact Nat.lt_succ_self _
    · exact (h.rolesFresh r hr).trans (Nat.lt_succ_self _)
  rolesHeld u hu i hi := by
    obtain ⟨r, hr, rfl⟩ := h.rolesHeld u hu i hi
    refine ⟨r, Table.mem_insert.mpr (Or.inr ⟨hr, ?_⟩), rfl⟩
    show r.id ≠ role.id
    rw [hid]
    exact (h.rolesFresh r hr).ne
  rootActive := h.rootActive
  hasRole := h.hasRole
  fieldLinks r hr := by
    rcases Table.mem_insert.mp hr with rfl | ⟨hr, _⟩
    · exact hlinks
    · exact h.fieldLinks r hr

theorem AccountsSound.deleteRole (h : AccountsSound db)
    (hfree : ∀ u ∈ db.users, role.id ∉ u.roleIds) :
    AccountsSound { db with roles := db.roles.filter fun r => r.id ≠ role.id } where
  usersFresh := h.usersFresh
  rolesFresh r hr := h.rolesFresh r (Table.mem_filter.mp hr).1
  rolesHeld u hu i hi := by
    obtain ⟨r, hr, rfl⟩ := h.rolesHeld u hu i hi
    refine ⟨r, Table.mem_filter.mpr ⟨hr, decide_eq_true fun he => ?_⟩, rfl⟩
    rw [he] at hi
    exact hfree u hu hi
  rootActive := h.rootActive
  hasRole := h.hasRole
  fieldLinks r hr := h.fieldLinks r (Table.mem_filter.mp hr).1

theorem AccountsSound.userEffect {action : AdminAction} {actorUserId : Option ℕ}
    (h : AccountsSound db) (he : UserEffect db db' actorUserId action) : AccountsSound db' := by
  cases he with
  | added user hafter hid hroot hne hheld =>
    subst hafter
    refine ⟨fun u hu => ?_, h.rolesFresh, fun u hu => ?_, fun u hu hr => ?_, fun u hu hr => ?_,
      h.fieldLinks⟩
    · show u.id < db.sequences.user + 1
      rcases Table.mem_insert.mp hu with rfl | ⟨hu, _⟩
      · rw [hid]
        exact Nat.lt_succ_self _
      · exact (h.usersFresh u hu).trans (Nat.lt_succ_self _)
    · rcases Table.mem_insert.mp hu with rfl | ⟨hu, _⟩
      · exact hheld
      · exact h.rolesHeld u hu
    · rcases Table.mem_insert.mp hu with rfl | ⟨hu, _⟩
      · exact absurd hr (by simp [hroot])
      · exact h.rootActive u hu hr
    · rcases Table.mem_insert.mp hu with rfl | ⟨hu, _⟩
      · exact hne
      · exact h.hasRole u hu hr
  | saved user user' hm hroot hid hroot' hroles _ hs =>
    have hheld : user'.roleIds ≠ [] ∧ ∀ id ∈ user'.roleIds, ∃ r ∈ db.roles, r.id = id := by
      rcases hroles with hsame | ⟨_, hne, hheld⟩
      · rw [hsame]
        exact ⟨h.hasRole user hm hroot, h.rolesHeld user hm⟩
      · exact ⟨hne, hheld⟩
    have hmem : ∀ u ∈ db'.users, u = user' ∨ u ∈ db.users := by
      intro u hu
      rw [hs.users] at hu
      exact (Table.mem_insert.mp hu).imp_right And.left
    refine ⟨fun u hu => ?_, fun r hr => ?_, fun u hu => ?_, fun u hu hr => ?_, fun u hu hr => ?_,
      fun r hr => ?_⟩
    · rw [hs.userSequence]
      rcases hmem u hu with rfl | hu
      · rw [hid]
        exact h.usersFresh user hm
      · exact h.usersFresh u hu
    · rw [hs.roles] at hr
      rw [hs.roleSequence]
      exact h.rolesFresh r hr
    · rw [hs.roles]
      rcases hmem u hu with rfl | hu
      · exact hheld.2
      · exact h.rolesHeld u hu
    · rcases hmem u hu with rfl | hu
      · exact absurd hr (by simp [hroot'])
      · exact h.rootActive u hu hr
    · rcases hmem u hu with rfl | hu
      · exact hheld.1
      · exact h.hasRole u hu hr
    · rw [hs.roles] at hr
      exact h.fieldLinks r hr

/-- The root row is not the row that an administrator's request writes. -/
theorem OneRoot.userEffect {action : AdminAction} {actorUserId : Option ℕ} (hroot : OneRoot db)
    (h : AccountsSound db) (he : UserEffect db db' actorUserId action) : OneRoot db' := by
  obtain ⟨root, hm, hr, honly⟩ := hroot
  cases he with
  | added user hafter hid hnot _ _ =>
    subst hafter
    refine ⟨root, Table.mem_insert.mpr (Or.inr ⟨hm, ?_⟩), hr, fun u hu hur => ?_⟩
    · show root.id ≠ user.id
      rw [hid]
      exact (h.usersFresh root hm).ne
    · rcases Table.mem_insert.mp hu with rfl | ⟨hu, _⟩
      · exact absurd hur (by simp [hnot])
      · exact honly u hu hur
  | saved user user' hum hur hid hur' _ _ hs =>
    refine ⟨root, ?_, hr, fun u hu hroot => ?_⟩
    · rw [hs.users]
      refine Table.mem_insert.mpr (Or.inr ⟨hm, fun hsame => ?_⟩)
      have huser : root = user := Table.key_inj hm hum (hsame.trans hid)
      rw [huser, hur] at hr
      exact absurd hr (by simp)
    · rw [hs.users] at hu
      rcases Table.mem_insert.mp hu with rfl | ⟨hu, _⟩
      · exact absurd hroot (by simp [hur'])
      · exact honly u hu hroot

/-- How a request for a role or a user goes through. -/
inductive AccessEffect (db db' : AuthDb) (principal : Principal) : AccessAction → Prop where
  | createRole (data : RoleInput) (role : Role) (after : db' = db.addRole role)
      (id : role.id = db.sequences.role)
      (links : role.assignmentFieldIds ≠ [] ↔ role.assignmentFieldScope = .selected) :
      AccessEffect db db' principal (.createRole data)
  | updateRole (data : RoleUpdate) (role role' : Role) (found : role ∈ db.roles)
      (after : db' = db.saveRole role') (updated : RoleUpdated db role data role') :
      AccessEffect db db' principal (.updateRole role.id data)
  | deleteRole (role : Role) (found : role ∈ db.roles) (free : ∀ u ∈ db.users, role.id ∉ u.roleIds)
      (after : db' = { db with roles := db.roles.filter fun r => r.id ≠ role.id }) :
      AccessEffect db db' principal (.deleteRole role.id)
  | user (action : AdminAction)
      (scope : checkUserScope db (employeeVisibility db db.employees principal) action = .ok ())
      (effect : UserEffect db db' principal.userId action) :
      AccessEffect db db' principal (.user action)

theorem runAccessAction_effect {principal : Principal} {action : AccessAction}
    (h : runAccessAction c db principal action = .ok db') :
    AccessEffect db db' principal action := by
  cases action with
  | createRole data =>
    obtain ⟨⟨_, role⟩, hcreate, rfl⟩ := exceptMap_eq_ok.mp h
    obtain ⟨hdb, hid, hlinks⟩ := createRole_eq_ok hcreate
    exact .createRole data role hdb hid hlinks
  | updateRole roleId data =>
    simp only [runAccessAction, bind_eq_ok, exceptMap_eq_ok] at h
    obtain ⟨role, hfind, ⟨_, role'⟩, hupdate, rfl⟩ := h
    obtain ⟨hm, rfl⟩ := roleById_eq_ok.mp hfind
    obtain ⟨hdb, hupdated⟩ := updateRole_eq_ok hupdate
    exact .updateRole data role role' hm hdb hupdated
  | deleteRole roleId =>
    simp only [runAccessAction, bind_eq_ok] at h
    obtain ⟨role, hfind, hdelete⟩ := h
    obtain ⟨hm, rfl⟩ := roleById_eq_ok.mp hfind
    obtain ⟨hfree, hdb⟩ := deleteRole_eq_ok hdelete
    exact .deleteRole role hm hfree hdb
  | user action =>
    simp only [runAccessAction, bind_eq_ok, exceptMap_eq_ok] at h
    obtain ⟨_, hscope, ⟨_, event⟩, hrun, rfl⟩ := h
    exact .user action hscope (runAdminAction_accounts hrun)

theorem AccountsSound.accessEffect {principal : Principal} {action : AccessAction}
    (h : AccountsSound db) (he : AccessEffect db db' principal action) : AccountsSound db' := by
  cases he with
  | createRole data role hdb hid hlinks =>
    rw [hdb]
    exact h.addRole hid hlinks
  | updateRole data role role' hm hdb hupdated =>
    rw [hdb]
    exact h.saveRole hm hupdated.id (hupdated.links (h.fieldLinks role hm))
  | deleteRole role hm hfree hdb =>
    rw [hdb]
    exact h.deleteRole hfree
  | user action _ he => exact h.userEffect he

theorem OneRoot.accessEffect {principal : Principal} {action : AccessAction} (hroot : OneRoot db)
    (h : AccountsSound db) (he : AccessEffect db db' principal action) : OneRoot db' := by
  cases he with
  | createRole data role hdb _ _ =>
    rw [hdb]
    exact hroot
  | updateRole data role role' _ hdb _ =>
    rw [hdb]
    exact hroot
  | deleteRole role _ _ hdb =>
    rw [hdb]
    exact hroot
  | user action _ he => exact hroot.userEffect h he

/-! ## Root setup -/

theorem createRootUser_accounts {name email password : String} {clientIp userAgent : Option String}
    {out : User × CreatedSession}
    (h : createRootUser c db name email password clientIp userAgent = .ok (db', out)) :
    db.users = .empty ∧ ∃ root, root.id = db.sequences.user ∧ root.isRoot = true ∧
      root.status = .active ∧ root.roleIds = [] ∧ db'.users = db.users.insert root ∧
      db'.roles = db.roles ∧ db'.sequences.user = db.sequences.user + 1 ∧
      db'.sequences.role = db.sequences.role := by
  simp only [createRootUser, bind_eq_ok, ensure_eq_ok] at h
  obtain ⟨_, hempty, _, _, ⟨db'', created⟩, hsession, hout⟩ := h
  cases hout
  simp only [createSession, bind_eq_ok, pure_eq_ok] at hsession
  obtain ⟨_, _, hout⟩ := hsession
  cases hout
  refine ⟨Table.ext_mem fun u => ?_, _, rfl, rfl, rfl, rfl, rfl, rfl, rfl, rfl⟩
  rw [Table.mem_def, List.isEmpty_iff.mp hempty]
  simp

theorem AccountsSound.rootSetup (h : AccountsSound db) {root : User}
    (hempty : db.users = .empty) (hid : root.id = db.sequences.user)
    (hroot : root.isRoot = true) (hactive : root.status = .active) (hroles : root.roleIds = [])
    (husers : db'.users = db.users.insert root) (hr : db'.roles = db.roles)
    (hus : db'.sequences.user = db.sequences.user + 1)
    (hrs : db'.sequences.role = db.sequences.role) : AccountsSound db' ∧ OneRoot db' := by
  have honly : ∀ u ∈ db'.users, u = root := by
    intro u hu
    rw [husers, hempty] at hu
    exact (Table.mem_insert.mp hu).resolve_right fun hm => Table.not_mem_empty hm.1
  have hin : root ∈ db'.users := by
    rw [husers]
    exact Table.mem_insert_self
  refine ⟨⟨fun u hu => ?_, fun r hm => ?_, fun u hu i hi => ?_, fun u hu _ => ?_,
    fun u hu hnot => ?_, fun r hm => ?_⟩, root, hin, hroot, fun u hu _ => honly u hu⟩
  · rw [honly u hu, hid, hus]
    exact Nat.lt_succ_self _
  · rw [hr] at hm
    rw [hrs]
    exact h.rolesFresh r hm
  · rw [honly u hu, hroles] at hi
    exact absurd hi List.not_mem_nil
  · rw [honly u hu]
    exact hactive
  · rw [honly u hu, hroot] at hnot
    exact absurd hnot (by simp)
  · rw [hr] at hm
    exact h.fieldLinks r hm

end

/-! ## Runs -/

section

variable {db : AuthDb}

theorem accessStep_sound (h : AccountsSound db) (call : Ctx × AccessRequest) :
    AccountsSound (accessStep db call) ∧ (OneRoot db → OneRoot (accessStep db call)) := by
  unfold accessStep
  cases hrun : runAccessRequest call.1 db call.2 with
  | error e => exact ⟨h, id⟩
  | ok db' =>
    cases hcall : call.2 with
    | setupRoot name email password clientIp userAgent =>
      rw [hcall] at hrun
      obtain ⟨out, hcreate, rfl⟩ := exceptMap_eq_ok.mp hrun
      obtain ⟨hempty, root, hid, hroot, hactive, hroles, husers, hr, hus, hrs⟩ :=
        createRootUser_accounts hcreate
      have hboth := h.rootSetup hempty hid hroot hactive hroles husers hr hus hrs
      exact ⟨hboth.1, fun _ => hboth.2⟩
    | change principal action =>
      rw [hcall] at hrun
      simp only [runAccessRequest, bind_eq_ok] at hrun
      obtain ⟨_, _, hrun⟩ := hrun
      have heffect := runAccessAction_effect hrun
      exact ⟨h.accessEffect heffect, fun hroot => hroot.accessEffect h heffect⟩

theorem runAccess_sound : ∀ (calls : List (Ctx × AccessRequest)) {db : AuthDb}, AccountsSound db →
    AccountsSound (runAccess db calls) ∧ (OneRoot db → OneRoot (runAccess db calls))
  | [], _, h => ⟨h, id⟩
  | call :: rest, _, h => by
    obtain ⟨hstep, hroot⟩ := accessStep_sound h call
    obtain ⟨hrest, hrootRest⟩ := runAccess_sound rest hstep
    exact ⟨hrest, fun hone => hrootRest (hroot hone)⟩

theorem accountsSound_empty (hu : db.users = .empty) (hr : db.roles = .empty) :
    AccountsSound db := by
  have hnone : ∀ u, u ∉ db.users := fun u => by
    rw [hu]
    exact Table.not_mem_empty
  have hroles : ∀ r, r ∉ db.roles := fun r => by
    rw [hr]
    exact Table.not_mem_empty
  exact ⟨fun u hm => absurd hm (hnone u), fun r hm => absurd hm (hroles r),
    fun u hm => absurd hm (hnone u), fun u hm => absurd hm (hnone u),
    fun u hm => absurd hm (hnone u), fun r hm => absurd hm (hroles r)⟩

/-- After a root setup on a database without accounts, every run of requests for roles and users
keeps one active root, a role for every other user, and the links of the roles. -/
theorem account_state_invariant {start db : AuthDb} (hu : start.users = .empty)
    (hr : start.roles = .empty) (before after : List (Ctx × AccessRequest)) (c : Ctx)
    {name email password : String} {clientIp userAgent : Option String}
    {out : User × CreatedSession}
    (hsetup : createRootUser c (runAccess start before) name email password clientIp userAgent =
      .ok (db, out)) :
    (∃ root ∈ (runAccess db after).users, root.isRoot = true ∧ root.status = .active ∧
      ∀ u ∈ (runAccess db after).users, u.isRoot = true → u = root) ∧
    (∀ u ∈ (runAccess db after).users, u.isRoot = false →
      ∃ r ∈ (runAccess db after).roles, r.id ∈ u.roleIds) ∧
    ∀ r ∈ (runAccess db after).roles,
      r.assignmentFieldIds ≠ [] ↔ r.assignmentFieldScope = .selected := by
  have hbefore := (runAccess_sound before (accountsSound_empty hu hr)).1
  obtain ⟨hempty, root, hid, hroot, hactive, hroles, husers, hr, hus, hrs⟩ :=
    createRootUser_accounts hsetup
  obtain ⟨hsound, hone⟩ := hbefore.rootSetup hempty hid hroot hactive hroles husers hr hus hrs
  obtain ⟨h, honeAfter⟩ := runAccess_sound after hsound
  obtain ⟨root, hm, hroot, honly⟩ := honeAfter hone
  refine ⟨⟨root, hm, hroot, h.rootActive root hm hroot, honly⟩, fun u hu hnot => ?_, h.fieldLinks⟩
  obtain ⟨i, hi⟩ := List.exists_mem_of_ne_nil _ (h.hasRole u hu hnot)
  obtain ⟨r, hr, rfl⟩ := h.rolesHeld u hu i hi
  exact ⟨r, hr, hi⟩

end

/-! ## A small workspace -/

/-- No accounts yet, one assignment field. -/
def emptyWorkspace : AuthDb :=
  { AuthDb.initial .empty .empty with
    assignmentFieldDefinitions := .ofRows [⟨1, "laptop", .one, "priority", .text⟩] }

def plainCtx (text : String) : Ctx := ⟨.plain, .default, .plain text, seconds 1⟩

/-- A role for the field, a user with it, and a request to delete the role, which is refused. -/
def fieldRoleCalls : List (Ctx × AccessRequest) :=
  [(plainCtx "a", .change .service (.createRole
      { name := "Laptops", permissions := ["access:manage"], employeeScope := .none,
        assignmentFieldScope := .selected, assignmentFieldIds := [1] })),
    (plainCtx "b", .change .service (.user (.createUser "Ada" "ada@example" "secret" [1] none))),
    (plainCtx "c", .change .service (.deleteRole 1))]

theorem account_state_invariant_workspace :
    ∃ db out, createRootUser (plainCtx "r") (runAccess emptyWorkspace []) "Root" "root@example"
        "password" none none = .ok (db, out) ∧
      (runAccess db fieldRoleCalls).users.rows.map (fun u => (u.isRoot, u.roleIds)) =
        [(true, []), (false, [1])] ∧
      (∃ root ∈ (runAccess db fieldRoleCalls).users, root.isRoot = true ∧ root.status = .active ∧
        ∀ u ∈ (runAccess db fieldRoleCalls).users, u.isRoot = true → u = root) := by
  have hrows : (createRootUser (plainCtx "r") (runAccess emptyWorkspace []) "Root" "root@example"
      "password" none none).toOption.map (fun out => (runAccess out.1 fieldRoleCalls).users.rows.map
        fun u => (u.isRoot, u.roleIds)) = some [(true, []), (false, [1])] := by
    decide +kernel
  cases hsetup : createRootUser (plainCtx "r") (runAccess emptyWorkspace []) "Root" "root@example"
      "password" none none with
  | error e =>
    rw [hsetup] at hrows
    exact absurd hrows (by simp [Except.toOption])
  | ok out =>
    rw [hsetup] at hrows
    exact ⟨out.1, out.2, rfl, Option.some.inj hrows,
      (account_state_invariant (show emptyWorkspace.users = .empty from rfl)
        (show emptyWorkspace.roles = .empty from rfl) [] fieldRoleCalls (plainCtx "r") hsetup).1⟩

end Warp.Auth
