import Warp.EmployeeRequests
import Warp.Properties.EmployeeRows

/-!
# Edits within a scope

A user without an `all` scope sees its own employee and, with the reporting tree, everybody below.
Whatever employees it creates, changes and deletes, it never comes to see anybody that it neither saw
at the start nor created.
-/

namespace Warp

open Infra Auth

/-- The user is not the root and none of its roles shows it everybody. -/
def Scoped (auth : AuthDb) (userId : ℕ) : Prop :=
  ∀ user, auth.users.find? userId = some user →
    user.isRoot = false ∧ EmployeeScope.all ∉ employeeScopes auth.roles user

/-- The user sees an employee. -/
def Workspace.Sees (ws : Workspace) (userId employeeId : ℕ) : Prop :=
  (ws.visibility (.user userId)).canAccess employeeId = true

/-- The user sees everybody below its employee. -/
def SeesTree (ws : Workspace) (userId : ℕ) : Prop :=
  ∃ user, ws.auth.users.find? userId = some user ∧
    EmployeeScope.reportingTree ∈ employeeScopes ws.auth.roles user

section

variable {ws ws' : Workspace} {userId i : ℕ} {user : User}

/-! ## Who is visible -/

theorem visibility_of_find (hfind : ws.auth.users.find? userId = some user) :
    ws.visibility (.user userId) = userVisibility ws.auth.roles ws.db.facts.employees user := by
  simp only [Workspace.visibility, employeeVisibility, hfind]

theorem scoped_visibility (h : Scoped ws.auth userId)
    (hfind : ws.auth.users.find? userId = some user) {e : ℕ} (he : user.employeeId = some e) :
    ws.visibility (.user userId) =
      linkedVisibility ws.db.facts.employees (employeeScopes ws.auth.roles user) e := by
  obtain ⟨hroot, hall⟩ := h user hfind
  rw [visibility_of_find hfind, userVisibility, hroot, if_neg (by simp), if_neg hall, he]

theorem scoped_visibility_none (h : Scoped ws.auth userId)
    (hfind : ws.auth.users.find? userId = some user) (he : user.employeeId = none) :
    ws.visibility (.user userId) = { unrestricted := false } := by
  obtain ⟨hroot, hall⟩ := h user hfind
  rw [visibility_of_find hfind, userVisibility, hroot, if_neg (by simp), if_neg hall, he]

/-- Whoever is visible is the user's own employee, or somebody below it. -/
theorem Scoped.sees_iff (h : Scoped ws.auth userId) : ws.Sees userId i ↔
    ∃ user e, ws.auth.users.find? userId = some user ∧ user.employeeId = some e ∧
      ((i = e ∧ (EmployeeScope.self ∈ employeeScopes ws.auth.roles user ∨
          EmployeeScope.reportingTree ∈ employeeScopes ws.auth.roles user)) ∨
        (EmployeeScope.reportingTree ∈ employeeScopes ws.auth.roles user ∧
          i ∈ getDescendantIds ws.db.facts.employees e)) := by
  unfold Workspace.Sees
  cases hfind : ws.auth.users.find? userId with
  | none =>
    have hnothing : ws.visibility (.user userId) = { unrestricted := false } := by
      simp only [Workspace.visibility, employeeVisibility, hfind]
    rw [hnothing]
    simp [EmployeeVisibility.canAccess]
  | some user =>
    cases he : user.employeeId with
    | none =>
      rw [scoped_visibility_none h hfind he]
      simp [EmployeeVisibility.canAccess, he]
    | some e =>
      rw [scoped_visibility h hfind he, linkedVisibility_canAccess]
      simp [he]

theorem Scoped.restricted (h : Scoped ws.auth userId) :
    (ws.visibility (.user userId)).unrestricted = false := by
  cases hfind : ws.auth.users.find? userId with
  | none => simp only [Workspace.visibility, employeeVisibility, hfind]
  | some user =>
    cases he : user.employeeId with
    | none => rw [scoped_visibility_none h hfind he]
    | some e =>
      rw [scoped_visibility h hfind he]
      rfl

theorem Scoped.seesTree (h : Scoped ws.auth userId)
    (hreports : (ws.visibility (.user userId)).canCreateReports = true) : SeesTree ws userId := by
  cases hfind : ws.auth.users.find? userId with
  | none =>
    simp only [Workspace.visibility, employeeVisibility, hfind] at hreports
    exact absurd hreports (by simp)
  | some user =>
    cases he : user.employeeId with
    | none =>
      rw [scoped_visibility_none h hfind he] at hreports
      exact absurd hreports (by simp)
    | some e =>
      rw [scoped_visibility h hfind he] at hreports
      exact ⟨user, hfind, of_decide_eq_true hreports⟩

/-- With the reporting tree, the reports of a visible employee are visible. -/
theorem Scoped.sees_report (h : Scoped ws.auth userId) (htree : SeesTree ws userId) {x : Employee}
    (hx : x ∈ ws.db.facts.employees) {m : ℕ} (hm : x.managerId = some m)
    (hsees : ws.Sees userId m) : ws.Sees userId x.id := by
  obtain ⟨user, hfind, hscope⟩ := htree
  obtain ⟨user', e, hfind', he, hor⟩ := h.sees_iff.mp hsees
  obtain rfl : user = user' := Option.some.inj (hfind.symm.trans hfind')
  refine h.sees_iff.mpr ⟨user, e, hfind, he, Or.inr ⟨hscope, mem_getDescendantIds.mpr ?_⟩⟩
  have hstep : x.id ∈ directReportIds ws.db.facts.employees m :=
    mem_directReportIds.mpr ⟨x, hx, rfl, hm⟩
  rcases hor with ⟨rfl, _⟩ | ⟨_, hd⟩
  · exact .single hstep
  · exact .tail (mem_getDescendantIds.mp hd) hstep

/-! ## What a change can show -/

/-- The roles stay and the user keeps its link or loses it. -/
structure LinkKept (ws ws' : Workspace) (userId : ℕ) : Prop where
  roles : ws'.auth.roles = ws.auth.roles
  user : ∀ user', ws'.auth.users.find? userId = some user' →
    ∃ user, ws.auth.users.find? userId = some user ∧ user'.roleIds = user.roleIds ∧
      user'.isRoot = user.isRoot ∧ ∀ e, user'.employeeId = some e → user.employeeId = some e

theorem LinkKept.scopes (h : LinkKept ws ws' userId) {user user' : User}
    (hids : user'.roleIds = user.roleIds) :
    employeeScopes ws'.auth.roles user' = employeeScopes ws.auth.roles user := by
  rw [employeeScopes, employeeScopes, rolesOf, rolesOf, h.roles, hids]

theorem LinkKept.scoped (h : LinkKept ws ws' userId) (hscoped : Scoped ws.auth userId) :
    Scoped ws'.auth userId := by
  intro user' hfind'
  obtain ⟨user, hfind, hids, hroot, _⟩ := h.user user' hfind'
  rw [h.scopes hids, hroot]
  exact hscoped user hfind

/-- The visible employees stay within a set that has them all before and passes on to reports. -/
theorem LinkKept.sees_within (h : LinkKept ws ws' userId) (hscoped : Scoped ws.auth userId)
    {W : ℕ → Prop} (hstart : ∀ i, ws.Sees userId i → W i)
    (hreports : SeesTree ws userId → ∀ x ∈ ws'.db.facts.employees, ∀ m,
      x.managerId = some m → W m → W x.id) (hsees : ws'.Sees userId i) : W i := by
  obtain ⟨user', e, hfind', he', hor⟩ := (h.scoped hscoped).sees_iff.mp hsees
  obtain ⟨user, hfind, hids, _, hlink⟩ := h.user user' hfind'
  have he := hlink e he'
  rw [h.scopes hids] at hor
  have hown : EmployeeScope.self ∈ employeeScopes ws.auth.roles user ∨
      EmployeeScope.reportingTree ∈ employeeScopes ws.auth.roles user → W e :=
    fun hs => hstart e (hscoped.sees_iff.mpr ⟨user, e, hfind, he, Or.inl ⟨rfl, hs⟩⟩)
  rcases hor with ⟨rfl, hs⟩ | ⟨hs, hd⟩
  · exact hown hs
  · exact descendants_within (hreports ⟨user, hfind, hs⟩) (hown (Or.inr hs)) hd

theorem LinkKept.of_users (hroles : ws'.auth.roles = ws.auth.roles)
    (husers : ws'.auth.users = ws.auth.users) : LinkKept ws ws' userId := by
  refine ⟨hroles, fun user' hfind' => ⟨user', ?_, rfl, rfl, fun _ he => he⟩⟩
  rw [← husers]
  exact hfind'

theorem LinkKept.unlinked (ws : Workspace) (db : Db) (employeeId : ℕ) :
    LinkKept ws ((ws.withDb db).unlink employeeId) userId := by
  refine ⟨rfl, fun user' hfind' => ?_⟩
  have hmodify := Table.find?_modify (t := ws.auth.users)
    (f := fun u => if u.employeeId = some employeeId then { u with employeeId := none } else u)
    (h := fun e => by split <;> rfl) (k := userId)
  obtain ⟨user, hfind, rfl⟩ := Option.map_eq_some_iff.mp (hmodify.symm.trans hfind')
  refine ⟨user, hfind, ?_, ?_, fun e he => ?_⟩
  · split <;> rfl
  · split <;> rfl
  · by_cases hlink : user.employeeId = some employeeId
    · rw [if_pos hlink] at he
      cases he
    · rw [if_neg hlink] at he
      exact he

/-! ## One request -/

/-- What an accepted request of the user leaves it with. -/
structure ScopedEffect (ws ws' : Workspace) (userId : ℕ) (created : Option Employee) : Prop where
  sound : EmployeesSound ws'.db
  link : LinkKept ws ws' userId
  within : ∀ i, ws'.Sees userId i → ws.Sees userId i ∨ ∃ e, created = some e ∧ i = e.id
  shows : ∀ e, created = some e → ws'.Sees userId e.id

theorem scopedEffect_create (hsound : EmployeesSound ws.db) (hscoped : Scoped ws.auth userId)
    {data : EmployeeCreate} {actor : Actor} {now : DateTime} {db : Db} {e : Employee}
    (hscope : requireEmployeeCreationScope ws.db.facts.employees (ws.visibility (.user userId))
      data.managerId = .ok ())
    (h : createEmployee ws.db data actor now = .ok (db, e)) :
    ScopedEffect ws (ws.withDb db) userId (some e) := by
  obtain ⟨hvalid, rfl, hrows, hseq⟩ := createEmployee_rows h
  have hlink : LinkKept ws (ws.withDb db) userId := .of_users rfl rfl
  have hfound : ∀ m, data.managerId = some m →
      ∃ manager ∈ ws.db.facts.employees, manager.id = m := by
    intro m hm
    rw [hm] at hvalid
    exact validateManagerAssignment_found hvalid
  rcases requireEmployeeCreationScope_eq_ok hscope with hall | ⟨hreports, m, hm, hsees⟩
  · exact absurd hall (by rw [hscoped.restricted]; simp)
  have htree := hscoped.seesTree hreports
  refine ⟨hsound.insert_new rfl hfound hrows hseq, hlink, fun i hi => ?_, fun e he => ?_⟩
  · refine hlink.sees_within hscoped
      (W := fun i => ws.Sees userId i ∨ ∃ e, some (data.row ws.db.sequences.employee) = some e ∧
        i = e.id) (fun i => Or.inl) (fun _ x hx m' hm' hw => ?_) hi
    rw [show (ws.withDb db).db.facts.employees = _ from hrows] at hx
    rcases Table.mem_insert.mp hx with rfl | ⟨hx, _⟩
    · exact Or.inr ⟨_, rfl, rfl⟩
    · rcases hw with hw | ⟨_, hnew, rfl⟩
      · exact Or.inl (hscoped.sees_report htree hx hm' hw)
      · -- Nobody reports to the new employee yet.
        cases hnew
        exact absurd (hsound.manager_lt hx hm') (lt_irrefl _)
  · cases he
    have hkeep : ∀ c d, Succ (directReportIds ws.db.facts.employees) c d →
        Succ (directReportIds db.facts.employees) c d := by
      intro c d hd
      obtain ⟨x, hx, hid, hc⟩ := mem_directReportIds.mp hd
      refine mem_directReportIds.mpr ⟨x, ?_, hid, hc⟩
      rw [hrows]
      exact Table.mem_insert.mpr (Or.inr ⟨hx, (hsound.fresh x hx).ne⟩)
    have hreport : Succ (directReportIds db.facts.employees) m ws.db.sequences.employee := by
      refine mem_directReportIds.mpr ⟨data.row ws.db.sequences.employee, ?_, rfl, hm⟩
      rw [hrows]
      exact Table.mem_insert_self
    obtain ⟨user, hfind, hs⟩ := htree
    obtain ⟨user', own, hfind', hown, hor⟩ := hscoped.sees_iff.mp hsees
    obtain rfl : user = user' := Option.some.inj (hfind.symm.trans hfind')
    refine (hlink.scoped hscoped).sees_iff.mpr
      ⟨user, own, hfind, hown, Or.inr ⟨hs, mem_getDescendantIds.mpr ?_⟩⟩
    rcases hor with ⟨rfl, _⟩ | ⟨_, hd⟩
    · exact .single hreport
    · exact .tail (Relation.TransGen.mono hkeep _ _ (mem_getDescendantIds.mp hd)) hreport

theorem scopedEffect_update (hsound : EmployeesSound ws.db) (hscoped : Scoped ws.auth userId)
    {data : EmployeeUpdate} {actor : Actor} {now : DateTime} {db : Db} {e e' : Employee}
    (he : e ∈ ws.db.facts.employees) (hsees : ws.Sees userId e.id)
    (h : updateEmployee ws.db e data actor now = .ok (db, e')) :
    ScopedEffect ws (ws.withDb db) userId none := by
  obtain ⟨hchecked, hid, hmanager, hrows, hseq⟩ := updateEmployee_rows he h
  have hlink : LinkKept ws (ws.withDb db) userId := .of_users rfl rfl
  refine ⟨hsound.insert_same he hid (fun m hm => ?_) hrows hseq, hlink, fun i hi => Or.inl ?_,
    by simp⟩
  · exact checkedManager_found hsound he hchecked (hmanager.symm.trans hm)
  · refine hlink.sees_within hscoped (W := ws.Sees userId) (fun i => id)
      (fun htree x hx m hm hw => ?_) hi
    rw [show (ws.withDb db).db.facts.employees = _ from hrows] at hx
    rcases Table.mem_insert.mp hx with rfl | ⟨hx, _⟩
    · rw [hid]
      exact hsees
    · exact hscoped.sees_report htree hx hm hw

theorem scopedEffect_delete (hsound : EmployeesSound ws.db) (hscoped : Scoped ws.auth userId)
    {actor : Actor} {now : DateTime} {db : Db} {e : Employee}
    (h : deleteEmployee ws.db e actor now = .ok db) :
    ScopedEffect ws ((ws.withDb db).unlink e.id) userId none := by
  obtain ⟨hrows, hseq⟩ := deleteEmployee_rows h
  have hlink : LinkKept ws ((ws.withDb db).unlink e.id) userId := .unlinked ws db e.id
  refine ⟨hsound.without hrows hseq, hlink, fun i hi => Or.inl ?_, by simp⟩
  refine hlink.sees_within hscoped (W := ws.Sees userId) (fun i => id)
    (fun htree x hx m hm hw => ?_) hi
  rw [show ((ws.withDb db).unlink e.id).db.facts.employees = _ from hrows] at hx
  obtain ⟨_, hx⟩ := withoutEmployee_manager hx hm
  exact hscoped.sees_report htree hx hm hw

theorem acceptEmployeeCall_effect (hsound : EmployeesSound ws.db) (hscoped : Scoped ws.auth userId)
    {call : EmployeeCall} {created : Option Employee}
    (h : acceptEmployeeCall ws (.user userId) call = .ok (ws', created)) :
    ScopedEffect ws ws' userId created := by
  simp only [acceptEmployeeCall, bind_eq_ok, mapError_eq_ok] at h
  obtain ⟨_, _, h⟩ := h
  cases hrequest : call.request with
  | create data =>
    rw [hrequest] at h
    simp only [runEmployeeRequest, bind_eq_ok, mapError_eq_ok, pure_eq_ok] at h
    obtain ⟨_, hscope, ⟨db, e⟩, hcreate, hout⟩ := h
    cases hout
    exact scopedEffect_create hsound hscoped hscope hcreate
  | update employeeId data =>
    rw [hrequest] at h
    simp only [runEmployeeRequest, bind_eq_ok, mapError_eq_ok, pure_eq_ok] at h
    obtain ⟨e, hvisible, _, _, ⟨db, e'⟩, hupdate, hout⟩ := h
    cases hout
    obtain ⟨hsees, he, rfl⟩ := visibleEmployeeOr404_eq_ok.mp hvisible
    exact scopedEffect_update hsound hscoped he hsees hupdate
  | delete employeeId =>
    rw [hrequest] at h
    simp only [runEmployeeRequest, bind_eq_ok, mapError_eq_ok, pure_eq_ok] at h
    obtain ⟨e, _, db, hdelete, hout⟩ := h
    cases hout
    exact scopedEffect_delete hsound hscoped hdelete

/-! ## Runs -/

/-- The invariant of a run that starts in `ws`. -/
structure ScopedState (ws : Workspace) (userId : ℕ) (run : ScopedRun) : Prop where
  sound : EmployeesSound run.1.db
  scope : Scoped run.1.auth userId
  within : ∀ i, run.1.Sees userId i → ws.Sees userId i ∨ i ∈ run.2

theorem ScopedState.step {run : ScopedRun} (h : ScopedState ws userId run) (call : EmployeeCall) :
    ScopedState ws userId (scopedStep (.user userId) run call) := by
  unfold scopedStep
  cases haccept : acceptEmployeeCall run.1 (.user userId) call with
  | error e => exact h
  | ok out =>
    obtain ⟨ws', created⟩ := out
    have heffect := acceptEmployeeCall_effect h.sound h.scope haccept
    have hscoped := heffect.link.scoped h.scope
    cases created with
    | none =>
      refine ⟨heffect.sound, hscoped, fun i hi => ?_⟩
      rcases heffect.within i hi with hold | ⟨e, he, _⟩
      · exact h.within i hold
      · cases he
    | some e =>
      refine ⟨heffect.sound, hscoped, fun i hi => ?_⟩
      rcases heffect.within i hi with hold | ⟨e', he, rfl⟩
      · exact (h.within i hold).imp_right (Finset.mem_insert_of_mem ·)
      · cases he
        exact Or.inr (Finset.mem_insert_self _ _)

theorem runScoped_state (hsound : EmployeesSound ws.db) (hscoped : Scoped ws.auth userId)
    (calls : List EmployeeCall) : ScopedState ws userId (runScoped (.user userId) ws calls) := by
  have hall : ∀ (calls : List EmployeeCall) (run : ScopedRun), ScopedState ws userId run →
      ScopedState ws userId (calls.foldl (scopedStep (.user userId)) run) := by
    intro calls
    induction calls with
    | nil => exact fun _ h => h
    | cons call rest ih => exact fun _ h => ih _ (h.step call)
  exact hall calls _ ⟨hsound, hscoped, fun _ hi => Or.inl hi⟩

/-- After any run of its accepted requests for employees, a user without an `all` scope sees only
employees that it saw at the start or created. What it creates it sees at once. -/
theorem scoped_edits_within (hsound : EmployeesSound ws.db) (hscoped : Scoped ws.auth userId)
    (calls : List EmployeeCall) :
    (∀ i, (runScoped (.user userId) ws calls).1.Sees userId i →
      ws.Sees userId i ∨ i ∈ (runScoped (.user userId) ws calls).2) ∧
    ∀ done call todo, calls = done ++ call :: todo → ∀ ws' e,
      acceptEmployeeCall (runScoped (.user userId) ws done).1 (.user userId) call =
        .ok (ws', some e) → ws'.Sees userId e.id := by
  refine ⟨(runScoped_state hsound hscoped calls).within, fun done call todo _ ws' e haccept => ?_⟩
  have hstate := runScoped_state hsound hscoped done
  exact (acceptEmployeeCall_effect hstate.sound hstate.scope haccept).shows e rfl

end

/-! ## A manager's edits -/

/-- Ada sees her reporting tree, with Grace in it. -/
def treeWorkspace : Workspace where
  auth :=
    { AuthDb.initial
        (.ofRows [{ id := 1, name := "Manager", employeeScope := .reportingTree,
                    permissions := ["employees:create", "employees:update", "employees:delete"] }])
        .empty with
      users := .ofRows
        [{ id := 1, email := "ada@example", name := "Ada", passwordHash := "", employeeId := some 1,
           roleIds := [1] }] }
  db :=
    { Db.empty with
      facts :=
        { Facts.empty with
          employees := .ofRows
            [{ id := 1, name := "Ada", state := "CA", department := "Sales",
               employeeType := "Full-time", location := none, startDate := .on 2025 1 6,
               managerId := none },
              { id := 2, name := "Grace", state := "CA", department := "Sales",
                employeeType := "Full-time", location := none, startDate := .on 2025 1 6,
                managerId := some 1 }] }
      sequences := { employee := 3 } }

/-- Ada hires somebody for Grace, and then takes Grace out of her tree. -/
def treeCalls : List EmployeeCall :=
  [⟨.system, startOfDay (.on 2026 1 5), .create
      { name := "Edsger", state := "NY", department := "Sales", employeeType := "Full-time",
        startDate := .on 2026 1 5, managerId := some 2 }⟩,
    ⟨.system, startOfDay (.on 2026 1 6), .update 2 { managerId := some none }⟩]

theorem treeWorkspace_sound : EmployeesSound treeWorkspace.db := by
  have hrows : treeWorkspace.db.facts.employees.rows.map (fun e => (e.id, e.managerId)) =
      [(1, none), (2, some 1)] := by
    decide +kernel
  have hmem : ∀ e ∈ treeWorkspace.db.facts.employees,
      (e.id, e.managerId) = (1, none) ∨ (e.id, e.managerId) = (2, some 1) := by
    intro e he
    have hpair := List.mem_map_of_mem (f := fun e => (e.id, e.managerId)) he
    rw [hrows] at hpair
    simpa using hpair
  obtain ⟨ada, hada, hpair⟩ : ∃ e ∈ treeWorkspace.db.facts.employees, (e.id, e.managerId) = (1, none) :=
    List.mem_map.mp (hrows ▸ List.mem_cons_self)
  refine ⟨fun e he => ?_, fun e he m hm => ?_⟩
  · show e.id < 3
    rcases hmem e he with h | h <;> simp only [Prod.mk.injEq] at h <;> omega
  · rcases hmem e he with h | h
    · have hnone : e.managerId = none := congrArg Prod.snd h
      rw [hnone] at hm
      cases hm
    · have hsome : e.managerId = some 1 := congrArg Prod.snd h
      rw [hsome] at hm
      cases hm
      exact ⟨ada, hada, congrArg Prod.fst hpair⟩

theorem treeWorkspace_scoped : Scoped treeWorkspace.auth 1 := by
  intro user hfind
  have hall : (treeWorkspace.auth.users.find? 1).map (fun u =>
      (u.isRoot, decide (EmployeeScope.all ∈ employeeScopes treeWorkspace.auth.roles u))) =
        some (false, false) := by
    decide +kernel
  rw [hfind] at hall
  have hpair := Option.some.inj hall
  exact ⟨congrArg Prod.fst hpair, of_decide_eq_false (congrArg Prod.snd hpair)⟩

theorem scoped_edits_within_tree :
    (runScoped (.user 1) treeWorkspace treeCalls).2 = {3} ∧
      ∀ i, (runScoped (.user 1) treeWorkspace treeCalls).1.Sees 1 i →
        treeWorkspace.Sees 1 i ∨ i = 3 := by
  have hcreated : (runScoped (.user 1) treeWorkspace treeCalls).2 = {3} := by
    decide +kernel
  refine ⟨hcreated, fun i hi => ?_⟩
  have h := (scoped_edits_within treeWorkspace_sound treeWorkspace_scoped treeCalls).1 i hi
  rw [hcreated] at h
  simpa using h

end Warp
