import Warp.Operations
import Warp.Properties.ConflictResolution
import Warp.Properties.MaterializationCoherence

/-!
# The steps of operations

What an operation does is a sequence of steps of four kinds. It changes the facts and records the change
in the audit log, it refreshes the assignment rows of an employee at its own time, and it writes policy
links and events.
-/

namespace Warp

open Infra

/-- The explanation tells the source: a policy, or an override that exists. -/
def FinalAssignment.Sourced (facts : Facts) (item : FinalAssignment) : Prop :=
  match item.explanation.reason with
  | .policy _ => item.sourceOverrideId = none
  | .manualOverride e => item.sourcePolicyVersionId = none ∧ item.sourceOverrideId = some e.id ∧
      ∃ o ∈ facts.employeeOverrides, o.id = e.id

/-- One change of the facts at time `T` by an operation that deletes the employees `gone`, with what the
audit log gets to know of it: the entity, the action, and the row before and after. -/
inductive FactWrite (T : DateTime) (gone : Set ℕ) (db : Db) :
    Db → String → ℕ → String → Option Snapshot → Option Snapshot → Prop where
  | employeeCreated (e : Employee) (drawn : e.id = db.sequences.employee) :
      FactWrite T gone db (db.addEmployee e) "Employee" e.id "created" none (some (.employee e))
  | employeeChanged (e changed : Employee) (action : String) (present : e ∈ db.facts.employees)
      (same : changed.id = e.id) :
      FactWrite T gone db (db.saveEmployee changed) "Employee" changed.id action (some (.employee e))
        (some (.employee changed))
  | employeeDeleted (e : Employee) (deleted : e.id ∈ gone) :
      FactWrite T gone db (db.removeEmployee e.id) "Employee" e.id "deleted" (some (.employee e)) none
  | overrideCreated (o : EmployeeOverride) (drawn : o.id = db.sequences.employeeOverride) :
      FactWrite T gone db (db.addOverride o) "EmployeeOverride" o.id "created" none
        (some (.override o))
  | overrideChanged (old o : EmployeeOverride) (drawn : o.id = db.sequences.employeeOverride)
      (same : o.employeeId = old.employeeId) :
      FactWrite T gone db
        ((db.withOverrides (retireOverride db.facts.employeeOverrides old.id T)).addOverride o)
        "EmployeeOverride" o.id "changed" (some (.override old)) (some (.override o))
  | overrideRemoved (old : EmployeeOverride) :
      FactWrite T gone db (db.withOverrides (retireOverride db.facts.employeeOverrides old.id T))
        "EmployeeOverride" old.id "removed" (some (.override old)) none
  | groupCreated (g : Group) (drawn : g.id = db.sequences.group) :
      FactWrite T gone db
        { db.withGroups (db.facts.groups.insert g) with
          sequences := { db.sequences with group := db.sequences.group + 1 } }
        "Group" g.id "created" none (some (.group g))
  | groupChanged (g changed : Group) (present : g ∈ db.facts.groups) (same : changed.id = g.id) :
      FactWrite T gone db (db.withGroups (db.facts.groups.insert changed)) "Group" g.id "changed"
        (some (.group g)) (some (.group changed))
  | memberAdded (m : EmployeeGroupMembership) :
      FactWrite T gone db (db.withMemberships (db.facts.employeeGroupMemberships.insert m)) "Group"
        m.groupId "employee_added" none (some (.membership m))
  | memberRemoved (m : EmployeeGroupMembership) :
      FactWrite T gone db
        (db.withMemberships (db.facts.employeeGroupMemberships.filter fun r => r ≠ m)) "Group"
        m.groupId "employee_removed" (some (.membership m)) none
  | policyAttached (key : GroupPolicy) (policy : ∃ p ∈ db.facts.policies, p.id = key.policyId) :
      FactWrite T gone db (db.withGroupPolicies (db.facts.groupPolicies.insert key)) "Group"
        key.groupId "policy_attached" none (some (.groupPolicy key))
  | policyDetached (key : GroupPolicy) (policy : ∃ p ∈ db.facts.policies, p.id = key.policyId) :
      FactWrite T gone db
        (db.withGroupPolicies (db.facts.groupPolicies.filter fun gp => gp ≠ key)) "Group"
        key.groupId "policy_detached" (some (.groupPolicy key)) none
  | policyCreated (p : Policy) (drawn : p.id = db.sequences.policy) :
      FactWrite T gone db
        { db.withPolicies (db.facts.policies.insert p) with
          sequences := { db.sequences with policy := db.sequences.policy + 1 } }
        "Policy" p.id "created" none (some (.policy p))
  | policyChanged (p changed : Policy) (action : String) (present : p ∈ db.facts.policies)
      (same : changed.id = p.id) :
      FactWrite T gone db (db.withPolicies (db.facts.policies.insert changed)) "Policy" p.id action
        (some (.policy p)) (some (.policy changed))
  | versionCreated (policyId : ℕ) (input : PolicyVersionInput) (rules : Rules) (v : PolicyVersion)
      (policy : ∃ p ∈ db.facts.policies, p.id = policyId)
      (stored : storePolicyVersion db.facts.toRules db.sequences policyId input = .ok (rules, v)) :
      FactWrite T gone db
        { db with
          facts := { db.facts with toRules := rules }
          sequences := db.sequences.afterVersion input.compiledClauses }
        "PolicyVersion" v.id "created"
        ((priorVersion? db.facts.policyVersions policyId).map
          (snapshotPolicyVersion db.facts.toRules))
        (some (snapshotPolicyVersion rules v))

/-- One step of an operation at time `T` that deletes the employees `gone`. -/
inductive OperationStep (T : DateTime) (gone : Set ℕ) (db : Db) : Db → Prop where
  | recorded {db' : Db} {entityType action : String} {entityId : ℕ} {before after : Option Snapshot}
      (actor : Actor) (written : FactWrite T gone db db' entityType entityId action before after) :
      OperationStep T gone db (recordAuditLog db' actor entityType entityId action before after T)
  | refreshed {db' : Db} {rows : List EmployeeAssignment} (employeeId : ℕ)
      (evaluationDate : Option Date) (actor : Actor) (desired : Option (List FinalAssignment))
      (now : DateTime) (sourced : ∀ items, desired = some items → ∀ item ∈ items, item.Sourced db.facts)
      (ok : refreshEmployeeAssignments db employeeId evaluationDate (some T) actor desired now =
        .ok (db', rows)) : OperationStep T gone db db'
  | links (links : Table EmployeePolicy) : OperationStep T gone db { db with employeePolicies := links }
  | events (events : Table ScheduledReconciliation) (next : ℕ) : OperationStep T gone db
      { db with
        scheduledReconciliations := events
        sequences := { db.sequences with scheduledReconciliation := next } }

abbrev OperationSteps (T : DateTime) (gone : Set ℕ) : Db → Db → Prop :=
  Relation.ReflTransGen (OperationStep T gone)

section

variable {db db₁ db' : Db} {T : DateTime} {gone : Set ℕ} {actor : Actor}

/-! ## Reconciliation -/

theorem overridden_sourced {facts : Facts} {employeeId : ℕ} {resolved : List ResolvedAssignment}
    {item : FinalAssignment} (h : item ∈ applyEmployeeOverrides facts.toRules resolved
      (activeOverrides facts employeeId)) : item.Sourced facts := by
  rcases mem_applyEmployeeOverrides.mp h with ⟨r, _, _, rfl⟩ | ⟨o, ho, rfl⟩
  · exact rfl
  · rw [activeOverrides, mem_orderBy, Table.mem_select] at ho
    exact ⟨rfl, rfl, o, ho.1, rfl⟩

theorem resolved_sourced {facts : Facts} {employeeId : ℕ} {day : Date}
    {resolution : EmployeeAssignmentResolution}
    (h : resolveEmployeeAssignmentsForDate facts employeeId day = .ok resolution) :
    ∀ item ∈ resolution.assignments, item.Sourced facts := by
  unfold resolveEmployeeAssignmentsForDate at h
  split at h
  · exact absurd h (by simp)
  · split at h
    · exact absurd h (by simp)
    · cases h
      intro item hitem
      obtain ⟨final, hfinal, rfl⟩ := List.mem_map.mp hitem
      have hsourced : final.Sourced facts := overridden_sourced hfinal
      exact hsourced

theorem steps_applyResolution {state state' : Db × List (ℕ × List EmployeeAssignment)}
    {resolution : EmployeeAssignmentResolution}
    (hsourced : ∀ item ∈ resolution.assignments, item.Sourced state.1.facts)
    (h : applyResolution T actor state resolution = .ok state') :
    OperationSteps T gone state.1 state'.1 := by
  unfold applyResolution at h
  split at h
  · exact absurd h (by simp)
  · next db'' rows hrefresh =>
    cases h
    have hlinks : OperationSteps T gone state.1
        (replaceEmployeePolicies state.1 resolution.employeeId resolution.policyIds) :=
      .single (.links _)
    refine hlinks.tail (.refreshed _ _ _ _ _ (fun items hitems => ?_) hrefresh)
    cases hitems
    exact hsourced

theorem steps_reconcile {employeeIds : List ℕ} {now : DateTime}
    {rows : List (ℕ × List EmployeeAssignment)}
    (h : reconcileEmployees db employeeIds (some T) actor now = .ok (db', rows)) :
    OperationSteps T gone db db' := by
  unfold reconcileEmployees at h
  split at h
  · exact absurd h (by simp)
  · next resolutions hresolutions =>
    have hsourced : ∀ r ∈ resolutions, ∀ item ∈ r.assignments, item.Sourced db.facts := by
      intro r hr
      obtain ⟨id, _, hid⟩ := mem_of_traverseAll hresolutions hr
      exact resolved_sourced hid
    refine (runAll_invariant (I := fun state => OperationSteps T gone db state.1 ∧
      state.1.facts = db.facts) (fun r hr u v hu hstep => ?_) ⟨.refl, rfl⟩ h).1
    refine ⟨hu.1.trans (steps_applyResolution ?_ hstep), ?_⟩
    · rw [hu.2]
      exact hsourced r hr
    · exact (derives_kept (derives_applyResolution hstep)).facts.trans hu.2

theorem OperationSteps.reconcile (h : OperationSteps T gone db db₁) {employeeIds : List ℕ}
    {now : DateTime}
    (hrun : (reconcileEmployees db₁ employeeIds (some T) actor now).map Prod.fst = .ok db') :
    OperationSteps T gone db db' := by
  obtain ⟨⟨_, rows⟩, hreconcile, rfl⟩ := exceptMap_eq_ok.mp hrun
  exact h.trans (steps_reconcile hreconcile)

theorem OperationSteps.reconcileImpacted (h : OperationSteps T gone db db₁)
    {mutation : EmployeeMutation} (hrun : Warp.reconcileImpacted db₁ mutation actor T = .ok db') :
    OperationSteps T gone db db' := by
  simp only [Warp.reconcileImpacted, bind_eq_ok] at hrun
  obtain ⟨ids, _, hreconcile⟩ := hrun
  exact h.reconcile hreconcile

theorem OperationSteps.refreshGroup (h : OperationSteps T gone db db₁) {groupId : ℕ}
    (hrun : refreshGroupMembers db₁ groupId actor T = .ok db') : OperationSteps T gone db db' := by
  simp only [refreshGroupMembers, bind_eq_ok] at hrun
  obtain ⟨_, _, hreconcile⟩ := hrun
  exact h.reconcile hreconcile

/-! ## Events -/

theorem OperationSteps.setEvents (h : OperationSteps T gone db db₁)
    (events : Table ScheduledReconciliation) :
    OperationSteps T gone db { db₁ with scheduledReconciliations := events } :=
  h.tail (.events events db₁.sequences.scheduledReconciliation)

theorem OperationSteps.schedule (h : OperationSteps T gone db db₁) {key : EventKey}
    (hrun : scheduleReconciliation db₁ key = .ok db') : OperationSteps T gone db db' := by
  unfold scheduleReconciliation at hrun
  split at hrun
  · exact absurd hrun (by simp)
  · split at hrun
    · cases hrun
      exact h.tail (.events _ _)
    · split at hrun
      · cases hrun
        exact h.setEvents _
      · cases hrun
        exact h

theorem OperationSteps.replaceEvents (h : OperationSteps T gone db db₁) {entityType : EntityType}
    {entityIds : List ℕ} {desired : List EventKey}
    (hrun : Warp.replaceEvents db₁ entityType entityIds desired = .ok db') :
    OperationSteps T gone db db' := by
  have hcancelled : OperationSteps T gone db
      (cancelPendingReconciliations db₁ entityType entityIds desired) := h.setEvents _
  exact runAll_invariant (I := OperationSteps T gone db) (fun _ _ _ _ hu hstep => hu.schedule hstep)
    hcancelled hrun

theorem OperationSteps.syncTenure (h : OperationSteps T gone db db₁) {employee : Employee}
    {now : DateTime} (hrun : syncEmployeeTenureSchedules db₁ employee now = .ok db') :
    OperationSteps T gone db db' := by
  unfold syncEmployeeTenureSchedules at hrun
  split at hrun
  · exact absurd hrun (by simp)
  · exact h.replaceEvents hrun

theorem OperationSteps.syncAllTenure (h : OperationSteps T gone db db₁) {now : DateTime}
    (hrun : syncAllEmployeeTenureSchedules db₁ now = .ok db') : OperationSteps T gone db db' :=
  runAll_invariant (I := OperationSteps T gone db) (fun _ _ _ _ hu hstep => hu.syncTenure hstep) h
    hrun

/-! ## Employees and overrides -/

theorem steps_createEmployee {data : EmployeeCreate} {e : Employee}
    (hrun : createEmployee db data actor T = .ok (db', e)) : OperationSteps T gone db db' := by
  simp only [createEmployee, bind_eq_ok, pure_eq_ok] at hrun
  obtain ⟨_, _, db₁, hreconcile, db₂, htenure, hout⟩ := hrun
  cases hout
  have hadded : OperationSteps T gone db
      (recordAuditLog (db.addEmployee (data.row db.sequences.employee)) actor "Employee"
        (data.row db.sequences.employee).id "created" none
        (some (.employee (data.row db.sequences.employee))) T) :=
    .single (.recorded actor (.employeeCreated _ rfl))
  exact (hadded.reconcileImpacted hreconcile).syncTenure htenure

theorem steps_updateEmployee {data : EmployeeUpdate} {e e' : Employee} (he : e ∈ db.facts.employees)
    (hrun : updateEmployee db e data actor T = .ok (db', e')) : OperationSteps T gone db db' := by
  simp only [updateEmployee, bind_eq_ok] at hrun
  obtain ⟨_, _, updated, hupdated, hout⟩ := hrun
  by_cases hnil : changedColumns e updated = []
  · rw [if_pos hnil] at hout
    cases hout
    exact .refl
  · rw [if_neg hnil] at hout
    simp only [bind_eq_ok, pure_eq_ok] at hout
    obtain ⟨db₁, hreconcile, db₂, htenure, hout⟩ := hout
    cases hout
    have hsaved : OperationSteps T gone db db₁ := by
      refine OperationSteps.reconcileImpacted (.single ?_) hreconcile
      exact .recorded actor (.employeeChanged e _ _ he (updatedEmployee_eq_ok hupdated).1)
    unfold syncChangedTenure at htenure
    split at htenure
    · exact hsaved.syncTenure htenure
    · cases htenure
      exact hsaved

theorem steps_deleteEmployee {e : Employee} (hrun : deleteEmployee db e actor T = .ok db') :
    OperationSteps T {e.id} db db' := by
  have hcancelled : OperationSteps T {e.id} db
      (cancelPendingReconciliations db .employee [e.id] []) := OperationSteps.setEvents .refl _
  refine OperationSteps.reconcile ?_ hrun
  exact hcancelled.tail (.recorded actor (.employeeDeleted e rfl))

theorem steps_createOverride {employeeId fieldId : ℕ} {value : String} {o : EmployeeOverride}
    (hrun : createEmployeeOverride db employeeId fieldId value actor T = .ok (db', o)) :
    OperationSteps T gone db db' := by
  simp only [createEmployeeOverride, bind_eq_ok, pure_eq_ok] at hrun
  obtain ⟨e, _, d, _, v, _, _, _, db₁, hreconcile, hout⟩ := hrun
  cases hout
  refine OperationSteps.reconcile (.single ?_) hreconcile
  exact .recorded actor (.overrideCreated _ rfl)

theorem steps_updateOverride {employeeId overrideId : ℕ} {fieldId : Option ℕ}
    {value : Option String} {o : EmployeeOverride}
    (hrun : updateEmployeeOverride db employeeId overrideId fieldId value actor T = .ok (db', o)) :
    OperationSteps T gone db db' := by
  simp only [updateEmployeeOverride, bind_eq_ok] at hrun
  obtain ⟨e, he, old, hold, d, _, v, _, hout⟩ := hrun
  by_cases hsame : d.id = old.assignmentFieldDefinitionId ∧ v = old.value
  · rw [if_pos hsame] at hout
    cases hout
    exact .refl
  · rw [if_neg hsame] at hout
    simp only [bind_eq_ok, pure_eq_ok] at hout
    obtain ⟨_, _, db₁, hreconcile, hout⟩ := hout
    cases hout
    have howner : e.id = old.employeeId :=
      (getEmployee_eq_ok he).2.trans (getOverride_eq_ok hold).2.symm
    refine OperationSteps.reconcile (.single ?_) hreconcile
    exact .recorded actor (.overrideChanged old _ rfl howner)

theorem steps_deleteOverride {employeeId overrideId : ℕ}
    (hrun : deleteEmployeeOverride db employeeId overrideId actor T = .ok db') :
    OperationSteps T gone db db' := by
  simp only [deleteEmployeeOverride, bind_eq_ok] at hrun
  obtain ⟨e, _, old, _, hreconcile⟩ := hrun
  refine OperationSteps.reconcile (.single ?_) hreconcile
  exact .recorded actor (.overrideRemoved old)

/-! ## Groups -/

theorem steps_updateGroup {groupId : ℕ} {name : Option String} {g : Group}
    (hrun : updateGroup db groupId name actor T = .ok (db', g)) : OperationSteps T gone db db' := by
  simp only [updateGroup, bind_eq_ok] at hrun
  obtain ⟨group, hgroup, hout⟩ := hrun
  have hpresent : group ∈ db.facts.groups := (Table.find?_eq_some.mp (orRaise_eq_ok.mp hgroup)).1
  cases name with
  | none =>
    cases hout
    exact .refl
  | some name =>
    dsimp only at hout
    split at hout
    · cases hout
      exact .refl
    · cases hout
      exact .single (.recorded actor (.groupChanged group _ hpresent rfl))

theorem steps_addMember {groupId employeeId : ℕ} {e : Employee}
    (hrun : addEmployeeToGroup db groupId employeeId actor T = .ok (db', e)) :
    OperationSteps T gone db db' := by
  simp only [addEmployeeToGroup, bind_eq_ok] at hrun
  obtain ⟨_, _, employee, _, hout⟩ := hrun
  split at hout
  · cases hout
    exact .refl
  · simp only [bind_eq_ok, pure_eq_ok] at hout
    obtain ⟨db₁, hreconcile, hout⟩ := hout
    cases hout
    refine OperationSteps.reconcile (.single ?_) hreconcile
    exact .recorded actor (.memberAdded ⟨employeeId, groupId⟩)

theorem steps_removeMember {groupId employeeId : ℕ}
    (hrun : removeEmployeeFromGroup db groupId employeeId actor T = .ok db') :
    OperationSteps T gone db db' := by
  simp only [removeEmployeeFromGroup, bind_eq_ok] at hrun
  obtain ⟨_, _, employee, _, hout⟩ := hrun
  split at hout
  · cases hout
    exact .refl
  · next m hfind =>
    obtain rfl : m.groupId = groupId := congrArg Prod.snd (Table.find?_eq_some.mp hfind).2
    refine OperationSteps.reconcile (.single ?_) hout
    exact .recorded actor (.memberRemoved m)

theorem getPolicy_present {rules : Rules} {policyId : ℕ} {p : Policy}
    (h : getPolicy rules policyId = .ok p) : ∃ p ∈ rules.policies, p.id = policyId :=
  ⟨p, Table.find?_eq_some.mp (orRaise_eq_ok.mp h)⟩

theorem steps_addPolicy {groupId policyId : ℕ} {p : Policy}
    (hrun : addPolicyToGroup db groupId policyId actor T = .ok (db', p)) :
    OperationSteps T gone db db' := by
  simp only [addPolicyToGroup, bind_eq_ok] at hrun
  obtain ⟨_, _, policy, hpolicy, hout⟩ := hrun
  by_cases hattached : attached db groupId policyId = true
  · rw [if_pos hattached] at hout
    cases hout
    exact .refl
  · rw [if_neg hattached] at hout
    simp only [bind_eq_ok, pure_eq_ok] at hout
    obtain ⟨db₁, hrefresh, hout⟩ := hout
    cases hout
    refine OperationSteps.refreshGroup (.single ?_) hrefresh
    exact .recorded actor (.policyAttached ⟨groupId, policyId⟩ (getPolicy_present hpolicy))

theorem steps_removePolicy {groupId policyId : ℕ}
    (hrun : removePolicyFromGroup db groupId policyId actor T = .ok db') :
    OperationSteps T gone db db' := by
  simp only [removePolicyFromGroup, bind_eq_ok] at hrun
  obtain ⟨_, _, policy, hpolicy, hout⟩ := hrun
  by_cases hattached : attached db groupId policyId = true
  · rw [if_pos hattached] at hout
    refine OperationSteps.refreshGroup (.single ?_) hout
    exact .recorded actor (.policyDetached ⟨groupId, policyId⟩ (getPolicy_present hpolicy))
  · rw [if_neg hattached] at hout
    cases hout
    exact .refl

/-- A step over the policies of a group that changes no policy. -/
structure GroupStep (T : DateTime) (gone : Set ℕ) (db db' : Db) : Prop where
  steps : OperationSteps T gone db db'
  policies : db'.facts.policies = db.facts.policies

theorem groupStep_detach (groupId : ℕ) {state : Db × Bool} {policyId : ℕ}
    (hpolicy : ∃ p ∈ state.1.facts.policies, p.id = policyId) :
    GroupStep T gone state.1 (detachStep groupId actor T state policyId).1 := by
  unfold detachStep
  split
  · exact ⟨.single (.recorded actor (.policyDetached ⟨groupId, policyId⟩ hpolicy)), rfl⟩
  · exact ⟨.refl, rfl⟩

theorem groupStep_attach (groupId : ℕ) {state : Db × Bool} {policyId : ℕ}
    (hpolicy : ∃ p ∈ state.1.facts.policies, p.id = policyId) :
    GroupStep T gone state.1 (attachStep groupId actor T state policyId).1 := by
  unfold attachStep
  split
  · exact ⟨.refl, rfl⟩
  · exact ⟨.single (.recorded actor (.policyAttached ⟨groupId, policyId⟩ hpolicy)), rfl⟩

theorem GroupStep.foldl {step : Db × Bool → ℕ → Db × Bool}
    (hstep : ∀ state policyId, (∃ p ∈ state.1.facts.policies, p.id = policyId) →
      GroupStep T gone state.1 (step state policyId).1) :
    ∀ (policyIds : List ℕ) {state : Db × Bool}, GroupStep T gone db state.1 →
      (∀ policyId ∈ policyIds, ∃ p ∈ db.facts.policies, p.id = policyId) →
        GroupStep T gone db (policyIds.foldl step state).1
  | [], _, h, _ => h
  | policyId :: rest, state, h, hpolicies => by
    have hfound : ∃ p ∈ state.1.facts.policies, p.id = policyId := by
      rw [h.policies]
      exact hpolicies policyId List.mem_cons_self
    obtain ⟨hsteps, hsame⟩ := hstep state policyId hfound
    have hnext : GroupStep T gone db (step state policyId).1 :=
      ⟨h.steps.trans hsteps, hsame.trans h.policies⟩
    exact GroupStep.foldl hstep rest hnext fun id hid => hpolicies id (List.mem_cons_of_mem _ hid)

theorem steps_updateGroupPolicies {groupId : ℕ} {addPolicyIds removePolicyIds : List ℕ}
    (hrun : updateGroupPolicies db groupId addPolicyIds removePolicyIds actor T = .ok db') :
    OperationSteps T gone db db' := by
  simp only [updateGroupPolicies, bind_eq_ok] at hrun
  obtain ⟨_, _, policies, hpolicies, hout⟩ := hrun
  have hfound : ∀ policyId ∈ addPolicyIds ++ removePolicyIds,
      ∃ p ∈ db.facts.policies, p.id = policyId := by
    intro policyId hmem
    obtain ⟨p, hp⟩ := exists_traverseAll_eq_ok.mp ⟨policies, hpolicies⟩ policyId
      (mem_sortedSet.mpr (List.mem_toFinset.mpr hmem))
    exact getPolicy_present hp
  have hdetached : GroupStep T gone db
      (removePolicyIds.foldl (detachStep groupId actor T) (db, false)).1 :=
    GroupStep.foldl (fun _ _ => groupStep_detach groupId) removePolicyIds ⟨.refl, rfl⟩
      fun id hid => hfound id (List.mem_append_right _ hid)
  have hchanged : GroupStep T gone db (addPolicyIds.foldl (attachStep groupId actor T)
      (removePolicyIds.foldl (detachStep groupId actor T) (db, false))).1 :=
    GroupStep.foldl (fun _ _ => groupStep_attach groupId) addPolicyIds hdetached
      fun id hid => hfound id (List.mem_append_left _ hid)
  split at hout
  · exact hchanged.steps.refreshGroup hout
  · cases hout
    exact hchanged.steps

/-! ## Policies -/

theorem OperationSteps.createVersion (h : OperationSteps T gone db db₁) {policyId : ℕ}
    (hpolicy : ∃ p ∈ db₁.facts.policies, p.id = policyId)
    {data : PolicyVersionCreate} {v : PolicyVersion}
    (hrun : createPolicyVersionFromInput db₁ policyId data actor T = .ok (db', v)) :
    OperationSteps T gone db db' := by
  simp only [createPolicyVersionFromInput, bind_eq_ok, pure_eq_ok] at hrun
  obtain ⟨input, _, ⟨db₂, version⟩, hcreate, db₃, hversions, db₄, htenure, hout⟩ := hrun
  cases hout
  have hcreated : OperationSteps T gone db db₂ := by
    unfold createPolicyVersion at hcreate
    dsimp only at hcreate
    split at hcreate
    · exact absurd hcreate (by simp)
    · next rules _ hstore =>
      cases hcreate
      exact h.tail (.recorded actor (.versionCreated policyId input rules _ hpolicy hstore))
  exact (hcreated.replaceEvents hversions).syncAllTenure htenure

theorem steps_createPolicy {data : PolicyCreate} {p : Policy}
    (hrun : createPolicy db data actor T = .ok (db', p)) : OperationSteps T gone db db' := by
  simp only [createPolicy, bind_eq_ok, pure_eq_ok] at hrun
  obtain ⟨⟨db₁, v⟩, hversion, db₂, hrefresh, hout⟩ := hrun
  cases hout
  refine (OperationSteps.createVersion (.single ?_) ?_ hversion).reconcile hrefresh
  · exact .recorded actor (.policyCreated _ rfl)
  · exact ⟨_, Table.mem_insert_self, rfl⟩

theorem steps_addVersion {policyId : ℕ} {data : PolicyVersionCreate} {v : PolicyVersion}
    (hrun : addVersion db policyId data actor T = .ok (db', v)) : OperationSteps T gone db db' := by
  simp only [addVersion, bind_eq_ok, pure_eq_ok] at hrun
  obtain ⟨policy, hpolicy, ⟨db₁, v'⟩, hversion, db₂, hrefresh, hout⟩ := hrun
  cases hout
  have hpresent := (Table.find?_eq_some.mp (orRaise_eq_ok.mp hpolicy)).1
  exact (OperationSteps.createVersion .refl ⟨policy, hpresent, rfl⟩ hversion).reconcile hrefresh

theorem steps_updatePolicy {policyId : ℕ} {data : PolicyUpdate} {p : Policy}
    (hrun : updatePolicy db policyId data actor T = .ok (db', p)) :
    OperationSteps T gone db db' := by
  simp only [updatePolicy, bind_eq_ok] at hrun
  obtain ⟨policy, hpolicy, hout⟩ := hrun
  have hpresent := (Table.find?_eq_some.mp (orRaise_eq_ok.mp hpolicy)).1
  split at hout
  · cases hout
    exact .refl
  · simp only [bind_eq_ok, pure_eq_ok] at hout
    obtain ⟨db₁, hfollow, hout⟩ := hout
    cases hout
    unfold followStatus at hfollow
    split at hfollow
    · cases hfollow
      exact .single (.recorded actor (.policyChanged policy _ _ hpresent rfl))
    · simp only [bind_eq_ok] at hfollow
      obtain ⟨db₂, hversions, db₃, htenure, hrefresh⟩ := hfollow
      have hsynced : OperationSteps T gone db db₂ := by
        refine OperationSteps.replaceEvents (.single ?_) hversions
        exact .recorded actor (.policyChanged policy _ _ hpresent rfl)
      exact (hsynced.syncAllTenure htenure).reconcile hrefresh

/-! ## The worker -/

theorem OperationSteps.reconcileEntities (h : OperationSteps T gone db db₁) {due : DueEntities}
    (hrun : Warp.reconcileEntities db₁ due T = .ok db') : OperationSteps T gone db db' := by
  unfold Warp.reconcileEntities at hrun
  split at hrun
  · exact absurd hrun (by simp)
  · next db₂ hpolicies =>
    split at hrun
    · exact absurd hrun (by simp)
    · next db₃ hemployees =>
      have h2 : OperationSteps T gone db db₂ := runAll_invariant (I := OperationSteps T gone db)
        (fun _ _ _ _ hu hstep => hu.reconcile hstep) h hpolicies
      have h3 : OperationSteps T gone db db₃ := runAll_invariant (I := OperationSteps T gone db)
        (fun _ _ _ _ hu hstep => hu.reconcile hstep) h2 hemployees
      refine runAll_invariant (I := OperationSteps T gone db) (fun _ _ _ _ hu hstep => ?_) h3 hrun
      obtain ⟨⟨_, rows⟩, hrefresh, rfl⟩ := exceptMap_eq_ok.mp hstep
      exact hu.tail (.refreshed _ _ _ none _ (fun items hitems => absurd hitems (by simp)) hrefresh)

theorem steps_reconcileDue {limit : ℕ} {events : List ScheduledReconciliation}
    (hrun : reconcileDueEvents db T limit = .ok (db', events)) : OperationSteps T gone db db' := by
  unfold reconcileDueEvents at hrun
  split at hrun
  · exact absurd hrun (by simp)
  · split at hrun
    · exact absurd hrun (by simp)
    · split at hrun
      · exact absurd hrun (by simp)
      · next db₁ hentities =>
        cases hrun
        exact (OperationSteps.reconcileEntities .refl hentities).setEvents _

/-! ## Operations -/

/-- Whom the operation deletes. -/
def Operation.deletes : Operation → Set ℕ
  | .deleteEmployee employeeId => {employeeId}
  | _ => ∅

theorem runOperation_steps {operation : Operation}
    (hrun : runOperation db actor T operation = .ok db') :
    OperationSteps T operation.deletes db db' := by
  cases operation with
  | createEmployee data =>
    obtain ⟨⟨_, e⟩, hcall, rfl⟩ := exceptMap_eq_ok.mp hrun
    exact steps_createEmployee hcall
  | updateEmployee employeeId data =>
    simp only [runOperation, bind_eq_ok, exceptMap_eq_ok] at hrun
    obtain ⟨e, hget, ⟨_, e'⟩, hrun, rfl⟩ := hrun
    exact steps_updateEmployee (getEmployee_eq_ok hget).1 hrun
  | deleteEmployee employeeId =>
    simp only [runOperation, bind_eq_ok] at hrun
    obtain ⟨e, hget, hrun⟩ := hrun
    rw [← (getEmployee_eq_ok hget).2]
    exact steps_deleteEmployee hrun
  | refreshEmployee employeeId =>
    simp only [runOperation, bind_eq_ok] at hrun
    obtain ⟨e, _, hrun⟩ := hrun
    exact OperationSteps.reconcile .refl hrun
  | createPolicy data =>
    obtain ⟨⟨_, p⟩, hcall, rfl⟩ := exceptMap_eq_ok.mp hrun
    exact steps_createPolicy hcall
  | addVersion policyId data =>
    obtain ⟨⟨_, v⟩, hcall, rfl⟩ := exceptMap_eq_ok.mp hrun
    exact steps_addVersion hcall
  | updatePolicy policyId data =>
    obtain ⟨⟨_, p⟩, hcall, rfl⟩ := exceptMap_eq_ok.mp hrun
    exact steps_updatePolicy hcall
  | createGroup name =>
    cases hrun
    exact .single (.recorded actor (.groupCreated _ rfl))
  | updateGroup groupId name =>
    obtain ⟨⟨_, g⟩, hcall, rfl⟩ := exceptMap_eq_ok.mp hrun
    exact steps_updateGroup hcall
  | addEmployeeToGroup groupId employeeId =>
    obtain ⟨⟨_, e⟩, hcall, rfl⟩ := exceptMap_eq_ok.mp hrun
    exact steps_addMember hcall
  | removeEmployeeFromGroup groupId employeeId => exact steps_removeMember hrun
  | addPolicyToGroup groupId policyId =>
    obtain ⟨⟨_, p⟩, hcall, rfl⟩ := exceptMap_eq_ok.mp hrun
    exact steps_addPolicy hcall
  | removePolicyFromGroup groupId policyId => exact steps_removePolicy hrun
  | updateGroupPolicies groupId addPolicyIds removePolicyIds =>
    exact steps_updateGroupPolicies hrun
  | createOverride employeeId fieldId value =>
    obtain ⟨⟨_, o⟩, hcall, rfl⟩ := exceptMap_eq_ok.mp hrun
    exact steps_createOverride hcall
  | updateOverride employeeId overrideId fieldId value =>
    obtain ⟨⟨_, o⟩, hcall, rfl⟩ := exceptMap_eq_ok.mp hrun
    exact steps_updateOverride hcall
  | deleteOverride employeeId overrideId => exact steps_deleteOverride hrun
  | reconcileDue limit =>
    obtain ⟨⟨_, events⟩, hcall, rfl⟩ := exceptMap_eq_ok.mp hrun
    exact steps_reconcileDue hcall

end

end Warp
