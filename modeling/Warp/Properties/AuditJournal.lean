import Warp.Operations
import Warp.Properties.EmployeeRows

/-!
# The audit journal

The audit log alone tells which assignment rows are open: creating a row and ending one are recorded,
and a deleted employee takes its rows away. Replaying the entries in the order of their ids gives the
open rows, whatever operations have run and however some of them failed.
-/

namespace Warp

open Infra

/-! ## Replaying -/

/-- One entry of the log, applied to the rows that are open before it. -/
def replayEntry (rows : List EmployeeAssignment) (entry : AuditLog) : List EmployeeAssignment :=
  if entry.entityType = "EmployeeAssignment" then
    if entry.action = "created" then
      match entry.after with
      | some (.assignment a _) => rows ++ [a]
      | _ => rows
    else if entry.action = "ended" then rows.filter fun a => a.id ≠ entry.entityId
    else rows
  else if entry.entityType = "Employee" ∧ entry.action = "deleted" then
    rows.filter fun a => a.employeeId ≠ entry.entityId
  else rows

def replay (log : Table AuditLog) : List EmployeeAssignment := log.rows.foldl replayEntry []

/-- The open assignment rows, by id. -/
def openRows (db : Db) : List EmployeeAssignment :=
  db.employeeAssignments.select fun a => a.effectiveUntil.isNone

/-- An entry that says nothing about assignment rows. -/
def Neutral (entityType action : String) : Prop :=
  entityType ≠ "EmployeeAssignment" ∧ ¬(entityType = "Employee" ∧ action = "deleted")

structure Journaled (db : Db) : Prop where
  logFresh : ∀ entry ∈ db.auditLogs, entry.id < db.sequences.auditLog
  rowsFresh : FreshAssignments db
  replayed : replay db.auditLogs = openRows db

section

variable {db db' : Db} {actor : Actor} {T : DateTime}

/-! ## Single writes -/

theorem replay_record (h : ∀ entry ∈ db.auditLogs, entry.id < db.sequences.auditLog)
    (entityType : String) (entityId : ℕ) (action : String) (before after : Option Snapshot) :
    replay (recordAuditLog db actor entityType entityId action before after T).auditLogs =
      replayEntry (replay db.auditLogs)
        ⟨db.sequences.auditLog, actor.name, entityType, entityId, action, before, after, T⟩ := by
  have hrows := Table.rows_insert_of_lt (t := db.auditLogs)
    (a := (⟨db.sequences.auditLog, actor.name, entityType, entityId, action, before, after, T⟩ :
      AuditLog)) h
  unfold replay recordAuditLog
  rw [hrows, List.foldl_append]
  rfl

theorem logFresh_record (h : ∀ entry ∈ db.auditLogs, entry.id < db.sequences.auditLog)
    (entityType : String) (entityId : ℕ) (action : String) (before after : Option Snapshot) :
    ∀ entry ∈ (recordAuditLog db actor entityType entityId action before after T).auditLogs,
      entry.id < db.sequences.auditLog + 1 := by
  intro entry hentry
  rcases Table.mem_insert.mp hentry with rfl | ⟨hentry, _⟩
  · exact Nat.lt_succ_self _
  · exact (h entry hentry).trans (Nat.lt_succ_self _)

/-- What does not touch the rows or the log keeps the journal. -/
theorem Journaled.frame (h : Journaled db) (hlog : db'.auditLogs = db.auditLogs)
    (hrows : db'.employeeAssignments = db.employeeAssignments)
    (hnext : db'.sequences.auditLog = db.sequences.auditLog)
    (hnext' : db'.sequences.employeeAssignment = db.sequences.employeeAssignment) :
    Journaled db' where
  logFresh := by
    rw [hlog, hnext]
    exact h.logFresh
  rowsFresh := by
    unfold FreshAssignments
    rw [hrows, hnext']
    exact h.rowsFresh
  replayed := by
    rw [hlog, h.replayed, openRows, openRows, hrows]

theorem Journaled.record (h : Journaled db) {entityType action : String}
    (hneutral : Neutral entityType action) (entityId : ℕ) (before after : Option Snapshot) :
    Journaled (recordAuditLog db actor entityType entityId action before after T) where
  logFresh := logFresh_record h.logFresh entityType entityId action before after
  rowsFresh := h.rowsFresh
  replayed := by
    rw [replay_record h.logFresh, replayEntry, if_neg hneutral.1, if_neg hneutral.2]
    exact h.replayed

theorem openRows_endAssignment (a : EmployeeAssignment) :
    openRows (endAssignment T actor db a) = (openRows db).filter fun r => r.id ≠ a.id := by
  show (endRow T db.employeeAssignments a).rows.filter _ = _
  unfold endRow openRows Table.select
  split
  · show (db.employeeAssignments.rows.filter _).filter _ = _
    rw [List.filter_comm]
  · -- The ended row is not open any more, and the others are as they were.
    show (db.employeeAssignments.rows.map _).filter _ = _
    rw [List.filter_map, List.filter_filter]
    have hkeep : ∀ r : EmployeeAssignment, ((fun r : EmployeeAssignment => r.effectiveUntil.isNone) ∘
        fun r => if r.id = a.id then { r with effectiveUntil := some T } else r) r =
          (decide (r.id ≠ a.id) && r.effectiveUntil.isNone) := by
      intro r
      by_cases hid : r.id = a.id
      · simp [hid]
      · simp [hid]
    rw [List.filter_congr fun r _ => hkeep r]
    conv_rhs => rw [← List.map_id (List.filter _ _)]
    refine List.map_congr_left fun r hr => if_neg ?_
    have hboth := (List.mem_filter.mp hr).2
    rw [Bool.and_eq_true] at hboth
    exact of_decide_eq_true hboth.1

theorem Journaled.ended (h : Journaled db) (a : EmployeeAssignment)
    (present : a ∈ db.employeeAssignments) : Journaled (endAssignment T actor db a) where
  logFresh := @logFresh_record { db with
    employeeAssignments := endRow T db.employeeAssignments a } _ _ h.logFresh _ _ _ _ _
  rowsFresh := by
    intro r hr
    rcases (mem_endRow present).mp hr with ⟨hr, _⟩ | ⟨_, rfl⟩
    · exact h.rowsFresh r hr
    · exact h.rowsFresh a present
  replayed := by
    rw [openRows_endAssignment, ← h.replayed]
    exact @replay_record { db with
      employeeAssignments := endRow T db.employeeAssignments a } _ _ h.logFresh _ _ _ _ _

theorem Journaled.created (h : Journaled db) (a : EmployeeAssignment)
    (hid : a.id = db.sequences.employeeAssignment) (unended : a.effectiveUntil = none) :
    Journaled (createAssignment actor db a) := by
  have hlt : ∀ r ∈ db.employeeAssignments, Row.key r < Row.key a := by
    intro r hr
    show r.id < a.id
    rw [hid]
    exact h.rowsFresh r hr
  refine ⟨?_, fun r hr => ?_, ?_⟩
  · exact @logFresh_record { db with
      employeeAssignments := db.employeeAssignments.insert a
      sequences := { db.sequences with employeeAssignment := a.id + 1 } } _ _ h.logFresh _ _ _ _ _
  · show r.id < a.id + 1
    rcases Table.mem_insert.mp hr with rfl | ⟨hr, _⟩
    · exact Nat.lt_succ_self _
    · exact Nat.lt_succ_of_lt (hlt r hr)
  · have hopen : openRows (createAssignment actor db a) = openRows db ++ [a] := by
      show (db.employeeAssignments.insert a).rows.filter _ = _
      rw [Table.rows_insert_of_lt hlt, List.filter_append]
      simp [openRows, Table.select, unended]
    rw [hopen, ← h.replayed]
    exact @replay_record { db with
      employeeAssignments := db.employeeAssignments.insert a
      sequences := { db.sequences with employeeAssignment := a.id + 1 } } _ _ h.logFresh _ _ _ _ _

theorem Journaled.derives (h : Journaled db) (hd : Derives db db') : Journaled db' := by
  induction hd with
  | refl => exact h
  | tail _ hstep ih =>
    cases hstep with
    | links links => exact ih.frame rfl rfl rfl rfl
    | events events next => exact ih.frame rfl rfl rfl rfl
    | ended a T actor present _ => exact ih.ended a present
    | created a actor id unended => exact ih.created a id unended

/-! ## Employees -/

theorem Journaled.createEmployee (h : Journaled db) {data : EmployeeCreate} {e : Employee}
    (hrun : Warp.createEmployee db data actor T = .ok (db', e)) : Journaled db' := by
  simp only [Warp.createEmployee, bind_eq_ok, pure_eq_ok] at hrun
  obtain ⟨_, _, db₁, hreconcile, db₂, htenure, hout⟩ := hrun
  cases hout
  have hadded : Journaled (db.addEmployee (data.row db.sequences.employee)) :=
    h.frame rfl rfl rfl rfl
  exact ((hadded.record ⟨by decide, by decide⟩ _ _ _).derives
    (reconcileImpacted_derives hreconcile)).derives (derives_syncTenure htenure)

theorem Journaled.updateEmployee (h : Journaled db) {data : EmployeeUpdate} {e e' : Employee}
    (hrun : Warp.updateEmployee db e data actor T = .ok (db', e')) : Journaled db' := by
  simp only [Warp.updateEmployee, bind_eq_ok] at hrun
  obtain ⟨_, _, updated, _, hout⟩ := hrun
  by_cases hnil : changedColumns e updated = []
  · rw [if_pos hnil] at hout
    cases hout
    exact h
  · rw [if_neg hnil] at hout
    simp only [bind_eq_ok, pure_eq_ok] at hout
    obtain ⟨db₁, hreconcile, db₂, htenure, hout⟩ := hout
    cases hout
    have hsaved : Journaled (db.saveEmployee e') := h.frame rfl rfl rfl rfl
    have hneutral : Neutral "Employee"
        (if (changedColumns e e').contains "manager_id" then "manager_changed" else "changed") := by
      split <;> exact ⟨by decide, by decide⟩
    exact ((hsaved.record hneutral _ _ _).derives
      (reconcileImpacted_derives hreconcile)).derives (syncChangedTenure_derives htenure)

/-- The entry of a deletion takes away exactly the rows that go with the employee. -/
theorem Journaled.removed (h : Journaled db) (employeeId : ℕ) (before : Option Snapshot) :
    Journaled (recordAuditLog (db.removeEmployee employeeId) actor "Employee" employeeId "deleted"
      before none T) where
  logFresh := @logFresh_record (db.removeEmployee employeeId) _ _ h.logFresh _ _ _ _ _
  rowsFresh r hr := h.rowsFresh r (Table.mem_filter.mp hr).1
  replayed := by
    rw [@replay_record (db.removeEmployee employeeId) _ _ h.logFresh]
    show (replay db.auditLogs).filter _ = (db.employeeAssignments.rows.filter _).filter _
    rw [h.replayed, List.filter_comm]
    rfl

theorem Journaled.deleteEmployee (h : Journaled db) {e : Employee}
    (hrun : Warp.deleteEmployee db e actor T = .ok db') : Journaled db' := by
  have hcancelled := h.derives (derives_cancel .employee [e.id] [])
  exact (hcancelled.removed e.id _).derives (derives_reconcileMap hrun)

/-! ## Overrides -/

theorem Journaled.createOverride (h : Journaled db) {employeeId fieldId : ℕ} {value : String}
    {o : EmployeeOverride}
    (hrun : createEmployeeOverride db employeeId fieldId value actor T = .ok (db', o)) :
    Journaled db' := by
  simp only [createEmployeeOverride, bind_eq_ok, pure_eq_ok] at hrun
  obtain ⟨e, _, d, _, v, _, _, _, db₁, hreconcile, hout⟩ := hrun
  cases hout
  have hadded : Journaled (db.addOverride
      (newOverride db.sequences.employeeOverride e.id d.id v)) := h.frame rfl rfl rfl rfl
  exact (hadded.record ⟨by decide, by decide⟩ _ _ _).derives (derives_reconcileMap hreconcile)

theorem Journaled.updateOverride (h : Journaled db) {employeeId overrideId : ℕ}
    {fieldId : Option ℕ} {value : Option String} {o : EmployeeOverride}
    (hrun : updateEmployeeOverride db employeeId overrideId fieldId value actor T = .ok (db', o)) :
    Journaled db' := by
  simp only [updateEmployeeOverride, bind_eq_ok] at hrun
  obtain ⟨e, _, old, _, d, _, v, _, hout⟩ := hrun
  by_cases hsame : d.id = old.assignmentFieldDefinitionId ∧ v = old.value
  · rw [if_pos hsame] at hout
    cases hout
    exact h
  · rw [if_neg hsame] at hout
    simp only [bind_eq_ok, pure_eq_ok] at hout
    obtain ⟨_, _, db₁, hreconcile, hout⟩ := hout
    cases hout
    have hadded : Journaled
        ((db.withOverrides (retireOverride db.facts.employeeOverrides old.id T)).addOverride
          (newOverride db.sequences.employeeOverride e.id d.id v)) := h.frame rfl rfl rfl rfl
    exact (hadded.record ⟨by decide, by decide⟩ _ _ _).derives (derives_reconcileMap hreconcile)

theorem Journaled.deleteOverride (h : Journaled db) {employeeId overrideId : ℕ}
    (hrun : deleteEmployeeOverride db employeeId overrideId actor T = .ok db') : Journaled db' := by
  simp only [deleteEmployeeOverride, bind_eq_ok] at hrun
  obtain ⟨e, _, old, _, hreconcile⟩ := hrun
  have hretired : Journaled (db.withOverrides
      (retireOverride db.facts.employeeOverrides old.id T)) := h.frame rfl rfl rfl rfl
  exact (hretired.record ⟨by decide, by decide⟩ _ _ _).derives (derives_reconcileMap hreconcile)

/-! ## Groups -/

theorem Journaled.createGroup (h : Journaled db) (name : String) :
    Journaled (Warp.createGroup db name actor T).1 := by
  have hadded : Journaled
      { db.withGroups (db.facts.groups.insert ⟨db.sequences.group, name⟩) with
        sequences := { db.sequences with group := db.sequences.group + 1 } } :=
    h.frame rfl rfl rfl rfl
  exact hadded.record ⟨by decide, by decide⟩ _ _ _

theorem Journaled.updateGroup (h : Journaled db) {groupId : ℕ} {name : Option String} {g : Group}
    (hrun : Warp.updateGroup db groupId name actor T = .ok (db', g)) : Journaled db' := by
  simp only [Warp.updateGroup, bind_eq_ok] at hrun
  obtain ⟨group, _, hout⟩ := hrun
  cases name with
  | none =>
    cases hout
    exact h
  | some name =>
    by_cases hsame : name = group.name
    · dsimp only at hout
      rw [if_pos hsame] at hout
      cases hout
      exact h
    · dsimp only at hout
      rw [if_neg hsame] at hout
      cases hout
      have hrenamed : Journaled (db.withGroups (db.facts.groups.insert ⟨group.id, name⟩)) :=
        h.frame rfl rfl rfl rfl
      exact hrenamed.record ⟨by decide, by decide⟩ _ _ _

theorem Journaled.addMember (h : Journaled db) {groupId employeeId : ℕ} {e : Employee}
    (hrun : addEmployeeToGroup db groupId employeeId actor T = .ok (db', e)) : Journaled db' := by
  simp only [addEmployeeToGroup, bind_eq_ok] at hrun
  obtain ⟨_, _, employee, _, hout⟩ := hrun
  split at hout
  · cases hout
    exact h
  · simp only [bind_eq_ok, pure_eq_ok] at hout
    obtain ⟨db₁, hreconcile, hout⟩ := hout
    cases hout
    have hadded : Journaled (db.withMemberships
        (db.facts.employeeGroupMemberships.insert ⟨employeeId, groupId⟩)) := h.frame rfl rfl rfl rfl
    exact (hadded.record ⟨by decide, by decide⟩ _ _ _).derives (derives_reconcileMap hreconcile)

theorem Journaled.removeMember (h : Journaled db) {groupId employeeId : ℕ}
    (hrun : removeEmployeeFromGroup db groupId employeeId actor T = .ok db') : Journaled db' := by
  simp only [removeEmployeeFromGroup, bind_eq_ok] at hrun
  obtain ⟨_, _, employee, _, hout⟩ := hrun
  split at hout
  · cases hout
    exact h
  · next membership _ =>
    have hremoved : Journaled (db.withMemberships
        (db.facts.employeeGroupMemberships.filter fun m => m ≠ membership)) :=
      h.frame rfl rfl rfl rfl
    exact (hremoved.record ⟨by decide, by decide⟩ _ _ _).derives (derives_reconcileMap hout)

theorem Journaled.attachPolicy (h : Journaled db) (key : GroupPolicy) :
    Journaled (Warp.attachPolicy db key actor T) := by
  have hadded : Journaled (db.withGroupPolicies (db.facts.groupPolicies.insert key)) :=
    h.frame rfl rfl rfl rfl
  exact hadded.record ⟨by decide, by decide⟩ _ _ _

theorem Journaled.detachPolicy (h : Journaled db) (key : GroupPolicy) :
    Journaled (Warp.detachPolicy db key actor T) := by
  have hremoved : Journaled (db.withGroupPolicies (db.facts.groupPolicies.filter fun gp => gp ≠ key)) :=
    h.frame rfl rfl rfl rfl
  exact hremoved.record ⟨by decide, by decide⟩ _ _ _

theorem Journaled.refreshGroup (h : Journaled db) {groupId : ℕ}
    (hrun : refreshGroupMembers db groupId actor T = .ok db') : Journaled db' := by
  simp only [refreshGroupMembers, bind_eq_ok] at hrun
  obtain ⟨_, _, hreconcile⟩ := hrun
  exact h.derives (derives_reconcileMap hreconcile)

theorem Journaled.addPolicy (h : Journaled db) {groupId policyId : ℕ} {p : Policy}
    (hrun : addPolicyToGroup db groupId policyId actor T = .ok (db', p)) : Journaled db' := by
  simp only [addPolicyToGroup, bind_eq_ok] at hrun
  obtain ⟨_, _, policy, _, hout⟩ := hrun
  by_cases hattached : attached db groupId policyId = true
  · rw [if_pos hattached] at hout
    cases hout
    exact h
  · rw [if_neg hattached] at hout
    simp only [bind_eq_ok, pure_eq_ok] at hout
    obtain ⟨db₁, hrefresh, hout⟩ := hout
    cases hout
    exact (h.attachPolicy _).refreshGroup hrefresh

theorem Journaled.removePolicy (h : Journaled db) {groupId policyId : ℕ}
    (hrun : removePolicyFromGroup db groupId policyId actor T = .ok db') : Journaled db' := by
  simp only [removePolicyFromGroup, bind_eq_ok] at hrun
  obtain ⟨_, _, _, _, hout⟩ := hrun
  by_cases hattached : attached db groupId policyId = true
  · rw [if_pos hattached] at hout
    exact (h.detachPolicy _).refreshGroup hout
  · rw [if_neg hattached] at hout
    cases hout
    exact h

theorem Journaled.detachAll : ∀ (policyIds : List ℕ) {groupId : ℕ} {state : Db × Bool},
    Journaled state.1 → Journaled (policyIds.foldl (detachStep groupId actor T) state).1
  | [], _, _, h => h
  | policyId :: rest, groupId, state, h => by
    refine detachAll rest ?_
    unfold detachStep
    split
    · exact h.detachPolicy _
    · exact h

theorem Journaled.attachAll : ∀ (policyIds : List ℕ) {groupId : ℕ} {state : Db × Bool},
    Journaled state.1 → Journaled (policyIds.foldl (attachStep groupId actor T) state).1
  | [], _, _, h => h
  | policyId :: rest, groupId, state, h => by
    refine attachAll rest ?_
    unfold attachStep
    split
    · exact h
    · exact h.attachPolicy _

theorem Journaled.updateGroupPolicies (h : Journaled db) {groupId : ℕ}
    {addPolicyIds removePolicyIds : List ℕ}
    (hrun : Warp.updateGroupPolicies db groupId addPolicyIds removePolicyIds actor T = .ok db') :
    Journaled db' := by
  simp only [Warp.updateGroupPolicies, bind_eq_ok] at hrun
  obtain ⟨_, _, _, _, hout⟩ := hrun
  have hdetached := @Journaled.detachAll actor T removePolicyIds groupId (db, false) h
  have hchanged := @Journaled.attachAll actor T addPolicyIds groupId _ hdetached
  split at hout
  · exact hchanged.refreshGroup hout
  · cases hout
    exact hchanged

/-! ## Policies -/

theorem Journaled.createVersion (h : Journaled db) {policyId : ℕ} {data : PolicyVersionCreate}
    {v : PolicyVersion}
    (hrun : createPolicyVersionFromInput db policyId data actor T = .ok (db', v)) :
    Journaled db' := by
  simp only [createPolicyVersionFromInput, bind_eq_ok, pure_eq_ok] at hrun
  obtain ⟨input, _, ⟨db₁, version⟩, hcreate, db₂, hversions, db₃, htenure, hout⟩ := hrun
  cases hout
  have hcreated : Journaled db₁ := by
    unfold createPolicyVersion at hcreate
    dsimp only at hcreate
    split at hcreate
    · exact absurd hcreate (by simp)
    · next rules version' _ =>
      cases hcreate
      have hstored : Journaled
          { db with
            facts := { db.facts with toRules := rules }
            sequences := db.sequences.afterVersion input.compiledClauses } :=
        h.frame rfl rfl rfl rfl
      exact hstored.record ⟨by decide, by decide⟩ _ _ _
  exact (hcreated.derives (derives_syncVersions hversions)).derives (derives_syncAllTenure htenure)

theorem Journaled.createPolicy (h : Journaled db) {data : PolicyCreate} {p : Policy}
    (hrun : Warp.createPolicy db data actor T = .ok (db', p)) : Journaled db' := by
  simp only [Warp.createPolicy, bind_eq_ok, pure_eq_ok] at hrun
  obtain ⟨⟨db₁, v⟩, hversion, db₂, hrefresh, hout⟩ := hrun
  cases hout
  have hadded : Journaled
      { db.withPolicies (db.facts.policies.insert
          ⟨db.sequences.policy, data.name, data.status, some actor.name⟩) with
        sequences := { db.sequences with policy := db.sequences.policy + 1 } } :=
    h.frame rfl rfl rfl rfl
  exact ((hadded.record ⟨by decide, by decide⟩ _ _ _).createVersion hversion).derives
    (derives_reconcileMap hrefresh)

theorem Journaled.addVersion (h : Journaled db) {policyId : ℕ} {data : PolicyVersionCreate}
    {v : PolicyVersion} (hrun : Warp.addVersion db policyId data actor T = .ok (db', v)) :
    Journaled db' := by
  simp only [Warp.addVersion, bind_eq_ok, pure_eq_ok] at hrun
  obtain ⟨policy, _, ⟨db₁, v'⟩, hversion, db₂, hrefresh, hout⟩ := hrun
  cases hout
  exact (h.createVersion hversion).derives (derives_reconcileMap hrefresh)

theorem Journaled.updatePolicy (h : Journaled db) {policyId : ℕ} {data : PolicyUpdate} {p : Policy}
    (hrun : Warp.updatePolicy db policyId data actor T = .ok (db', p)) : Journaled db' := by
  simp only [Warp.updatePolicy, bind_eq_ok] at hrun
  obtain ⟨policy, _, hout⟩ := hrun
  split at hout
  · cases hout
    exact h
  · simp only [bind_eq_ok, pure_eq_ok] at hout
    obtain ⟨db₁, hfollow, hout⟩ := hout
    cases hout
    have hrecorded : ∀ (changed : Policy) (action : String), Neutral "Policy" action →
        Journaled (recordAuditLog (db.withPolicies (db.facts.policies.insert changed)) actor
          "Policy" policy.id action (some (.policy policy)) (some (.policy changed)) T) := by
      intro changed action hneutral
      have hsaved : Journaled (db.withPolicies (db.facts.policies.insert changed)) :=
        h.frame rfl rfl rfl rfl
      exact hsaved.record hneutral _ _ _
    unfold followStatus at hfollow
    have hneutral : ∀ action, Neutral "Policy" action := fun action =>
      ⟨by decide, fun hboth => absurd hboth.1 (by decide)⟩
    split at hfollow
    · cases hfollow
      exact hrecorded _ _ (hneutral _)
    · simp only [bind_eq_ok] at hfollow
      obtain ⟨db₂, hversions, db₃, htenure, hrefresh⟩ := hfollow
      exact (((hrecorded _ _ (hneutral _)).derives (derives_syncVersions hversions)).derives
        (derives_syncAllTenure htenure)).derives (derives_reconcileMap hrefresh)

/-! ## Runs -/

theorem Journaled.operation (h : Journaled db) {operation : Operation}
    (hrun : runOperation db actor T operation = .ok db') : Journaled db' := by
  cases operation with
  | createEmployee data =>
    obtain ⟨⟨_, e⟩, hcall, rfl⟩ := exceptMap_eq_ok.mp hrun
    exact h.createEmployee hcall
  | updateEmployee employeeId data =>
    simp only [runOperation, bind_eq_ok, exceptMap_eq_ok] at hrun
    obtain ⟨e, _, ⟨_, e'⟩, hrun, rfl⟩ := hrun
    exact h.updateEmployee hrun
  | deleteEmployee employeeId =>
    simp only [runOperation, bind_eq_ok] at hrun
    obtain ⟨e, _, hrun⟩ := hrun
    exact h.deleteEmployee hrun
  | refreshEmployee employeeId =>
    simp only [runOperation, bind_eq_ok] at hrun
    obtain ⟨e, _, hrun⟩ := hrun
    exact h.derives (derives_reconcileMap hrun)
  | createPolicy data =>
    obtain ⟨⟨_, p⟩, hcall, rfl⟩ := exceptMap_eq_ok.mp hrun
    exact h.createPolicy hcall
  | addVersion policyId data =>
    obtain ⟨⟨_, v⟩, hcall, rfl⟩ := exceptMap_eq_ok.mp hrun
    exact h.addVersion hcall
  | updatePolicy policyId data =>
    obtain ⟨⟨_, p⟩, hcall, rfl⟩ := exceptMap_eq_ok.mp hrun
    exact h.updatePolicy hcall
  | createGroup name =>
    cases hrun
    exact h.createGroup name
  | updateGroup groupId name =>
    obtain ⟨⟨_, g⟩, hcall, rfl⟩ := exceptMap_eq_ok.mp hrun
    exact h.updateGroup hcall
  | addEmployeeToGroup groupId employeeId =>
    obtain ⟨⟨_, e⟩, hcall, rfl⟩ := exceptMap_eq_ok.mp hrun
    exact h.addMember hcall
  | removeEmployeeFromGroup groupId employeeId => exact h.removeMember hrun
  | addPolicyToGroup groupId policyId =>
    obtain ⟨⟨_, p⟩, hcall, rfl⟩ := exceptMap_eq_ok.mp hrun
    exact h.addPolicy hcall
  | removePolicyFromGroup groupId policyId => exact h.removePolicy hrun
  | updateGroupPolicies groupId addPolicyIds removePolicyIds => exact h.updateGroupPolicies hrun
  | createOverride employeeId fieldId value =>
    obtain ⟨⟨_, o⟩, hcall, rfl⟩ := exceptMap_eq_ok.mp hrun
    exact h.createOverride hcall
  | updateOverride employeeId overrideId fieldId value =>
    obtain ⟨⟨_, o⟩, hcall, rfl⟩ := exceptMap_eq_ok.mp hrun
    exact h.updateOverride hcall
  | deleteOverride employeeId overrideId => exact h.deleteOverride hrun
  | reconcileDue limit =>
    obtain ⟨⟨_, events⟩, hcall, rfl⟩ := exceptMap_eq_ok.mp hrun
    exact h.derives (derives_reconcileDue hcall)

theorem Journaled.step (h : Journaled db) (call : OperationCall) :
    Journaled (operationStep db call) := by
  unfold operationStep
  cases hrun : runOperation db call.actor call.now call.operation with
  | error e => exact h
  | ok db' => exact h.operation hrun

theorem Journaled.run : ∀ (calls : List OperationCall) {db : Db}, Journaled db →
    Journaled (runOperations db calls)
  | [], _, h => h
  | call :: rest, _, h => Journaled.run rest (h.step call)

/-- A database with facts and nothing derived from them. -/
def Db.unreconciled (facts : Facts) (sequences : Sequences) : Db :=
  { Db.empty with facts := facts, sequences := sequences }

theorem journaled_unreconciled (facts : Facts) (sequences : Sequences) :
    Journaled (.unreconciled facts sequences) :=
  ⟨fun _ h => absurd h Table.not_mem_empty, fun _ h => absurd h Table.not_mem_empty, rfl⟩

/-- After any run of operations, with failures in between, the audit log replays to the open
assignment rows with everything in them. An operation that fails adds nothing to the log. -/
theorem audit_journal_replays (facts : Facts) (sequences : Sequences)
    (calls : List OperationCall) :
    replay (runOperations (.unreconciled facts sequences) calls).auditLogs =
        openRows (runOperations (.unreconciled facts sequences) calls) ∧
      ∀ call e, runOperation (runOperations (.unreconciled facts sequences) calls) call.actor
          call.now call.operation = .error e →
        (operationStep (runOperations (.unreconciled facts sequences) calls) call).auditLogs =
          (runOperations (.unreconciled facts sequences) calls).auditLogs := by
  refine ⟨(Journaled.run calls (journaled_unreconciled facts sequences)).replayed, ?_⟩
  intro call e herror
  rw [operationStep, herror]

end

end Warp
