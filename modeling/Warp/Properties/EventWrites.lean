import Warp.Operations
import Warp.Properties.DerivedWrites
import Warp.Properties.ScheduleCoverage

/-!
# What operations do to the events

Events get another status or come in under a key of their own, whatever the operation. So no two
events ever have the same key. Of the version rows the ids are kept along.
-/

namespace Warp

open Infra

/-! ## Changes of the events -/

/-- One change of the events: some get a status, or an event comes in whose key none has. -/
inductive EventWrite (events : Table ScheduledReconciliation) :
    Table ScheduledReconciliation → Prop where
  | status (eventIds : List ℕ) (status : EventStatus) :
      EventWrite events (setEventStatus events eventIds status)
  | scheduled (event : ScheduledReconciliation) (new : findEvent? events event.eventKey = none) :
      EventWrite events (events.insert event)

abbrev EventWrites : Table ScheduledReconciliation → Table ScheduledReconciliation → Prop :=
  Relation.ReflTransGen EventWrite

/-- The key identifies an event. -/
def UniqueEvents (events : Table ScheduledReconciliation) : Prop :=
  ∀ e ∈ events, ∀ e' ∈ events, e.eventKey = e'.eventKey → e = e'

section

variable {events events' : Table ScheduledReconciliation} {key : EventKey}

theorem findEvent?_eq_none :
    findEvent? events key = none ↔ ∀ e ∈ events, e.eventKey ≠ key := by
  rw [findEvent?, List.head?_eq_none_iff, List.eq_nil_iff_forall_not_mem]
  simp only [Table.mem_select, decide_eq_true_eq, not_and, ne_eq]

theorem UniqueEvents.setStatus (h : UniqueEvents events) (eventIds : List ℕ)
    (status : EventStatus) : UniqueEvents (setEventStatus events eventIds status) := by
  have hkey : ∀ e : ScheduledReconciliation,
      (if e.id ∈ eventIds then { e with status := status } else e).eventKey = e.eventKey := by
    intro e
    split <;> rfl
  intro x hx y hy hsame
  obtain ⟨e, he, rfl⟩ := mem_setEventStatus.mp hx
  obtain ⟨e', he', rfl⟩ := mem_setEventStatus.mp hy
  rw [hkey, hkey] at hsame
  rw [h e he e' he' hsame]

theorem UniqueEvents.write (h : UniqueEvents events) (hwrite : EventWrite events events') :
    UniqueEvents events' := by
  cases hwrite with
  | status eventIds status => exact h.setStatus eventIds status
  | scheduled event hnew =>
    have hfree := findEvent?_eq_none.mp hnew
    intro x hx y hy hsame
    rcases Table.mem_insert.mp hx with rfl | ⟨hold, _⟩
    · rcases Table.mem_insert.mp hy with rfl | ⟨hold, _⟩
      · rfl
      · exact absurd hsame.symm (hfree y hold)
    · rcases Table.mem_insert.mp hy with rfl | ⟨hold', _⟩
      · exact absurd hsame (hfree x hold)
      · exact h x hold y hold' hsame

theorem UniqueEvents.writes (h : UniqueEvents events) (hwrites : EventWrites events events') :
    UniqueEvents events' := by
  induction hwrites with
  | refl => exact h
  | tail _ hwrite ih => exact ih.write hwrite

end

/-! ## Scheduling -/

section

variable {db db' : Db} {key : EventKey}

theorem schedule_writes (h : scheduleReconciliation db key = .ok db') :
    EventWrites db.scheduledReconciliations db'.scheduledReconciliations := by
  unfold scheduleReconciliation at h
  split at h
  · exact absurd h (by simp)
  · split at h
    · next hnew =>
      cases h
      exact .single (.scheduled (newEvent _ key) hnew)
    · split at h
      · cases h
        exact .single (.status _ _)
      · cases h
        exact .refl

theorem replaceEvents_writes {entityType : EntityType} {entityIds : List ℕ}
    {desired : List EventKey} (h : replaceEvents db entityType entityIds desired = .ok db') :
    EventWrites db.scheduledReconciliations db'.scheduledReconciliations :=
  runAll_invariant
    (I := fun d => EventWrites db.scheduledReconciliations d.scheduledReconciliations)
    (fun _ _ _ _ hu hstep => hu.trans (schedule_writes hstep)) (.single (.status _ _)) h

end

/-! ## What operations do to the events and the version rows -/

/-- The events change by single writes, and the version rows keep their ids or have one from the
sequence. -/
structure Evolves (db db' : Db) : Prop where
  events : EventWrites db.scheduledReconciliations db'.scheduledReconciliations
  sequence : db.sequences.policyVersion ≤ db'.sequences.policyVersion
  versions : ∀ v ∈ db'.facts.policyVersions,
    (∃ w ∈ db.facts.policyVersions, w.id = v.id) ∨ db.sequences.policyVersion ≤ v.id

section

variable {db db' db'' : Db} {actor : Actor} {now : DateTime}

theorem Evolves.of_events
    (hevents : EventWrites db.scheduledReconciliations db'.scheduledReconciliations)
    (hversions : db'.facts.policyVersions = db.facts.policyVersions)
    (hsequence : db'.sequences.policyVersion = db.sequences.policyVersion) : Evolves db db' where
  events := hevents
  sequence := hsequence.ge
  versions := fun v hv => Or.inl ⟨v, hversions ▸ hv, rfl⟩

/-- Other rows are written. -/
theorem Evolves.frame (hevents : db'.scheduledReconciliations = db.scheduledReconciliations)
    (hversions : db'.facts.policyVersions = db.facts.policyVersions)
    (hsequence : db'.sequences.policyVersion = db.sequences.policyVersion) : Evolves db db' :=
  .of_events (hevents ▸ .refl) hversions hsequence

theorem Evolves.refl (db : Db) : Evolves db db := .frame rfl rfl rfl

theorem Evolves.trans (h : Evolves db db') (h' : Evolves db' db'') : Evolves db db'' where
  events := h.events.trans h'.events
  sequence := h.sequence.trans h'.sequence
  versions := by
    intro v hv
    rcases h'.versions v hv with ⟨w, hw, hid⟩ | hnew
    · rw [← hid]
      exact h.versions w hw
    · exact Or.inr (h.sequence.trans hnew)

/-- Other rows are written before. -/
theorem Evolves.after (h : Evolves db' db'')
    (hevents : db'.scheduledReconciliations = db.scheduledReconciliations)
    (hversions : db'.facts.policyVersions = db.facts.policyVersions)
    (hsequence : db'.sequences.policyVersion = db.sequences.policyVersion) : Evolves db db'' :=
  Evolves.trans (.frame hevents hversions hsequence) h

theorem Evolves.of_derives (h : Derives db db')
    (hevents : EventWrites db.scheduledReconciliations db'.scheduledReconciliations) :
    Evolves db db' :=
  .of_events hevents (by rw [(derives_kept h).facts]) (by rw [(derives_kept h).sequences])

theorem evolves_reconcile {employeeIds : List ℕ} {reconciliationAt : Option DateTime}
    (h : (reconcileEmployees db employeeIds reconciliationAt actor now).map Prod.fst = .ok db') :
    Evolves db db' :=
  .of_derives (derives_reconcileMap h) (reconcileMap_events h ▸ .refl)

theorem evolves_reconcileEmployee {employeeId : ℕ}
    (h : reconcileEmployee db employeeId actor now = .ok db') : Evolves db db' :=
  evolves_reconcile h

theorem evolves_replaceEvents {entityType : EntityType} {entityIds : List ℕ}
    {desired : List EventKey} (h : replaceEvents db entityType entityIds desired = .ok db') :
    Evolves db db' :=
  .of_derives (derives_replaceEvents h) (replaceEvents_writes h)

theorem evolves_syncTenure {employee : Employee}
    (h : syncEmployeeTenureSchedules db employee now = .ok db') : Evolves db db' := by
  unfold syncEmployeeTenureSchedules at h
  split at h
  · exact absurd h (by simp)
  · exact evolves_replaceEvents h

theorem evolves_syncAllTenure (h : syncAllEmployeeTenureSchedules db now = .ok db') :
    Evolves db db' :=
  runAll_invariant (I := Evolves db) (fun _ _ _ _ hu hstep => hu.trans (evolves_syncTenure hstep))
    (.refl db) h

theorem evolves_reconcileDue {limit : ℕ} {events : List ScheduledReconciliation}
    (h : reconcileDueEvents db now limit = .ok (db', events)) : Evolves db db' := by
  refine .of_derives (derives_reconcileDue h) ?_
  unfold reconcileDueEvents at h
  split at h
  · exact absurd h (by simp)
  · split at h
    · exact absurd h (by simp)
    · split at h
      · exact absurd h (by simp)
      · next hreconcile =>
        cases h
        have hsame := reconcileEntities_events hreconcile
        dsimp only
        rw [hsame]
        exact .single (.status _ _)

/-! ### Employees, groups and overrides -/

theorem evolves_reconcileImpacted {mutation : EmployeeMutation}
    (h : reconcileImpacted db mutation actor now = .ok db') : Evolves db db' := by
  simp only [reconcileImpacted, bind_eq_ok] at h
  obtain ⟨ids, _, hreconcile⟩ := h
  exact evolves_reconcile hreconcile

theorem evolves_createEmployee {data : EmployeeCreate} {e : Employee}
    (h : createEmployee db data actor now = .ok (db', e)) : Evolves db db' := by
  simp only [createEmployee, bind_eq_ok, pure_eq_ok] at h
  obtain ⟨_, _, db₁, hreconcile, db₂, htenure, hout⟩ := h
  cases hout
  have hwritten := (evolves_reconcileImpacted hreconcile).trans (evolves_syncTenure htenure)
  exact hwritten.after rfl rfl rfl

theorem evolves_syncChanged {employee : Employee} {changed : List String}
    (h : syncChangedTenure db employee changed now = .ok db') : Evolves db db' := by
  unfold syncChangedTenure at h
  split at h
  · exact evolves_syncTenure h
  · cases h
    exact .refl db

theorem evolves_updateEmployee {data : EmployeeUpdate} {e e' : Employee}
    (h : updateEmployee db e data actor now = .ok (db', e')) : Evolves db db' := by
  simp only [updateEmployee, bind_eq_ok] at h
  obtain ⟨_, _, updated, _, hout⟩ := h
  split at hout
  · cases hout
    exact .refl db
  · simp only [bind_eq_ok, pure_eq_ok] at hout
    obtain ⟨db₁, hreconcile, db₂, htenure, hout⟩ := hout
    cases hout
    have hwritten := (evolves_reconcileImpacted hreconcile).trans (evolves_syncChanged htenure)
    exact hwritten.after rfl rfl rfl

theorem evolves_deleteEmployee {e : Employee} (h : deleteEmployee db e actor now = .ok db') :
    Evolves db db' := by
  have hremoved : Evolves db (recordAuditLog
      ((cancelPendingReconciliations db .employee [e.id] []).removeEmployee e.id) actor "Employee"
      e.id "deleted" (some (.employee e)) none now) :=
    .of_events (.single (.status _ _)) rfl rfl
  exact hremoved.trans (evolves_reconcile h)

theorem evolves_createOverride {employeeId fieldId : ℕ} {value : String} {o : EmployeeOverride}
    (h : createEmployeeOverride db employeeId fieldId value actor now = .ok (db', o)) :
    Evolves db db' := by
  simp only [createEmployeeOverride, bind_eq_ok, pure_eq_ok] at h
  obtain ⟨_, _, _, _, _, _, _, _, db₁, hreconcile, hout⟩ := h
  cases hout
  exact (evolves_reconcileEmployee hreconcile).after rfl rfl rfl

theorem evolves_updateOverride {employeeId overrideId : ℕ} {fieldId : Option ℕ}
    {value : Option String} {o : EmployeeOverride}
    (h : updateEmployeeOverride db employeeId overrideId fieldId value actor now = .ok (db', o)) :
    Evolves db db' := by
  simp only [updateEmployeeOverride, bind_eq_ok] at h
  obtain ⟨_, _, _, _, _, _, _, _, hout⟩ := h
  split at hout
  · cases hout
    exact .refl db
  · simp only [bind_eq_ok, pure_eq_ok] at hout
    obtain ⟨_, _, db₁, hreconcile, hout⟩ := hout
    cases hout
    exact (evolves_reconcileEmployee hreconcile).after rfl rfl rfl

theorem evolves_deleteOverride {employeeId overrideId : ℕ}
    (h : deleteEmployeeOverride db employeeId overrideId actor now = .ok db') : Evolves db db' := by
  simp only [deleteEmployeeOverride, bind_eq_ok] at h
  obtain ⟨_, _, _, _, hreconcile⟩ := h
  exact (evolves_reconcileEmployee hreconcile).after rfl rfl rfl

theorem evolves_updateGroup {groupId : ℕ} {name : Option String} {g : Group}
    (h : updateGroup db groupId name actor now = .ok (db', g)) : Evolves db db' := by
  simp only [updateGroup, bind_eq_ok] at h
  obtain ⟨group, _, hout⟩ := h
  cases name with
  | none =>
    cases hout
    exact .refl db
  | some name =>
    dsimp only at hout
    split at hout <;> cases hout
    · exact .refl db
    · exact .frame rfl rfl rfl

theorem evolves_addMember {groupId employeeId : ℕ} {e : Employee}
    (h : addEmployeeToGroup db groupId employeeId actor now = .ok (db', e)) : Evolves db db' := by
  simp only [addEmployeeToGroup, bind_eq_ok] at h
  obtain ⟨_, _, employee, _, hout⟩ := h
  split at hout
  · cases hout
    exact .refl db
  · simp only [bind_eq_ok, pure_eq_ok] at hout
    obtain ⟨db₁, hreconcile, hout⟩ := hout
    cases hout
    exact (evolves_reconcileEmployee hreconcile).after rfl rfl rfl

theorem evolves_removeMember {groupId employeeId : ℕ}
    (h : removeEmployeeFromGroup db groupId employeeId actor now = .ok db') : Evolves db db' := by
  simp only [removeEmployeeFromGroup, bind_eq_ok] at h
  obtain ⟨_, _, employee, _, hout⟩ := h
  split at hout
  · cases hout
    exact .refl db
  · exact (evolves_reconcileEmployee hout).after rfl rfl rfl

theorem evolves_refreshGroup {groupId : ℕ} (h : refreshGroupMembers db groupId actor now = .ok db') :
    Evolves db db' := by
  simp only [refreshGroupMembers, bind_eq_ok] at h
  obtain ⟨_, _, hreconcile⟩ := h
  exact evolves_reconcile hreconcile

theorem evolves_addPolicy {groupId policyId : ℕ} {p : Policy}
    (h : addPolicyToGroup db groupId policyId actor now = .ok (db', p)) : Evolves db db' := by
  simp only [addPolicyToGroup, bind_eq_ok] at h
  obtain ⟨_, _, policy, _, hout⟩ := h
  split at hout
  · cases hout
    exact .refl db
  · simp only [bind_eq_ok, pure_eq_ok] at hout
    obtain ⟨db₁, hrefresh, hout⟩ := hout
    cases hout
    exact (evolves_refreshGroup hrefresh).after rfl rfl rfl

theorem evolves_removePolicy {groupId policyId : ℕ}
    (h : removePolicyFromGroup db groupId policyId actor now = .ok db') : Evolves db db' := by
  simp only [removePolicyFromGroup, bind_eq_ok] at h
  obtain ⟨_, _, _, _, hout⟩ := h
  split at hout
  · exact (evolves_refreshGroup hout).after rfl rfl rfl
  · cases hout
    exact .refl db

theorem evolves_foldl {step : Db × Bool → ℕ → Db × Bool}
    (hstep : ∀ state policyId, Evolves state.1 (step state policyId).1) (policyIds : List ℕ)
    (state : Db × Bool) : Evolves state.1 (policyIds.foldl step state).1 := by
  induction policyIds generalizing state with
  | nil => exact .refl _
  | cons policyId rest ih => exact (hstep state policyId).trans (ih _)

theorem evolves_updateGroupPolicies {groupId : ℕ} {addPolicyIds removePolicyIds : List ℕ}
    (h : updateGroupPolicies db groupId addPolicyIds removePolicyIds actor now = .ok db') :
    Evolves db db' := by
  simp only [updateGroupPolicies, bind_eq_ok] at h
  obtain ⟨_, _, _, _, hout⟩ := h
  have hdetach : Evolves db (removePolicyIds.foldl (detachStep groupId actor now) (db, false)).1 :=
    evolves_foldl (fun state policyId => by
      unfold detachStep
      split
      · exact .frame rfl rfl rfl
      · exact .refl _) removePolicyIds (db, false)
  have hattach := @evolves_foldl (attachStep groupId actor now) (fun state policyId => by
    unfold attachStep
    split
    · exact .refl _
    · exact .frame rfl rfl rfl) addPolicyIds
    (removePolicyIds.foldl (detachStep groupId actor now) (db, false))
  split at hout
  · exact (hdetach.trans hattach).trans (evolves_refreshGroup hout)
  · cases hout
    exact hdetach.trans hattach

/-! ### Policies -/

theorem addPolicyVersion_ids {versions versions' : Table PolicyVersion} {versionId policyId : ℕ}
    {input : PolicyVersionInput} {version v : PolicyVersion}
    (h : addPolicyVersion versions versionId policyId input = .ok (versions', version))
    (hv : v ∈ versions') : (∃ w ∈ versions, w.id = v.id) ∨ v.id = versionId := by
  unfold addPolicyVersion at h
  split at h
  · exact absurd h (by simp)
  · split at h
    · exact absurd h (by simp)
    · next closed hclose =>
      split at h
      · exact absurd h (by simp)
      · cases h
        rcases Table.mem_insert.mp hv with rfl | ⟨hv, _⟩
        · exact Or.inr rfl
        · left
          unfold closePriorOpenEndedVersion at hclose
          split at hclose
          · cases hclose
            exact ⟨v, hv, rfl⟩
          · split at hclose
            · exact absurd hclose (by simp)
            · cases hclose
              rw [setEffectiveUntil, Table.mem_modify] at hv
              obtain ⟨w, hw, rfl⟩ := hv
              refine ⟨w, hw, ?_⟩
              split <;> rfl

theorem evolves_createVersion {policyId : ℕ} {input : PolicyVersionInput} {version : PolicyVersion}
    (h : createPolicyVersion db policyId input actor now = .ok (db', version)) : Evolves db db' := by
  unfold createPolicyVersion storePolicyVersion at h
  dsimp only at h
  split at h
  · exact absurd h (by simp)
  · next rules' version' hstore =>
    cases h
    split at hstore
    · exact absurd hstore (by simp)
    · next versions added hadd =>
      split at hstore
      · exact absurd hstore (by simp)
      · cases hstore
        refine ⟨.refl, Nat.le_succ _, fun v hv => ?_⟩
        have hstored : v ∈ (storeClauses version.id _ _ _ input.compiledClauses).policyVersions := hv
        rw [storeClauses_policyVersions] at hstored
        exact (addPolicyVersion_ids hadd hstored).imp_right fun hid => hid.ge

theorem evolves_versionFromInput {policyId : ℕ} {data : PolicyVersionCreate} {v : PolicyVersion}
    (h : createPolicyVersionFromInput db policyId data actor now = .ok (db', v)) :
    Evolves db db' := by
  simp only [createPolicyVersionFromInput, bind_eq_ok, pure_eq_ok] at h
  obtain ⟨input, _, ⟨db₁, version⟩, hstore, db₂, hversions, db₃, htenure, hout⟩ := h
  cases hout
  exact ((evolves_createVersion hstore).trans (evolves_replaceEvents hversions)).trans
    (evolves_syncAllTenure htenure)

theorem evolves_createPolicy {data : PolicyCreate} {p : Policy}
    (h : createPolicy db data actor now = .ok (db', p)) : Evolves db db' := by
  simp only [createPolicy, bind_eq_ok, pure_eq_ok] at h
  obtain ⟨⟨db₁, v⟩, hversion, db₂, hrefresh, hout⟩ := h
  cases hout
  have hwritten := (evolves_versionFromInput hversion).trans (evolves_reconcile hrefresh)
  exact hwritten.after rfl rfl rfl

theorem evolves_addVersion {policyId : ℕ} {data : PolicyVersionCreate} {v : PolicyVersion}
    (h : addVersion db policyId data actor now = .ok (db', v)) : Evolves db db' := by
  simp only [addVersion, bind_eq_ok, pure_eq_ok] at h
  obtain ⟨policy, _, ⟨db₁, version⟩, hversion, db₂, hrefresh, hout⟩ := h
  cases hout
  exact (evolves_versionFromInput hversion).trans (evolves_reconcile hrefresh)

theorem evolves_updatePolicy {policyId : ℕ} {data : PolicyUpdate} {p : Policy}
    (h : updatePolicy db policyId data actor now = .ok (db', p)) : Evolves db db' := by
  simp only [updatePolicy, bind_eq_ok] at h
  obtain ⟨policy, _, hout⟩ := h
  split at hout
  · cases hout
    exact .refl db
  · simp only [bind_eq_ok, pure_eq_ok] at hout
    obtain ⟨db₁, hfollow, hout⟩ := hout
    cases hout
    unfold followStatus at hfollow
    split at hfollow
    · cases hfollow
      exact .frame rfl rfl rfl
    · simp only [bind_eq_ok] at hfollow
      obtain ⟨db₂, hversions, db₃, htenure, hrefresh⟩ := hfollow
      have hsynced := (evolves_replaceEvents hversions).trans (evolves_syncAllTenure htenure)
      exact (hsynced.trans (evolves_reconcile hrefresh)).after rfl rfl rfl

/-! ### Every operation -/

theorem runOperation_evolves {operation : Operation}
    (h : runOperation db actor now operation = .ok db') : Evolves db db' := by
  cases operation with
  | createEmployee data =>
    obtain ⟨⟨_, e⟩, hrun, rfl⟩ := exceptMap_eq_ok.mp h
    exact evolves_createEmployee hrun
  | updateEmployee employeeId data =>
    simp only [runOperation, bind_eq_ok, exceptMap_eq_ok] at h
    obtain ⟨e, _, ⟨_, e'⟩, hrun, rfl⟩ := h
    exact evolves_updateEmployee hrun
  | deleteEmployee employeeId =>
    simp only [runOperation, bind_eq_ok] at h
    obtain ⟨e, _, hrun⟩ := h
    exact evolves_deleteEmployee hrun
  | refreshEmployee employeeId =>
    simp only [runOperation, bind_eq_ok] at h
    obtain ⟨e, _, hrun⟩ := h
    exact evolves_reconcileEmployee hrun
  | createPolicy data =>
    obtain ⟨⟨_, p⟩, hrun, rfl⟩ := exceptMap_eq_ok.mp h
    exact evolves_createPolicy hrun
  | addVersion policyId data =>
    obtain ⟨⟨_, v⟩, hrun, rfl⟩ := exceptMap_eq_ok.mp h
    exact evolves_addVersion hrun
  | updatePolicy policyId data =>
    obtain ⟨⟨_, p⟩, hrun, rfl⟩ := exceptMap_eq_ok.mp h
    exact evolves_updatePolicy hrun
  | createGroup name =>
    cases h
    exact .frame rfl rfl rfl
  | updateGroup groupId name =>
    obtain ⟨⟨_, g⟩, hrun, rfl⟩ := exceptMap_eq_ok.mp h
    exact evolves_updateGroup hrun
  | addEmployeeToGroup groupId employeeId =>
    obtain ⟨⟨_, e⟩, hrun, rfl⟩ := exceptMap_eq_ok.mp h
    exact evolves_addMember hrun
  | removeEmployeeFromGroup groupId employeeId => exact evolves_removeMember h
  | addPolicyToGroup groupId policyId =>
    obtain ⟨⟨_, p⟩, hrun, rfl⟩ := exceptMap_eq_ok.mp h
    exact evolves_addPolicy hrun
  | removePolicyFromGroup groupId policyId => exact evolves_removePolicy h
  | updateGroupPolicies groupId addPolicyIds removePolicyIds =>
    exact evolves_updateGroupPolicies h
  | createOverride employeeId fieldId value =>
    obtain ⟨⟨_, o⟩, hrun, rfl⟩ := exceptMap_eq_ok.mp h
    exact evolves_createOverride hrun
  | updateOverride employeeId overrideId fieldId value =>
    obtain ⟨⟨_, o⟩, hrun, rfl⟩ := exceptMap_eq_ok.mp h
    exact evolves_updateOverride hrun
  | deleteOverride employeeId overrideId => exact evolves_deleteOverride h
  | reconcileDue limit =>
    obtain ⟨⟨_, events⟩, hrun, rfl⟩ := exceptMap_eq_ok.mp h
    exact evolves_reconcileDue hrun

theorem runOperations_evolves (calls : List OperationCall) (db : Db) :
    Evolves db (runOperations db calls) := by
  induction calls generalizing db with
  | nil => exact .refl db
  | cons call rest ih =>
    refine Evolves.trans ?_ (ih (operationStep db call))
    unfold operationStep
    split
    · next hrun => exact runOperation_evolves hrun
    · exact .refl db

end

end Warp
