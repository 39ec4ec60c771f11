import Warp.Properties.EventWrites
import Warp.Properties.MaterializationCoherence
import Warp.Properties.TenureTransitions

/-!
# The schedule of a policy's versions

After a synchronisation the pending events of a policy are its window boundaries that are still to
come, whatever was pending, cancelled or processed before. No two events ever have the same key, and
a second synchronisation finds nothing to do.
-/

namespace Warp

open Infra

/-! ## One synchronisation -/

section

variable {db db' : Db} {now : DateTime} {key : EventKey}

/-- Scheduling makes no other event pending. -/
theorem schedule_pending_only {k : EventKey} (h : scheduleReconciliation db key = .ok db')
    (hpending : Pending db' k) : Pending db k ∨ k = key := by
  obtain ⟨event, hevent, rfl, hstatus⟩ := hpending
  unfold scheduleReconciliation at h
  split at h
  · exact absurd h (by simp)
  · split at h
    · cases h
      rcases Table.mem_insert.mp hevent with rfl | ⟨hevent, _⟩
      · exact Or.inr rfl
      · exact Or.inl ⟨event, hevent, rfl, hstatus⟩
    · next found hfind =>
      obtain ⟨hfound, rfl⟩ := findEvent?_eq_some hfind
      split at h
      · cases h
        obtain ⟨e, he, rfl⟩ := mem_setEventStatus.mp hevent
        by_cases hid : e.id ∈ [found.id]
        · -- the restored event
          have hsame : e = found := Table.key_inj he hfound (List.mem_singleton.mp hid)
          rw [if_pos hid, hsame]
          exact Or.inr rfl
        · rw [if_neg hid] at hstatus ⊢
          exact Or.inl ⟨e, he, rfl, hstatus⟩
      · cases h
        exact Or.inl ⟨event, hevent, rfl, hstatus⟩

theorem runAll_schedule_only {desired : List EventKey} {k : EventKey}
    (h : runAll scheduleReconciliation db desired = .ok db') (hpending : Pending db' k) :
    Pending db k ∨ k ∈ desired := by
  induction desired generalizing db with
  | nil =>
    cases h
    exact Or.inl hpending
  | cons key rest ih =>
    obtain ⟨db₁, hstep, hrest⟩ := runAll_cons.mp h
    rcases ih hrest with hfirst | hlater
    · rcases schedule_pending_only hstep hfirst with hold | rfl
      · exact Or.inl hold
      · exact Or.inr List.mem_cons_self
    · exact Or.inr (List.mem_cons_of_mem _ hlater)

/-- Of the events of the entities the desired ones are pending afterwards, and no others. -/
theorem replaceEvents_exact {entityType : EntityType} {entityIds : List ℕ}
    {desired : List EventKey} (hs : EventsSound db now)
    (hdesired : ∀ key ∈ desired, now < key.scheduledAt ∧ key.entityType ≠ .employeeOverride)
    (hentities : ∀ key ∈ desired, key.entityType = entityType ∧ key.entityId ∈ entityIds)
    (h : replaceEvents db entityType entityIds desired = .ok db') :
    (Pending db' key ∧ key.entityType = entityType ∧ key.entityId ∈ entityIds) ↔
      key ∈ desired := by
  constructor
  · rintro ⟨hpending, htype, hentity⟩
    rcases runAll_schedule_only h hpending with hkept | hkey
    · -- an event that was not desired would have been cancelled
      obtain ⟨event, hevent, rfl, hstatus⟩ := hkept
      obtain ⟨e, he, rfl⟩ := mem_setEventStatus.mp hevent
      by_cases hid : e.id ∈ obsoleteEvents db.scheduledReconciliations entityType entityIds desired
      · rw [if_pos hid] at hstatus
        exact absurd hstatus (by simp)
      · rw [if_neg hid] at hstatus htype hentity ⊢
        by_contra hnot
        refine hid (List.mem_map_of_mem (Table.mem_select.mpr ⟨he, ?_⟩))
        have htype : e.entityType = entityType := htype
        have hentity : e.entityId ∈ entityIds := hentity
        simp [htype, hentity, hstatus, hnot]
    · exact hkey
  · intro hkey
    exact ⟨(replaceEvents_replaced hs hdesired h).scheduled key hkey, hentities key hkey⟩

theorem setEventStatus_nil (events : Table ScheduledReconciliation) (status : EventStatus) :
    setEventStatus events [] status = events := by
  refine Table.ext_mem fun x => ?_
  rw [mem_setEventStatus]
  simp

/-- An event that is pending already is scheduled without any change. -/
theorem schedule_again (hvalid : validateEvent key = .ok ())
    (hunique : UniqueEvents db.scheduledReconciliations) (hpending : Pending db key) :
    scheduleReconciliation db key = .ok db := by
  obtain ⟨event, hevent, hkey, hstatus⟩ := hpending
  unfold scheduleReconciliation
  rw [hvalid]
  dsimp only
  split
  · next hnone => exact absurd hkey (findEvent?_eq_none.mp hnone event hevent)
  · next found hfind =>
    obtain ⟨hfound, hsame⟩ := findEvent?_eq_some hfind
    rw [hunique found hfound event hevent (hsame.trans hkey.symm), hstatus, if_neg (by simp)]

theorem runAll_schedule_again {desired : List EventKey}
    (hunique : UniqueEvents db.scheduledReconciliations)
    (hdesired : ∀ key ∈ desired, validateEvent key = .ok () ∧ Pending db key) :
    runAll scheduleReconciliation db desired = .ok db := by
  induction desired with
  | nil => rfl
  | cons key rest ih =>
    obtain ⟨hvalid, hpending⟩ := hdesired key List.mem_cons_self
    exact runAll_cons.mpr ⟨db, schedule_again hvalid hunique hpending,
      ih fun k hk => hdesired k (List.mem_cons_of_mem _ hk)⟩

/-- Nothing is left to be replaced a second time. -/
theorem replaceEvents_again {entityType : EntityType} {entityIds : List ℕ}
    {desired : List EventKey} (hunique : UniqueEvents db.scheduledReconciliations)
    (hvalid : ∀ key ∈ desired, validateEvent key = .ok ())
    (hexact : ∀ key, (Pending db key ∧ key.entityType = entityType ∧ key.entityId ∈ entityIds) ↔
      key ∈ desired) : replaceEvents db entityType entityIds desired = .ok db := by
  have hnone : obsoleteEvents db.scheduledReconciliations entityType entityIds desired = [] := by
    rw [obsoleteEvents, List.map_eq_nil_iff, List.eq_nil_iff_forall_not_mem]
    intro e he
    obtain ⟨hmem, hobsolete⟩ := Table.mem_select.mp he
    simp only [Bool.and_eq_true, decide_eq_true_eq, Bool.not_eq_true', decide_eq_false_iff_not,
      List.contains_eq_mem] at hobsolete
    obtain ⟨⟨⟨htype, hentity⟩, hstatus⟩, hnot⟩ := hobsolete
    exact hnot ((hexact e.eventKey).mp ⟨⟨e, hmem, rfl, hstatus⟩, htype, hentity⟩)
  have hcancel : cancelPendingReconciliations db entityType entityIds desired = db := by
    rw [cancelPendingReconciliations, hnone, setEventStatus_nil]
  rw [replaceEvents, hcancel]
  exact runAll_schedule_again hunique fun key hkey => ⟨hvalid key hkey, ((hexact key).mpr hkey).1⟩

end

/-! ## Exact schedules -/

/-- A boundary of the version's window that is still to come, with the event that it has: the day on
which the window opens, or the day after the one on which it closes. -/
def PolicyVersion.FutureBoundary (v : PolicyVersion) (now : DateTime) (key : EventKey) : Prop :=
  (now < startOfDay v.effectiveFrom ∧
    key = ⟨.policyVersion, v.id, .becomesEffective, startOfDay v.effectiveFrom⟩) ∨
  ∃ last next, v.effectiveUntil = some last ∧ last.succ? = some next ∧ now < startOfDay next ∧
    key = ⟨.policyVersion, v.id, .expires, startOfDay next⟩

section

variable {db db' : Db} {now : DateTime} {policyId : ℕ} {key : EventKey}

theorem mem_policyVersionsOf {rules : Rules} {v : PolicyVersion} :
    v ∈ policyVersionsOf rules policyId ↔ v ∈ rules.policyVersions ∧ v.policyId = policyId := by
  rw [policyVersionsOf, mem_orderBy, Table.mem_select, decide_eq_true_eq]

theorem mem_desiredVersionEvents {rules : Rules} :
    key ∈ desiredVersionEvents rules policyId now ↔ rules.policyActive policyId = true ∧
      ∃ v ∈ rules.policyVersions, v.policyId = policyId ∧ v.FutureBoundary now key := by
  unfold desiredVersionEvents
  split
  · next hactive =>
    simp only [List.mem_flatMap, mem_policyVersionsOf, mem_versionEvents, hactive, true_and,
      and_assoc, PolicyVersion.FutureBoundary]
  · next hinactive => simp [hinactive]

theorem validateEvent_version {rules : Rules} (hids : ∀ v ∈ rules.policyVersions, 0 < v.id)
    (hkey : key ∈ desiredVersionEvents rules policyId now) : validateEvent key = .ok () := by
  obtain ⟨_, v, hv, _, hboundary⟩ := mem_desiredVersionEvents.mp hkey
  have hid := (hids v hv).ne'
  rcases hboundary with ⟨_, rfl⟩ | ⟨last, next, _, _, _, rfl⟩
  · rw [validateEvent, if_neg hid]
    rfl
  · rw [validateEvent, if_neg hid]
    rfl

/-- The pending events of the policy are the desired ones, and a second synchronisation finds nothing
to do. -/
theorem syncVersions_exact (hs : EventsSound db now)
    (hunique : UniqueEvents db.scheduledReconciliations)
    (hids : ∀ v ∈ db.facts.policyVersions, 0 < v.id)
    (h : syncPolicyVersionSchedules db policyId now = .ok db') :
    (∀ key, (Pending db' key ∧ key.entityType = .policyVersion ∧
        key.entityId ∈ (policyVersionsOf db.facts.toRules policyId).map fun v => v.id) ↔
      key ∈ desiredVersionEvents db.facts.toRules policyId now) ∧
    UniqueEvents db'.scheduledReconciliations ∧
    syncPolicyVersionSchedules db' policyId now = .ok db' := by
  have hdesired : ∀ key ∈ desiredVersionEvents db.facts.toRules policyId now,
      key.entityType = .policyVersion ∧
        (∃ v ∈ policyVersionsOf db.facts.toRules policyId, v.id = key.entityId) ∧
        now < key.scheduledAt := by
    intro key hkey
    obtain ⟨_, v, hv, hpolicy, hboundary⟩ := mem_desiredVersionEvents.mp hkey
    obtain ⟨htype, hid, hnow⟩ := versionEvents_key (mem_versionEvents.mpr hboundary)
    exact ⟨htype, ⟨v, mem_policyVersionsOf.mpr ⟨hv, hpolicy⟩, hid.symm⟩, hnow⟩
  have hfuture : ∀ key ∈ desiredVersionEvents db.facts.toRules policyId now,
      now < key.scheduledAt ∧ key.entityType ≠ .employeeOverride := by
    intro key hkey
    obtain ⟨htype, _, hnow⟩ := hdesired key hkey
    exact ⟨hnow, by rw [htype]; decide⟩
  have hentities : ∀ key ∈ desiredVersionEvents db.facts.toRules policyId now,
      key.entityType = .policyVersion ∧
        key.entityId ∈ (policyVersionsOf db.facts.toRules policyId).map fun v => v.id := by
    intro key hkey
    obtain ⟨htype, ⟨v, hv, hid⟩, _⟩ := hdesired key hkey
    exact ⟨htype, List.mem_map.mpr ⟨v, hv, hid⟩⟩
  have hexact := fun key => @replaceEvents_exact db db' now key _ _ _ hs hfuture hentities h
  have hunique' := hunique.writes (replaceEvents_writes h)
  refine ⟨hexact, hunique', ?_⟩
  unfold syncPolicyVersionSchedules
  rw [(replaceEvents_eventsOnly h).facts]
  exact replaceEvents_again hunique' (fun key hkey => validateEvent_version hids hkey) hexact

end

/-- What a run leaves: events with keys of their own, and version rows with ids from one on. -/
theorem runOperations_schedule (fields : Table AssignmentFieldDefinition)
    (calls : List OperationCall) :
    UniqueEvents (runOperations (seededDb fields) calls).scheduledReconciliations ∧
      ∀ v ∈ (runOperations (seededDb fields) calls).facts.policyVersions, 0 < v.id := by
  have hevolves := runOperations_evolves calls (seededDb fields)
  have hempty : UniqueEvents (seededDb fields).scheduledReconciliations :=
    fun e he => absurd he Table.not_mem_empty
  refine ⟨hempty.writes hevolves.events, fun v hv => ?_⟩
  rcases hevolves.versions v hv with ⟨w, hw, _⟩ | hnew
  · exact absurd hw Table.not_mem_empty
  · exact hnew

/-- After a synchronisation in any state that a run at non-decreasing times can come to, the pending
events of a policy's versions are the window boundaries to come if the policy is active, and none if
it is not. No two events have the same key, and a second synchronisation changes nothing. -/
theorem version_schedules_exact (fields : Table AssignmentFieldDefinition)
    (calls : List OperationCall) (now : DateTime) (policyId : ℕ)
    (horder : (calls.map fun call => call.now).Pairwise (· ≤ ·))
    (hlast : ∀ call ∈ calls, call.now ≤ now) :
    ∃ db', syncPolicyVersionSchedules (runOperations (seededDb fields) calls) policyId now =
        .ok db' ∧ db'.facts = (runOperations (seededDb fields) calls).facts ∧
      (∀ key, (Pending db' key ∧ key.entityType = .policyVersion ∧
          ∃ v ∈ db'.facts.policyVersions, v.policyId = policyId ∧ v.id = key.entityId) ↔
        db'.facts.policyActive policyId = true ∧
          ∃ v ∈ db'.facts.policyVersions, v.policyId = policyId ∧ v.FutureBoundary now key) ∧
      UniqueEvents db'.scheduledReconciliations ∧
      syncPolicyVersionSchedules db' policyId now = .ok db' := by
  have hsound := (coherent_runOperations fields horder hlast).schedule.events
  obtain ⟨hunique, hids⟩ := runOperations_schedule fields calls
  generalize runOperations (seededDb fields) calls = db at hsound hunique hids
  obtain ⟨db', hsync⟩ : ∃ db', syncPolicyVersionSchedules db policyId now = .ok db' :=
    replaceEvents_ok fun key hkey => validateEvent_version hids hkey
  obtain ⟨hexact, hunique', hagain⟩ := syncVersions_exact hsound hunique hids hsync
  have hfacts := (replaceEvents_eventsOnly hsync).facts
  refine ⟨db', hsync, hfacts, fun key => ?_, hunique', hagain⟩
  rw [hfacts, ← mem_desiredVersionEvents, ← hexact key]
  simp only [List.mem_map, mem_policyVersionsOf, and_assoc]

/-- A spring policy that goes back to a draft and becomes active again before it starts. -/
def springCalls : List OperationCall :=
  [⟨.system, startOfDay (.on 2026 1 1), .createPolicy
      { name := "spring"
        priority := 1
        effectiveFrom := .on 2026 3 1
        effectiveUntil := some (.on 2026 5 31)
        conditionGroup := .mk .and [⟨"department", .eq, "Engineering"⟩] []
        values := [(1, "large")] }⟩,
    ⟨.system, startOfDay (.on 2026 1 2), .updatePolicy 1 { status := some .draft }⟩,
    ⟨.system, startOfDay (.on 2026 1 3), .updatePolicy 1 { status := some .active }⟩]

def springDb : Db :=
  runOperations (seededDb (.ofRows [⟨1, "laptop", .one, "priority", .text⟩])) springCalls

/-- The two events come back to the rows that they had. -/
theorem version_schedules_exact_spring :
    springDb.scheduledReconciliations.rows.map (fun e => (e.id, e.scheduledAt.date, e.status)) =
      [(1, .on 2026 3 1, .pending), (2, .on 2026 6 1, .pending)] ∧
    ∃ db', syncPolicyVersionSchedules springDb 1 (startOfDay (.on 2026 4 1)) = .ok db' ∧
      (∀ key, (Pending db' key ∧ key.entityType = .policyVersion ∧
          ∃ v ∈ db'.facts.policyVersions, v.policyId = 1 ∧ v.id = key.entityId) ↔
        db'.facts.policyActive 1 = true ∧ ∃ v ∈ db'.facts.policyVersions, v.policyId = 1 ∧
          v.FutureBoundary (startOfDay (.on 2026 4 1)) key) := by
  refine ⟨by decide +kernel, ?_⟩
  obtain ⟨db', hsync, _, hexact, _⟩ := version_schedules_exact
    (.ofRows [⟨1, "laptop", .one, "priority", .text⟩]) springCalls (startOfDay (.on 2026 4 1)) 1
    (by decide +kernel) (by decide +kernel)
  exact ⟨db', hsync, hexact⟩

end Warp
