import Warp.TenureScheduling
import Warp.Properties.ResolutionMeaning

/-!
# What the schedules cover

An event is pending for every later day on which a version window opens or closes, and for every
later day on which an employee's tenure reaches a threshold of an effective version. Between two such
days a resolution keeps its meaning.
-/

namespace Warp

open Infra

/-! ## Pending events -/

def Pending (db : Db) (key : EventKey) : Prop :=
  ∃ event ∈ db.scheduledReconciliations, event.eventKey = key ∧ event.status = .pending

/-- Ids come from the sequence, only due events are processed, and nothing schedules an event for an
override. -/
structure EventsSound (db : Db) (now : DateTime) : Prop where
  fresh : ∀ e ∈ db.scheduledReconciliations, e.id < db.sequences.scheduledReconciliation
  processed : ∀ e ∈ db.scheduledReconciliations, ∀ t, e.status = .processed t → e.scheduledAt ≤ now
  sources : ∀ e ∈ db.scheduledReconciliations, e.entityType ≠ .employeeOverride

/-- Events are to come at the keys, and every other pending event is pending still unless it is
given up. -/
structure Replaced (db db' : Db) (now : DateTime) (desired : List EventKey)
    (givenUp : EventKey → Prop) : Prop where
  sound : EventsSound db' now
  scheduled : ∀ key ∈ desired, Pending db' key
  kept : ∀ key, Pending db key → ¬ givenUp key → Pending db' key

/-- Nothing but events changes. -/
structure EventsOnly (db db' : Db) : Prop where
  facts : db'.facts = db.facts
  assignments : db'.employeeAssignments = db.employeeAssignments
  sequences : db'.sequences =
    { db.sequences with scheduledReconciliation := db'.sequences.scheduledReconciliation }

section

variable {db db' : Db} {now : DateTime}

theorem EventsOnly.refl (db : Db) : EventsOnly db db := ⟨rfl, rfl, rfl⟩

theorem EventsOnly.trans {db'' : Db} (h : EventsOnly db db') (h' : EventsOnly db' db'') :
    EventsOnly db db'' where
  facts := h'.facts.trans h.facts
  assignments := h'.assignments.trans h.assignments
  sequences := by rw [h'.sequences, h.sequences]

theorem schedule_eventsOnly {key : EventKey} (h : scheduleReconciliation db key = .ok db') :
    EventsOnly db db' := by
  unfold scheduleReconciliation at h
  split at h
  · exact absurd h (by simp)
  · split at h
    · cases h
      exact ⟨rfl, rfl, rfl⟩
    · split at h <;> cases h <;> exact ⟨rfl, rfl, rfl⟩

theorem replaceEvents_eventsOnly {entityType : EntityType} {entityIds : List ℕ}
    {desired : List EventKey} (h : replaceEvents db entityType entityIds desired = .ok db') :
    EventsOnly db db' := by
  have hcancel : EventsOnly db (cancelPendingReconciliations db entityType entityIds desired) :=
    ⟨rfl, rfl, rfl⟩
  exact runAll_invariant (I := EventsOnly db)
    (fun _ _ _ _ hu hstep => hu.trans (schedule_eventsOnly hstep)) hcancel h

theorem mem_setEventStatus {events : Table ScheduledReconciliation} {eventIds : List ℕ}
    {status : EventStatus} {x : ScheduledReconciliation} :
    x ∈ setEventStatus events eventIds status ↔
      ∃ e ∈ events, (if e.id ∈ eventIds then { e with status := status } else e) = x := by
  rw [setEventStatus, Table.mem_modify]

theorem EventsSound.later (h : EventsSound db now) {now' : DateTime} (hle : now ≤ now') :
    EventsSound db now' where
  fresh := h.fresh
  processed := fun e he t ht => (h.processed e he t ht).trans hle
  sources := h.sources

/-- Setting a status keeps the events sound, if it processes due events only. -/
theorem EventsSound.setStatus (h : EventsSound db now) {eventIds : List ℕ} {status : EventStatus}
    (hdue : ∀ t, status = .processed t → ∀ e ∈ db.scheduledReconciliations, e.id ∈ eventIds →
      e.scheduledAt ≤ now) :
    EventsSound
      { db with
        scheduledReconciliations := setEventStatus db.scheduledReconciliations eventIds status }
      now := by
  constructor
  · intro x hx
    obtain ⟨e, he, rfl⟩ := mem_setEventStatus.mp hx
    split <;> exact h.fresh e he
  · intro x hx t ht
    obtain ⟨e, he, rfl⟩ := mem_setEventStatus.mp hx
    by_cases hid : e.id ∈ eventIds
    · rw [if_pos hid] at ht ⊢
      exact hdue t ht e he hid
    · rw [if_neg hid] at ht ⊢
      exact h.processed e he t ht
  · intro x hx
    obtain ⟨e, he, rfl⟩ := mem_setEventStatus.mp hx
    split <;> exact h.sources e he

/-- A pending event stays pending if its status is not set to anything else. -/
theorem Pending.setStatus {key : EventKey} (h : Pending db key) {eventIds : List ℕ}
    {status : EventStatus}
    (hspared : status = .pending ∨ ∀ e ∈ db.scheduledReconciliations, e.eventKey = key →
      e.status = .pending → e.id ∉ eventIds) :
    Pending
      { db with
        scheduledReconciliations := setEventStatus db.scheduledReconciliations eventIds status }
      key := by
  obtain ⟨e, he, rfl, hpending⟩ := h
  refine ⟨_, mem_setEventStatus.mpr ⟨e, he, rfl⟩, ?_, ?_⟩
  · split <;> rfl
  · by_cases hid : e.id ∈ eventIds
    · rw [if_pos hid]
      exact hspared.resolve_right fun hnot => hnot e he rfl hpending hid
    · rw [if_neg hid]
      exact hpending

theorem findEvent?_eq_some {events : Table ScheduledReconciliation} {key : EventKey}
    {e : ScheduledReconciliation} (h : findEvent? events key = some e) :
    e ∈ events ∧ e.eventKey = key := by
  have hmem := List.mem_of_mem_head? h
  simpa using hmem

/-- Scheduling an event that is still to come makes it pending. An event that was processed was due,
so it is not in the way. -/
theorem schedule_pending {key : EventKey} (hs : EventsSound db now)
    (hfuture : now < key.scheduledAt) (hsource : key.entityType ≠ .employeeOverride)
    (h : scheduleReconciliation db key = .ok db') :
    EventsSound db' now ∧ Pending db' key ∧ ∀ k, Pending db k → Pending db' k := by
  unfold scheduleReconciliation at h
  split at h
  · exact absurd h (by simp)
  · split at h
    · -- a new event
      cases h
      have hfresh : ∀ e ∈ db.scheduledReconciliations,
          Row.key e ≠ Row.key (newEvent db.sequences.scheduledReconciliation key) :=
        fun e he => (hs.fresh e he).ne
      refine ⟨⟨fun x hx => ?_, fun x hx t ht => ?_, fun x hx => ?_⟩,
        ⟨_, Table.mem_insert_self, rfl, rfl⟩, fun k hk => ?_⟩
      · rcases (Table.mem_insert_fresh hfresh).mp hx with rfl | hx
        · exact Nat.lt_succ_self _
        · exact (hs.fresh x hx).trans (Nat.lt_succ_self _)
      · rcases (Table.mem_insert_fresh hfresh).mp hx with rfl | hx
        · cases ht
        · exact hs.processed x hx t ht
      · rcases (Table.mem_insert_fresh hfresh).mp hx with rfl | hx
        · exact hsource
        · exact hs.sources x hx
      · obtain ⟨e, he, hrest⟩ := hk
        exact ⟨e, (Table.mem_insert_fresh hfresh).mpr (Or.inr he), hrest⟩
    · next event hfind =>
      obtain ⟨hevent, rfl⟩ := findEvent?_eq_some hfind
      split at h
      · -- a cancelled event is restored
        cases h
        refine ⟨hs.setStatus fun t ht => absurd ht (by simp), ?_,
          fun k hk => hk.setStatus (Or.inl rfl)⟩
        refine ⟨_, mem_setEventStatus.mpr ⟨event, hevent, rfl⟩, ?_, ?_⟩
        · split <;> rfl
        · rw [if_pos (List.mem_singleton_self _)]
      · next hcancelled =>
        cases h
        refine ⟨hs, ⟨event, hevent, rfl, ?_⟩, fun k hk => hk⟩
        cases hstatus : event.status with
        | pending => rfl
        | processed t => exact absurd (hs.processed event hevent t hstatus) (not_le.mpr hfuture)
        | cancelled => exact absurd hstatus hcancelled

theorem runAll_schedule : ∀ {desired : List EventKey} {db : Db}, EventsSound db now →
    (∀ key ∈ desired, now < key.scheduledAt ∧ key.entityType ≠ .employeeOverride) →
      runAll scheduleReconciliation db desired = .ok db' →
        EventsSound db' now ∧ (∀ key ∈ desired, Pending db' key) ∧
          ∀ k, Pending db k → Pending db' k
  | [], _, hs, _, h => by
    cases h
    exact ⟨hs, by simp, fun _ hk => hk⟩
  | key :: rest, db, hs, hdesired, h => by
    obtain ⟨db₁, hstep, hrest⟩ := runAll_cons.mp h
    obtain ⟨hfuture, hsource⟩ := hdesired key List.mem_cons_self
    obtain ⟨hs₁, hkey, hkept₁⟩ := schedule_pending hs hfuture hsource hstep
    obtain ⟨hs', hscheduled, hkept⟩ := runAll_schedule hs₁
      (fun k hk => hdesired k (List.mem_cons_of_mem _ hk)) hrest
    refine ⟨hs', fun k hk => ?_, fun k hk => hkept k (hkept₁ k hk)⟩
    rcases List.mem_cons.mp hk with rfl | hk
    · exact hkept _ hkey
    · exact hscheduled k hk

/-- Replacing gives up the events of the entities that are not desired any more. -/
theorem replaceEvents_replaced {entityType : EntityType} {entityIds : List ℕ}
    {desired : List EventKey} (hs : EventsSound db now)
    (hdesired : ∀ key ∈ desired, now < key.scheduledAt ∧ key.entityType ≠ .employeeOverride)
    (h : replaceEvents db entityType entityIds desired = .ok db') :
    Replaced db db' now desired fun key =>
      key.entityType = entityType ∧ key.entityId ∈ entityIds ∧ key ∉ desired := by
  have hcancel : EventsSound (cancelPendingReconciliations db entityType entityIds desired) now :=
    hs.setStatus fun t ht => absurd ht (by simp)
  obtain ⟨hsound, hscheduled, hkept⟩ := runAll_schedule hcancel hdesired h
  refine ⟨hsound, hscheduled, fun key hpending hspared => hkept key ?_⟩
  refine hpending.setStatus (Or.inr fun e he hkey hstatus hid => hspared ?_)
  obtain ⟨e', he', hsame⟩ := List.mem_map.mp hid
  obtain ⟨hmem, hobsolete⟩ := Table.mem_select.mp he'
  have heq : e' = e := Table.key_inj hmem he hsame
  rw [heq] at hobsolete
  simp only [Bool.and_eq_true, decide_eq_true_eq, Bool.not_eq_true', decide_eq_false_iff_not,
    List.contains_eq_mem] at hobsolete
  obtain ⟨⟨⟨htype, hentity⟩, _⟩, hnot⟩ := hobsolete
  rw [← hkey]
  exact ⟨htype, hentity, hnot⟩

end

/-! ## Covered versions and covered tenures -/

/-- Every window of an active version that is still to open or to close has its event. -/
def VersionsCovered (db : Db) (now : DateTime) : Prop :=
  ∀ v ∈ db.facts.policyVersions, db.facts.policyActive v.policyId = true →
    ∀ key ∈ versionEvents now v, Pending db key

/-- Every threshold that the employee is still to reach has its event. -/
def TenureCovered (db : Db) (now : DateTime) (employee : Employee) : Prop :=
  ∀ condition ∈ tenureConditions db.facts.toRules, ∃ keys,
    tenureEventsOf employee now condition = .ok keys ∧ ∀ key ∈ keys, Pending db key

section

variable {db db' : Db} {now : DateTime} {key : EventKey} {employee : Employee}

theorem mem_futureEvent {entityType : EntityType} {entityId : ℕ} {triggerType : TriggerType}
    {day : Date} : key ∈ futureEvent entityType entityId triggerType day now ↔
      now < startOfDay day ∧ key = ⟨entityType, entityId, triggerType, startOfDay day⟩ := by
  unfold futureEvent
  split
  · next h => simp [h]
  · next h => simp [h]

theorem mem_versionEvents {v : PolicyVersion} : key ∈ versionEvents now v ↔
    (now < startOfDay v.effectiveFrom ∧
      key = ⟨.policyVersion, v.id, .becomesEffective, startOfDay v.effectiveFrom⟩) ∨
    ∃ last next, v.effectiveUntil = some last ∧ last.succ? = some next ∧ now < startOfDay next ∧
      key = ⟨.policyVersion, v.id, .expires, startOfDay next⟩ := by
  unfold versionEvents
  rw [List.mem_append, mem_futureEvent]
  refine or_congr_right ?_
  cases hb : v.effectiveUntil.bind Date.succ? with
  | none =>
    simp only [List.not_mem_nil, false_iff]
    rintro ⟨last, next, hlast, hnext, _⟩
    rw [hlast, Option.bind_some, hnext] at hb
    cases hb
  | some next =>
    dsimp only
    obtain ⟨last, hlast, hnext⟩ := Option.bind_eq_some_iff.mp hb
    rw [mem_futureEvent]
    constructor
    · exact fun h => ⟨last, next, hlast, hnext, h⟩
    · rintro ⟨last', next', hlast', hnext', h⟩
      rw [hlast] at hlast'
      cases hlast'
      rw [hnext] at hnext'
      cases hnext'
      exact h

theorem versionEvents_key {v : PolicyVersion} (h : key ∈ versionEvents now v) :
    key.entityType = .policyVersion ∧ key.entityId = v.id ∧ now < key.scheduledAt := by
  rcases mem_versionEvents.mp h with ⟨hnow, rfl⟩ | ⟨_, _, _, _, hnow, rfl⟩
  · exact ⟨rfl, rfl, hnow⟩
  · exact ⟨rfl, rfl, hnow⟩

/-- The events of a version become fewer. -/
theorem versionEvents_later {v : PolicyVersion} {now' : DateTime} (hle : now ≤ now')
    (h : key ∈ versionEvents now' v) : key ∈ versionEvents now v := by
  rw [mem_versionEvents] at h ⊢
  rcases h with ⟨hnow, hkey⟩ | ⟨last, next, hlast, hnext, hnow, hkey⟩
  · exact Or.inl ⟨hle.trans_lt hnow, hkey⟩
  · exact Or.inr ⟨last, next, hlast, hnext, hle.trans_lt hnow, hkey⟩

theorem tenureEventsOf_eq_ok {condition : CompiledPolicyCondition × PolicyVersion}
    {keys : List EventKey} : tenureEventsOf employee now condition = .ok keys ↔
      ∃ days, tenureTransitionDates employee.startDate condition.1.operator condition.1.value =
          .ok days ∧
        (days.filter condition.2.effectiveOn).flatMap (fun day =>
          futureEvent .employee employee.id .tenureThreshold day now) = keys := by
  rw [tenureEventsOf, exceptMap_eq_ok]

theorem mem_tenureEvents {days : List Date} {v : PolicyVersion} :
    key ∈ (days.filter v.effectiveOn).flatMap (fun day =>
        futureEvent .employee employee.id .tenureThreshold day now) ↔
      ∃ day ∈ days, v.effectiveOn day = true ∧ now < startOfDay day ∧
        key = ⟨.employee, employee.id, .tenureThreshold, startOfDay day⟩ := by
  simp only [List.mem_flatMap, List.mem_filter, mem_futureEvent, and_assoc]

theorem tenureEventsOf_key {condition : CompiledPolicyCondition × PolicyVersion}
    {keys : List EventKey} (h : tenureEventsOf employee now condition = .ok keys)
    (hkey : key ∈ keys) :
    key.entityType = .employee ∧ key.entityId = employee.id ∧ now < key.scheduledAt := by
  obtain ⟨days, _, rfl⟩ := tenureEventsOf_eq_ok.mp h
  obtain ⟨day, _, _, hnow, rfl⟩ := mem_tenureEvents.mp hkey
  exact ⟨rfl, rfl, hnow⟩

theorem VersionsCovered.later (h : VersionsCovered db now) {now' : DateTime} (hle : now ≤ now') :
    VersionsCovered db now' :=
  fun v hv hactive key hkey => h v hv hactive key (versionEvents_later hle hkey)

theorem TenureCovered.later (h : TenureCovered db now employee) {now' : DateTime}
    (hle : now ≤ now') : TenureCovered db now' employee := by
  intro condition hcondition
  obtain ⟨keys, hkeys, hpending⟩ := h condition hcondition
  obtain ⟨days, hdays, rfl⟩ := tenureEventsOf_eq_ok.mp hkeys
  refine ⟨_, tenureEventsOf_eq_ok.mpr ⟨days, hdays, rfl⟩, fun key hkey => hpending key ?_⟩
  obtain ⟨day, hday, heffective, hnow, rfl⟩ := mem_tenureEvents.mp hkey
  exact mem_tenureEvents.mpr ⟨day, hday, heffective, hle.trans_lt hnow, rfl⟩

/-- Of the employee's row the tenure events use id and start date. -/
theorem TenureCovered.row (h : TenureCovered db now employee) {e : Employee}
    (hid : e.id = employee.id) (hstart : e.startDate = employee.startDate) :
    TenureCovered db now e := by
  intro condition hcondition
  obtain ⟨keys, hkeys, hpending⟩ := h condition hcondition
  refine ⟨keys, ?_, hpending⟩
  rw [← hkeys, tenureEventsOf, tenureEventsOf, hid, hstart]

/-- What is covered stays covered while the rules do and the events are pending. -/
theorem VersionsCovered.kept (h : VersionsCovered db now)
    (hversions : db'.facts.policyVersions = db.facts.policyVersions)
    (hactive : ∀ p, db'.facts.policyActive p = db.facts.policyActive p)
    (hpending : ∀ key, Pending db key → key.entityType = .policyVersion → now < key.scheduledAt →
      Pending db' key) : VersionsCovered db' now := by
  intro v hv hpolicy key hkey
  rw [hversions] at hv
  rw [hactive] at hpolicy
  obtain ⟨htype, _, hnow⟩ := versionEvents_key hkey
  exact hpending key (h v hv hpolicy key hkey) htype hnow

theorem TenureCovered.kept (h : TenureCovered db now employee)
    (hconditions : tenureConditions db'.facts.toRules = tenureConditions db.facts.toRules)
    (hpending : ∀ key, Pending db key → key.entityType = .employee → key.entityId = employee.id →
      now < key.scheduledAt → Pending db' key) : TenureCovered db' now employee := by
  intro condition hcondition
  rw [hconditions] at hcondition
  obtain ⟨keys, hkeys, hcovered⟩ := h condition hcondition
  refine ⟨keys, hkeys, fun key hkey => ?_⟩
  obtain ⟨htype, hid, hnow⟩ := tenureEventsOf_key hkeys hkey
  exact hpending key (hcovered key hkey) htype hid hnow

/-! ## Synchronising -/

/-- A synchronisation of the versions of one policy covers all, if the others were covered. -/
theorem syncVersions_covered {policyId : ℕ} (hs : EventsSound db now)
    (hothers : ∀ v ∈ db.facts.policyVersions, v.policyId ≠ policyId →
      db.facts.policyActive v.policyId = true → ∀ key ∈ versionEvents now v, Pending db key)
    (h : syncPolicyVersionSchedules db policyId now = .ok db') :
    EventsSound db' now ∧ VersionsCovered db' now ∧ EventsOnly db db' := by
  have hmem : ∀ v, v ∈ policyVersionsOf db.facts.toRules policyId ↔
      v ∈ db.facts.policyVersions ∧ v.policyId = policyId := by
    intro v
    simp [policyVersionsOf]
  have hdesired : ∀ key ∈ desiredVersionEvents db.facts.toRules policyId now,
      now < key.scheduledAt ∧ key.entityType ≠ .employeeOverride := by
    intro key hkey
    unfold desiredVersionEvents at hkey
    split at hkey
    · obtain ⟨v, _, hkey⟩ := List.mem_flatMap.mp hkey
      obtain ⟨htype, _, hnow⟩ := versionEvents_key hkey
      refine ⟨hnow, ?_⟩
      rw [htype]
      decide
    · exact absurd hkey List.not_mem_nil
  have hreplaced := replaceEvents_replaced hs hdesired h
  have honly := replaceEvents_eventsOnly h
  refine ⟨hreplaced.sound, fun v hv hactive key hkey => ?_, honly⟩
  rw [honly.facts] at hv hactive
  by_cases hpolicy : v.policyId = policyId
  · refine hreplaced.scheduled key ?_
    rw [desiredVersionEvents, if_pos (by rw [← hpolicy]; exact hactive)]
    exact List.mem_flatMap.mpr ⟨v, (hmem v).mpr ⟨hv, hpolicy⟩, hkey⟩
  · refine hreplaced.kept key (hothers v hv hpolicy hactive key hkey) ?_
    rintro ⟨_, hid, _⟩
    obtain ⟨w, hw, hsame⟩ := List.mem_map.mp hid
    obtain ⟨hwmem, hwpolicy⟩ := (hmem w).mp hw
    have heq : w = v := Table.key_inj hwmem hv (hsame.trans (versionEvents_key hkey).2.1)
    rw [heq] at hwpolicy
    exact hpolicy hwpolicy

/-- A synchronisation of an employee covers the employee's tenure and gives up nothing else. -/
theorem syncTenure_covered (hs : EventsSound db now)
    (h : syncEmployeeTenureSchedules db employee now = .ok db') :
    EventsSound db' now ∧ TenureCovered db' now employee ∧ EventsOnly db db' ∧
      ∀ key, Pending db key → ¬ (key.entityType = .employee ∧ key.entityId = employee.id) →
        Pending db' key := by
  unfold syncEmployeeTenureSchedules at h
  split at h
  · exact absurd h (by simp)
  · next desired hdesired =>
    obtain ⟨lists, hlists, rfl⟩ := exceptMap_eq_ok.mp hdesired
    have hfuture : ∀ key ∈ lists.flatten.eraseDups,
        now < key.scheduledAt ∧ key.entityType ≠ .employeeOverride := by
      intro key hkey
      obtain ⟨keys, hkeys, hkey⟩ := List.mem_flatten.mp (List.mem_eraseDups.mp hkey)
      obtain ⟨condition, _, hevents⟩ := mem_of_traverseAll hlists hkeys
      obtain ⟨htype, _, hnow⟩ := tenureEventsOf_key hevents hkey
      refine ⟨hnow, ?_⟩
      rw [htype]
      decide
    have hreplaced := replaceEvents_replaced hs hfuture h
    have honly := replaceEvents_eventsOnly h
    refine ⟨hreplaced.sound, fun condition hcondition => ?_, honly, fun key hkey hother => ?_⟩
    · rw [honly.facts] at hcondition
      obtain ⟨keys, hkeys, hevents⟩ := traverseAll_mem hlists hcondition
      refine ⟨keys, hevents, fun key hkey => hreplaced.scheduled key ?_⟩
      exact List.mem_eraseDups.mpr (List.mem_flatten.mpr ⟨keys, hkeys, hkey⟩)
    · exact hreplaced.kept key hkey fun hgiven =>
        hother ⟨hgiven.1, List.mem_singleton.mp hgiven.2.1⟩

/-- Over several employees: whoever was covered or comes up is covered in the end. -/
theorem runAll_syncTenure : ∀ {employees : List Employee} {db : Db}, EventsSound db now →
    (employees.map fun e => e.id).Nodup →
    runAll (fun db employee => syncEmployeeTenureSchedules db employee now) db employees = .ok db' →
      EventsSound db' now ∧ EventsOnly db db' ∧
        (∀ key, Pending db key → key.entityType ≠ .employee → Pending db' key) ∧
        (∀ e, TenureCovered db now e → e.id ∉ employees.map (fun e => e.id) →
          TenureCovered db' now e) ∧
        ∀ e ∈ employees, TenureCovered db' now e
  | [], _, hs, _, h => by
    cases h
    exact ⟨hs, .refl _, fun _ hk _ => hk, fun _ he _ => he, by simp⟩
  | e :: rest, db, hs, hnodup, h => by
    obtain ⟨db₁, hstep, hrest⟩ := runAll_cons.mp h
    obtain ⟨hfresh, hnodup⟩ := List.nodup_cons.mp hnodup
    obtain ⟨hs₁, hcovered, honly₁, hkept₁⟩ := syncTenure_covered hs hstep
    obtain ⟨hs', honly, hkept, hothers, hall⟩ := runAll_syncTenure hs₁ hnodup hrest
    refine ⟨hs', honly₁.trans honly, fun key hkey htype => ?_, fun x hx hnot => ?_, fun x hx => ?_⟩
    · exact hkept key (hkept₁ key hkey fun hgiven => htype hgiven.1) htype
    · rw [List.map_cons, List.mem_cons, not_or] at hnot
      refine hothers x (hx.kept (by rw [honly₁.facts]) fun key hkey _ hid _ => ?_) hnot.2
      exact hkept₁ key hkey fun hgiven => hnot.1 (hid.symm.trans hgiven.2)
    · rcases List.mem_cons.mp hx with rfl | hx
      · exact hothers x hcovered hfresh
      · exact hall x hx

theorem syncAllTenure_covered (hs : EventsSound db now)
    (h : syncAllEmployeeTenureSchedules db now = .ok db') :
    EventsSound db' now ∧ EventsOnly db db' ∧
      (∀ key, Pending db key → key.entityType ≠ .employee → Pending db' key) ∧
      ∀ e ∈ db.facts.employees, TenureCovered db' now e := by
  obtain ⟨hs', honly, hkept, _, hall⟩ :=
    runAll_syncTenure hs (Table.keys_nodup db.facts.employees) h
  exact ⟨hs', honly, hkept, hall⟩

end

/-! ## Until the next event -/

/-- Events of policy versions concern everybody. -/
def EventKey.Concerns (key : EventKey) (employeeId : ℕ) : Prop :=
  key.entityType = .policyVersion ∨ (key.entityType = .employee ∧ key.entityId = employeeId)

/-- No pending event that concerns the employee has come. -/
def QuietUntil (db : Db) (employeeId : ℕ) (t : DateTime) : Prop :=
  ∀ key, Pending db key → key.Concerns employeeId → t < key.scheduledAt

theorem effectiveOn_between {v : PolicyVersion} {a b day : Date} (ha : v.effectiveOn a = true)
    (hb : v.effectiveOn b = true) (had : a ≤ day) (hdb : day ≤ b) : v.effectiveOn day = true := by
  rw [effectiveOn_iff] at ha hb ⊢
  exact ⟨ha.1.trans had, fun last hlast => hdb.trans (hb.2 last hlast)⟩

/-- A comparison of a tenure keeps its answer on days between which no transition lies. -/
theorem compareTenure_eq {startDate day day' : Date} {operator : Operator} {years : ℕ}
    {days : List Date} (hdays : traverseAll (addCalendarYears startDate)
      (transitionYears operator years) = .ok days) (hle : day ≤ day')
    (hnone : ∀ d ∈ days, d ≤ day ∨ day' < d) :
    compareTenure startDate day' operator years = compareTenure startDate day operator years := by
  have hreached : ∀ n d, n ∈ transitionYears operator years → addCalendarYears startDate n = .ok d →
      (d ≤ day' ↔ d ≤ day) := by
    intro n d hn hd
    obtain ⟨d', hd', hsame⟩ := traverseAll_mem hdays hn
    rw [hd] at hsame
    cases hsame
    rcases hnone d hd' with h | h
    · exact iff_of_true (h.trans hle) h
    · exact iff_of_false (not_le.mpr h) (not_le.mpr (hle.trans_lt h))
  unfold compareTenure
  cases hthreshold : addCalendarYears startDate years with
  | error e => rfl
  | ok threshold =>
    dsimp only
    cases hnext : addCalendarYears startDate (years + 1) with
    | error e => rfl
    | ok next =>
      have hfirst := fun hn => hreached years threshold hn hthreshold
      have hsecond := fun hn => hreached (years + 1) next hn hnext
      cases operator with
      | eq =>
        have h1 := hfirst (by simp [transitionYears])
        have h2 := hsecond (by simp [transitionYears])
        simp only [h1, ← not_le, h2]
      | lt =>
        have h1 := hfirst (by simp [transitionYears])
        simp only [← not_le, h1]
      | le =>
        have h2 := hsecond (by simp [transitionYears])
        simp only [← not_le, h2]
      | gt =>
        have h2 := hsecond (by simp [transitionYears])
        simp only [h2]
      | ge =>
        have h1 := hfirst (by simp [transitionYears])
        simp only [h1]

/-- Evaluating a tenure compares the years that the transitions are computed from. -/
theorem tenureYears?_eq_some {definition : ConditionFieldDefinition} {operator : Operator}
    {value : String} {years : ℕ} (h : tenureYears? definition operator value = some years) :
    isTenureDefinition definition = true ∧ calendarDurationYears value = .ok years := by
  have hkeys : ∀ spec ∈ conditionFieldSpecs, spec.resolver = .tenure → spec.key = "tenure" := by
    decide +kernel
  unfold tenureYears? at h
  split at h
  · exact absurd h (by simp)
  · next spec hspec =>
    split at h
    · next htenure =>
      obtain ⟨hmem, hkey, hactive, _⟩ := supportedSpec?_mem hspec
      have hyears : calendarDurationYears value = .ok years := by
        cases hvalue : calendarDurationYears value with
        | error e =>
          rw [hvalue] at h
          cases h
        | ok n =>
          rw [hvalue] at h
          cases h
          rfl
      refine ⟨?_, hyears⟩
      rw [isTenureDefinition, ← hkey, hkeys spec hmem htenure.1, hactive]
      rfl
    · exact absurd h (by simp)

section

variable {db : Db} {now t : DateTime} {employee : Employee}

theorem effectiveOn_quiet {v : PolicyVersion} (hcovered : VersionsCovered db now)
    (hle : now ≤ t) (hquiet : QuietUntil db employee.id t) (hv : v ∈ db.facts.policyVersions)
    (hactive : db.facts.policyActive v.policyId = true) :
    v.effectiveOn t.date = v.effectiveOn now.date := by
  have hdate := DateTime.date_mono hle
  have hkey : ∀ key ∈ versionEvents now v, t < key.scheduledAt := by
    intro key hkey
    exact hquiet key (hcovered v hv hactive key hkey) (Or.inl (versionEvents_key hkey).1)
  have hfrom : v.effectiveFrom ≤ t.date ↔ v.effectiveFrom ≤ now.date := by
    by_cases hopen : v.effectiveFrom ≤ now.date
    · exact iff_of_true (hopen.trans hdate) hopen
    · refine iff_of_false (not_le.mpr ?_) hopen
      have hfuture : now < startOfDay v.effectiveFrom := lt_startOfDay.mpr (not_le.mp hopen)
      have hevent := hkey ⟨.policyVersion, v.id, .becomesEffective, startOfDay v.effectiveFrom⟩
        (mem_versionEvents.mpr (Or.inl ⟨hfuture, rfl⟩))
      exact lt_startOfDay.mp hevent
  have huntil : ∀ last, v.effectiveUntil = some last → (t.date ≤ last ↔ now.date ≤ last) := by
    intro last hlast
    by_cases hend : last < Date.max
    · obtain ⟨next, hnext⟩ := Date.succ?_isSome hend
      rw [← Date.lt_succ hnext, ← Date.lt_succ hnext]
      by_cases hclosed : now.date < next
      · refine iff_of_true ?_ hclosed
        have hfuture : now < startOfDay next := lt_startOfDay.mpr hclosed
        have hevent := hkey ⟨.policyVersion, v.id, .expires, startOfDay next⟩
          (mem_versionEvents.mpr (Or.inr ⟨last, next, hlast, hnext, hfuture, rfl⟩))
        exact lt_startOfDay.mp hevent
      · exact iff_of_false (fun h => hclosed (hdate.trans_lt h)) hclosed
    · -- the last day of the calendar never passes
      have hmax := not_lt.mp hend
      exact iff_of_true ((Date.le_max _).trans hmax) ((Date.le_max _).trans hmax)
  rw [Bool.eq_iff_iff, effectiveOn_iff, effectiveOn_iff, hfrom]
  exact and_congr_right fun _ => forall₂_congr huntil

theorem effectiveRows_quiet (hcovered : VersionsCovered db now) (hle : now ≤ t)
    (hquiet : QuietUntil db employee.id t) {v : PolicyVersion} :
    v ∈ effectiveRows db.facts.toRules none t.date ↔
      v ∈ effectiveRows db.facts.toRules none now.date := by
  rw [mem_effectiveRows, mem_effectiveRows]
  refine and_congr_right fun hv => and_congr_right fun hactive => ?_
  rw [effectiveOn_quiet hcovered hle hquiet hv hactive]

/-- A tenure condition of an effective version keeps its answer: the version is effective on every day
in between, so a transition there would have an event. -/
theorem compareTenure_quiet (hversions : VersionsCovered db now)
    (htenure : TenureCovered db now employee) (hle : now ≤ t)
    (hquiet : QuietUntil db employee.id t) {c : CompiledPolicyCondition}
    (hc : EffectiveCondition db.facts.toRules now.date c) {definition : ConditionFieldDefinition}
    (hdef : db.facts.conditionFieldDefinitions.find? c.conditionFieldDefinitionId = some definition)
    {years : ℕ} (hyears : tenureYears? definition c.operator c.value = some years) :
    compareTenure employee.startDate t.date c.operator years =
      compareTenure employee.startDate now.date c.operator years := by
  obtain ⟨v, hv, clause, hclause, hversion, hrow⟩ := hc
  obtain ⟨hrow, hclauseId⟩ := mem_clauseConditions.mp hrow
  obtain ⟨htenureField, hvalue⟩ := tenureYears?_eq_some hyears
  obtain ⟨hvmem, hvactive, hvnow, _⟩ := mem_effectiveRows.mp hv
  have hvlater := (mem_effectiveRows.mp ((effectiveRows_quiet hversions hle hquiet).mpr hv)).2.2.1
  have hcondition : (c, v) ∈ tenureConditions db.facts.toRules := by
    have hfindClause : db.facts.compiledPolicyClauses.find? c.clauseId = some clause := by
      rw [hclauseId]
      exact Table.find?_key hclause
    have hfindVersion : db.facts.policyVersions.find? clause.policyVersionId = some v := by
      rw [hversion]
      exact Table.find?_key hvmem
    refine List.mem_filterMap.mpr ⟨c, hrow, ?_⟩
    simp [tenureVersion?, hdef, hfindClause, hfindVersion, htenureField, hvactive]
  obtain ⟨keys, hkeys, hpending⟩ := htenure (c, v) hcondition
  obtain ⟨days, hdays, rfl⟩ := tenureEventsOf_eq_ok.mp hkeys
  rw [tenureTransitionDates, hvalue] at hdays
  refine compareTenure_eq hdays (DateTime.date_mono hle) fun d hd => ?_
  by_cases hreached : d ≤ now.date
  · exact Or.inl hreached
  · refine Or.inr (not_le.mp fun hpassed => ?_)
    have hbetween := effectiveOn_between hvnow hvlater (not_le.mp hreached).le hpassed
    have hfuture : now < startOfDay d := lt_startOfDay.mpr (not_le.mp hreached)
    have hevent := hquiet ⟨.employee, employee.id, .tenureThreshold, startOfDay d⟩
      (hpending _ (mem_tenureEvents.mpr ⟨d, hd, hbetween, hfuture, rfl⟩)) (Or.inr ⟨rfl, rfl⟩)
    exact absurd hpassed (not_le.mpr (lt_startOfDay.mp hevent))

/-- Until an event comes that concerns the employee, the resolution says the same. -/
theorem resolvedIdentities_quiet (hversions : VersionsCovered db now)
    (hemployee : employee ∈ db.facts.employees) (htenure : TenureCovered db now employee)
    (hle : now ≤ t) (hquiet : QuietUntil db employee.id t) :
    resolvedIdentities db.facts employee.id t.date =
      resolvedIdentities db.facts employee.id now.date := by
  have hsame : SameMeaning db.facts db.facts employee now.date t.date :=
    { values := rfl
      fields := rfl
      clauses := rfl
      conditions := rfl
      effective := fun _ => effectiveRows_quiet hversions hle hquiet
      results := fun c hc => by
        refine conditionResult_congr (fun resolver hne => ?_) fun definition years hdef hyears => ?_
        · cases resolver <;> first | rfl | exact absurd rfl hne
        · exact compareTenure_quiet hversions htenure hle hquiet hc hdef hyears
      groups := fun _ => Iff.rfl
      overrides := rfl }
  exact hsame.identities hemployee hemployee

end

end Warp
