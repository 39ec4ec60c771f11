import Warp.ScheduleTransactions

/-!
# Events without an entity

The worker stops at a pending event whose employee is gone, so no commit may leave one behind. One
transaction schedules events of the employees that it has read, another cancels the events that it
has read and deletes their employee.
-/

namespace Warp

open Infra

/-- The entity of an event is there. Nothing schedules events of overrides. -/
def EntityExists (facts : Facts) : EntityType → ℕ → Prop
  | .policyVersion, id => (facts.policyVersions.find? id).isSome
  | .employee, id => (facts.employees.find? id).isSome
  | .employeeOverride, _ => False

instance EntityExists.decidable (facts : Facts) :
    ∀ entityType id, Decidable (EntityExists facts entityType id)
  | .policyVersion, id => inferInstanceAs (Decidable ((facts.policyVersions.find? id).isSome = true))
  | .employee, id => inferInstanceAs (Decidable ((facts.employees.find? id).isSome = true))
  | .employeeOverride, _ => inferInstanceAs (Decidable False)

def PendingEventsRefer (db : Db) : Prop :=
  ∀ e ∈ db.scheduledReconciliations, e.status = .pending →
    EntityExists db.facts e.entityType e.entityId

/-- No transaction is about to raise `ScheduledReconciliationEntityNotFoundError`. -/
def EntitiesFound (w : ScheduleWorld) : Prop :=
  ∀ (t : ℕ) e todo writes, w.fates[t]? = some (.live ⟨.collect e :: todo, writes⟩) → ∀ name id,
    collectEntity (w.view scheduleCode ⟨.collect e :: todo, writes⟩).facts {} e ≠
      .error (.scheduledReconciliationEntityNotFound name id)

/-- The write makes the event with a key pending. -/
def ScheduleWrite.Schedules (key : EventKey) : ScheduleWrite → Prop
  | .insertEvent e => e.eventKey = key
  | .setStatus e .pending => e.eventKey = key
  | _ => False

/-- The employees whose events were scheduled are still there, and the pending events of an employee
that is deleted have all been cancelled. -/
def EventsStillRefer (db : Db) (writes : List ScheduleWrite) : Prop :=
  (∀ x ∈ writes, ∀ key, x.Schedules key → key.entityType = .employee →
    (db.facts.employees.find? key.entityId).isSome ∨
      ∃ e, .employee (.insert e) ∈ writes ∧ e.id = key.entityId) ∧
  ∀ id, .employee (.delete id) ∈ writes → ∀ e ∈ db.scheduledReconciliations, e.status = .pending →
    e.entityType = .employee → e.entityId = id → .setStatus e .cancelled ∈ writes

/-! ## Writes -/

section

variable {db : Db} {x : ScheduleWrite} {writes : List ScheduleWrite} {e : ScheduledReconciliation}
variable {id : ℕ}

theorem mem_updateEventStatus {events : Table ScheduledReconciliation}
    {event : ScheduledReconciliation} {status : EventStatus} :
    e ∈ updateEventStatus events event status ↔
      (e ∈ events ∧ ¬(e.id = event.id ∧ e.eventKey = event.eventKey)) ∨
        ∃ r ∈ events, (r.id = event.id ∧ r.eventKey = event.eventKey) ∧
          { r with status := status } = e :=
  Table.mem_modify_if

/-- A write that does not touch events leaves them as they are. -/
theorem scheduledReconciliations_applyScheduleWrite (hinsert : ∀ e, x ≠ .insertEvent e)
    (hset : ∀ e status, x ≠ .setStatus e status) :
    (applyScheduleWrite db x).scheduledReconciliations = db.scheduledReconciliations := by
  cases x with
  | insertEvent e => exact absurd rfl (hinsert e)
  | setStatus e status => exact absurd rfl (hset e status)
  | employee x => cases x <;> rfl
  | version x | values versionId values | clause clause | condition condition => rfl

/-- A pending event was scheduled by the write, or pending before and not cancelled by it. -/
theorem pending_applyScheduleWrite (he : e ∈ (applyScheduleWrite db x).scheduledReconciliations)
    (hpending : e.status = .pending) :
    x.Schedules e.eventKey ∨ (e ∈ db.scheduledReconciliations ∧ x ≠ .setStatus e .cancelled) := by
  cases x with
  | insertEvent event =>
    rcases Table.mem_insert.mp he with rfl | ⟨he, _⟩
    · exact Or.inl rfl
    · exact Or.inr ⟨he, by simp⟩
  | setStatus event status =>
    rcases mem_updateEventStatus.mp he with ⟨he, hne⟩ | ⟨r, _, ⟨_, hkey⟩, rfl⟩
    · refine Or.inr ⟨he, fun heq => hne ?_⟩
      cases heq
      exact ⟨rfl, rfl⟩
    · cases hpending
      exact Or.inl hkey.symm
  | employee x =>
    rw [scheduledReconciliations_applyScheduleWrite (by simp) (by simp)] at he
    exact Or.inr ⟨he, by simp⟩
  | version x | values versionId values | clause clause | condition condition =>
    exact Or.inr ⟨he, by simp⟩

theorem pending_after : ∀ (writes : List ScheduleWrite) {db : Db},
    e ∈ (writes.foldl applyScheduleWrite db).scheduledReconciliations → e.status = .pending →
      (∃ x ∈ writes, x.Schedules e.eventKey) ∨
        (e ∈ db.scheduledReconciliations ∧ .setStatus e .cancelled ∉ writes)
  | [], _, he, _ => Or.inr ⟨he, List.not_mem_nil⟩
  | x :: writes, db, he, hpending => by
    rcases pending_after writes he hpending with ⟨y, hy, hkey⟩ | ⟨he, hrest⟩
    · exact Or.inl ⟨y, List.mem_cons_of_mem _ hy, hkey⟩
    · rcases pending_applyScheduleWrite he hpending with hkey | ⟨he, hx⟩
      · exact Or.inl ⟨x, List.mem_cons_self, hkey⟩
      · refine Or.inr ⟨he, fun hmem => ?_⟩
        rcases List.mem_cons.mp hmem with rfl | hmem
        · exact hx rfl
        · exact hrest hmem

/-- An event stays as it is where no write updates or replaces its row. -/
theorem event_applyScheduleWrite (hinsert : ∀ r, x = .insertEvent r → r.id ≠ e.id)
    (hset : ∀ r status, x = .setStatus r status → r.id ≠ e.id)
    (he : e ∈ db.scheduledReconciliations) :
    e ∈ (applyScheduleWrite db x).scheduledReconciliations := by
  cases x with
  | insertEvent event => exact Table.mem_insert.mpr (Or.inr ⟨he, (hinsert event rfl).symm⟩)
  | setStatus event status =>
    exact mem_updateEventStatus.mpr (Or.inl ⟨he, fun h => hset event status rfl h.1.symm⟩)
  | employee x =>
    rw [scheduledReconciliations_applyScheduleWrite (by simp) (by simp)]
    exact he
  | version x | values versionId values | clause clause | condition condition => exact he

/-! ## Entities after writes -/

theorem isSome_find?_modifyEmployee {employees : Table Employee} {other : ℕ}
    {f : Employee → Employee} (hf : ∀ e, (f e).id = e.id) (h : (employees.find? id).isSome) :
    ((modifyEmployee employees other f hf).find? id).isSome := by
  rw [modifyEmployee, Table.find?_modify, Option.isSome_map]
  exact h

/-- Only a delete removes an employee. -/
theorem employee_applyScheduleWrite (hdelete : x ≠ .employee (.delete id))
    (h : (db.facts.employees.find? id).isSome) :
    ((applyScheduleWrite db x).facts.employees.find? id).isSome := by
  cases x with
  | employee x =>
    cases x with
    | insert e => exact Table.isSome_find?_insert h
    | update loaded updated =>
      exact isSome_find?_modifyEmployee (mergeEmployee_id loaded updated) h
    | clearManager other => exact isSome_find?_modifyEmployee unmanaged_id h
    | delete other =>
      have hne : id ≠ other := fun heq => hdelete (by rw [heq])
      obtain ⟨r, hr, hid⟩ := Table.isSome_find?.mp h
      show ((withoutEmployee db.facts.employees other).find? id).isSome
      rw [withoutEmployee, Table.find?_modify, Option.isSome_map, Table.isSome_find?]
      refine ⟨r, Table.mem_filter.mpr ⟨hr, decide_eq_true fun heq => hne ?_⟩, hid⟩
      rw [← hid, ← heq]
      rfl
  | version x | values versionId values | clause clause | condition condition
  | insertEvent event | setStatus event status => exact h

theorem employee_after (hdelete : .employee (.delete id) ∉ writes)
    (h : (db.facts.employees.find? id).isSome ∨
      ∃ e, .employee (.insert e) ∈ writes ∧ e.id = id) :
    ((writes.foldl applyScheduleWrite db).facts.employees.find? id).isSome := by
  refine foldl_reaches (P := fun db : Db => (db.facts.employees.find? id).isSome = true) writes
    (fun x hx s hs => employee_applyScheduleWrite (fun heq => hdelete (by rwa [← heq])) hs) ?_
  refine h.imp_right fun ⟨e, he, hid⟩ => ⟨_, he, fun s => ?_⟩
  exact Table.isSome_find?.mpr ⟨e, Table.mem_insert_self, hid⟩

/-- Nothing removes a version. -/
theorem version_applyScheduleWrite (h : (db.facts.policyVersions.find? id).isSome) :
    ((applyScheduleWrite db x).facts.policyVersions.find? id).isSome := by
  cases x with
  | employee x => cases x <;> exact h
  | version x =>
    cases x with
    | closeAt policyId versionId last =>
      show ((db.facts.policyVersions.modify _ closeRow_id).find? id).isSome
      rw [Table.find?_modify, Option.isSome_map]
      exact h
    | insert version => exact Table.isSome_find?_insert h
  | values versionId values | clause clause | condition condition
  | insertEvent event | setStatus event status => exact h

theorem version_after (h : (db.facts.policyVersions.find? id).isSome ∨
      ∃ v, .version (.insert v) ∈ writes ∧ v.id = id) :
    ((writes.foldl applyScheduleWrite db).facts.policyVersions.find? id).isSome := by
  refine foldl_reaches (P := fun db : Db => (db.facts.policyVersions.find? id).isSome = true) writes
    (fun x _ s hs => version_applyScheduleWrite hs) ?_
  refine h.imp_right fun ⟨v, hv, hid⟩ => ⟨_, hv, fun s => ?_⟩
  exact Table.isSome_find?.mpr ⟨v, Table.mem_insert_self, hid⟩

/-- A version that a transaction sees is committed or its own. -/
theorem version_before : ∀ (writes : List ScheduleWrite) {db : Db},
    ((writes.foldl applyScheduleWrite db).facts.policyVersions.find? id).isSome →
      (db.facts.policyVersions.find? id).isSome ∨ ∃ v, .version (.insert v) ∈ writes ∧ v.id = id
  | [], _, h => Or.inl h
  | x :: writes, db, h => by
    rcases version_before writes h with h | ⟨v, hv, hid⟩
    · cases x with
      | employee x => cases x <;> exact Or.inl h
      | version x =>
        cases x with
        | closeAt policyId versionId last =>
          change ((db.facts.policyVersions.modify _ closeRow_id).find? id).isSome = true at h
          rw [Table.find?_modify, Option.isSome_map] at h
          exact Or.inl h
        | insert version =>
          by_cases hid : version.id = id
          · exact Or.inr ⟨version, List.mem_cons_self, hid⟩
          · refine Or.inl ?_
            rw [← Table.find?_insert_ne (a := version) (k := id) fun h => hid h.symm]
            exact h
      | values versionId values | clause clause | condition condition
      | insertEvent event | setStatus event status => exact Or.inl h
    · exact Or.inr ⟨v, List.mem_cons_of_mem _ hv, hid⟩

end

/-! ## Statements -/

/-- The statement leads to the delete of an employee. -/
def ScheduleOp.Deletes : ScheduleOp → Prop
  | .employee _ (.delete _) => True
  | .employee _ (.deleteRow _) => True
  | _ => False

/-- The statement belongs to the delete of an employee. -/
def ScheduleOp.Clears : ScheduleOp → Prop
  | .employee _ (.delete _) => True
  | .employee _ (.clearManager _) => True
  | .employee _ (.deleteRow _) => True
  | .selectPending _ _ _ => True
  | .setStatus _ .cancelled => True
  | _ => False

def ScheduleWrite.Clears : ScheduleWrite → Prop
  | .employee (.clearManager _) => True
  | .employee (.delete _) => True
  | .setStatus _ .cancelled => True
  | _ => False

/-- The statement schedules the event with a key. -/
def ScheduleOp.Schedules (key : EventKey) : ScheduleOp → Prop
  | .schedule k => k = key
  | .insertEvent k => k = key
  | .setStatus e .pending => e.eventKey = key
  | _ => False

/-- What a statement makes its transaction do next and write. -/
structure ScheduleStep (locked : ScheduleLock → Bool) (n : ℕ) (db : Db) (op : ScheduleOp)
    (more : List ScheduleOp) (new : List ScheduleWrite) : Prop where
  clears : op.Clears → (∀ o ∈ more, o.Clears) ∧ ∀ x ∈ new, x.Clears
  keeps : ¬op.Deletes → (∀ o ∈ more, ¬o.Deletes) ∧ ∀ id, .employee (.delete id) ∉ new
  opSchedules : ∀ o ∈ more, ∀ key, o.Schedules key →
    op.Schedules key ∨ key.entityType = .employee ∨
      (key.entityType = .policyVersion ∧ (db.facts.policyVersions.find? key.entityId).isSome)
  writeSchedules : ∀ x ∈ new, ∀ key, x.Schedules key → op.Schedules key
  status : ∀ e status, .setStatus e status ∈ new → op = .setStatus e status
  inserts : ∀ e, .insertEvent e ∈ new → e.id = n
  due : ∀ asOf limit, .selectDue asOf limit ∉ more
  collects : ∀ e, .collect e ∈ more → (∃ asOf limit, op = .selectDue asOf limit) ∧
    locked (.event e.id) = true ∧ e ∈ db.scheduledReconciliations ∧ e.status = .pending

section

variable {locked : ScheduleLock → Bool} {n : ℕ} {db : Db} {op : ScheduleOp}
variable {more : List ScheduleOp} {new : List ScheduleWrite}

theorem mem_unlockedDue {available : ScheduleLock → Bool}
    {events : Table ScheduledReconciliation} {asOf : DateTime} {limit : ℕ}
    {due : List ScheduledReconciliation} (h : unlockedDue available events asOf limit = .ok due)
    {e : ScheduledReconciliation} (he : e ∈ due) :
    available (.event e.id) = true ∧ e ∈ events ∧ e.status = .pending := by
  unfold unlockedDue getDueReconciliations at h
  split at h
  · exact absurd h (by simp)
  · cases h
    have hmem := mem_orderBy.mp (List.mem_of_mem_take he)
    rw [Table.mem_select, Table.mem_filter] at hmem
    obtain ⟨⟨hmem, hfree⟩, hdue⟩ := hmem
    simp only [Bool.and_eq_true, decide_eq_true_eq] at hdue
    exact ⟨hfree, hmem, hdue.1⟩

theorem futureEvent_key {entityType : EntityType} {entityId : ℕ} {triggerType : TriggerType}
    {day : Date} {now : DateTime} {key : EventKey}
    (h : key ∈ futureEvent entityType entityId triggerType day now) :
    key.entityType = entityType ∧ key.entityId = entityId := by
  unfold futureEvent at h
  split at h
  · rw [List.mem_singleton.mp h]
    exact ⟨rfl, rfl⟩
  · exact absurd h List.not_mem_nil

theorem desiredTenureEvents_key {rules : Rules} {employee : Employee} {now : DateTime}
    {keys : List EventKey} (h : desiredTenureEvents rules employee now = .ok keys) {key : EventKey}
    (hkey : key ∈ keys) : key.entityType = .employee := by
  unfold desiredTenureEvents at h
  rw [exceptMap_eq_ok] at h
  obtain ⟨lists, hlists, rfl⟩ := h
  obtain ⟨list, hlist, hkey⟩ := List.mem_flatten.mp (List.mem_eraseDups.mp hkey)
  obtain ⟨condition, _, hevents⟩ := mem_of_traverseAll hlists hlist
  unfold tenureEventsOf at hevents
  rw [exceptMap_eq_ok] at hevents
  obtain ⟨days, _, rfl⟩ := hevents
  obtain ⟨day, _, hkey⟩ := List.mem_flatMap.mp hkey
  exact (futureEvent_key hkey).1

theorem desiredVersionEvents_key {rules : Rules} {policyId : ℕ} {now : DateTime} {key : EventKey}
    (h : key ∈ desiredVersionEvents rules policyId now) :
    key.entityType = .policyVersion ∧ (rules.policyVersions.find? key.entityId).isSome := by
  unfold desiredVersionEvents at h
  split at h
  · obtain ⟨v, hv, hkey⟩ := List.mem_flatMap.mp h
    have hmem := (Table.mem_select.mp (mem_orderBy.mp hv)).1
    have hversion : key.entityType = .policyVersion ∧ key.entityId = v.id := by
      unfold versionEvents at hkey
      rcases List.mem_append.mp hkey with hkey | hkey
      · exact futureEvent_key hkey
      · split at hkey
        · exact absurd hkey List.not_mem_nil
        · exact futureEvent_key hkey
    exact ⟨hversion.1, Table.isSome_find?.mpr ⟨v, hmem, hversion.2.symm⟩⟩
  · exact absurd h List.not_mem_nil

/-- Neither on events nor on the batch of the worker. -/
def ScheduleOp.Plain : ScheduleOp → Prop
  | .schedule _ => False
  | .insertEvent _ => False
  | .setStatus _ _ => False
  | .selectDue _ _ => False
  | .collect _ => False
  | _ => True

def ScheduleWrite.Plain : ScheduleWrite → Prop
  | .insertEvent _ => False
  | .setStatus _ _ => False
  | _ => True

theorem ScheduleStep.plain
    (hclears : op.Clears → (∀ o ∈ more, o.Clears) ∧ ∀ x ∈ new, x.Clears)
    (hkeeps : ¬op.Deletes → (∀ o ∈ more, ¬o.Deletes) ∧ ∀ id, .employee (.delete id) ∉ new)
    (hmore : ∀ o ∈ more, o.Plain) (hnew : ∀ x ∈ new, x.Plain) :
    ScheduleStep locked n db op more new where
  clears := hclears
  keeps := hkeeps
  opSchedules o ho key hkey := by
    have hplain := hmore o ho
    cases o <;> first | exact absurd hplain id | exact absurd hkey id
  writeSchedules x hx key hkey := by
    have hplain := hnew x hx
    cases x <;> first | exact absurd hplain id | exact absurd hkey id
  status e status hmem := absurd (hnew _ hmem) id
  inserts e hmem := absurd (hnew _ hmem) id
  due asOf limit hmem := absurd (hmore _ hmem) id
  collects e hmem := absurd (hmore _ hmem) id

/-- A statement that is not part of a delete leads to none. -/
theorem ScheduleStep.of_keeps (hop : ¬op.Clears) (hdeletes : ∀ o ∈ more, ¬o.Deletes)
    (hdelete : ∀ id, .employee (.delete id) ∉ new) (hmore : ∀ o ∈ more, o.Plain)
    (hnew : ∀ x ∈ new, x.Plain) : ScheduleStep locked n db op more new :=
  .plain (fun h => absurd h hop) (fun _ => ⟨hdeletes, hdelete⟩) hmore hnew

/-- A statement that writes nothing and leads to statements on events. -/
theorem ScheduleStep.of_reads (hop : ¬op.Clears) (hdeletes : ∀ o ∈ more, ¬o.Deletes)
    (hschedules : ∀ o ∈ more, ∀ key, o.Schedules key → op.Schedules key ∨
      key.entityType = .employee ∨
      (key.entityType = .policyVersion ∧ (db.facts.policyVersions.find? key.entityId).isSome))
    (hdue : ∀ asOf limit, .selectDue asOf limit ∉ more) (hcollects : ∀ e, .collect e ∉ more) :
    ScheduleStep locked n db op more [] where
  clears h := absurd h hop
  keeps _ := ⟨hdeletes, fun _ => List.not_mem_nil⟩
  opSchedules := hschedules
  writeSchedules _ hx := absurd hx List.not_mem_nil
  status _ _ hx := absurd hx List.not_mem_nil
  inserts _ hx := absurd hx List.not_mem_nil
  due := hdue
  collects e he := absurd he (hcollects e)

/-- What a statement on employees makes its transaction do next and write. -/
theorem employee_step {now : DateTime} {eop : EmployeeOp}
    (h : runScheduleOp locked n db (.employee now eop) = .ok (more, new)) :
    ScheduleStep locked n db (.employee now eop) more new := by
  simp only [runScheduleOp, bind_eq_ok, pure_eq_ok] at h
  obtain ⟨⟨eops, writes⟩, hrun, hout⟩ := h
  cases hout
  cases eop with
  | create data =>
    simp only [runEmployeeOp, bind_eq_ok, pure_eq_ok] at hrun
    obtain ⟨_, _, hout⟩ := hrun
    cases hout
    refine .of_keeps id ?_ ?_ ?_ ?_ <;>
      simp [beforeEmployee, afterEmployee, ScheduleOp.Deletes, ScheduleOp.Plain]
  | insertRow data =>
    simp only [runEmployeeOp, bind_eq_ok, pure_eq_ok] at hrun
    obtain ⟨_, _, hout⟩ := hrun
    cases hout
    refine .of_keeps id ?_ ?_ ?_ ?_ <;>
      simp [afterEmployee, ScheduleOp.Deletes, ScheduleOp.Plain, ScheduleWrite.Plain]
  | update employeeId data =>
    simp only [runEmployeeOp, bind_eq_ok, pure_eq_ok] at hrun
    obtain ⟨_, _, hout⟩ := hrun
    cases hout
    refine .of_keeps id ?_ ?_ ?_ ?_ <;>
      simp [beforeEmployee, afterEmployee, ScheduleOp.Deletes, ScheduleOp.Plain]
  | validate loaded data =>
    simp only [runEmployeeOp, bind_eq_ok, pure_eq_ok] at hrun
    obtain ⟨_, _, updated, _, hout⟩ := hrun
    cases hout
    by_cases hnil : changedColumns loaded updated = []
    · rw [if_pos hnil]
      refine .of_keeps id ?_ ?_ ?_ ?_ <;> simp [afterEmployee]
    · rw [if_neg hnil]
      refine .of_keeps id ?_ ?_ ?_ ?_ <;>
        simp [beforeEmployee, afterEmployee, ScheduleOp.Deletes, ScheduleOp.Plain]
  | updateRow loaded updated =>
    have hout : eops = [] ∧ writes = [.update loaded updated] := by
      by_cases hne : updated.managerId ≠ loaded.managerId
      · simp only [runEmployeeOp, if_pos hne, bind_eq_ok, pure_eq_ok] at hrun
        obtain ⟨_, _, _, _, hout⟩ := hrun
        cases hout
        exact ⟨rfl, rfl⟩
      · simp only [runEmployeeOp, if_neg hne, bind_eq_ok, pure_eq_ok] at hrun
        obtain ⟨_, _, hout⟩ := hrun
        cases hout
        exact ⟨rfl, rfl⟩
    obtain ⟨rfl, rfl⟩ := hout
    by_cases hstart : (changedColumns loaded updated).contains "start_date"
    · refine .of_keeps id ?_ ?_ ?_ ?_ <;>
        simp only [afterEmployee, if_pos hstart] <;>
        simp [ScheduleOp.Deletes, ScheduleOp.Plain, ScheduleWrite.Plain]
    · refine .of_keeps id ?_ ?_ ?_ ?_ <;>
        simp only [afterEmployee, if_neg hstart] <;>
        simp [ScheduleWrite.Plain]
  | delete employeeId =>
    simp only [runEmployeeOp, bind_eq_ok, pure_eq_ok] at hrun
    obtain ⟨_, _, hout⟩ := hrun
    cases hout
    have hmore : ∀ o ∈ ((directReports db.facts.employees employeeId).map
        (fun e : Employee => EmployeeOp.clearManager e.id) ++ [EmployeeOp.deleteRow employeeId]).flatMap
          (beforeEmployee now) ++ afterEmployee n now (.delete employeeId),
        o.Clears ∧ o.Plain := by
      intro o ho
      have hafter : afterEmployee n now (.delete employeeId) = [] := rfl
      rw [hafter, List.append_nil, List.flatMap_append, List.mem_append] at ho
      rcases ho with ho | ho
      · obtain ⟨eop, heop, ho⟩ := List.mem_flatMap.mp ho
        obtain ⟨e, _, rfl⟩ := List.mem_map.mp heop
        rw [List.mem_singleton.mp ho]
        exact ⟨trivial, trivial⟩
      · have ho : o = .selectPending .employee [employeeId] [] ∨
            o = .employee now (.deleteRow employeeId) := by simpa [beforeEmployee] using ho
        rcases ho with rfl | rfl <;> exact ⟨trivial, trivial⟩
    exact .plain (fun _ => ⟨fun o ho => (hmore o ho).1, by simp⟩) (fun h => absurd trivial h)
      (fun o ho => (hmore o ho).2) (by simp)
  | clearManager employeeId =>
    simp only [runEmployeeOp, bind_eq_ok, pure_eq_ok] at hrun
    obtain ⟨_, _, hout⟩ := hrun
    cases hout
    refine .plain (fun _ => ?_) (fun _ => ?_) ?_ ?_ <;>
      simp [afterEmployee, ScheduleWrite.Clears, ScheduleWrite.Plain]
  | deleteRow employeeId =>
    cases hrun
    refine .plain (fun _ => ?_) (fun h => absurd trivial h) ?_ ?_ <;>
      simp [afterEmployee, ScheduleWrite.Clears, ScheduleWrite.Plain]

/-- What a statement makes its transaction do next and write. -/
theorem runScheduleOp_step (h : runScheduleOp locked n db op = .ok (more, new)) :
    ScheduleStep locked n db op more new := by
  cases op with
  | employee now eop => exact employee_step h
  | addVersion policyId data actor now =>
    simp only [runScheduleOp, bind_eq_ok, pure_eq_ok] at h
    obtain ⟨policy, _, input, _, hout⟩ := h
    cases hout
    refine .of_keeps id ?_ ?_ ?_ ?_ <;> simp [ScheduleOp.Deletes, ScheduleOp.Plain]
  | createVersion policy input now =>
    simp only [runScheduleOp, bind_eq_ok, pure_eq_ok] at h
    obtain ⟨writes, _, _, _, hout⟩ := h
    cases hout
    refine .of_keeps id ?_ ?_ ?_ ?_ <;>
      simp [or_imp, forall_and, ScheduleOp.Deletes, ScheduleOp.Plain, ScheduleWrite.Plain]
  | insertClause versionId clause =>
    cases h
    refine .of_keeps id ?_ ?_ ?_ ?_ <;>
      simp [ScheduleOp.Deletes, ScheduleOp.Plain, ScheduleWrite.Plain]
  | insertCondition clauseId condition =>
    cases h
    refine .of_keeps id ?_ ?_ ?_ ?_ <;> simp [ScheduleWrite.Plain]
  | syncVersions policy now =>
    cases h
    -- every desired event is scheduled, whatever is kept or cancelled
    refine .of_reads id ?_ (fun o ho key hkey => ?_) (by simp) (by simp)
    · simp [ScheduleOp.Deletes]
    · rcases List.mem_cons.mp ho with rfl | ho
      · exact absurd hkey id
      · obtain ⟨k, hk, rfl⟩ := List.mem_map.mp ho
        have hkey : k = key := hkey
        obtain ⟨htype, hversion⟩ := desiredVersionEvents_key hk
        rw [← hkey]
        exact Or.inr (Or.inr ⟨htype, hversion⟩)
  | selectEmployees now =>
    cases h
    refine .of_keeps id ?_ ?_ ?_ ?_ <;> simp [ScheduleOp.Deletes, ScheduleOp.Plain]
  | syncEmployee employee now =>
    simp only [runScheduleOp, bind_eq_ok, pure_eq_ok] at h
    obtain ⟨desired, hdesired, hout⟩ := h
    cases hout
    -- every desired event is scheduled, whatever is kept or cancelled
    refine .of_reads id ?_ (fun o ho key hkey => ?_) (by simp) (by simp)
    · simp [ScheduleOp.Deletes]
    · rcases List.mem_cons.mp ho with rfl | ho
      · exact absurd hkey id
      · obtain ⟨k, hk, rfl⟩ := List.mem_map.mp ho
        have hkey : k = key := hkey
        rw [← hkey]
        exact Or.inr (Or.inl (desiredTenureEvents_key hdesired hk))
  | selectPending entityType entityIds keep =>
    cases h
    refine ⟨fun _ => ⟨?_, by simp⟩, fun _ => ⟨?_, by simp⟩, fun o ho key hkey => ?_, by simp,
      by simp, by simp, by simp, by simp⟩
    · simp [ScheduleOp.Clears]
    · simp [ScheduleOp.Deletes]
    · obtain ⟨e, _, rfl⟩ := List.mem_map.mp ho
      exact absurd hkey id
  | schedule key =>
    simp only [runScheduleOp, bind_eq_ok] at h
    obtain ⟨_, _, h⟩ := h
    split at h
    · rw [pure_eq_ok] at h
      cases h
      refine .of_reads id ?_ (fun o ho k hk => ?_) (by simp) (by simp)
      · simp [ScheduleOp.Deletes]
      · rw [List.mem_singleton.mp ho] at hk
        exact Or.inl hk
    · next event hfind =>
      rw [pure_eq_ok] at h
      cases h
      by_cases hcancelled : event.status = .cancelled
      · rw [if_pos hcancelled]
        refine .of_reads id ?_ (fun o ho k hk => ?_) (by simp) (by simp)
        · simp [ScheduleOp.Deletes]
        · rw [List.mem_singleton.mp ho] at hk
          have hevent := (Table.mem_select.mp (List.mem_of_head? hfind)).2
          exact Or.inl ((of_decide_eq_true hevent).symm.trans hk)
      · rw [if_neg hcancelled]
        refine .of_keeps id ?_ ?_ ?_ ?_ <;> simp
  | insertEvent key =>
    simp only [runScheduleOp, bind_eq_ok, pure_eq_ok] at h
    obtain ⟨_, _, hout⟩ := h
    cases hout
    refine ⟨fun h => absurd h id, fun _ => ⟨by simp, by simp⟩, by simp, fun x hx k hk => ?_,
      by simp, fun e he => ?_, by simp, by simp⟩
    · rw [List.mem_singleton.mp hx] at hk
      exact hk
    · cases List.mem_singleton.mp he
      rfl
  | setStatus e status =>
    simp only [runScheduleOp, bind_eq_ok, pure_eq_ok] at h
    obtain ⟨_, _, hout⟩ := h
    cases hout
    refine ⟨fun hclears => ⟨by simp, fun x hx => ?_⟩, fun _ => ⟨by simp, by simp⟩, by simp,
      fun x hx k hk => ?_, fun e' status' hmem => ?_, by simp, by simp, by simp⟩
    · rw [List.mem_singleton.mp hx]
      cases status with
      | cancelled => trivial
      | pending | processed processedAt => exact hclears
    · rw [List.mem_singleton.mp hx] at hk
      cases status with
      | pending => exact hk
      | cancelled | processed processedAt => exact absurd hk id
    · cases List.mem_singleton.mp hmem
      rfl
  | selectDue asOf limit =>
    simp only [runScheduleOp, bind_eq_ok, pure_eq_ok] at h
    obtain ⟨due, hdue, hout⟩ := h
    cases hout
    refine ⟨fun h => absurd h id, fun _ => ⟨?_, by simp⟩, fun o ho key hkey => ?_, by simp,
      by simp, by simp, by simp, fun e he => ⟨⟨asOf, limit, rfl⟩, ?_⟩⟩
    · simp [or_imp, forall_and, ScheduleOp.Deletes]
    · rcases List.mem_append.mp ho with ho | ho
      · obtain ⟨e, _, rfl⟩ := List.mem_map.mp ho
        exact absurd hkey id
      · obtain ⟨e, _, rfl⟩ := List.mem_map.mp ho
        exact absurd hkey id
    · exact mem_unlockedDue hdue (by simpa using he)
  | collect e =>
    simp only [runScheduleOp, exceptMap_eq_ok] at h
    obtain ⟨_, _, hout⟩ := h
    cases hout
    refine .of_keeps id ?_ ?_ ?_ ?_ <;> simp

end

/-! ## Numbers -/

/-- The ids of the events -/
def eventNumbers : Numbering Db ScheduleWrite where
  known db := {i | ∃ e ∈ db.scheduledReconciliations, e.id = i}
  mentions
    | .insertEvent e => {e.id}
    | _ => ∅
  inserts
    | .insertEvent e => {e.id}
    | _ => ∅

theorem applyScheduleWrite_known (db : Db) (x : ScheduleWrite) :
    eventNumbers.known (applyScheduleWrite db x) ⊆
      eventNumbers.known db ∪ eventNumbers.mentions x := by
  rintro i ⟨e, he, rfl⟩
  cases x with
  | insertEvent event =>
    rcases Table.mem_insert.mp he with rfl | ⟨he, _⟩
    · exact Or.inr rfl
    · exact Or.inl ⟨e, he, rfl⟩
  | setStatus event status =>
    rcases mem_updateEventStatus.mp he with ⟨he, _⟩ | ⟨r, hr, _, rfl⟩
    · exact Or.inl ⟨e, he, rfl⟩
    · exact Or.inl ⟨r, hr, rfl⟩
  | employee x =>
    rw [scheduledReconciliations_applyScheduleWrite (by simp) (by simp)] at he
    exact Or.inl ⟨e, he, rfl⟩
  | version x | values versionId values | clause clause | condition condition =>
    exact Or.inl ⟨e, he, rfl⟩

theorem eventNumbers_respects : eventNumbers.Respects scheduleCode where
  apply := applyScheduleWrite_known
  mentions := by
    intro n rows db op more new h x hx i hi
    cases x with
    | insertEvent e =>
      rw [← (runScheduleOp_step h).inserts e hx]
      exact Or.inr hi
    | _ => exact absurd hi (Set.notMem_empty i)
  inserts := by
    intro n rows db op more new h x hx i hi
    cases x with
    | insertEvent e =>
      rw [← (runScheduleOp_step h).inserts e hx]
      exact hi
    | _ => exact absurd hi (Set.notMem_empty i)

/-! ## Stages of a transaction -/

/-- The version is committed, or written by the transaction itself. -/
def VersionSeen (db : Db) (writes : List ScheduleWrite) (id : ℕ) : Prop :=
  (db.facts.policyVersions.find? id).isSome ∨ ∃ v, .version (.insert v) ∈ writes ∧ v.id = id

/-- Events are scheduled for employees, and for versions that the transaction sees. -/
def KeySeen (db : Db) (writes : List ScheduleWrite) (key : EventKey) : Prop :=
  key.entityType = .employee ∨
    (key.entityType = .policyVersion ∧ VersionSeen db writes key.entityId)

/-- How far a transaction is, with what its locks keep true of the committed rows. -/
structure ScheduleStage (db : Db) (held : ScheduleLock → Prop)
    (l : Live ScheduleOp ScheduleWrite) : Prop where
  /-- A transaction that deletes an employee schedules nothing. -/
  kind : ((∀ o ∈ l.todo, o.Clears) ∧ ∀ x ∈ l.writes, x.Clears) ∨
    ((∀ o ∈ l.todo, ¬o.Deletes) ∧ ∀ id, .employee (.delete id) ∉ l.writes)
  locked : ∀ e status, .setStatus e status ∈ l.writes → held (.event e.id)
  opSeen : ∀ o ∈ l.todo, ∀ key, o.Schedules key → KeySeen db l.writes key
  seen : ∀ x ∈ l.writes, ∀ key, x.Schedules key → KeySeen db l.writes key
  due : ∀ asOf limit, .selectDue asOf limit ∈ l.todo →
    l.todo = [.selectDue asOf limit] ∧ l.writes = []
  collects : ∀ e, .collect e ∈ l.todo →
    held (.event e.id) ∧ e ∈ db.scheduledReconciliations ∧ e.status = .pending

section

variable {db : Db} {held held' : ScheduleLock → Prop} {l : Live ScheduleOp ScheduleWrite}
variable {writes : List ScheduleWrite}

theorem ScheduleStage.mono (hsub : ∀ k, held k → held' k) (h : ScheduleStage db held l) :
    ScheduleStage db held' l where
  kind := h.kind
  locked e status hmem := hsub _ (h.locked e status hmem)
  opSeen := h.opSeen
  seen := h.seen
  due := h.due
  collects e he := ⟨hsub _ (h.collects e he).1, (h.collects e he).2⟩

theorem KeySeen.append {key : EventKey} {new : List ScheduleWrite} (h : KeySeen db writes key) :
    KeySeen db (writes ++ new) key := by
  refine h.imp_right fun ⟨htype, hversion⟩ => ⟨htype, hversion.imp_right ?_⟩
  exact fun ⟨v, hv, hid⟩ => ⟨v, List.mem_append_left _ hv, hid⟩

/-- What a statement makes of the stage of its transaction. -/
theorem ScheduleStage.exec {available : ScheduleLock → Bool} {n : ℕ} {op : ScheduleOp}
    {todo more : List ScheduleOp} {new : List ScheduleWrite}
    (h : ScheduleStage db held ⟨op :: todo, writes⟩)
    (hok : runScheduleOp
      (fun k => (lockScheduleRows available (writes.foldl applyScheduleWrite db) op).contains k) n
      (writes.foldl applyScheduleWrite db) op = .ok (more, new)) :
    ScheduleStage db
      (fun k => held k ∨ k ∈ lockScheduleRows available (writes.foldl applyScheduleWrite db) op)
      ⟨more ++ todo, writes ++ new⟩ := by
  have hstep := runScheduleOp_step hok
  have hop : op ∈ op :: todo := List.mem_cons_self
  have htodo : ∀ o ∈ todo, o ∈ op :: todo := fun o ho => List.mem_cons_of_mem _ ho
  have hseen : ∀ key, op.Schedules key → KeySeen db writes key := h.opSeen op hop
  refine ⟨?_, fun e status hmem => ?_, fun o ho key hkey => ?_, fun x hx key hkey => ?_,
    fun asOf limit hmem => ?_, fun e he => ?_⟩
  · rcases h.kind with ⟨hops, hwrites⟩ | ⟨hops, hwrites⟩
    · obtain ⟨hmore, hnew⟩ := hstep.clears (hops op hop)
      refine Or.inl ⟨fun o ho => ?_, fun x hx => ?_⟩
      · exact (List.mem_append.mp ho).elim (hmore o) fun ho => hops o (htodo o ho)
      · exact (List.mem_append.mp hx).elim (hwrites x) (hnew x)
    · obtain ⟨hmore, hnew⟩ := hstep.keeps (hops op hop)
      refine Or.inr ⟨fun o ho => ?_, fun id hx => ?_⟩
      · exact (List.mem_append.mp ho).elim (hmore o) fun ho => hops o (htodo o ho)
      · exact (List.mem_append.mp hx).elim (hwrites id) (hnew id)
  · rcases List.mem_append.mp hmem with hmem | hmem
    · exact Or.inl (h.locked e status hmem)
    · rw [hstep.status e status hmem]
      exact Or.inr (List.mem_singleton_self _)
  · rcases List.mem_append.mp ho with ho | ho
    · rcases hstep.opSchedules o ho key hkey with hkey | htype | ⟨htype, hversion⟩
      · exact (hseen key hkey).append
      · exact Or.inl htype
      · exact KeySeen.append (Or.inr ⟨htype, version_before writes hversion⟩)
    · exact (h.opSeen o (htodo o ho) key hkey).append
  · rcases List.mem_append.mp hx with hx | hx
    · exact (h.seen x hx key hkey).append
    · exact (hseen key (hstep.writeSchedules x hx key hkey)).append
  · rcases List.mem_append.mp hmem with hmem | hmem
    · exact absurd hmem (hstep.due asOf limit)
    · -- The selection of a batch is the first and only statement of its transaction.
      have hlist := (h.due asOf limit (htodo _ hmem)).1
      rw [(List.cons.inj hlist).2] at hmem
      exact absurd hmem List.not_mem_nil
  · rcases List.mem_append.mp he with he | he
    · obtain ⟨⟨asOf, limit, rfl⟩, hlocked, hmem, hpending⟩ := hstep.collects e he
      have hnone : writes = [] := (h.due asOf limit hop).2
      rw [hnone] at hmem
      exact ⟨Or.inr (List.contains_iff_mem.mp hlocked), hmem, hpending⟩
    · obtain ⟨hheld, hrest⟩ := h.collects e (htodo _ he)
      exact ⟨Or.inl hheld, hrest⟩

/-- The commit of another transaction, whose locks are others, leaves the stage as it is. -/
theorem ScheduleStage.afterCommit {heldOther : ScheduleLock → Prop}
    (hother : ScheduleStage db heldOther ⟨[], writes⟩)
    (hfresh : ∀ x ∈ writes, ∀ i ∈ eventNumbers.inserts x, i ∉ eventNumbers.known db)
    (hapart : ∀ k, heldOther k → ¬held k) (h : ScheduleStage db held l) :
    ScheduleStage (writes.foldl applyScheduleWrite db) held l := by
  have hseen : ∀ key, KeySeen db l.writes key →
      KeySeen (writes.foldl applyScheduleWrite db) l.writes key := fun key hkey =>
    hkey.imp_right fun ⟨htype, hversion⟩ =>
      ⟨htype, hversion.imp_left fun hsome => version_after (Or.inl hsome)⟩
  refine ⟨h.kind, h.locked, fun o ho key hkey => hseen key (h.opSeen o ho key hkey),
    fun x hx key hkey => hseen key (h.seen x hx key hkey), h.due, fun e he => ?_⟩
  obtain ⟨hheld, hmem, hpending⟩ := h.collects e he
  refine ⟨hheld, ?_, hpending⟩
  refine foldl_reaches (P := fun db : Db => e ∈ db.scheduledReconciliations) writes
    (fun x hx s hs => event_applyScheduleWrite (fun r hr => ?_) (fun r status hr => ?_) hs)
    (Or.inl hmem)
  · rw [hr] at hx
    exact fun hid => hfresh _ hx r.id rfl ⟨e, hmem, hid.symm⟩
  · rw [hr] at hx
    intro hid
    rw [← hid] at hheld
    exact hapart _ (hother.locked r status hx) hheld

/-- A commit under the condition leaves no pending event without its entity. -/
theorem ScheduleStage.commit (h : ScheduleStage db held ⟨[], writes⟩) (hp : PendingEventsRefer db)
    (hg : EventsStillRefer db writes) :
    PendingEventsRefer (writes.foldl applyScheduleWrite db) := by
  intro e he hpending
  rcases pending_after writes he hpending with ⟨x, hx, hkey⟩ | ⟨he, hcancel⟩
  · have hdelete : ∀ id, .employee (.delete id) ∉ writes := by
      rcases h.kind with ⟨_, hclears⟩ | ⟨_, hkeeps⟩
      · have hclears := hclears x hx
        cases x with
        | insertEvent event => exact absurd hclears id
        | setStatus event status =>
          cases status <;> first | exact absurd hclears id | exact absurd hkey id
        | _ => exact absurd hkey id
      · exact hkeeps
    rcases h.seen x hx _ hkey with htype | ⟨htype, hversion⟩
    · have htype : e.entityType = .employee := htype
      rw [htype]
      exact employee_after (hdelete _) (hg.1 x hx _ hkey htype)
    · have htype : e.entityType = .policyVersion := htype
      rw [htype]
      exact version_after hversion
  · have hentity := hp e he hpending
    cases htype : e.entityType with
    | policyVersion =>
      rw [htype] at hentity
      exact version_after (Or.inl hentity)
    | employee =>
      rw [htype] at hentity
      refine employee_after (fun hmem => hcancel ?_) (Or.inl hentity)
      exact hg.2 _ hmem e he hpending htype rfl
    | employeeOverride =>
      rw [htype] at hentity
      exact absurd hentity id

theorem validateEvent_error {key : EventKey} {error : ServiceError}
    (h : validateEvent key = .error error) {name : String} {id : ℕ} :
    error ≠ .scheduledReconciliationEntityNotFound name id := by
  unfold validateEvent at h
  split at h
  · cases h
    simp
  · unfold ensure at h
    split at h
    · exact absurd h (by simp)
    · cases h
      simp

/-- The worker finds the entities of the events that it holds. -/
theorem ScheduleStage.entityFound {e : ScheduledReconciliation} {todo : List ScheduleOp}
    (h : ScheduleStage db held ⟨.collect e :: todo, writes⟩) (hp : PendingEventsRefer db)
    (name : String) (id : ℕ) :
    collectEntity (writes.foldl applyScheduleWrite db).facts {} e ≠
      .error (.scheduledReconciliationEntityNotFound name id) := by
  obtain ⟨_, hmem, hpending⟩ := h.collects e List.mem_cons_self
  have hdelete : ∀ id, .employee (.delete id) ∉ writes := by
    rcases h.kind with ⟨hops, _⟩ | ⟨_, hkeeps⟩
    · exact absurd (hops _ List.mem_cons_self) (fun h => h)
    · exact hkeeps
  have hentity := hp e hmem hpending
  unfold collectEntity
  cases hvalid : validateEvent e.eventKey with
  | error error =>
    intro hcollect
    cases hcollect
    exact validateEvent_error hvalid rfl
  | ok u =>
    dsimp only
    cases htype : e.entityType with
    | policyVersion =>
      rw [htype] at hentity
      have hversion : ((writes.foldl applyScheduleWrite db).facts.policyVersions.find?
          e.entityId).isSome := version_after (Or.inl hentity)
      obtain ⟨v, hv⟩ := Option.isSome_iff_exists.mp hversion
      simp [hv]
    | employee =>
      rw [htype] at hentity
      obtain ⟨r, hr⟩ := Option.isSome_iff_exists.mp (employee_after (hdelete _) (Or.inl hentity))
      simp [hr]
    | employeeOverride =>
      rw [htype] at hentity
      exact hentity.elim

end

/-! ## Runs -/

structure ScheduleSound (w : ScheduleWorld) : Prop where
  fresh : eventNumbers.Fresh w
  stage : ∀ (t : ℕ) l, w.fates[t]? = some (.live l) →
    ScheduleStage w.committed (fun k => w.holder k = some t) l

theorem ScheduleSound.next {w : ScheduleWorld} (h : ScheduleSound w) (a : Action) :
    ScheduleSound (w.next scheduleCode a) where
  fresh := h.fresh.next eventNumbers_respects a
  stage := by
    refine World.stage_next (fun _ _ _ _ hsub hstage => hstage.mono hsub)
      (fun t op todo more writes new live hstage ok => hstage.exec ok)
      (fun t writes live hstage u l hu _ hl => ?_) h.stage
    refine hstage.afterCommit (fun x hx => h.fresh.unpublished ⟨_, live, hx⟩) (fun k hk hk' => ?_) hl
    exact hu (Option.some.inj (hk'.symm.trans hk))

theorem ScheduleTransaction.stage (transaction : ScheduleTransaction) (db : Db)
    (held : ScheduleLock → Prop) : ScheduleStage db held ⟨[transaction.op], []⟩ where
  kind := by
    cases transaction with
    | employee transaction now =>
      cases transaction <;>
        simp [ScheduleTransaction.op, EmployeeTransaction.op, ScheduleOp.Clears, ScheduleOp.Deletes]
    | addVersion policyId data actor now | reconcileDueEvents processedAt limit =>
      simp [ScheduleTransaction.op, ScheduleOp.Deletes]
  locked _ _ hmem := absurd hmem List.not_mem_nil
  opSeen o ho key hkey := by
    rw [List.mem_singleton.mp ho] at hkey
    cases transaction <;> exact absurd hkey id
  seen _ hx := absurd hx List.not_mem_nil
  due asOf limit hmem := ⟨by rw [List.mem_singleton.mp hmem], rfl⟩
  collects e he := by
    have hop := List.mem_singleton.mp he
    cases transaction <;> exact absurd hop (by simp [ScheduleTransaction.op])

theorem ScheduleSound.init {db : Db}
    (hfresh : ∀ e ∈ db.scheduledReconciliations, e.id < db.sequences.scheduledReconciliation)
    (transactions : List ScheduleTransaction) : ScheduleSound (scheduleWorld db transactions) where
  fresh := by
    refine Numbering.Fresh.init ?_
    rintro i ⟨e, he, rfl⟩
    refine (hfresh e he).trans_le ?_
    exact (le_max_right _ _).trans (le_max_left _ _)
  stage := by
    rintro t ⟨todo, writes⟩ hl
    obtain ⟨hwrites, htodo⟩ := World.init_live hl
    obtain ⟨transaction, _, hop⟩ := List.mem_map.mp htodo
    cases hwrites
    cases hop
    exact transaction.stage _ _

/-- In a run whose commits meet the condition every pending event refers to its entity all along, and
the worker finds the entities of its batch. -/
theorem pending_events_refer (db : Db)
    (hfresh : ∀ e ∈ db.scheduledReconciliations, e.id < db.sequences.scheduledReconciliation)
    (hrefer : PendingEventsRefer db) (transactions : List ScheduleTransaction)
    (actions : List Action)
    (halong : Along (World.next scheduleCode) (CommitsWith EventsStillRefer)
      (scheduleWorld db transactions) actions) :
    ∀ first rest, actions = first ++ rest →
      PendingEventsRefer ((scheduleWorld db transactions).run scheduleCode first).committed ∧
        EntitiesFound ((scheduleWorld db transactions).run scheduleCode first) := by
  intro first rest hactions
  rw [hactions] at halong
  obtain ⟨hsound, hp⟩ := World.committed_along (I := ScheduleSound) (P := PendingEventsRefer)
    (fun _ a h => h.next a) (fun _ t _ h hp live hg => (h.stage t _ live).commit hp hg)
    (ScheduleSound.init hfresh transactions) hrefer halong.append_left
  exact ⟨hp, fun t e todo writes live name id => (hsound.stage t _ live).entityFound hp name id⟩

/-! ## An employee deleted while their start date changes -/

/-- One employee, and a policy for those with two years of tenure. -/
def sabbatical : Db :=
  { Db.empty with
    facts :=
      { Facts.empty with
        conditionFieldDefinitions := .ofRows [⟨1, "tenure", .derived, "calendar_duration",
          some "employee_tenure_v1", none, none, true⟩]
        policies := .ofRows [⟨1, "Sabbatical", .active, none⟩]
        policyVersions := .ofRows [⟨1, 1, 1, 0, Date.on 2020 1 1, none, none⟩]
        compiledPolicyClauses := .ofRows [⟨1, 1⟩]
        compiledPolicyConditions := .ofRows [⟨1, 1, 1, .ge, "P2Y"⟩]
        employees := .ofRows [⟨1, "Ada", "CA", "Sales", "full_time", none, Date.on 2024 1 1, none⟩] }
    sequences :=
      { employee := 2, policyVersion := 2, compiledPolicyClause := 2, compiledPolicyCondition := 2 } }

/-- A later start date, a delete, and the batch of a later day -/
def startAndLeave : List ScheduleTransaction :=
  [.employee (.updateEmployee 1 { startDate := some (some (Date.on 2025 1 1)) })
      (startOfDay (Date.on 2026 1 1)),
    .employee (.deleteEmployee 1) (startOfDay (Date.on 2026 1 1)),
    .reconcileDueEvents (startOfDay (Date.on 2027 1 2)) 100]

/-- The delete reads the pending events before the update commits, and waits for its row. -/
def startAndLeaveRun : List Action :=
  [.exec 0, .exec 0, .exec 0, .exec 0, .exec 0, .exec 0, .exec 0, .exec 1, .exec 1, .exec 1, .commit 0,
    .exec 1, .commit 1, .exec 2, .exec 2]

theorem sabbatical_no_events {e : ScheduledReconciliation} :
    e ∉ sabbatical.scheduledReconciliations :=
  Table.not_mem_empty

theorem pending_event_orphaned : PendingEventsRefer sabbatical ∧
    ¬PendingEventsRefer ((scheduleWorld sabbatical startAndLeave).run scheduleCode
      startAndLeaveRun).committed ∧
    (reconcileDueEvents ((scheduleWorld sabbatical startAndLeave).run scheduleCode
      startAndLeaveRun).committed (startOfDay (Date.on 2027 1 2)) 100).map (fun _ => ()) =
        .error (.scheduledReconciliationEntityNotFound "Employee" 1) := by
  refine ⟨fun e he => absurd he sabbatical_no_events, fun h => ?_, by decide +kernel⟩
  have hevent := h (newEvent 8 ⟨.employee, 1, .tenureThreshold, startOfDay (Date.on 2027 1 1)⟩)
    (Table.mem_def.mpr (by decide +kernel)) rfl
  exact absurd hevent (by decide +kernel)

/-- Without the update the delete meets the condition. -/
def leaveRun : List Action := [.exec 1, .exec 1, .exec 1, .commit 1]

theorem pending_events_refer_leave :
    PendingEventsRefer ((scheduleWorld sabbatical startAndLeave).run scheduleCode
      leaveRun).committed ∧
    EntitiesFound ((scheduleWorld sabbatical startAndLeave).run scheduleCode leaveRun) := by
  refine pending_events_refer sabbatical (fun e he => absurd he sabbatical_no_events)
    (fun e he => absurd he sabbatical_no_events) startAndLeave leaveRun ?_ leaveRun [] rfl
  refine ⟨trivial, trivial, trivial, fun writes live => ?_, trivial⟩
  have hwrites : writes = [.employee (.delete 1)] := by
    have hlive : some (Fate.live (⟨[], [.employee (.delete 1)]⟩ : Live ScheduleOp ScheduleWrite)) =
        some (@Fate.live _ _ ServiceError ⟨[], writes⟩) := live
    cases hlive
    rfl
  rw [hwrites]
  refine ⟨fun x hx key hkey => ?_, fun id _ e he => absurd he sabbatical_no_events⟩
  rw [List.mem_singleton.mp hx] at hkey
  exact absurd hkey (fun h => h)

end Warp
