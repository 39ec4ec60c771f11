import Warp.Properties.DerivedWrites
import Warp.Properties.ReportingTree
import Warp.Properties.ScheduleCoverage
import Warp.ReconciliationWorker

/-!
# The worker drains what is due

The batches of one invocation process every event at most once and schedule none. The worker says
that it drained the events only if nothing is due any more, and a batch that raises leaves its events
and the batches before it as they are.
-/

namespace Warp

open Infra

/-! ## A batch and the events -/

section

variable {db db' : Db} {T : DateTime}

/-- A batch marks its events as processed and schedules nothing. -/
theorem reconcileDueEvents_eq_ok {limit : ℕ} {events : List ScheduledReconciliation}
    (h : reconcileDueEvents db T limit = .ok (db', events)) :
    getDueReconciliations db.scheduledReconciliations T limit = .ok events ∧
      db'.scheduledReconciliations =
        setEventStatus db.scheduledReconciliations (events.map fun e => e.id) (.processed T) := by
  unfold reconcileDueEvents at h
  split at h
  · exact absurd h (by simp)
  · next hdue =>
    split at h
    · exact absurd h (by simp)
    · split at h
      · exact absurd h (by simp)
      · next hreconcile =>
        cases h
        exact ⟨hdue, congrArg (fun events => setEventStatus events _ _)
          (reconcileEntities_events hreconcile)⟩

end

/-! ## The rows that are due -/

section

variable {events : Table ScheduledReconciliation} {T : DateTime} {limit : ℕ}
  {due : List ScheduledReconciliation}

theorem exists_getDue (hlimit : 0 < limit) :
    ∃ due, getDueReconciliations events T limit = .ok due := by
  rw [getDueReconciliations, if_neg hlimit.ne']
  exact ⟨_, rfl⟩

theorem getDue_eq_ok (h : getDueReconciliations events T limit = .ok due) :
    limit ≠ 0 ∧ due = (orderBy (fun e => toLex (e.scheduledAt, e.id))
      (events.select fun e => e.status = .pending && e.scheduledAt ≤ T)).take limit := by
  unfold getDueReconciliations at h
  split at h
  · exact absurd h (by simp)
  · next hlimit =>
    cases h
    exact ⟨hlimit, rfl⟩

theorem getDue_pending (h : getDueReconciliations events T limit = .ok due)
    {e : ScheduledReconciliation} (he : e ∈ due) :
    e ∈ events ∧ e.status = .pending ∧ e.scheduledAt ≤ T := by
  rw [(getDue_eq_ok h).2] at he
  obtain ⟨hmem, hdue⟩ := Table.mem_select.mp (mem_orderBy.mp (List.mem_of_mem_take he))
  rw [Bool.and_eq_true, decide_eq_true_eq, decide_eq_true_eq] at hdue
  exact ⟨hmem, hdue⟩

theorem getDue_ids_nodup (h : getDueReconciliations events T limit = .ok due) :
    (due.map fun e => e.id).Nodup := by
  rw [(getDue_eq_ok h).2]
  have hrows : ((events.select fun e => e.status = .pending && e.scheduledAt ≤ T).map
      fun e => e.id).Nodup := events.keys_nodup.sublist (List.filter_sublist.map _)
  have hordered := (((perm_orderBy (fun e : ScheduledReconciliation => toLex (e.scheduledAt, e.id))
    _).map fun e => e.id).nodup_iff).mpr hrows
  exact hordered.sublist ((List.take_sublist _ _).map _)

/-- A batch that is not full holds everything that is due. -/
theorem getDue_complete (h : getDueReconciliations events T limit = .ok due)
    (hshort : due.length < limit) {e : ScheduledReconciliation} (he : e ∈ events)
    (hpending : e.status = .pending) (hdue : e.scheduledAt ≤ T) : e ∈ due := by
  obtain ⟨_, htake⟩ := getDue_eq_ok h
  rw [htake, List.length_take] at hshort
  rw [htake, List.take_of_length_le (by omega), mem_orderBy, Table.mem_select]
  simp [he, hpending, hdue]

end

/-! ## The rounds of an invocation -/

/-- The events of the batches so far were pending and due, each is in one batch only, and the other
rows are as before. -/
structure DrainSound (before : Table ScheduledReconciliation) (s : DrainState) : Prop where
  count : s.processedEvents = s.processed.length
  once : s.processed.Nodup
  known : ∀ id ∈ s.processed, ∃ e ∈ before, e.id = id ∧ e.status = .pending
  done : ∀ e ∈ before, e.id ∈ s.processed → ∃ t, e.scheduledAt ≤ t ∧
    { e with status := .processed t } ∈ s.db.scheduledReconciliations
  kept : ∀ e ∈ before, e.id ∉ s.processed → e ∈ s.db.scheduledReconciliations
  origin : ∀ e ∈ s.db.scheduledReconciliations, ∃ r ∈ before, r.id = e.id

theorem DrainSound.start (db : Db) : DrainSound db.scheduledReconciliations { db := db } where
  count := rfl
  once := List.nodup_nil
  known := by simp
  done := by simp
  kept := fun _ he _ => he
  origin := fun e he => ⟨e, he, rfl⟩

section

variable {before : Table ScheduledReconciliation} {s s' : DrainState} {T : DateTime} {limit : ℕ}
  {db' : Db} {events : List ScheduledReconciliation}

/-- The clocks and the number of batches say nothing about the events. -/
theorem DrainSound.congr (h : DrainSound before s)
    (hevents : s'.db.scheduledReconciliations = s.db.scheduledReconciliations)
    (hcount : s'.processedEvents = s.processedEvents) (hprocessed : s'.processed = s.processed) :
    DrainSound before s' where
  count := by rw [hcount, hprocessed]; exact h.count
  once := hprocessed ▸ h.once
  known := hprocessed ▸ h.known
  done := by rw [hprocessed, hevents]; exact h.done
  kept := by rw [hprocessed, hevents]; exact h.kept
  origin := by rw [hevents]; exact h.origin

/-- An event that is pending in the state is a row of the beginning that no batch has had. -/
theorem DrainSound.untouched (h : DrainSound before s) {e : ScheduledReconciliation}
    (he : e ∈ s.db.scheduledReconciliations) (hpending : e.status = .pending) :
    e ∈ before ∧ e.id ∉ s.processed := by
  obtain ⟨r, hr, hid⟩ := h.origin e he
  by_cases hprocessed : r.id ∈ s.processed
  · obtain ⟨t, _, hdone⟩ := h.done r hr hprocessed
    have heq := Table.key_inj hdone he hid
    rw [← heq] at hpending
    exact absurd hpending (by simp)
  · have hkept := h.kept r hr hprocessed
    have heq := Table.key_inj hkept he hid
    rw [← heq]
    exact ⟨hr, hprocessed⟩

theorem DrainSound.round (h : DrainSound before s)
    (hrun : reconcileDueEvents s.db T limit = .ok (db', events))
    (hevents : s'.db.scheduledReconciliations = db'.scheduledReconciliations)
    (hcount : s'.processedEvents = s.processedEvents + events.length)
    (hprocessed : s'.processed = s.processed ++ events.map fun e => e.id) :
    DrainSound before s' := by
  obtain ⟨hdue, hrows⟩ := reconcileDueEvents_eq_ok hrun
  rw [hrows] at hevents
  have hbatch : ∀ e ∈ events, e ∈ before ∧ e.id ∉ s.processed ∧ e.status = .pending ∧
      e.scheduledAt ≤ T := by
    intro e he
    obtain ⟨hmem, hpending, hle⟩ := getDue_pending hdue he
    obtain ⟨hbefore, hnot⟩ := h.untouched hmem hpending
    exact ⟨hbefore, hnot, hpending, hle⟩
  refine ⟨?_, ?_, ?_, ?_, ?_, ?_⟩
  · rw [hcount, hprocessed, List.length_append, List.length_map, h.count]
  · rw [hprocessed]
    refine List.nodup_append.mpr ⟨h.once, getDue_ids_nodup hdue, ?_⟩
    rintro a ha b hb rfl
    obtain ⟨e, he, rfl⟩ := List.mem_map.mp hb
    exact (hbatch e he).2.1 ha
  · intro id hid
    rw [hprocessed, List.mem_append] at hid
    rcases hid with hid | hid
    · exact h.known id hid
    · obtain ⟨e, he, rfl⟩ := List.mem_map.mp hid
      exact ⟨e, (hbatch e he).1, rfl, (hbatch e he).2.2.1⟩
  · intro e he hid
    rw [hprocessed, List.mem_append] at hid
    rw [hevents]
    by_cases hnew : e.id ∈ events.map fun x => x.id
    · -- the batch of this round
      obtain ⟨x, hx, hsame⟩ := List.mem_map.mp hnew
      have hrow : x = e := Table.key_inj (hbatch x hx).1 he hsame
      rw [hrow] at hx
      refine ⟨T, (hbatch e hx).2.2.2, mem_setEventStatus.mpr ⟨e, (getDue_pending hdue hx).1, ?_⟩⟩
      rw [if_pos hnew]
    · obtain ⟨t, ht, hdone⟩ := h.done e he (hid.resolve_right hnew)
      refine ⟨t, ht, mem_setEventStatus.mpr ⟨_, hdone, ?_⟩⟩
      rw [if_neg hnew]
  · intro e he hid
    rw [hprocessed, List.mem_append, not_or] at hid
    rw [hevents]
    refine mem_setEventStatus.mpr ⟨e, h.kept e he hid.1, ?_⟩
    rw [if_neg hid.2]
  · intro e he
    rw [hevents] at he
    obtain ⟨r, hr, rfl⟩ := mem_setEventStatus.mp he
    obtain ⟨x, hx, hid⟩ := h.origin r hr
    refine ⟨x, hx, hid.trans ?_⟩
    split <;> rfl

/-- There are no more processed events than rows. -/
theorem DrainSound.bounded (h : DrainSound before s) :
    s.processed.length ≤ before.rows.length := by
  have hsub : s.processed ⊆ before.rows.map fun e => e.id := by
    intro id hid
    obtain ⟨e, he, rfl, _⟩ := h.known id hid
    exact List.mem_map_of_mem he
  have hle := (List.subperm_of_subset h.once hsub).length_le
  rwa [List.length_map] at hle

end

/-! ## One round -/

section

variable {settings : ReconciliationWorkerSettings} {startedAt : DateTime} {clocks : WorkerClocks}
  {s s' : DrainState} {out : DrainEnd}

/-- A round that goes on has committed a batch with events. -/
theorem drainRound_next (h : drainRound settings startedAt clocks s = .inl s') :
    ∃ T db' events, reconcileDueEvents s.db T settings.batchSize = .ok (db', events) ∧
      events ≠ [] ∧ s'.db = db' ∧ s'.processedEvents = s.processedEvents + events.length ∧
      s'.processed = s.processed ++ events.map fun e => e.id := by
  unfold drainRound at h
  split at h
  · exact absurd h (by simp)
  · simp only [DrainState.batch] at h
    split at h
    · exact absurd h (by simp)
    · exact absurd h (by simp)
    · next db' event events hrun =>
      split at h
      · exact absurd h (by simp)
      · cases h
        exact ⟨_, db', event :: events, hrun, by simp, rfl, rfl, rfl⟩

/-- How a round leaves the loop. -/
inductive DrainRoundLeaves (settings : ReconciliationWorkerSettings) (s : DrainState)
    (out : DrainEnd) : Prop where
  | outOfTime (result : ReconciliationWorkerResult) : out.state = s → out.result = .ok result →
      result.drained = false → result.processedEvents = s.processedEvents →
      DrainRoundLeaves settings s out
  | raised (T : DateTime) (e : ServiceError) :
      reconcileDueEvents s.db T settings.batchSize = .error e → out.result = .error e →
      out.state.processingAt = some T → out.state.db = s.db →
      out.state.processedEvents = s.processedEvents → out.state.processed = s.processed →
      DrainRoundLeaves settings s out
  | drained (T : DateTime) (db' : Db) (events : List ScheduledReconciliation)
      (result : ReconciliationWorkerResult) :
      reconcileDueEvents s.db T settings.batchSize = .ok (db', events) →
      events.length < settings.batchSize → out.result = .ok result →
      result.processedEvents = out.state.processedEvents →
      out.state.processingAt = some T → out.state.db = db' →
      out.state.processedEvents = s.processedEvents + events.length →
      out.state.processed = s.processed ++ events.map (fun e => e.id) →
      DrainRoundLeaves settings s out

theorem drainRound_leave (hbatch : 0 < settings.batchSize)
    (h : drainRound settings startedAt clocks s = .inr out) :
    DrainRoundLeaves settings s out := by
  unfold drainRound at h
  split at h
  · cases h
    exact .outOfTime _ rfl rfl rfl rfl
  · simp only [DrainState.batch] at h
    split at h
    · next e hrun =>
      cases h
      exact .raised _ e hrun rfl rfl rfl rfl rfl
    · next db' hrun =>
      cases h
      exact .drained _ db' [] _ hrun hbatch rfl rfl rfl rfl rfl (by simp [DrainState.finish])
    · next db' event events hrun =>
      split at h
      · next hshort =>
        cases h
        exact .drained _ db' (event :: events) _ hrun hshort rfl rfl rfl rfl rfl rfl
      · exact absurd h (by simp)

end

/-! ## A whole invocation -/

/-- What the worker may say about the events it leaves behind. -/
structure DrainedExactly (settings : ReconciliationWorkerSettings) (out : DrainEnd) : Prop where
  counted : ∀ result, out.result = .ok result →
    result.processedEvents = out.state.processed.length
  drained : ∀ result, out.result = .ok result → result.drained = true →
    ∃ T, out.state.processingAt = some T ∧ ∀ e ∈ out.state.db.scheduledReconciliations,
      e.status = .pending → T < e.scheduledAt
  raised : ∀ e, out.result = .error e → ∃ T due, out.state.processingAt = some T ∧
    reconcileDueEvents out.state.db T settings.batchSize = .error e ∧
    getDueReconciliations out.state.db.scheduledReconciliations T settings.batchSize = .ok due ∧
    ∀ x ∈ due, x ∈ out.state.db.scheduledReconciliations ∧ x.status = .pending

theorem drainRound_exact {settings : ReconciliationWorkerSettings} (hbatch : 0 < settings.batchSize)
    {before : Table ScheduledReconciliation} {s : DrainState} {out : DrainEnd}
    (h : DrainSound before s) (hleaves : DrainRoundLeaves settings s out) :
    DrainSound before out.state ∧ DrainedExactly settings out := by
  cases hleaves with
  | outOfTime result hstate hresult hdrained hcount =>
    rw [hstate]
    refine ⟨h, ⟨fun r hr => ?_, fun r hr htrue => ?_, fun e he => ?_⟩⟩
    · cases hresult.symm.trans hr
      rw [hstate, hcount, h.count]
    · cases hresult.symm.trans hr
      rw [hdrained] at htrue
      exact absurd htrue (by simp)
    · exact absurd (hresult.symm.trans he) (by simp)
  | raised T e hrun hresult hat hdb hcount hprocessed =>
    refine ⟨h.congr (by rw [hdb]) hcount hprocessed, ⟨fun r hr => ?_, fun r hr _ => ?_, ?_⟩⟩
    · exact absurd (hresult.symm.trans hr) (by simp)
    · exact absurd (hresult.symm.trans hr) (by simp)
    · intro e' he'
      cases hresult.symm.trans he'
      rw [hdb]
      obtain ⟨due, hdue⟩ := @exists_getDue s.db.scheduledReconciliations T _ hbatch
      refine ⟨T, due, hat, hrun, hdue, fun x hx => ?_⟩
      obtain ⟨hmem, hpending, _⟩ := getDue_pending hdue hx
      exact ⟨hmem, hpending⟩
  | drained T db' events result hrun hshort hresult hcount hat hdb hevents hprocessed =>
    have hsound := h.round hrun (by rw [hdb]) hevents hprocessed
    obtain ⟨hdue, hrows⟩ := reconcileDueEvents_eq_ok hrun
    refine ⟨hsound, ⟨fun r hr => ?_, fun r _ _ => ⟨T, hat, fun e he hpending => ?_⟩, fun e he => ?_⟩⟩
    · cases hresult.symm.trans hr
      rw [hcount, hsound.count]
    · -- an event that is due would have been in the batch
      by_contra hle
      rw [hdb, hrows] at he
      obtain ⟨r, hr, rfl⟩ := mem_setEventStatus.mp he
      by_cases hid : r.id ∈ events.map fun x => x.id
      · rw [if_pos hid] at hpending
        exact absurd hpending (by simp)
      · rw [if_neg hid] at hpending hle
        exact hid (List.mem_map_of_mem (getDue_complete hdue hshort hr hpending (not_lt.mp hle)))
    · exact absurd (hresult.symm.trans he) (by simp)

/-- An invocation of the worker comes to an end. No event is processed twice and none is scheduled;
if it says that it drained the events, then none is due at the time of the last batch; and if a batch
raises, then its events are pending and those of the batches before it processed. -/
theorem worker_drains_exactly {settings : ReconciliationWorkerSettings}
    (hbatch : 0 < settings.batchSize) (db : Db) (startedAt : DateTime) (clocks : WorkerClocks) :
    ∃ fuel out, drainDueReconciliations settings startedAt clocks db fuel = some out ∧
      DrainSound db.scheduledReconciliations out.state ∧ DrainedExactly settings out := by
  let I : DrainState → Prop := DrainSound db.scheduledReconciliations
  let variant := fun s : DrainState => db.scheduledReconciliations.rows.length - s.processed.length
  have hnext : ∀ s s', I s → drainRound settings startedAt clocks s = .inl s' →
      I s' ∧ variant s' < variant s := by
    intro s s' hs hround
    obtain ⟨T, db', events, hrun, hnonempty, hdb, hcount, hprocessed⟩ := drainRound_next hround
    have hs' := DrainSound.round hs hrun (by rw [hdb]) hcount hprocessed
    refine ⟨hs', ?_⟩
    have hpos := List.length_pos_iff.mpr hnonempty
    have hbound := hs'.bounded
    show db.scheduledReconciliations.rows.length - s'.processed.length < _ - s.processed.length
    rw [hprocessed, List.length_append, List.length_map] at hbound ⊢
    omega
  have hleave : ∀ s out, I s → drainRound settings startedAt clocks s = .inr out →
      DrainSound db.scheduledReconciliations out.state ∧ DrainedExactly settings out :=
    fun s out hs hround => drainRound_exact hbatch hs (drainRound_leave hbatch hround)
  obtain ⟨fuel, _, out, hrun, hout⟩ := runLoop_ends variant hnext hleave (DrainSound.start db)
  exact ⟨fuel, out, hrun, hout⟩

/-- Three employees with one event each, all due in February. -/
def dueDb : Db :=
  { runOperations .empty chainCalls with
    scheduledReconciliations := .ofRows
      [newEvent 1 ⟨.employee, 1, .tenureThreshold, startOfDay (.on 2026 1 20)⟩,
        newEvent 2 ⟨.employee, 2, .tenureThreshold, startOfDay (.on 2026 1 21)⟩,
        newEvent 3 ⟨.employee, 3, .tenureThreshold, startOfDay (.on 2026 1 22)⟩] }

def februaryClocks : WorkerClocks where
  clock := fun _ => startOfDay (.on 2026 2 1)
  monotonicClock := fun n => n

theorem worker_drains_exactly_february :
    ((drainDueReconciliations { batchSize := 2 } (startOfDay (.on 2026 2 1)) februaryClocks dueDb
      3).map fun out => (out.state.batches, out.state.processed)) = some (2, [1, 2, 3]) ∧
    ∃ fuel out, drainDueReconciliations { batchSize := 2 } (startOfDay (.on 2026 2 1))
        februaryClocks dueDb fuel = some out ∧
      DrainSound dueDb.scheduledReconciliations out.state ∧ DrainedExactly { batchSize := 2 } out :=
  ⟨by decide +kernel, worker_drains_exactly (by decide) dueDb _ februaryClocks⟩

end Warp
