import Warp.Properties.ScheduledEvents

/-!
# Events are processed once

Any number of workers may run at the same time, next to the requests that schedule and cancel events.
A worker passes over the rows that another transaction holds, so no event is in two batches, and one
that has been processed stays so.
-/

namespace Warp

open Infra

def EventStatus.Processed : EventStatus → Prop
  | .processed _ => True
  | _ => False

/-- The transaction has marked the event as processed, and not ended. -/
def Processes (w : ScheduleWorld) (t eventId : ℕ) : Prop :=
  ∃ e p, w.Pending t (.setStatus e (.processed p)) ∧ e.id = eventId

/-! ## Statements -/

/-- The statement marks an event as processed. -/
def ScheduleOp.Processing : ScheduleOp → Prop
  | .setStatus _ (.processed _) => True
  | _ => False

/-- What is left to do of a batch. -/
def ScheduleOp.OfBatch (p : DateTime) : ScheduleOp → Prop
  | .collect _ => True
  | .setStatus _ (.processed q) => q = p
  | _ => False

section

variable {locked : ScheduleLock → Bool} {n : ℕ} {db : Db} {op : ScheduleOp}
variable {more : List ScheduleOp} {new : List ScheduleWrite} {p : DateTime}

theorem not_processing_employee {now : DateTime} {eop : EmployeeOp} :
    ∀ o ∈ beforeEmployee now eop ++ afterEmployee n now eop, ¬o.Processing := by
  intro o ho
  rcases List.mem_append.mp ho with ho | ho
  · cases eop <;> simp only [beforeEmployee, List.mem_cons, List.not_mem_nil, or_false] at ho <;>
      first | (subst ho; exact id) | (rcases ho with rfl | rfl <;> exact id)
  · cases eop with
    | insertRow data =>
      rw [List.mem_singleton.mp ho]
      exact id
    | updateRow loaded updated =>
      simp only [afterEmployee] at ho
      split at ho
      · rw [List.mem_singleton.mp ho]
        exact id
      · exact absurd ho List.not_mem_nil
    | _ => exact absurd ho List.not_mem_nil

/-- The statements of a batch lead to no others and mark its events. -/
theorem batch_step (h : runScheduleOp locked n db op = .ok (more, new)) (hop : op.OfBatch p) :
    more = [] ∧ ∀ x ∈ new, ∃ e, x = .setStatus e (.processed p) := by
  cases op with
  | collect e =>
    simp only [runScheduleOp, exceptMap_eq_ok] at h
    obtain ⟨_, _, hout⟩ := h
    cases hout
    exact ⟨rfl, by simp⟩
  | setStatus e status =>
    simp only [runScheduleOp, bind_eq_ok, pure_eq_ok] at h
    obtain ⟨_, _, hout⟩ := h
    cases hout
    refine ⟨rfl, fun x hx => ?_⟩
    rw [List.mem_singleton.mp hx]
    cases status with
    | processed q =>
      cases hop
      exact ⟨e, rfl⟩
    | pending | cancelled => exact absurd hop id
  | _ => exact absurd hop id

/-- Only the selection of a batch leads to statements that mark events, and these are pending, due and
locked by it. -/
theorem processing_step (h : runScheduleOp locked n db op = .ok (more, new)) :
    (∃ limit p, op = .selectDue p limit ∧ new = [] ∧ (∀ o ∈ more, o.OfBatch p) ∧
      ∀ e status, .setStatus e status ∈ more →
        locked (.event e.id) = true ∧ e ∈ db.scheduledReconciliations ∧ e.status = .pending) ∨
    ∀ o ∈ more, ¬o.Processing := by
  cases op with
  | selectDue q limit =>
    simp only [runScheduleOp, bind_eq_ok, pure_eq_ok] at h
    obtain ⟨due, hdue, hout⟩ := h
    cases hout
    refine Or.inl ⟨limit, q, rfl, rfl, fun o ho => ?_, fun e status hmem => ?_⟩
    · rcases List.mem_append.mp ho with ho | ho
      · obtain ⟨e, _, rfl⟩ := List.mem_map.mp ho
        trivial
      · obtain ⟨e, _, rfl⟩ := List.mem_map.mp ho
        rfl
    · refine mem_unlockedDue hdue ?_
      rcases List.mem_append.mp hmem with hmem | hmem
      · obtain ⟨e', _, he⟩ := List.mem_map.mp hmem
        exact absurd he (by simp)
      · obtain ⟨e', he', he⟩ := List.mem_map.mp hmem
        cases he
        exact he'
  | employee now eop =>
    simp only [runScheduleOp, bind_eq_ok, pure_eq_ok] at h
    obtain ⟨⟨eops, writes⟩, hrun, hout⟩ := h
    cases hout
    refine Or.inr fun o ho => ?_
    rcases List.mem_append.mp ho with ho | ho
    · obtain ⟨eop', _, ho⟩ := List.mem_flatMap.mp ho
      exact not_processing_employee (n := n) o (List.mem_append_left _ ho)
    · exact not_processing_employee o (List.mem_append_right _ ho)
  | addVersion policyId data actor now =>
    simp only [runScheduleOp, bind_eq_ok, pure_eq_ok] at h
    obtain ⟨policy, _, input, _, hout⟩ := h
    cases hout
    exact Or.inr (by simp [ScheduleOp.Processing])
  | createVersion policy input now =>
    simp only [runScheduleOp, bind_eq_ok, pure_eq_ok] at h
    obtain ⟨writes, _, _, _, hout⟩ := h
    cases hout
    exact Or.inr (by simp [or_imp, forall_and, ScheduleOp.Processing])
  | insertClause versionId clause =>
    cases h
    exact Or.inr (by simp [ScheduleOp.Processing])
  | insertCondition clauseId condition =>
    cases h
    exact Or.inr (by simp)
  | syncVersions policy now =>
    cases h
    exact Or.inr (by simp [ScheduleOp.Processing])
  | selectEmployees now =>
    cases h
    exact Or.inr (by simp [ScheduleOp.Processing])
  | syncEmployee employee now =>
    simp only [runScheduleOp, bind_eq_ok, pure_eq_ok] at h
    obtain ⟨desired, _, hout⟩ := h
    cases hout
    exact Or.inr (by simp [ScheduleOp.Processing])
  | selectPending entityType entityIds keep =>
    cases h
    exact Or.inr (by simp [ScheduleOp.Processing])
  | schedule key =>
    simp only [runScheduleOp, bind_eq_ok] at h
    obtain ⟨_, _, h⟩ := h
    refine Or.inr fun o ho => ?_
    split at h
    · rw [pure_eq_ok] at h
      cases h
      rw [List.mem_singleton.mp ho]
      exact id
    · rw [pure_eq_ok] at h
      cases h
      split at ho
      · rw [List.mem_singleton.mp ho]
        exact id
      · exact absurd ho List.not_mem_nil
  | insertEvent key =>
    simp only [runScheduleOp, bind_eq_ok, pure_eq_ok] at h
    obtain ⟨_, _, hout⟩ := h
    cases hout
    exact Or.inr (by simp)
  | setStatus e status =>
    simp only [runScheduleOp, bind_eq_ok, pure_eq_ok] at h
    obtain ⟨_, _, hout⟩ := h
    cases hout
    exact Or.inr (by simp)
  | collect e =>
    simp only [runScheduleOp, exceptMap_eq_ok] at h
    obtain ⟨_, _, hout⟩ := h
    cases hout
    exact Or.inr (by simp)

/-- A status is set on a row that is there, and a processed row is only processed again. -/
theorem setStatus_step {e : ScheduledReconciliation} {status : EventStatus}
    (h : runScheduleOp locked n db (.setStatus e status) = .ok (more, new)) :
    ∃ r ∈ db.scheduledReconciliations, r.id = e.id ∧ (r.status.Processed → status.Processed) := by
  simp only [runScheduleOp, bind_eq_ok] at h
  obtain ⟨_, hrequire, _⟩ := h
  unfold requireStatusChange at hrequire
  cases hfind : db.scheduledReconciliations.find? e.id with
  | none =>
    rw [hfind] at hrequire
    exact absurd hrequire (by simp)
  | some r =>
    obtain ⟨hr, hid⟩ := Table.find?_eq_some.mp hfind
    refine ⟨r, hr, hid, fun hprocessed => ?_⟩
    rw [hfind] at hrequire
    cases status with
    | processed q => trivial
    | pending | cancelled =>
      rw [ensure_eq_ok, decide_eq_true_eq] at hrequire
      rcases hrequire with hstatus | hstatus <;> rw [hstatus] at hprocessed <;>
        exact hprocessed.elim

end

/-! ## Rows of events -/

section

variable {db : Db} {r : ScheduledReconciliation}

/-- An event row whose status no write sets was there before, or is a new one. -/
theorem event_before : ∀ (writes : List ScheduleWrite) {db : Db},
    r ∈ (writes.foldl applyScheduleWrite db).scheduledReconciliations →
      (∀ e status, .setStatus e status ∈ writes → e.id ≠ r.id) →
        r ∈ db.scheduledReconciliations ∨ .insertEvent r ∈ writes
  | [], _, h, _ => Or.inl h
  | x :: writes, db, h, hset => by
    rcases event_before writes h fun e status hmem => hset e status (List.mem_cons_of_mem _ hmem)
      with h | h
    · cases x with
      | insertEvent e =>
        rcases Table.mem_insert.mp h with rfl | ⟨h, _⟩
        · exact Or.inr List.mem_cons_self
        · exact Or.inl h
      | setStatus e status =>
        rcases mem_updateEventStatus.mp h with ⟨h, _⟩ | ⟨r', _, ⟨hid, _⟩, rfl⟩
        · exact Or.inl h
        · exact absurd hid.symm (hset e status List.mem_cons_self)
      | employee x =>
        rw [scheduledReconciliations_applyScheduleWrite (by simp) (by simp)] at h
        exact Or.inl h
      | version x | values versionId values | clause clause | condition condition => exact Or.inl h
    · exact Or.inr (List.mem_cons_of_mem _ h)

/-- A row stays where no write inserts or updates one with its id. -/
theorem event_after (writes : List ScheduleWrite) (h : r ∈ db.scheduledReconciliations)
    (hinsert : ∀ e, .insertEvent e ∈ writes → e.id ≠ r.id)
    (hset : ∀ e status, .setStatus e status ∈ writes → e.id ≠ r.id) :
    r ∈ (writes.foldl applyScheduleWrite db).scheduledReconciliations := by
  refine foldl_reaches (P := fun db : Db => r ∈ db.scheduledReconciliations) writes
    (fun x hx s hs => event_applyScheduleWrite (fun e he => ?_) (fun e status he => ?_) hs) (Or.inl h)
  · exact hinsert e (he ▸ hx)
  · exact hset e status (he ▸ hx)

/-- The commit of a batch processes its events. -/
theorem processed_after {p : DateTime} : ∀ (writes : List ScheduleWrite) {db : Db},
    (∀ x ∈ writes, ∃ e, x = .setStatus e (.processed p)) →
      (r ∈ db.scheduledReconciliations ∧ .setStatus r (.processed p) ∈ writes) ∨
        { r with status := .processed p } ∈ db.scheduledReconciliations →
      { r with status := .processed p } ∈
        (writes.foldl applyScheduleWrite db).scheduledReconciliations
  | [], _, _, h => h.resolve_left fun h => List.not_mem_nil h.2
  | x :: writes, db, hbatch, h => by
    obtain ⟨e, rfl⟩ := hbatch x List.mem_cons_self
    refine processed_after writes (fun y hy => hbatch y (List.mem_cons_of_mem _ hy)) ?_
    by_cases hsame : r.id = e.id ∧ r.eventKey = e.eventKey
    · rcases h with ⟨h, _⟩ | h
      · exact Or.inr (mem_updateEventStatus.mpr (Or.inr ⟨r, h, hsame, rfl⟩))
      · exact Or.inr (mem_updateEventStatus.mpr (Or.inr ⟨_, h, hsame, rfl⟩))
    · rcases h with ⟨h, hmem⟩ | h
      · refine Or.inl ⟨mem_updateEventStatus.mpr (Or.inl ⟨h, hsame⟩), ?_⟩
        refine (List.mem_cons.mp hmem).resolve_left fun heq => hsame ?_
        cases heq
        exact ⟨rfl, rfl⟩
      · exact Or.inr (mem_updateEventStatus.mpr (Or.inl ⟨h, hsame⟩))

end

/-! ## Stages of a transaction -/

/-- What the locks of a transaction keep true of the events whose status it sets. -/
structure ProcessStage (db : Db) (held : ScheduleLock → Prop)
    (l : Live ScheduleOp ScheduleWrite) : Prop where
  stage : ScheduleStage db held l
  kind : (∃ p, (∀ o ∈ l.todo, o.OfBatch p) ∧ ∀ x ∈ l.writes, ∃ e, x = .setStatus e (.processed p)) ∨
    ((∀ o ∈ l.todo, ¬o.Processing) ∧ ∀ e p, .setStatus e (.processed p) ∉ l.writes)
  picked : ∀ e p, .setStatus e (.processed p) ∈ l.todo →
    held (.event e.id) ∧ e ∈ db.scheduledReconciliations ∧ e.status = .pending
  marked : ∀ e p, .setStatus e (.processed p) ∈ l.writes →
    e ∈ db.scheduledReconciliations ∧ e.status = .pending
  known : ∀ e status, .setStatus e status ∈ l.writes →
    e.id ∈ eventNumbers.known db ∨ ∃ r, .insertEvent r ∈ l.writes ∧ r.id = e.id
  unprocessed : ∀ e status, .setStatus e status ∈ l.writes →
    ∀ r ∈ db.scheduledReconciliations, r.id = e.id → ¬r.status.Processed

section

variable {db : Db} {held held' : ScheduleLock → Prop} {l : Live ScheduleOp ScheduleWrite}
variable {writes : List ScheduleWrite}

theorem ProcessStage.mono (hsub : ∀ k, held k → held' k) (h : ProcessStage db held l) :
    ProcessStage db held' l where
  stage := h.stage.mono hsub
  kind := h.kind
  picked e p hmem := ⟨hsub _ (h.picked e p hmem).1, (h.picked e p hmem).2⟩
  marked := h.marked
  known := h.known
  unprocessed := h.unprocessed

theorem pending_not_processed {e r : ScheduledReconciliation}
    (he : e ∈ db.scheduledReconciliations) (hpending : e.status = .pending)
    (hr : r ∈ db.scheduledReconciliations) (hid : r.id = e.id) : ¬r.status.Processed := by
  rw [Table.key_inj hr he hid, hpending]
  exact id

/-- A status that the statement may set is not one of a processed event. -/
theorem ProcessStage.settable {todo : List ScheduleOp} {locked : ScheduleLock → Bool} {n : ℕ}
    {e : ScheduledReconciliation} {status : EventStatus} {more : List ScheduleOp}
    {new : List ScheduleWrite} (h : ProcessStage db held ⟨.setStatus e status :: todo, writes⟩)
    (hfresh : ∀ x ∈ writes, ∀ i ∈ eventNumbers.inserts x, i ∉ eventNumbers.known db)
    (hok : runScheduleOp locked n (writes.foldl applyScheduleWrite db) (.setStatus e status) =
      .ok (more, new)) :
    ∀ r ∈ db.scheduledReconciliations, r.id = e.id → ¬r.status.Processed := by
  intro r hr hid
  cases status with
  | processed p =>
    obtain ⟨_, he, hpending⟩ := h.picked e p List.mem_cons_self
    exact pending_not_processed he hpending hr hid
  | pending | cancelled =>
    intro hprocessed
    obtain ⟨v, hv, hvid, hkeeps⟩ := setStatus_step hok
    -- the transaction sees the row as it is committed, for it has not set its status
    have hseen : r ∈ (writes.foldl applyScheduleWrite db).scheduledReconciliations := by
      refine event_after writes hr (fun e' hmem heq => ?_) fun e' status hmem heq => ?_
      · exact hfresh _ hmem e'.id rfl ⟨r, hr, heq.symm⟩
      · exact h.unprocessed e' status hmem r hr heq.symm hprocessed
    rw [Table.key_inj hseen hv (hid.trans hvid.symm)] at hprocessed
    exact hkeeps hprocessed

theorem ProcessStage.exec {available : ScheduleLock → Bool} {n : ℕ} {op : ScheduleOp}
    {todo more : List ScheduleOp} {new : List ScheduleWrite}
    (h : ProcessStage db held ⟨op :: todo, writes⟩)
    (hfresh : ∀ x ∈ writes, ∀ i ∈ eventNumbers.inserts x, i ∉ eventNumbers.known db)
    (hok : runScheduleOp
      (fun k => (lockScheduleRows available (writes.foldl applyScheduleWrite db) op).contains k) n
      (writes.foldl applyScheduleWrite db) op = .ok (more, new)) :
    ProcessStage db
      (fun k => held k ∨ k ∈ lockScheduleRows available (writes.foldl applyScheduleWrite db) op)
      ⟨more ++ todo, writes ++ new⟩ := by
  have hstep := runScheduleOp_step hok
  have hop : op ∈ op :: todo := List.mem_cons_self
  have htodo : ∀ o ∈ todo, o ∈ op :: todo := fun o ho => List.mem_cons_of_mem _ ho
  -- a batch begins with the first and only statement of its transaction
  have hfirst : ∀ p limit, op = .selectDue p limit → todo = [] ∧ writes = [] := by
    rintro p limit rfl
    obtain ⟨hlist, hwrites⟩ := h.stage.due p limit hop
    exact ⟨(List.cons.inj hlist).2, hwrites⟩
  refine ⟨h.stage.exec hok, ?_, fun e p hmem => ?_, fun e p hmem => ?_, fun e status hmem => ?_,
    fun e status hmem => ?_⟩
  · rcases processing_step hok with ⟨limit, p, rfl, rfl, hbatch, _⟩ | hmore
    · obtain ⟨rfl, rfl⟩ := hfirst p limit rfl
      exact Or.inl ⟨p, by simpa using hbatch, by simp⟩
    · rcases h.kind with ⟨p, hops, hwrites⟩ | ⟨hops, hwrites⟩
      · obtain ⟨rfl, hnew⟩ := batch_step hok (hops op hop)
        refine Or.inl ⟨p, fun o ho => hops o (htodo o ho), fun x hx => ?_⟩
        exact (List.mem_append.mp hx).elim (hwrites x) (hnew x)
      · refine Or.inr ⟨fun o ho => ?_, fun e p hmem => ?_⟩
        · exact (List.mem_append.mp ho).elim (hmore o) fun ho => hops o (htodo o ho)
        · rcases List.mem_append.mp hmem with hmem | hmem
          · exact hwrites e p hmem
          · have hnot := hops op hop
            rw [hstep.status e _ hmem] at hnot
            exact hnot trivial
  · rcases List.mem_append.mp hmem with hmem | hmem
    · rcases processing_step hok with ⟨limit, q, rfl, _, _, hpicked⟩ | hmore
      · obtain ⟨hlocked, he, hpending⟩ := hpicked e _ hmem
        rw [(hfirst q limit rfl).2] at he
        exact ⟨Or.inr (List.contains_iff_mem.mp hlocked), he, hpending⟩
      · exact absurd trivial (hmore _ hmem)
    · obtain ⟨hheld, hrest⟩ := h.picked e p (htodo _ hmem)
      exact ⟨Or.inl hheld, hrest⟩
  · rcases List.mem_append.mp hmem with hmem | hmem
    · exact h.marked e p hmem
    · have heq := hstep.status e _ hmem
      exact (h.picked e p (heq ▸ hop)).2
  · rcases List.mem_append.mp hmem with hmem | hmem
    · refine (h.known e status hmem).imp_right fun ⟨r, hr, hid⟩ => ⟨r, ?_, hid⟩
      exact List.mem_append_left _ hr
    · have heq := hstep.status e status hmem
      subst heq
      obtain ⟨v, hv, hid, _⟩ := setStatus_step hok
      rcases Numbering.known_foldl eventNumbers_respects writes db ⟨v, hv, hid⟩ with hk | ⟨x, hx, hk⟩
      · exact Or.inl hk
      · cases x with
        | insertEvent r => exact Or.inr ⟨r, List.mem_append_left _ hx, hk.symm⟩
        | _ => exact absurd hk (Set.notMem_empty e.id)
  · rcases List.mem_append.mp hmem with hmem | hmem
    · exact h.unprocessed e status hmem
    · have heq := hstep.status e status hmem
      subst heq
      exact h.settable hfresh hok

/-- The commit of another transaction leaves the events of this one. -/
theorem ProcessStage.afterCommit {heldOther : ScheduleLock → Prop}
    (hother : ProcessStage db heldOther ⟨[], writes⟩)
    (hfresh : ∀ x ∈ writes, ∀ i ∈ eventNumbers.inserts x, i ∉ eventNumbers.known db)
    (hnew : ∀ r r', .insertEvent r ∈ writes → .insertEvent r' ∈ l.writes → r.id ≠ r'.id)
    (hapart : ∀ k, heldOther k → ¬held k) (h : ProcessStage db held l) :
    ProcessStage (writes.foldl applyScheduleWrite db) held l := by
  have hset : ∀ id, held (.event id) → ∀ e status, .setStatus e status ∈ writes → e.id ≠ id := by
    rintro id hheld e status hmem rfl
    exact hapart _ (hother.stage.locked e status hmem) hheld
  have hkept : ∀ e ∈ db.scheduledReconciliations, held (.event e.id) →
      e ∈ (writes.foldl applyScheduleWrite db).scheduledReconciliations := by
    intro e he hheld
    refine event_after writes he (fun e' hmem heq => ?_) (hset e.id hheld)
    exact hfresh _ hmem e'.id rfl ⟨e, he, heq.symm⟩
  have hknown : ∀ i, i ∈ eventNumbers.known db →
      i ∈ eventNumbers.known (writes.foldl applyScheduleWrite db) := by
    intro i
    refine fun hi => foldl_reaches (P := fun db : Db => i ∈ eventNumbers.known db) writes ?_ (Or.inl hi)
    rintro x _ s ⟨e, he, rfl⟩
    cases x with
    | insertEvent r =>
      by_cases hid : e.id = r.id
      · exact ⟨r, Table.mem_insert_self, hid.symm⟩
      · exact ⟨e, Table.mem_insert.mpr (Or.inr ⟨he, hid⟩), rfl⟩
    | setStatus r status =>
      by_cases hsame : e.id = r.id ∧ e.eventKey = r.eventKey
      · exact ⟨_, mem_updateEventStatus.mpr (Or.inr ⟨e, he, hsame, rfl⟩), rfl⟩
      · exact ⟨e, mem_updateEventStatus.mpr (Or.inl ⟨he, hsame⟩), rfl⟩
    | employee x =>
      refine ⟨e, ?_, rfl⟩
      rw [scheduledReconciliations_applyScheduleWrite (by simp) (by simp)]
      exact he
    | version x | values versionId values | clause clause | condition condition => exact ⟨e, he, rfl⟩
  refine ⟨hother.stage.afterCommit hfresh hapart h.stage, h.kind, fun e p hmem => ?_,
    fun e p hmem => ?_, fun e status hmem => ?_, fun e status hmem r hr hid => ?_⟩
  · obtain ⟨hheld, he, hpending⟩ := h.picked e p hmem
    exact ⟨hheld, hkept e he hheld, hpending⟩
  · obtain ⟨he, hpending⟩ := h.marked e p hmem
    exact ⟨hkept e he (h.stage.locked e _ hmem), hpending⟩
  · exact (h.known e status hmem).imp_left (hknown e.id)
  · have hheld := h.stage.locked e status hmem
    rcases event_before writes hr fun e' status' hmem' => hid ▸ hset e.id hheld e' status' hmem'
      with hold | hinserted
    · exact h.unprocessed e status hmem r hold hid
    -- a new row of another transaction has another id
    · rcases h.known e status hmem with hk | ⟨r', hr', hid'⟩
      · exact absurd (hid ▸ hk) (hfresh _ hinserted r.id rfl)
      · exact absurd (hid.trans hid'.symm) (hnew r r' hinserted hr')

end

/-! ## Runs -/

structure ProcessSound (w : ScheduleWorld) : Prop where
  fresh : eventNumbers.Fresh w
  stage : ∀ (t : ℕ) l, w.fates[t]? = some (.live l) →
    ProcessStage w.committed (fun k => w.holder k = some t) l

section

variable {w : ScheduleWorld}

theorem ProcessSound.next (h : ProcessSound w) (a : Action) :
    ProcessSound (w.next scheduleCode a) where
  fresh := h.fresh.next eventNumbers_respects a
  stage := by
    refine World.stage_next (fun _ _ _ _ hsub hstage => hstage.mono hsub)
      (fun t op todo more writes new live hstage ok => ?_)
      (fun t writes live hstage u l hu hl hstage' => ?_) h.stage
    · exact hstage.exec (fun x hx => h.fresh.unpublished ⟨_, live, hx⟩) ok
    · refine hstage.afterCommit (fun x hx => h.fresh.unpublished ⟨_, live, hx⟩)
        (fun r r' hr hr' heq => ?_) (fun k hk hk' => ?_) hstage'
      · exact hu (h.fresh.apart ⟨_, live, hr⟩ ⟨_, hl, hr'⟩ rfl heq).symm
      · exact hu (Option.some.inj (hk'.symm.trans hk))

theorem ProcessSound.run (h : ProcessSound w) (actions : List Action) :
    ProcessSound (w.run scheduleCode actions) := by
  induction actions generalizing w with
  | nil => exact h
  | cons a rest ih => exact ih (h.next a)

/-- A processed event stays as it is. -/
theorem ProcessSound.kept_next (h : ProcessSound w) (a : Action) {e : ScheduledReconciliation}
    (he : e ∈ w.committed.scheduledReconciliations) (hprocessed : e.status.Processed) :
    e ∈ (w.next scheduleCode a).committed.scheduledReconciliations := by
  cases (World.next_cases w a : WorldStep scheduleCode w (w.next scheduleCode a) a) with
  | committed t writes live after =>
    rw [after]
    refine event_after writes he (fun r hr heq => ?_) fun r status hr heq => ?_
    · exact h.fresh.unpublished ⟨_, live, hr⟩ r.id rfl ⟨e, he, heq.symm⟩
    · exact (h.stage t _ live).unprocessed r status hr e he heq.symm hprocessed
  | ran _ _ _ _ _ _ _ _ _ after
  | failed _ _ _ _ _ _ _ after
  | rolledBack _ _ _ after
  | waits _ after =>
    rw [after]
    exact he

theorem ProcessSound.kept (h : ProcessSound w) (actions : List Action) {e : ScheduledReconciliation}
    (he : e ∈ w.committed.scheduledReconciliations) (hprocessed : e.status.Processed) :
    e ∈ (w.run scheduleCode actions).committed.scheduledReconciliations := by
  induction actions generalizing w with
  | nil => exact he
  | cons a rest ih => exact ih (h.next a) (h.kept_next a he hprocessed)

theorem ProcessSound.marked (h : ProcessSound w) {t : ℕ} {e : ScheduledReconciliation} {p : DateTime}
    (hpending : w.Pending t (.setStatus e (.processed p))) :
    w.holder (.event e.id) = some t ∧ e ∈ w.committed.scheduledReconciliations ∧
      e.status = .pending := by
  obtain ⟨l, hl, hmem⟩ := hpending
  have hstage := h.stage t l hl
  exact ⟨hstage.stage.locked e _ hmem, hstage.marked e p hmem⟩

/-- A processed event is in no batch any more. -/
theorem ProcessSound.unmarked (h : ProcessSound w) {e : ScheduledReconciliation}
    (he : e ∈ w.committed.scheduledReconciliations) (hprocessed : e.status.Processed) (u : ℕ) :
    ¬Processes w u e.id := by
  rintro ⟨r, p, hpending, hid⟩
  obtain ⟨_, hr, hstatus⟩ := h.marked hpending
  exact pending_not_processed hr hstatus he hid.symm hprocessed

theorem ProcessSound.init {db : Db}
    (hfresh : ∀ e ∈ db.scheduledReconciliations, e.id < db.sequences.scheduledReconciliation)
    (transactions : List ScheduleTransaction) : ProcessSound (scheduleWorld db transactions) where
  fresh := (ScheduleSound.init hfresh transactions).fresh
  stage := by
    intro t l hl
    have hstage := (ScheduleSound.init hfresh transactions).stage t l hl
    obtain ⟨hwrites, htodo⟩ := World.init_live hl
    obtain ⟨transaction, _, hop⟩ := List.mem_map.mp htodo
    have hnone : ∀ o ∈ l.todo, ¬o.Processing := by
      intro o ho
      rw [← hop] at ho
      rw [List.mem_singleton.mp ho]
      cases transaction <;> exact id
    refine ⟨hstage, Or.inr ⟨hnone, ?_⟩, fun e p hmem => absurd trivial (hnone _ hmem), ?_, ?_, ?_⟩ <;>
      simp [hwrites]

end

/-- In every interleaving no event is in the batches of two transactions, a batch that commits has
found its events pending and leaves them processed, and from then on no transaction processes them
again and no one changes them. -/
theorem events_processed_once (db : Db)
    (hfresh : ∀ e ∈ db.scheduledReconciliations, e.id < db.sequences.scheduledReconciliation)
    (transactions : List ScheduleTransaction) (first rest : List Action) (t u : ℕ) :
    (∀ eventId, Processes ((scheduleWorld db transactions).run scheduleCode first) t eventId →
      Processes ((scheduleWorld db transactions).run scheduleCode first) u eventId → t = u) ∧
    ∀ e p writes,
      ((scheduleWorld db transactions).run scheduleCode first).fates[t]? =
          some (.live ⟨[], writes⟩) → .setStatus e (.processed p) ∈ writes →
        (e ∈ ((scheduleWorld db transactions).run scheduleCode
            first).committed.scheduledReconciliations ∧ e.status = .pending) ∧
        { e with status := .processed p } ∈ ((scheduleWorld db transactions).run scheduleCode
          (first ++ .commit t :: rest)).committed.scheduledReconciliations ∧
        ¬Processes ((scheduleWorld db transactions).run scheduleCode (first ++ .commit t :: rest)) u
          e.id := by
  have hsound := (ProcessSound.init hfresh transactions).run first
  constructor
  · rintro eventId ⟨e, p, hpending, rfl⟩ ⟨r, q, hpending', hid⟩
    have hheld := (hsound.marked hpending).1
    have hheld' := (hsound.marked hpending').1
    rw [hid, hheld] at hheld'
    exact Option.some.inj hheld'
  · intro e p writes live hmem
    have hstage := hsound.stage t _ live
    obtain ⟨he, hpending⟩ := hstage.marked e p hmem
    -- all writes of the transaction belong to its batch
    have hbatch : ∀ x ∈ writes, ∃ r, x = .setStatus r (.processed p) := by
      rcases hstage.kind with ⟨q, _, hwrites⟩ | ⟨_, hnone⟩
      · obtain ⟨r, heq⟩ := hwrites _ hmem
        cases heq
        exact hwrites
      · exact absurd hmem (hnone e p)
    have hnext : (((scheduleWorld db transactions).run scheduleCode first).next scheduleCode
        (.commit t)).committed = writes.foldl applyScheduleWrite
          ((scheduleWorld db transactions).run scheduleCode first).committed := by
      simp only [World.next, World.step, live]
      rfl
    have hafter := processed_after writes hbatch (Or.inl ⟨he, hmem⟩)
    rw [← hnext] at hafter
    have hrun : (scheduleWorld db transactions).run scheduleCode (first ++ .commit t :: rest) =
        (((scheduleWorld db transactions).run scheduleCode first).next scheduleCode
          (.commit t)).run scheduleCode rest := List.foldl_append
    rw [hrun]
    have hkept := (hsound.next (.commit t)).kept rest hafter trivial
    refine ⟨⟨he, hpending⟩, hkept, ?_⟩
    exact ((hsound.next (.commit t)).run rest).unmarked hkept trivial u

/-! ## Two workers at once -/

def anniversary : ScheduledReconciliation :=
  newEvent 1 ⟨.employee, 1, .tenureThreshold, startOfDay (Date.on 2026 1 1)⟩

/-- The employee with the event of two years of tenure -/
def sabbaticalDue : Db :=
  { sabbatical with
    scheduledReconciliations := .ofRows [anniversary]
    sequences := { sabbatical.sequences with scheduledReconciliation := 2 } }

def twoWorkers : List ScheduleTransaction :=
  [.reconcileDueEvents (startOfDay (Date.on 2026 1 2)) 100,
    .reconcileDueEvents (startOfDay (Date.on 2026 1 3)) 100]

/-- The second worker selects while the first one holds the event. -/
def twoWorkersRun : List Action := [.exec 0, .exec 1, .exec 0, .exec 0]

theorem events_processed_once_twoWorkers :
    Processes ((scheduleWorld sabbaticalDue twoWorkers).run scheduleCode twoWorkersRun) 0 1 ∧
    { anniversary with status := .processed (startOfDay (Date.on 2026 1 2)) } ∈
      ((scheduleWorld sabbaticalDue twoWorkers).run scheduleCode
        (twoWorkersRun ++ [.commit 0, .commit 1])).committed.scheduledReconciliations ∧
    ¬Processes ((scheduleWorld sabbaticalDue twoWorkers).run scheduleCode
      (twoWorkersRun ++ [.commit 0, .commit 1])) 1 1 := by
  have hlive : ((scheduleWorld sabbaticalDue twoWorkers).run scheduleCode
      twoWorkersRun).fates[0]? = some (.live ⟨[],
        [.setStatus anniversary (.processed (startOfDay (Date.on 2026 1 2)))]⟩) := rfl
  have hfresh : ∀ e ∈ sabbaticalDue.scheduledReconciliations.rows,
      e.id < sabbaticalDue.sequences.scheduledReconciliation := by
    decide +kernel
  have honce := (events_processed_once sabbaticalDue hfresh twoWorkers twoWorkersRun [.commit 1] 0
    1).2 anniversary (startOfDay (Date.on 2026 1 2)) _ hlive List.mem_cons_self
  exact ⟨⟨anniversary, _, ⟨_, hlive, List.mem_cons_self⟩, rfl⟩, honce.2⟩

end Warp
