import Warp.TenureScheduling
import Warp.Properties.Refresh
import Mathlib.Logic.Relation

/-!
# Derived rows

Reconciliation and scheduling write policy links, assignment rows and events, and leave the facts
alone. Every such change is a sequence of four kinds of writes.
-/

namespace Warp

open Infra

/-- One write of a row that is derived from the facts. -/
inductive DerivedWrite (db : Db) : Db → Prop where
  | links (links : Table EmployeePolicy) : DerivedWrite db { db with employeePolicies := links }
  | events (events : Table ScheduledReconciliation) (next : ℕ) : DerivedWrite db
      { db with
        scheduledReconciliations := events
        sequences := { db.sequences with scheduledReconciliation := next } }
  | ended (a : EmployeeAssignment) (T : DateTime) (actor : Actor)
      (present : a ∈ db.employeeAssignments) (unended : a.effectiveUntil = none) :
      DerivedWrite db (endAssignment T actor db a)
  | created (a : EmployeeAssignment) (actor : Actor)
      (id : a.id = db.sequences.employeeAssignment) (unended : a.effectiveUntil = none) :
      DerivedWrite db (createAssignment actor db a)

abbrev Derives : Db → Db → Prop := Relation.ReflTransGen DerivedWrite

/-! ## What such writes leave alone -/

structure FactsKept (db db' : Db) : Prop where
  facts : db'.facts = db.facts
  sequences : db'.sequences =
    { db.sequences with
      employeeAssignment := db'.sequences.employeeAssignment
      scheduledReconciliation := db'.sequences.scheduledReconciliation
      auditLog := db'.sequences.auditLog }

theorem FactsKept.trans {db db' db'' : Db} (h : FactsKept db db') (h' : FactsKept db' db'') :
    FactsKept db db'' where
  facts := h'.facts.trans h.facts
  sequences := by
    rw [h'.sequences, h.sequences]

theorem FactsKept.employeeSequence {db db' : Db} (h : FactsKept db db') :
    db'.sequences.employee = db.sequences.employee := by
  rw [h.sequences]

theorem derives_kept {db db' : Db} (h : Derives db db') : FactsKept db db' := by
  induction h with
  | refl => exact ⟨rfl, rfl⟩
  | tail _ hstep ih =>
    refine ih.trans ?_
    cases hstep with
    | links links => exact ⟨rfl, rfl⟩
    | events events next => exact ⟨rfl, rfl⟩
    | ended a T actor _ _ => exact ⟨rfl, rfl⟩
    | created a actor _ _ => exact ⟨rfl, rfl⟩

/-! ## Reconciliation -/

section

variable {db db' : Db} {actor : Actor} {T : DateTime} {employeeId : ℕ}

theorem derives_endAssignments : ∀ {ended : List EmployeeAssignment} {db : Db},
    (∀ a ∈ ended, a ∈ db.employeeAssignments ∧ a.effectiveUntil = none) →
      (ended.map fun a => a.id).Nodup → Derives db (ended.foldl (endAssignment T actor) db)
  | [], _, _, _ => .refl
  | a :: ended, db, h, hn => by
    obtain ⟨hfresh, hn⟩ := List.nodup_cons.mp hn
    obtain ⟨ha, hopen⟩ := h a List.mem_cons_self
    refine .head (.ended a T actor ha hopen) (derives_endAssignments (fun b hb => ?_) hn)
    have hb' := h b (List.mem_cons_of_mem _ hb)
    refine ⟨(mem_endRow ha).mpr (Or.inl ⟨hb'.1, fun hid => ?_⟩), hb'.2⟩
    exact hfresh (List.mem_map.mpr ⟨b, hb, hid⟩)

theorem derives_createAssignments : ∀ {items : List FinalAssignment} {db : Db},
    Derives db ((newAssignments employeeId T db.sequences.employeeAssignment items).foldl
      (createAssignment actor) db)
  | [], _ => .refl
  | item :: items, db => by
    have ih := @derives_createAssignments items (createAssignment actor db
      (newAssignment db.sequences.employeeAssignment employeeId T item))
    exact .head (.created _ actor rfl rfl) ih

theorem derives_writeAssignments {items : List FinalAssignment} :
    Derives db (writeAssignments db employeeId T actor (syncAssignments db employeeId items)) := by
  have hended : Derives db ((syncAssignments db employeeId items).ended.foldl
      (endAssignment T actor) db) := by
    refine derives_endAssignments (fun a ha => ?_) ?_
    · obtain ⟨hm, _, hopen⟩ := mem_openAssignments.mp (mem_ended ha)
      exact ⟨hm, hopen⟩
    · exact db.employeeAssignments.keys_nodup.sublist
        ((ended_sublist.trans List.filter_sublist).map _)
  have hcreated := @derives_createAssignments actor T employeeId
    (syncAssignments db employeeId items).leftover.values
    ((syncAssignments db employeeId items).ended.foldl (endAssignment T actor) db)
  rw [endAssignments_sequence] at hcreated
  exact hended.trans hcreated

theorem derives_refresh {evaluationDate : Option Date} {reconciliationAt : Option DateTime}
    {desired : Option (List FinalAssignment)} {now : DateTime} {rows : List EmployeeAssignment}
    (h : refreshEmployeeAssignments db employeeId evaluationDate reconciliationAt actor desired now =
      .ok (db', rows)) : Derives db db' := by
  unfold refreshEmployeeAssignments at h
  split at h
  · exact absurd h (by simp)
  · split at h
    · exact absurd h (by simp)
    · cases h
      exact derives_writeAssignments

theorem derives_applyResolution {state state' : Db × List (ℕ × List EmployeeAssignment)}
    {resolution : EmployeeAssignmentResolution}
    (h : applyResolution T actor state resolution = .ok state') : Derives state.1 state'.1 := by
  unfold applyResolution at h
  split at h
  · exact absurd h (by simp)
  · next db'' rows hrefresh =>
    cases h
    exact .head (.links _) (derives_refresh hrefresh)

theorem derives_reconcile {employeeIds : List ℕ} {reconciliationAt : Option DateTime}
    {now : DateTime} {rows : List (ℕ × List EmployeeAssignment)}
    (h : reconcileEmployees db employeeIds reconciliationAt actor now = .ok (db', rows)) :
    Derives db db' := by
  unfold reconcileEmployees at h
  split at h
  · exact absurd h (by simp)
  · exact runAll_invariant (I := fun state => Derives db state.1)
      (fun _ _ _ _ hu hstep => hu.trans (derives_applyResolution hstep)) .refl h

theorem derives_reconcileMap {employeeIds : List ℕ} {reconciliationAt : Option DateTime}
    {now : DateTime}
    (h : (reconcileEmployees db employeeIds reconciliationAt actor now).map Prod.fst = .ok db') :
    Derives db db' := by
  obtain ⟨⟨_, rows⟩, hrun, rfl⟩ := exceptMap_eq_ok.mp h
  exact derives_reconcile hrun

/-! ## Events -/

theorem derives_events (events : Table ScheduledReconciliation) :
    Derives db { db with scheduledReconciliations := events } :=
  .single (.events events db.sequences.scheduledReconciliation)

theorem derives_schedule {key : EventKey} (h : scheduleReconciliation db key = .ok db') :
    Derives db db' := by
  unfold scheduleReconciliation at h
  split at h
  · exact absurd h (by simp)
  · split at h
    · cases h
      exact .single (.events _ _)
    · split at h
      · cases h
        exact derives_events _
      · cases h
        exact .refl

theorem derives_cancel (entityType : EntityType) (entityIds : List ℕ) (keep : List EventKey) :
    Derives db (cancelPendingReconciliations db entityType entityIds keep) :=
  derives_events _

theorem derives_replaceEvents {entityType : EntityType} {entityIds : List ℕ}
    {desired : List EventKey} (h : replaceEvents db entityType entityIds desired = .ok db') :
    Derives db db' :=
  runAll_invariant (I := Derives db) (fun _ _ _ _ hu hstep => hu.trans (derives_schedule hstep))
    (derives_cancel entityType entityIds desired) h

theorem derives_syncVersions {policyId : ℕ} {now : DateTime}
    (h : syncPolicyVersionSchedules db policyId now = .ok db') : Derives db db' :=
  derives_replaceEvents h

theorem derives_syncTenure {employee : Employee} {now : DateTime}
    (h : syncEmployeeTenureSchedules db employee now = .ok db') : Derives db db' := by
  unfold syncEmployeeTenureSchedules at h
  split at h
  · exact absurd h (by simp)
  · exact derives_replaceEvents h

theorem derives_syncAllTenure {now : DateTime}
    (h : syncAllEmployeeTenureSchedules db now = .ok db') : Derives db db' :=
  runAll_invariant (I := Derives db) (fun _ _ _ _ hu hstep => hu.trans (derives_syncTenure hstep))
    .refl h

/-! ## The worker -/

theorem derives_reconcileEntities {due : DueEntities}
    (h : reconcileEntities db due T = .ok db') : Derives db db' := by
  unfold reconcileEntities at h
  split at h
  · exact absurd h (by simp)
  · next db₁ hpolicies =>
    split at h
    · exact absurd h (by simp)
    · next db₂ hemployees =>
      have h1 : Derives db db₁ := runAll_invariant (I := Derives db)
        (fun _ _ _ _ hu hstep => hu.trans (derives_reconcileMap hstep)) .refl hpolicies
      have h2 : Derives db db₂ := runAll_invariant (I := Derives db)
        (fun _ _ _ _ hu hstep => hu.trans (derives_reconcileMap hstep)) h1 hemployees
      refine runAll_invariant (I := Derives db) (fun _ _ _ _ hu hstep => hu.trans ?_) h2 h
      obtain ⟨⟨_, rows⟩, hrefresh, rfl⟩ := exceptMap_eq_ok.mp hstep
      exact derives_refresh hrefresh

theorem derives_reconcileDue {limit : ℕ} {events : List ScheduledReconciliation}
    (h : reconcileDueEvents db T limit = .ok (db', events)) : Derives db db' := by
  unfold reconcileDueEvents at h
  split at h
  · exact absurd h (by simp)
  · split at h
    · exact absurd h (by simp)
    · split at h
      · exact absurd h (by simp)
      · next db₁ hentities =>
        cases h
        exact (derives_reconcileEntities hentities).trans (derives_events _)

/-! ## Events stay where nothing is scheduled -/

theorem refresh_events {employeeId : ℕ} {evaluationDate : Option Date}
    {reconciliationAt : Option DateTime} {desired : Option (List FinalAssignment)} {now : DateTime}
    {rows : List EmployeeAssignment}
    (h : refreshEmployeeAssignments db employeeId evaluationDate reconciliationAt actor desired now =
      .ok (db', rows)) : db'.scheduledReconciliations = db.scheduledReconciliations := by
  unfold refreshEmployeeAssignments at h
  split at h
  · exact absurd h (by simp)
  · split at h
    · exact absurd h (by simp)
    · cases h
      exact (writeAssignments_frame _ _).scheduledReconciliations

theorem applyResolution_events {state state' : Db × List (ℕ × List EmployeeAssignment)}
    {resolution : EmployeeAssignmentResolution}
    (h : applyResolution T actor state resolution = .ok state') :
    state'.1.scheduledReconciliations = state.1.scheduledReconciliations := by
  unfold applyResolution at h
  split at h
  · exact absurd h (by simp)
  · next hrefresh =>
    cases h
    have hkept := refresh_events hrefresh
    exact hkept

theorem reconcileMap_events {employeeIds : List ℕ} {reconciliationAt : Option DateTime}
    {now : DateTime}
    (h : (reconcileEmployees db employeeIds reconciliationAt actor now).map Prod.fst = .ok db') :
    db'.scheduledReconciliations = db.scheduledReconciliations := by
  obtain ⟨⟨_, rows⟩, hrun, rfl⟩ := exceptMap_eq_ok.mp h
  unfold reconcileEmployees at hrun
  split at hrun
  · exact absurd hrun (by simp)
  · exact runAll_invariant
      (I := fun state => state.1.scheduledReconciliations = db.scheduledReconciliations)
      (fun _ _ _ _ hu hstep => (applyResolution_events hstep).trans hu) rfl hrun

theorem reconcileEntities_events {due : DueEntities} (h : reconcileEntities db due T = .ok db') :
    db'.scheduledReconciliations = db.scheduledReconciliations := by
  let I := fun d : Db => d.scheduledReconciliations = db.scheduledReconciliations
  unfold reconcileEntities at h
  split at h
  · exact absurd h (by simp)
  · next db₁ hpolicies =>
    split at h
    · exact absurd h (by simp)
    · next db₂ hemployees =>
      have h₁ : I db₁ := runAll_invariant (I := I)
        (fun _ _ _ _ hu hstep => (reconcileMap_events hstep).trans hu) rfl hpolicies
      have h₂ : I db₂ := runAll_invariant (I := I)
        (fun _ _ _ _ hu hstep => (reconcileMap_events hstep).trans hu) h₁ hemployees
      refine runAll_invariant (I := I) (fun _ _ u v hu hstep => ?_) h₂ h
      obtain ⟨⟨_, rows⟩, hrefresh, rfl⟩ := exceptMap_eq_ok.mp hstep
      exact (refresh_events hrefresh).trans hu

end

end Warp
