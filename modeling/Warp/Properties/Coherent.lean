import Warp.Infra.Materialized
import Warp.Properties.ImpactedEmployees
import Warp.Properties.Reconciled

/-!
# Coherence of the assignment rows

The open rows of an employee are a stored answer, the resolution for the day is a new computation of
it, and the pending events that concern the employee are its wake-ups. The rows are coherent when
every employee is current from now on. What else is kept along the way makes the steps go through.
-/

namespace Warp

open Infra

/-- The resolutions for the days to come, the open rows, and the pending events, by employee. -/
def Db.materialized (db : Db) : Materialized ℕ DateTime (Finset AssignmentIdentity) where
  answer employeeId t := resolvedIdentities db.facts employeeId t.date
  stored employeeId := openIdentities db employeeId
  wakeups employeeId :=
    {t | ∃ key, Pending db key ∧ key.Concerns employeeId ∧ key.scheduledAt = t}

/-- What holds of the rows at any time: references, ids from the sequences, and the catalog. -/
structure Constrained (db : Db) : Prop where
  employees : EmployeesSound db
  assignments : FreshAssignments db
  catalog : CatalogSynced db.facts.conditionFieldDefinitions db.facts.conditionFieldDependencies
  overrides : ∀ o ∈ db.facts.employeeOverrides, o.id < db.sequences.employeeOverride
  memberships : ∀ m ∈ db.facts.employeeGroupMemberships, (db.facts.groups.find? m.groupId).isSome

/-- Whatever the calendar changes later on has its event. -/
structure Scheduled (db : Db) (now : DateTime) : Prop where
  events : EventsSound db now
  versions : VersionsCovered db now
  tenures : ∀ e ∈ db.facts.employees, TenureCovered db now e

structure Coherent (db : Db) (now : DateTime) : Prop where
  constraints : Constrained db
  schedule : Scheduled db now
  current : ∀ e ∈ db.facts.employees, db.materialized.CurrentFrom now e.id

/-- Nothing about the employee has changed, and no event was lost. -/
structure Undisturbed (db db' : Db) (e : Employee) : Prop where
  present : e ∈ db.facts.employees
  answers : ∀ day, resolvedIdentities db'.facts e.id day = resolvedIdentities db.facts e.id day
  rows : openIdentities db' e.id = openIdentities db e.id
  pending : ∀ key, Pending db key → key.Concerns e.id → Pending db' key

section

variable {db db₁ db' : Db} {now now' : DateTime} {ids : Set ℕ}

theorem quiet_iff {employeeId : ℕ} {t : DateTime} :
    db.materialized.Quiet employeeId t ↔ QuietUntil db employeeId t := by
  constructor
  · exact fun h key hkey hconcerns => h _ ⟨key, hkey, hconcerns, rfl⟩
  · rintro h _ ⟨key, hkey, hconcerns, rfl⟩
    exact h key hkey hconcerns

/-! ## Steps in general -/

theorem Scheduled.later (h : Scheduled db now) (hle : now ≤ now') : Scheduled db now' where
  events := h.events.later hle
  versions := h.versions.later hle
  tenures := fun e he => (h.tenures e he).later hle

theorem Coherent.later (h : Coherent db now) (hle : now ≤ now') : Coherent db now' where
  constraints := h.constraints
  schedule := h.schedule.later hle
  current := fun e he => (h.current e he).later hle

theorem Scheduled.covered (h : Scheduled db now) {e : Employee} (he : e ∈ db.facts.employees) :
    db.materialized.Covered now e.id :=
  fun _ hle hquiet =>
    resolvedIdentities_quiet h.versions he (h.tenures e he) hle (quiet_iff.mp hquiet)

/-- A step keeps the rows coherent if it refreshes whom it does not leave alone. -/
theorem Coherent.step (h : Coherent db now) (hconstraints : Constrained db')
    (hschedule : Scheduled db' now)
    (hemployees : ∀ e ∈ db'.facts.employees, Undisturbed db db' e ∨
      resolvedIdentities db'.facts e.id now.date = some (openIdentities db' e.id)) :
    Coherent db' now where
  constraints := hconstraints
  schedule := hschedule
  current := by
    intro e he
    rcases hemployees e he with hsame | hrefreshed
    · refine (h.current e hsame.present).undisturbed (fun t => hsame.answers t.date) hsame.rows ?_
      rintro _ ⟨key, hkey, hconcerns, rfl⟩
      exact ⟨key, hsame.pending key hkey hconcerns, hconcerns, rfl⟩
    · exact (hschedule.covered he).refreshed hrefreshed

theorem pending_congr (h : db'.scheduledReconciliations = db.scheduledReconciliations)
    {key : EventKey} : Pending db' key ↔ Pending db key := by
  unfold Pending
  rw [h]

theorem EventsSound.congr (h : EventsSound db now)
    (hevents : db'.scheduledReconciliations = db.scheduledReconciliations)
    (hsequence : db'.sequences.scheduledReconciliation = db.sequences.scheduledReconciliation) :
    EventsSound db' now := by
  constructor
  · rw [hevents, hsequence]
    exact h.fresh
  · rw [hevents]
    exact h.processed
  · rw [hevents]
    exact h.sources

theorem Reconciled.find (h : Reconciled db db' now ids) {e : Employee}
    (he : e ∈ db.facts.employees) (hid : e.id ∈ ids) :
    resolvedIdentities db'.facts e.id now.date = some (openIdentities db' e.id) := by
  rw [h.facts]
  exact h.resolved e.id hid (Table.isSome_find?.mpr ⟨e, he, rfl⟩)

theorem Constrained.reconciled (h : Constrained db) (hrec : Reconciled db db' now ids) :
    Constrained db' where
  employees := ⟨by rw [hrec.facts, hrec.sequences]; exact h.employees.fresh,
    by rw [hrec.facts]; exact h.employees.managers⟩
  assignments := hrec.fresh
  catalog := by
    rw [hrec.facts]
    exact h.catalog
  overrides := by
    rw [hrec.facts, hrec.sequences]
    exact h.overrides
  memberships := by
    rw [hrec.facts]
    exact h.memberships

/-- A reconciliation keeps the schedule, as it changes neither facts nor events. -/
theorem Scheduled.reconciled (h : Scheduled db now) (hrec : Reconciled db db' now ids) :
    Scheduled db' now where
  events := h.events.congr hrec.events (by rw [hrec.sequences])
  versions := h.versions.kept (by rw [hrec.facts]) (fun p => by rw [hrec.facts])
    fun key hkey _ _ => (pending_congr hrec.events).mpr hkey
  tenures := by
    intro e he
    rw [hrec.facts] at he
    exact (h.tenures e he).kept (by rw [hrec.facts])
      fun key hkey _ _ _ => (pending_congr hrec.events).mpr hkey

/-! ## Changes of groups and overrides -/

/-- Neither assignment rows nor events change. -/
structure FactsOnly (db db' : Db) : Prop where
  assignments : db'.employeeAssignments = db.employeeAssignments
  events : db'.scheduledReconciliations = db.scheduledReconciliations
  assignmentSequence : db'.sequences.employeeAssignment = db.sequences.employeeAssignment
  eventSequence : db'.sequences.scheduledReconciliation = db.sequences.scheduledReconciliation

theorem FactsOnly.fresh (h : FactsOnly db db') (hfresh : FreshAssignments db) :
    FreshAssignments db' := by
  unfold FreshAssignments
  rw [h.assignments, h.assignmentSequence]
  exact hfresh

theorem FactsOnly.openIdentities (h : FactsOnly db db') (employeeId : ℕ) :
    openIdentities db' employeeId = openIdentities db employeeId := by
  unfold Warp.openIdentities openAssignments
  rw [h.assignments]

/-- A change of groups or overrides and the reconciliation of those that it concerns. -/
theorem Coherent.reconcile (h : Coherent db now) (hframe : FactsOnly db db₁)
    (hrules : db₁.facts.toRules = db.facts.toRules)
    (hemployees : db₁.facts.employees = db.facts.employees)
    (hsequence : db₁.sequences.employee = db.sequences.employee)
    (hoverrides : ∀ o ∈ db₁.facts.employeeOverrides, o.id < db₁.sequences.employeeOverride)
    (hmemberships : ∀ m ∈ db₁.facts.employeeGroupMemberships,
      (db₁.facts.groups.find? m.groupId).isSome)
    (hothers : ∀ e ∈ db.facts.employees, e.id ∉ ids →
      (∀ p, HasGroupPolicy db₁.facts e.id p ↔ HasGroupPolicy db.facts e.id p) ∧
        activeOverrides db₁.facts e.id = activeOverrides db.facts e.id)
    (hrec : Reconciled db₁ db' now ids) : Coherent db' now := by
  have hconstraints : Constrained db₁ :=
    { employees := ⟨by rw [hemployees, hsequence]; exact h.constraints.employees.fresh,
        by rw [hemployees]; exact h.constraints.employees.managers⟩
      assignments := hframe.fresh h.constraints.assignments
      catalog := by
        rw [hrules]
        exact h.constraints.catalog
      overrides := hoverrides
      memberships := hmemberships }
  have hpending : ∀ key, Pending db key → Pending db₁ key :=
    fun key hkey => (pending_congr hframe.events).mpr hkey
  have hschedule : Scheduled db₁ now :=
    { events := h.schedule.events.congr hframe.events hframe.eventSequence
      versions := h.schedule.versions.kept (by rw [hrules]) (fun p => by rw [hrules])
        fun key hkey _ _ => hpending key hkey
      tenures := by
        intro e he
        rw [hemployees] at he
        exact (h.schedule.tenures e he).kept (by rw [hrules])
          fun key hkey _ _ _ => hpending key hkey }
  refine h.step (hconstraints.reconciled hrec) (hschedule.reconciled hrec) fun e he => ?_
  rw [hrec.facts] at he
  by_cases hid : e.id ∈ ids
  · exact Or.inr (hrec.find he hid)
  · have he₀ := he
    rw [hemployees] at he₀
    obtain ⟨hgroups, hactive⟩ := hothers e he₀ hid
    refine Or.inl ⟨he₀, fun day => ?_, ?_, fun key hkey _ => ?_⟩
    · rw [hrec.facts]
      have hsame : SameReporting db.facts.employees db₁.facts.employees e.id := by
        rw [hemployees]
        exact ⟨rfl, rfl⟩
      exact (hsame.meaning hrules hgroups hactive).identities he₀ he
    · exact (hrec.others e.id hid).trans (hframe.openIdentities e.id)
    · exact (pending_congr hrec.events).mpr (hpending key hkey)

/-! ## Synchronised events -/

theorem EventsOnly.openIdentities (h : EventsOnly db db') (employeeId : ℕ) :
    openIdentities db' employeeId = openIdentities db employeeId := by
  unfold Warp.openIdentities openAssignments
  rw [h.assignments]

theorem Constrained.eventsOnly (h : Constrained db) (honly : EventsOnly db db') :
    Constrained db' where
  employees := ⟨by rw [honly.facts, honly.sequences]; exact h.employees.fresh,
    by rw [honly.facts]; exact h.employees.managers⟩
  assignments := by
    unfold FreshAssignments
    rw [honly.assignments, honly.sequences]
    exact h.assignments
  catalog := by
    rw [honly.facts]
    exact h.catalog
  overrides := by
    rw [honly.facts, honly.sequences]
    exact h.overrides
  memberships := by
    rw [honly.facts]
    exact h.memberships

end

end Warp
