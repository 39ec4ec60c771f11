import Warp.Properties.MaterializationCoherence
import Warp.Properties.AssignmentHistory
import Warp.Properties.RowSteps

/-!
# The recorded history is true

What the assignment rows say about an instant is settled once the instant has passed: no later
operation changes it, apart from the deletion of the employee. If the worker had caught up by then, it
is what the policies and overrides of that day gave.
-/

namespace Warp

open Infra

/-- No row says anything about the time after `T`, except that it is still open. -/
def RowsUntil (db : Db) (T : DateTime) : Prop :=
  ∀ a ∈ db.employeeAssignments, a.effectiveFrom ≤ T ∧ ∀ u, a.effectiveUntil = some u → u ≤ T

theorem RowsUntil.later {db : Db} {T T' : DateTime} (h : RowsUntil db T) (hle : T ≤ T') :
    RowsUntil db T' := by
  intro a ha
  obtain ⟨hfrom, huntil⟩ := h a ha
  exact ⟨hfrom.trans hle, fun u hu => (huntil u hu).trans hle⟩

/-! ## One step -/

section

variable {db db' : Db} {T t : DateTime} {gone : Set ℕ} {e : ℕ}

theorem SoundHistory.filter (h : SoundHistory db) {p : EmployeeAssignment → Bool}
    (rows : db'.employeeAssignments = db.employeeAssignments.filter p)
    (sequence : db'.sequences.employeeAssignment = db.sequences.employeeAssignment) :
    SoundHistory db' where
  fresh a ha := by
    rw [rows] at ha
    rw [sequence]
    exact h.fresh a (Table.mem_filter.mp ha).1
  ranges a ha := by
    rw [rows] at ha
    exact h.ranges a (Table.mem_filter.mp ha).1
  keys employeeId := by
    refine (h.keys employeeId).sublist (List.Sublist.map _ ?_)
    rw [openAssignments, rows]
    exact List.filter_sublist.filter _

theorem SoundHistory.elsewhere (h : SoundHistory db)
    (rows : db'.employeeAssignments = db.employeeAssignments)
    (sequence : db'.sequences.employeeAssignment = db.sequences.employeeAssignment) :
    SoundHistory db' where
  fresh := by
    unfold FreshAssignments
    rw [rows, sequence]
    exact h.fresh
  ranges := by
    rw [rows]
    exact h.ranges
  keys employeeId := by
    rw [openAssignments, rows]
    exact h.keys employeeId

theorem RowStep.sound (hstep : RowStep T gone db db') (h : SoundHistory db) : SoundHistory db' := by
  cases hstep with
  | refreshed employeeId evaluationDate actor desired now _ ok =>
    obtain ⟨hstarts, items, _, hwritten⟩ := refresh_eq_ok (T := T) h.fresh ok rfl
    exact hwritten.sound h hstarts
  | removed employeeId _ rows sequence _ => exact h.filter rows sequence
  | elsewhere rows sequence _ => exact h.elsewhere rows sequence

theorem RowStep.until (hstep : RowStep T gone db db') (hs : SoundHistory db)
    (h : RowsUntil db T) : RowsUntil db' T := by
  intro x hx
  cases hstep with
  | refreshed employeeId evaluationDate actor desired now _ ok =>
    obtain ⟨_, items, _, hwritten⟩ := refresh_eq_ok (T := T) hs.fresh ok rfl
    rcases (hwritten.rows x).mp hx with ⟨hold, _⟩ | ⟨a, ha, _, rfl⟩ | hnew
    · exact h x hold
    · refine ⟨(h a (mem_openAssignments.mp (mem_ended ha)).1).1, fun u hu => ?_⟩
      exact (Option.some.inj hu).ge
    · obtain ⟨_, _, hfrom, hopen⟩ := mem_newAssignments hnew
      refine ⟨hfrom.le, fun u hu => ?_⟩
      rw [hopen] at hu
      exact absurd hu (by simp)
  | removed employeeId _ rows _ _ =>
    rw [rows] at hx
    exact h x (Table.mem_filter.mp hx).1
  | elsewhere rows _ _ =>
    rw [rows] at hx
    exact h x hx

/-- A step at `T` leaves the answers about earlier instants, except for the employees it deletes. -/
theorem RowStep.asOf_before (hstep : RowStep T gone db db') (hs : SoundHistory db) (ht : t < T)
    (he : e ∉ gone) :
    (getEmployeeAssignmentsAsOf db' e t).map EmployeeAssignment.recorded =
      (getEmployeeAssignmentsAsOf db e t).map EmployeeAssignment.recorded := by
  cases hstep with
  | refreshed employeeId evaluationDate actor desired now _ ok =>
    obtain ⟨_, items, _, hwritten⟩ := refresh_eq_ok (T := T) hs.fresh ok rfl
    exact hwritten.asOf_before ht e
  | removed employeeId deleted rows _ _ =>
    have hne : e ≠ employeeId := fun heq => he (heq ▸ deleted)
    refine congrArg _ (congrArg _ (Table.select_congr fun x => ?_))
    rw [rows, Table.mem_filter]
    simp only [decide_eq_true_eq, Bool.and_eq_true]
    constructor
    · rintro ⟨⟨hx, _⟩, hid, hvalid⟩
      exact ⟨hx, hid, hvalid⟩
    · rintro ⟨hx, hid, hvalid⟩
      exact ⟨⟨hx, hid.symm ▸ hne⟩, hid, hvalid⟩
  | elsewhere rows _ _ => rw [getEmployeeAssignmentsAsOf, getEmployeeAssignmentsAsOf, rows]

/-! ## Operations -/

theorem RowSteps.sound (hsteps : RowSteps T gone db db') (h : SoundHistory db) :
    SoundHistory db' := by
  induction hsteps with
  | refl => exact h
  | tail _ hstep ih => exact hstep.sound ih

theorem RowSteps.until (hsteps : RowSteps T gone db db') (hs : SoundHistory db)
    (h : RowsUntil db T) : RowsUntil db' T := by
  induction hsteps with
  | refl => exact h
  | tail hfirst hstep ih => exact hstep.until (RowSteps.sound hfirst hs) ih

theorem RowSteps.asOf_before (hsteps : RowSteps T gone db db') (hs : SoundHistory db) (ht : t < T)
    (he : e ∉ gone) :
    (getEmployeeAssignmentsAsOf db' e t).map EmployeeAssignment.recorded =
      (getEmployeeAssignmentsAsOf db e t).map EmployeeAssignment.recorded := by
  induction hsteps with
  | refl => rfl
  | tail hfirst hstep ih => exact (hstep.asOf_before (RowSteps.sound hfirst hs) ht he).trans ih

theorem operationStep_rowSteps (db : Db) (call : OperationCall) :
    RowSteps call.now call.operation.deletes db (operationStep db call) := by
  unfold operationStep
  cases hrun : runOperation db call.actor call.now call.operation with
  | error error => exact .refl
  | ok db' => exact runOperation_rowSteps hrun

end

/-! ## Runs -/

section

variable {db : Db} {T t : DateTime} {e : ℕ}

theorem runOperations_append (db : Db) (calls later : List OperationCall) :
    runOperations db (calls ++ later) = runOperations (runOperations db calls) later :=
  List.foldl_append

theorem SoundHistory.run : ∀ (calls : List OperationCall) {db : Db}, SoundHistory db →
    SoundHistory (runOperations db calls)
  | [], _, h => h
  | call :: rest, db, h => SoundHistory.run rest ((operationStep_rowSteps db call).sound h)

theorem RowsUntil.run (calls : List OperationCall) {db : Db} {now : DateTime}
    (h : RowsUntil db now) (hs : SoundHistory db)
    (htimes : ∀ call ∈ calls, now ≤ call.now ∧ call.now ≤ T)
    (horder : (calls.map fun call => call.now).Pairwise (· ≤ ·)) (hle : now ≤ T) :
    RowsUntil (runOperations db calls) T := by
  induction calls generalizing db now with
  | nil => exact h.later hle
  | cons call rest ih =>
    obtain ⟨hfirst, horder⟩ := List.pairwise_cons.mp horder
    obtain ⟨hnow, hlast⟩ := htimes call List.mem_cons_self
    have hsteps := operationStep_rowSteps db call
    refine ih (hsteps.until hs (h.later hnow)) (hsteps.sound hs) (fun later hlater => ⟨?_, ?_⟩)
      horder hlast
    · exact hfirst _ (List.mem_map_of_mem hlater)
    · exact (htimes later (List.mem_cons_of_mem _ hlater)).2

/-- Later operations that do not delete the employee leave the answer about an instant. -/
theorem asOf_run (calls : List OperationCall) {db : Db} (hs : SoundHistory db)
    (hlater : ∀ call ∈ calls, t < call.now) (hkept : ∀ call ∈ calls, e ∉ call.operation.deletes) :
    (getEmployeeAssignmentsAsOf (runOperations db calls) e t).map EmployeeAssignment.recorded =
      (getEmployeeAssignmentsAsOf db e t).map EmployeeAssignment.recorded := by
  induction calls generalizing db with
  | nil => rfl
  | cons call rest ih =>
    have hsteps := operationStep_rowSteps db call
    refine (ih (hsteps.sound hs) (fun later h => hlater later (List.mem_cons_of_mem _ h))
      fun later h => hkept later (List.mem_cons_of_mem _ h)).trans ?_
    exact hsteps.asOf_before hs (hlater call List.mem_cons_self) (hkept call List.mem_cons_self)

/-- At an instant that no row goes beyond, the valid rows are the open ones. -/
theorem mem_asOf_until (h : RowsUntil db t) {a : EmployeeAssignment} :
    a ∈ getEmployeeAssignmentsAsOf db e t ↔ a ∈ openAssignments db e := by
  rw [mem_asOf, mem_employeeRows, mem_openAssignments]
  constructor
  · rintro ⟨⟨ha, hid⟩, _, hvalid⟩
    refine ⟨ha, hid, Option.eq_none_iff_forall_not_mem.mpr fun u hu => ?_⟩
    exact absurd (hvalid u hu) (not_lt.mpr ((h a ha).2 u hu))
  · rintro ⟨ha, hid, hopen⟩
    refine ⟨⟨ha, hid⟩, (h a ha).1, fun u hu => ?_⟩
    exact absurd (hopen.symm.trans hu) (by simp)

theorem asOf_identities (h : RowsUntil db t) (identity : AssignmentIdentity) :
    identity ∈ (getEmployeeAssignmentsAsOf db e t).map EmployeeAssignment.identity ↔
      identity ∈ openIdentities db e := by
  rw [openIdentities, List.mem_toFinset, List.mem_map, List.mem_map]
  exact exists_congr fun a => and_congr_left' (mem_asOf_until h)

theorem soundHistory_seeded (fields : Table AssignmentFieldDefinition) :
    SoundHistory (seededDb fields) :=
  AssignmentHistory.sound (.start rfl)

theorem rowsUntil_runOperations (fields : Table AssignmentFieldDefinition)
    {calls : List OperationCall} (horder : (calls.map fun call => call.now).Pairwise (· ≤ ·))
    (hlast : ∀ call ∈ calls, call.now ≤ T) :
    RowsUntil (runOperations (seededDb fields) calls) T := by
  have hempty : ∀ now, RowsUntil (seededDb fields) now :=
    fun _ a ha => absurd ha Table.not_mem_empty
  cases calls with
  | nil => exact hempty T
  | cons call rest =>
    refine (hempty call.now).run _ (soundHistory_seeded fields) (fun later hlater => ?_) horder
      (hlast call List.mem_cons_self)
    refine ⟨?_, hlast later hlater⟩
    rcases List.mem_cons.mp hlater with rfl | hlater
    · exact le_rfl
    · exact (List.pairwise_cons.mp horder).1 _ (List.mem_map_of_mem hlater)

/-- Coherent rows without a due event are what a resolution gives. -/
theorem Coherent.resolved {now : DateTime} (h : Coherent db now)
    (hpending : ∀ event ∈ db.scheduledReconciliations, event.status = .pending →
      now < event.scheduledAt) {e : Employee} (he : e ∈ db.facts.employees) :
    ∃ resolution, resolveEmployeeAssignmentsForDate db.facts e.id now.date = .ok resolution ∧
      (resolution.assignments.map FinalAssignment.identity).toFinset = openIdentities db e.id := by
  have hquiet : Materialized.Quiet db.materialized e.id now := by
    rintro _ ⟨_, ⟨event, hevent, rfl, hstatus⟩, _, rfl⟩
    exact hpending event hevent hstatus
  exact resolvedIdentities_eq_some.mp (h.current e he now le_rfl hquiet)

end

/-- An instant by which the worker had caught up: as long as the employee is not deleted, the rows go on
to say about it what they said then, and that is what a resolution gave on that day. -/
theorem recorded_history_true (fields : Table AssignmentFieldDefinition)
    (first later : List OperationCall) (t : DateTime)
    (horder : (first.map fun call => call.now).Pairwise (· ≤ ·))
    (hfirst : ∀ call ∈ first, call.now ≤ t) (hlater : ∀ call ∈ later, t < call.now)
    (hpending : ∀ event ∈ (runOperations (seededDb fields) first).scheduledReconciliations,
      event.status = .pending → t < event.scheduledAt) :
    ∀ e ∈ (runOperations (seededDb fields) first).facts.employees,
      (∀ call ∈ later, e.id ∉ call.operation.deletes) →
      (getEmployeeAssignmentsAsOf (runOperations (seededDb fields) (first ++ later)) e.id t).map
          EmployeeAssignment.recorded =
        (getEmployeeAssignmentsAsOf (runOperations (seededDb fields) first) e.id t).map
          EmployeeAssignment.recorded ∧
      ∃ resolution,
        resolveEmployeeAssignmentsForDate (runOperations (seededDb fields) first).facts e.id t.date =
          .ok resolution ∧
        ∀ identity,
          identity ∈ (getEmployeeAssignmentsAsOf
              (runOperations (seededDb fields) (first ++ later)) e.id t).map
                EmployeeAssignment.identity ↔
            identity ∈ resolution.assignments.map FinalAssignment.identity := by
  intro e he hkept
  have hsame : (getEmployeeAssignmentsAsOf (runOperations (seededDb fields) (first ++ later)) e.id
      t).map EmployeeAssignment.recorded =
        (getEmployeeAssignmentsAsOf (runOperations (seededDb fields) first) e.id t).map
          EmployeeAssignment.recorded := by
    rw [runOperations_append]
    exact asOf_run later (SoundHistory.run first (soundHistory_seeded fields)) hlater hkept
  obtain ⟨resolution, hresolve, hidentities⟩ :=
    (coherent_runOperations fields horder hfirst).resolved hpending he
  refine ⟨hsame, resolution, hresolve, fun identity => ?_⟩
  -- the identity is part of what is recorded
  have hmap : ∀ rows : List EmployeeAssignment, rows.map EmployeeAssignment.identity =
      (rows.map EmployeeAssignment.recorded).map fun r => r.2.1 := by
    intro rows
    rw [List.map_map]
    rfl
  rw [hmap, hsame, ← hmap, asOf_identities (rowsUntil_runOperations fields horder hfirst),
    ← hidentities, List.mem_toFinset]

/-- The laptops are withdrawn in March. -/
def withdrawnCalls : List OperationCall :=
  [⟨.system, startOfDay (.on 2028 3 1), .updatePolicy 1 { status := some .archived }⟩]

/-- Ada has no laptop any more, and the rows go on to say that she had one in January. -/
theorem recorded_history_true_tenure :
    (openAssignments (runOperations tenureDb withdrawnCalls) 1).length = 0 ∧
    (getEmployeeAssignmentsAsOf (runOperations tenureDb withdrawnCalls) 1
      (startOfDay (.on 2028 2 10))).length = 1 ∧
    ∀ e ∈ tenureDb.facts.employees, ∃ resolution,
      resolveEmployeeAssignmentsForDate tenureDb.facts e.id (.on 2028 2 10) = .ok resolution ∧
      ∀ identity,
        identity ∈ (getEmployeeAssignmentsAsOf (runOperations tenureDb withdrawnCalls) e.id
            (startOfDay (.on 2028 2 10))).map EmployeeAssignment.identity ↔
          identity ∈ resolution.assignments.map FinalAssignment.identity := by
  refine ⟨by decide +kernel, by decide +kernel, fun e he => ?_⟩
  have hpending : ∀ event ∈ tenureDb.scheduledReconciliations.rows, event.status = .pending →
      startOfDay (.on 2028 2 10) < event.scheduledAt := by
    decide +kernel
  have htrue := (recorded_history_true (.ofRows [⟨1, "laptop", .one, "priority", .text⟩])
    tenureCalls withdrawnCalls (startOfDay (.on 2028 2 10)) (by decide +kernel) (by decide +kernel)
    (by decide +kernel) hpending e he (by simp [withdrawnCalls, Operation.deletes])).2
  rw [runOperations_append] at htrue
  exact htrue

end Warp
