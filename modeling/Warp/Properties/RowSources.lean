import Warp.Properties.RecordedHistory

/-!
# The sources of assignment rows

Every assignment row comes from a policy version or from an override, and its explanation says which.
The overrides that rows and facts name have ids that were drawn from the sequence: the id of the next
override is new everywhere.
-/

namespace Warp

open Infra

/-- The explanation tells the source: a policy, or an override below the next id. -/
def EmployeeAssignment.Sourced (a : EmployeeAssignment) (next : ℕ) : Prop :=
  match a.explanation.reason with
  | .policy _ => a.sourceOverrideId = none
  | .manualOverride e => a.sourcePolicyVersionId = none ∧ a.sourceOverrideId = some e.id ∧ e.id < next

structure SourcedRows (db : Db) : Prop where
  overrides : ∀ o ∈ db.facts.employeeOverrides, o.id < db.sequences.employeeOverride
  rows : ∀ a ∈ db.employeeAssignments, a.Sourced db.sequences.employeeOverride

section

variable {db db' : Db} {T : DateTime} {gone : Set ℕ}

theorem EmployeeAssignment.Sourced.later {a : EmployeeAssignment} {next next' : ℕ}
    (h : a.Sourced next) (hle : next ≤ next') : a.Sourced next' := by
  revert h
  unfold Sourced
  cases a.explanation.reason with
  | policy e => exact fun h => h
  | manualOverride e =>
    rintro ⟨hversion, hoverride, hid⟩
    exact ⟨hversion, hoverride, hid.trans_le hle⟩

/-- A row says what the desired assignment said that it was made of. -/
theorem newAssignments_origin {employeeId : ℕ} : ∀ {items : List FinalAssignment} {id : ℕ}
    {a : EmployeeAssignment}, a ∈ newAssignments employeeId T id items →
      ∃ item ∈ items, a = newAssignment a.id employeeId T item
  | [], _, _, h => by simp [newAssignments] at h
  | item :: items, id, a, h => by
    rcases List.mem_cons.mp h with rfl | h
    · exact ⟨item, List.mem_cons_self, rfl⟩
    · obtain ⟨other, hother, ha⟩ := newAssignments_origin h
      exact ⟨other, List.mem_cons_of_mem item hother, ha⟩

theorem FinalAssignment.Sourced.row {facts : Facts} {item : FinalAssignment} {next : ℕ}
    (h : item.Sourced facts) (hids : ∀ o ∈ facts.employeeOverrides, o.id < next)
    (id employeeId : ℕ) : (newAssignment id employeeId T item).Sourced next := by
  revert h
  unfold FinalAssignment.Sourced EmployeeAssignment.Sourced newAssignment
  cases item.explanation.reason with
  | policy e => exact fun h => h
  | manualOverride e =>
    rintro ⟨hversion, hoverride, o, ho, hid⟩
    exact ⟨hversion, hoverride, hid ▸ hids o ho⟩

theorem SourcedRows.drawn (h : SourcedRows db) (hdrawn : FactsDrawn db db') :
    ∀ o ∈ db'.facts.employeeOverrides, o.id < db'.sequences.employeeOverride := by
  intro o ho
  rcases hdrawn.overrides o ho with hlt | ⟨r, hr, hid⟩
  · exact hlt
  · rw [← hid]
    exact (h.overrides r hr).trans_le hdrawn.sequence

theorem RowStep.sourced (hstep : RowStep T gone db db') (hs : SoundHistory db)
    (h : SourcedRows db) : SourcedRows db' := by
  cases hstep with
  | refreshed employeeId evaluationDate actor desired now hsourced ok =>
    obtain ⟨_, items, hitems, hwritten⟩ := refresh_eq_ok (T := T) hs.fresh ok rfl
    have hnext : db'.sequences.employeeOverride = db.sequences.employeeOverride := by
      rw [hwritten.frame.sequences]
    have hdesired : ∀ item ∈ items, item.Sourced db.facts := by
      cases desired with
      | some given =>
        cases hitems
        exact hsourced items rfl
      | none =>
        obtain ⟨resolved, _, rfl⟩ := exceptMap_eq_ok.mp hitems
        exact fun item hitem => overridden_sourced hitem
    refine ⟨?_, fun a ha => ?_⟩
    · rw [hwritten.frame.facts, hnext]
      exact h.overrides
    · rw [hnext]
      rcases (hwritten.rows a).mp ha with ⟨hold, _⟩ | ⟨b, hb, _, rfl⟩ | hnew
      · exact h.rows a hold
      · exact h.rows b (mem_openAssignments.mp (mem_ended hb)).1
      · obtain ⟨item, hitem, hmade⟩ := newAssignments_origin hnew
        obtain ⟨k, hk⟩ := Dict.mem_values.mp hitem
        rw [hmade]
        exact (hdesired item (mem_desiredByKey (mem_leftover.mp hk).1).1).row h.overrides _ _
  | removed employeeId _ rows _ drawn =>
    refine ⟨h.drawn drawn, fun a ha => ?_⟩
    rw [rows] at ha
    exact (h.rows a (Table.mem_filter.mp ha).1).later drawn.sequence
  | elsewhere rows _ drawn =>
    refine ⟨h.drawn drawn, fun a ha => ?_⟩
    rw [rows] at ha
    exact (h.rows a ha).later drawn.sequence

theorem RowSteps.sourced (hsteps : RowSteps T gone db db') (hs : SoundHistory db)
    (h : SourcedRows db) : SourcedRows db' := by
  induction hsteps with
  | refl => exact h
  | tail hfirst hstep ih => exact hstep.sourced (RowSteps.sound hfirst hs) ih

theorem SourcedRows.run : ∀ (calls : List OperationCall) {db : Db}, SoundHistory db →
    SourcedRows db → SourcedRows (runOperations db calls)
  | [], _, _, h => h
  | call :: rest, db, hs, h =>
    have hstep := operationStep_rowSteps db call
    SourcedRows.run rest (hstep.sound hs) (hstep.sourced hs h)

/-- No operation changes the definitions of fields. -/
theorem RowSteps.fields (hsteps : RowSteps T gone db db') (hs : SoundHistory db) :
    db'.facts.assignmentFieldDefinitions = db.facts.assignmentFieldDefinitions := by
  induction hsteps with
  | refl => rfl
  | tail hfirst hstep ih =>
    refine Eq.trans ?_ ih
    cases hstep with
    | refreshed employeeId evaluationDate actor desired now _ ok =>
      obtain ⟨_, items, _, hwritten⟩ :=
        refresh_eq_ok (T := T) (RowSteps.sound hfirst hs).fresh ok rfl
      rw [hwritten.frame.facts]
    | removed employeeId _ _ _ drawn => exact drawn.fields
    | elsewhere _ _ drawn => exact drawn.fields

theorem sourcedRows_seeded (fields : Table AssignmentFieldDefinition) :
    SourcedRows (seededDb fields) :=
  ⟨fun _ ho => absurd ho Table.not_mem_empty, fun _ ha => absurd ha Table.not_mem_empty⟩

end

end Warp
