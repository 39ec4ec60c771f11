import Warp.AssignmentQueries
import Warp.Properties.RecordedHistory

/-!
# Forecasts come true

A question about a day to come is answered from the policies and overrides as they are. If nothing but
the worker and refreshes run until that day, and the worker has caught up, then the same question is
answered from the rows, and the answers say the same.
-/

namespace Warp

open Infra

/-- The operations that bring rows in line and change no facts. -/
def Operation.Maintains : Operation → Prop
  | .reconcileDue _ => True
  | .refreshEmployee _ => True
  | _ => False

/-- What an answer says, apart from the row behind it and the evidence. -/
def AssignmentQueryValue.said (v : AssignmentQueryValue) :
    AssignmentFieldDefinition × String × Option ℕ × Option ℕ :=
  (v.assignmentFieldDefinition, v.value, v.sourcePolicyVersionId, v.sourceOverrideId)

/-- Two answers about one employee and day that say the same. -/
structure SaysTheSame (forecast answer : EmployeeAssignmentQueryResult) : Prop where
  employee : answer.employeeId = forecast.employeeId
  day : answer.evaluationDate = forecast.evaluationDate
  values : ∀ x, x ∈ answer.assignments.map AssignmentQueryValue.said ↔
    x ∈ forecast.assignments.map AssignmentQueryValue.said

section

variable {db db' : Db} {day : Date} {visible : Option (Finset ℕ)} {rules : Rules} {e : ℕ} {t : DateTime}

/-! ## Facts stay -/

theorem operationStep_facts {call : OperationCall} (hkind : call.operation.Maintains) :
    (operationStep db call).facts = db.facts := by
  unfold operationStep
  cases hrun : runOperation db call.actor call.now call.operation with
  | error error => rfl
  | ok db' =>
    cases hop : call.operation with
    | reconcileDue limit =>
      rw [hop] at hrun
      obtain ⟨⟨_, events⟩, hcall, rfl⟩ := exceptMap_eq_ok.mp hrun
      exact (derives_kept (derives_reconcileDue hcall)).facts
    | refreshEmployee employeeId =>
      rw [hop] at hrun
      simp only [runOperation, bind_eq_ok] at hrun
      obtain ⟨employee, _, hrun⟩ := hrun
      exact (derives_kept (derives_reconcileMap hrun)).facts
    | _ =>
      rw [hop] at hkind
      exact absurd hkind (by simp [Operation.Maintains])

theorem runOperations_facts (calls : List OperationCall) {db : Db}
    (hcalls : ∀ call ∈ calls, call.operation.Maintains) :
    (runOperations db calls).facts = db.facts := by
  induction calls generalizing db with
  | nil => rfl
  | cons call rest ih =>
    have hfirst : (operationStep db call).facts = db.facts :=
      operationStep_facts (hcalls call List.mem_cons_self)
    exact (ih fun later hlater => hcalls later (List.mem_cons_of_mem _ hlater)).trans hfirst

/-! ## Values -/

/-- What is said of an identity, once its field is found. -/
def saidOf (field : AssignmentFieldDefinition) (identity : AssignmentIdentity) :
    AssignmentFieldDefinition × String × Option ℕ × Option ℕ :=
  (field, identity.value, identity.sourcePolicyVersionId, identity.sourceOverrideId)

theorem mem_persisted {rows : List EmployeeAssignment} {values : List AssignmentQueryValue}
    (h : traverseAll (persistedValue rules) (visibleRows visible rows) = .ok values)
    {x : AssignmentFieldDefinition × String × Option ℕ × Option ℕ} :
    x ∈ values.map AssignmentQueryValue.said ↔
      ∃ identity ∈ rows.map EmployeeAssignment.identity,
        fieldVisible visible identity.assignmentFieldDefinitionId = true ∧
        ∃ field, fieldDefinition rules identity.assignmentFieldDefinitionId = .ok field ∧
          saidOf field identity = x := by
  constructor
  · intro hx
    obtain ⟨v, hv, rfl⟩ := List.mem_map.mp hx
    obtain ⟨a, ha, hvalue⟩ := mem_of_traverseAll h hv
    obtain ⟨hrow, hvisible⟩ := List.mem_filter.mp ha
    obtain ⟨field, hfield, rfl⟩ := exceptMap_eq_ok.mp hvalue
    exact ⟨a.identity, List.mem_map_of_mem hrow, hvisible, field, hfield, rfl⟩
  · rintro ⟨identity, hidentity, hvisible, field, hfield, rfl⟩
    obtain ⟨a, ha, rfl⟩ := List.mem_map.mp hidentity
    obtain ⟨v, hv, hvalue⟩ := traverseAll_mem h (List.mem_filter.mpr ⟨ha, hvisible⟩)
    obtain ⟨field', hfield', rfl⟩ := exceptMap_eq_ok.mp hvalue
    obtain rfl : field' = field := Except.ok.inj (hfield'.symm.trans hfield)
    exact List.mem_map.mpr ⟨_, hv, rfl⟩

theorem mem_calculated {items : List FinalAssignment} {values : List AssignmentQueryValue}
    (h : traverseAll (calculatedValue rules) (visibleItems visible items) = .ok values)
    {x : AssignmentFieldDefinition × String × Option ℕ × Option ℕ} :
    x ∈ values.map AssignmentQueryValue.said ↔
      ∃ identity ∈ items.map FinalAssignment.identity,
        fieldVisible visible identity.assignmentFieldDefinitionId = true ∧
        ∃ field, fieldDefinition rules identity.assignmentFieldDefinitionId = .ok field ∧
          saidOf field identity = x := by
  constructor
  · intro hx
    obtain ⟨v, hv, rfl⟩ := List.mem_map.mp hx
    obtain ⟨item, hitem, hvalue⟩ := mem_of_traverseAll h hv
    obtain ⟨hmem, hvisible⟩ := List.mem_filter.mp hitem
    obtain ⟨field, hfield, rfl⟩ := exceptMap_eq_ok.mp hvalue
    exact ⟨item.identity, List.mem_map_of_mem hmem, hvisible, field, hfield, rfl⟩
  · rintro ⟨identity, hidentity, hvisible, field, hfield, rfl⟩
    obtain ⟨item, hitem, rfl⟩ := List.mem_map.mp hidentity
    obtain ⟨v, hv, hvalue⟩ := traverseAll_mem h (List.mem_filter.mpr ⟨hitem, hvisible⟩)
    obtain ⟨field', hfield', rfl⟩ := exceptMap_eq_ok.mp hvalue
    obtain rfl : field' = field := Except.ok.inj (hfield'.symm.trans hfield)
    exact List.mem_map.mpr ⟨_, hv, rfl⟩

/-- Where the values of the resolution have their fields, those of the rows have them too. -/
theorem exists_persisted {rows : List EmployeeAssignment} {items : List FinalAssignment}
    {values : List AssignmentQueryValue}
    (hsame : ∀ identity, identity ∈ rows.map EmployeeAssignment.identity ↔
      identity ∈ items.map FinalAssignment.identity)
    (h : traverseAll (calculatedValue rules) (visibleItems visible items) = .ok values) :
    ∃ values', traverseAll (persistedValue rules) (visibleRows visible rows) = .ok values' := by
  refine exists_traverseAll_eq_ok.mpr fun a ha => ?_
  obtain ⟨hrow, hvisible⟩ := List.mem_filter.mp ha
  obtain ⟨item, hitem, hidentity⟩ := List.mem_map.mp ((hsame a.identity).mp (List.mem_map_of_mem hrow))
  have hfield : item.assignmentFieldDefinitionId = a.assignmentFieldDefinitionId :=
    congrArg AssignmentIdentity.assignmentFieldDefinitionId hidentity
  have hmem : item ∈ visibleItems visible items := by
    refine List.mem_filter.mpr ⟨hitem, ?_⟩
    rw [hfield]
    exact hvisible
  obtain ⟨v, _, hvalue⟩ := traverseAll_mem h hmem
  obtain ⟨field, hfound, _⟩ := exceptMap_eq_ok.mp hvalue
  rw [hfield] at hfound
  exact ⟨_, exceptMap_eq_ok.mpr ⟨field, hfound, rfl⟩⟩

/-! ## Answers -/

theorem resolve_evaluationDate {facts : Facts} {r : EmployeeAssignmentResolution}
    (h : resolveEmployeeAssignmentsForDate facts e day = .ok r) : r.evaluationDate = day := by
  unfold resolveEmployeeAssignmentsForDate at h
  split at h
  · exact absurd h (by simp)
  · split at h
    · exact absurd h (by simp)
    · cases h
      rfl

/-- One employee, whose valid rows are what the resolution gives. -/
theorem answer_same {forecast : EmployeeAssignmentQueryResult}
    {resolution : EmployeeAssignmentResolution} (hid : resolution.employeeId = e)
    (hday : resolution.evaluationDate = day)
    (hsame : ∀ identity,
      identity ∈ (getEmployeeAssignmentsAsOf db e t).map EmployeeAssignment.identity ↔
        identity ∈ resolution.assignments.map FinalAssignment.identity)
    (hforecast : calculatedResult db.facts.toRules visible resolution = .ok forecast) :
    ∃ answer, persistedResult db day .currentPersisted t visible e = .ok answer ∧
      SaysTheSame forecast answer := by
  obtain ⟨values, hvalues, rfl⟩ := exceptMap_eq_ok.mp hforecast
  obtain ⟨values', hvalues'⟩ := exists_persisted hsame hvalues
  refine ⟨_, exceptMap_eq_ok.mpr ⟨values', hvalues', rfl⟩, hid.symm, hday.symm, fun x => ?_⟩
  rw [mem_persisted hvalues', mem_calculated hvalues]
  exact exists_congr fun identity => and_congr_left' (hsame identity)

/-- The checks before a question is answered. -/
theorem query_eq_ok {employeeIds : List ℕ} {now : DateTime}
    {results : List EmployeeAssignmentQueryResult}
    (h : queryEmployeeAssignments db employeeIds day visible now = .ok results) :
    ∀ id ∈ sortedSet employeeIds.toFinset, (db.facts.employees.find? id).isSome = true := by
  intro id hid
  by_contra hmissing
  have hne : ((sortedSet employeeIds.toFinset).filter fun id =>
      (db.facts.employees.find? id).isNone) ≠ [] := by
    refine List.ne_nil_of_mem (List.mem_filter.mpr ⟨hid, ?_⟩)
    simpa using hmissing
  unfold queryEmployeeAssignments at h
  dsimp only at h
  rw [if_pos hne] at h
  cases h

theorem query_of_present {employeeIds : List ℕ} {now : DateTime}
    (h : ∀ id ∈ sortedSet employeeIds.toFinset, (db.facts.employees.find? id).isSome = true) :
    queryEmployeeAssignments db employeeIds day visible now =
      if day < now.date then
        traverseAll (persistedResult db day .recordedHistory (startOfDay day) visible)
          (sortedSet employeeIds.toFinset)
      else if day = now.date then
        traverseAll (persistedResult db day .currentPersisted now visible)
          (sortedSet employeeIds.toFinset)
      else calculatedResults db.facts (sortedSet employeeIds.toFinset) day visible := by
  have hnil : ((sortedSet employeeIds.toFinset).filter fun id =>
      (db.facts.employees.find? id).isNone) = [] := by
    refine List.filter_eq_nil_iff.mpr fun id hid => ?_
    rw [Option.isNone_iff_eq_none, ← Option.not_isSome_iff_eq_none]
    exact not_not.mpr (h id hid)
  unfold queryEmployeeAssignments
  dsimp only
  rw [if_neg (not_not.mpr hnil)]

/-- Employee by employee. -/
theorem answers_same {ids : List ℕ} {resolutions : List EmployeeAssignmentResolution}
    {forecasts : List EmployeeAssignmentQueryResult}
    (hresolutions : List.Forall₂
      (fun id r => resolveEmployeeAssignmentsForDate db.facts id day = .ok r) ids resolutions)
    (hforecasts : List.Forall₂
      (fun r forecast => calculatedResult db.facts.toRules visible r = .ok forecast) resolutions
      forecasts)
    (hsame : ∀ id ∈ ids, ∀ r, resolveEmployeeAssignmentsForDate db.facts id day = .ok r →
      ∀ identity,
        identity ∈ (getEmployeeAssignmentsAsOf db id t).map EmployeeAssignment.identity ↔
          identity ∈ r.assignments.map FinalAssignment.identity) :
    ∃ answers, traverseAll (persistedResult db day .currentPersisted t visible) ids = .ok answers ∧
      List.Forall₂ SaysTheSame forecasts answers := by
  induction hresolutions generalizing forecasts with
  | nil =>
    cases hforecasts
    exact ⟨[], rfl, .nil⟩
  | @cons id r ids resolutions hresolve _ ih =>
    cases hforecasts with
    | cons hforecast hrest =>
      obtain ⟨answer, hanswer, hone⟩ := answer_same (resolve_employeeId hresolve)
        (resolve_evaluationDate hresolve) (hsame id List.mem_cons_self r hresolve) hforecast
      obtain ⟨answers, hanswers, hall⟩ :=
        ih hrest fun later hlater => hsame later (List.mem_cons_of_mem _ hlater)
      exact ⟨answer :: answers,
        traverseAll_cons_eq_ok.mpr ⟨answer, answers, hanswer, hanswers, rfl⟩, .cons hone hall⟩

end

/-- A question about a day to come, and the same question on that day. If only the worker and
refreshes have run in between and no event is due any more, the second answer says for every employee
what the first one said. -/
theorem forecast_comes_true (fields : Table AssignmentFieldDefinition)
    (calls later : List OperationCall) (employeeIds : List ℕ) (visible : Option (Finset ℕ))
    (now t : DateTime) (forecasts : List EmployeeAssignmentQueryResult)
    (horder : ((calls ++ later).map fun call => call.now).Pairwise (· ≤ ·))
    (hlast : ∀ call ∈ calls ++ later, call.now ≤ t)
    (hworker : ∀ call ∈ later, call.operation.Maintains)
    (hpending : ∀ event ∈
      (runOperations (seededDb fields) (calls ++ later)).scheduledReconciliations,
      event.status = .pending → t < event.scheduledAt)
    (hday : now.date < t.date)
    (hforecast : queryEmployeeAssignments (runOperations (seededDb fields) calls) employeeIds t.date
      visible now = .ok forecasts) :
    ∃ answers,
      queryEmployeeAssignments (runOperations (seededDb fields) (calls ++ later)) employeeIds t.date
        visible t = .ok answers ∧
      List.Forall₂ SaysTheSame forecasts answers := by
  have hfacts : (runOperations (seededDb fields) (calls ++ later)).facts =
      (runOperations (seededDb fields) calls).facts := by
    rw [runOperations_append]
    exact runOperations_facts later hworker
  have hpresent := query_eq_ok hforecast
  rw [query_of_present hpresent, if_neg (lt_asymm hday), if_neg hday.ne', ← hfacts] at hforecast
  rw [← hfacts] at hpresent
  rw [query_of_present hpresent, if_neg (lt_irrefl _), if_pos rfl]
  unfold calculatedResults at hforecast
  split at hforecast
  · exact absurd hforecast (by simp)
  · next resolutions hresolutions =>
    refine answers_same (traverseAll_eq_ok.mp hresolutions) (traverseAll_eq_ok.mp hforecast) ?_
    -- on that day the valid rows are the open ones, and they are coherent
    intro id hid r hresolve identity
    obtain ⟨employee, hemployee, hkey⟩ := Table.isSome_find?.mp (hpresent id hid)
    obtain rfl : employee.id = id := hkey
    obtain ⟨resolution, hresolved, hidentities⟩ :=
      (coherent_runOperations fields horder hlast).resolved hpending hemployee
    obtain rfl : resolution = r := Except.ok.inj (hresolved.symm.trans hresolve)
    rw [asOf_identities (rowsUntil_runOperations fields horder hlast), ← hidentities,
      List.mem_toFinset]

/-- The first two calls, before the worker has run. -/
def hiredDb : Db :=
  runOperations (seededDb (.ofRows [⟨1, "laptop", .one, "priority", .text⟩])) (tenureCalls.take 2)

/-- Asked in February 2026 what Ada will have two years after her start, and asked again then. -/
theorem forecast_comes_true_tenure :
    ∃ forecasts answers,
      queryEmployeeAssignments hiredDb [1] (.on 2028 1 10) none (startOfDay (.on 2026 2 1)) =
        .ok forecasts ∧
      queryEmployeeAssignments (runOperations (seededDb (.ofRows [⟨1, "laptop", .one, "priority", .text⟩]))
        (tenureCalls.take 3)) [1] (.on 2028 1 10) none (startOfDay (.on 2028 1 10)) = .ok answers ∧
      forecasts.map (fun r => r.assignments.length) = [1] ∧
      List.Forall₂ SaysTheSame forecasts answers := by
  have hlengths : (queryEmployeeAssignments hiredDb [1] (.on 2028 1 10) none
      (startOfDay (.on 2026 2 1))).toOption.map
        (fun results => results.map fun r => r.assignments.length) = some [1] := by
    decide +kernel
  have hpending : ∀ event ∈ (runOperations
      (seededDb (.ofRows [⟨1, "laptop", .one, "priority", .text⟩]))
      (tenureCalls.take 3)).scheduledReconciliations.rows, event.status = .pending →
        startOfDay (.on 2028 1 10) < event.scheduledAt := by
    decide +kernel
  cases hquery : queryEmployeeAssignments hiredDb [1] (.on 2028 1 10) none
      (startOfDay (.on 2026 2 1)) with
  | error e =>
    rw [hquery] at hlengths
    exact absurd hlengths (by simp [Except.toOption])
  | ok forecasts =>
    rw [hquery] at hlengths
    obtain ⟨answers, hanswers, hsame⟩ := forecast_comes_true
      (.ofRows [⟨1, "laptop", .one, "priority", .text⟩]) (tenureCalls.take 2)
      [⟨.system, startOfDay (.on 2028 1 10), .reconcileDue 100⟩] [1] none
      (startOfDay (.on 2026 2 1)) (startOfDay (.on 2028 1 10)) forecasts (by decide +kernel)
      (by decide +kernel) (by simp [Operation.Maintains]) hpending (by decide +kernel) hquery
    exact ⟨forecasts, answers, rfl, hanswers, Option.some.inj hlengths, hsame⟩

end Warp
