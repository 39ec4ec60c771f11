import Mathlib.Algebra.Order.BigOperators.Group.List
import Mathlib.Algebra.Order.BigOperators.GroupWithZero.List
import Mathlib.Algebra.Order.Ring.Nat
import Warp.ImpactSummaries
import Warp.Properties.Explanations

/-!
# Impact summaries and the resolver

The summary of a policy matches, resolves and replaces in a loop of its own. Its counts are those of a
resolution of each employee, and they divide the matched employees without a rest.
-/

namespace Warp

open Infra

/-! ## What a resolution tells of a policy -/

def matchesPolicy (facts : Facts) (policyId : ℕ) (day : Date) (employeeId : ℕ) : Bool :=
  match findPolicyMatches facts employeeId day with
  | .error _ => false
  | .ok found => found.keys.contains policyId

/-- The final assignments of an employee that come from a version. -/
def assignmentsFrom (facts : Facts) (version : Option PolicyVersion) (day : Date) (employeeId : ℕ) :
    List FinalAssignment :=
  match version, resolveEmployeeAssignmentsForDate facts employeeId day with
  | some v, .ok resolution =>
    resolution.assignments.filter fun a => a.sourcePolicyVersionId = some v.id
  | _, _ => []

def resolutionConflict (facts : Facts) (day : Date) (employeeId : ℕ) : Option PolicyConflict :=
  match resolveEmployeeAssignmentsForDate facts employeeId day with
  | .error (.policyConflict conflict) => some conflict
  | _ => none

/-- The matched employees whose resolution raises a conflict, each with the conflict. -/
def matchedConflicts (facts : Facts) (policyId : ℕ) (day : Date) (employeeIds : List ℕ) :
    List ImpactSummaryConflict :=
  (employeeIds.filter (matchesPolicy facts policyId day)).filterMap fun e =>
    (resolutionConflict facts day e).map fun conflict => ⟨e, conflict⟩

/-- The counts of a summary are those of the resolutions of its employees. -/
structure AgreesWithResolver (facts : Facts) (policyId : ℕ) (day : Date) (employeeIds : List ℕ)
    (version : Option PolicyVersion) (summary : PolicyImpactSummary) : Prop where
  versionId : summary.effectivePolicyVersionId = version.map fun v => v.id
  selectedAssignments : summary.selectedAssignmentCount =
    (employeeIds.map fun e => (assignmentsFrom facts version day e).length).sum
  selectedEmployees : summary.selectedEmployeeCount =
    (employeeIds.filter fun e => assignmentsFrom facts version day e ≠ []).length
  conflicted : summary.conflictedEmployeeCount =
    (matchedConflicts facts policyId day employeeIds).length
  conflicts : summary.conflicts =
    (matchedConflicts facts policyId day employeeIds).take maxConflictSamples
  matched : summary.matchedEmployeeCount =
    (employeeIds.filter (matchesPolicy facts policyId day)).length
  withoutSelected : summary.matchedWithoutSelectedAssignmentCount =
    (employeeIds.filter fun e => matchesPolicy facts policyId day e &&
      (resolutionConflict facts day e).isNone && assignmentsFrom facts version day e = []).length
  matchedSplit : summary.matchedEmployeeCount = summary.selectedEmployeeCount +
    summary.matchedWithoutSelectedAssignmentCount + summary.conflictedEmployeeCount
  originSplit : summary.directMatchEmployeeCount + summary.groupMatchEmployeeCount =
    summary.matchedEmployeeCount + summary.directAndGroupMatchEmployeeCount
  fieldsSelected : (summary.fields.map fun f => f.selectedAssignmentCount).sum =
    summary.selectedAssignmentCount
  fieldsSuppressed : (summary.fields.map fun f => f.suppressedByOverrideAssignmentCount).sum =
    summary.suppressedByOverrideAssignmentCount

/-! ## One turn of the loop -/

section

variable {accumulators next : Dict ℕ PolicyFieldAccumulator} {items : List ResolvedAssignment}
  {add : PolicyFieldAccumulator → PolicyFieldAccumulator}

theorem accumulate_keys (h : runAll (accumulate add) accumulators items = .ok next) :
    next.keys = accumulators.keys := by
  refine runAll_invariant (I := fun d => d.keys = accumulators.keys) ?_ rfl h
  intro item _ u v hu hv
  unfold accumulate at hv
  split at hv
  · cases hv
    rw [Dict.keys_modify, hu]
  · cases hv

/-- Every item counts once, wherever its accumulator stands. -/
theorem accumulate_sum (h : runAll (accumulate add) accumulators items = .ok next)
    {g : PolicyFieldAccumulator → ℕ} {n : ℕ} (hg : ∀ a, g (add a) = g a + n) :
    (next.values.map g).sum = (accumulators.values.map g).sum + n * items.length := by
  refine runAll_prefix (I := fun done d =>
    (d.values.map g).sum = (accumulators.values.map g).sum + n * done.length) ?_ (by simp) h
  intro done item _ u v hu hv
  unfold accumulate at hv
  split at hv
  · next hk =>
    cases hv
    obtain ⟨before, a, after, hvalues, hchanged⟩ :=
      Dict.values_modify (f := add) hk
    rw [hvalues] at hu
    rw [hchanged]
    simp only [List.map_append, List.map_cons, List.sum_append, List.sum_cons, hg,
      List.length_append, List.length_singleton, Nat.mul_add, Nat.mul_one] at hu ⊢
    omega
  · cases hv

theorem exists_accumulate (h : ∀ item ∈ items,
    item.assignmentFieldDefinitionId ∈ accumulators.keys) :
    ∃ next, runAll (accumulate add) accumulators items = .ok next := by
  refine exists_runAll_eq_ok (I := fun d => d.keys = accumulators.keys) ?_ rfl
  intro item hitem u hu
  refine ⟨_, if_pos (by rw [hu]; exact h item hitem), ?_⟩
  rw [Dict.keys_modify, hu]

end

section

variable {facts : Facts} {policyId : ℕ} {version : PolicyVersion} {day : Date} {employeeId : ℕ}
  {state next : ImpactState} {found : Dict ℕ PolicyMatch} {resolved : List ResolvedAssignment}

/-- Policy assignments of a version that no override replaces are its final assignments. -/
theorem assignmentsFrom_length
    (hresolve : resolveEmployeeAssignmentsForDate facts employeeId day =
      .ok ⟨employeeId, day, found.keys, (applyEmployeeOverrides facts.toRules resolved
        (activeOverrides facts employeeId)).map (FinalAssignment.dated day)⟩) :
    (assignmentsFrom facts (some version) day employeeId).length =
      ((resolved.filter fun r => r.sourcePolicyVersionId = version.id).filter fun r =>
        r.assignmentFieldDefinitionId ∉
          (activeOverrides facts employeeId).map fun o => o.assignmentFieldDefinitionId).length := by
  unfold assignmentsFrom
  rw [hresolve]
  dsimp only
  rw [List.filter_map, List.length_map, applyEmployeeOverrides,
    ((perm_orderBy _ _).filter _).length_eq, List.filter_append, List.length_append,
    List.filter_map, List.length_map, List.filter_map, List.length_map, List.filter_filter,
    List.filter_filter]
  -- an assignment of an override has no version
  have hnone : (activeOverrides facts employeeId).filter
      (((fun a : FinalAssignment => decide (a.sourcePolicyVersionId = some version.id)) ∘
        FinalAssignment.dated day) ∘ overrideFinal facts.toRules resolved) = [] := by
    refine List.filter_eq_nil_iff.mpr fun o _ => ?_
    simp [overrideFinal, FinalAssignment.dated]
  rw [hnone, List.length_nil, Nat.add_zero]
  congr 1
  refine List.filter_congr fun r _ => ?_
  simp [policyFinal, FinalAssignment.dated, Bool.and_comm]

/-- The turns of the loop, told by the resolution of the employee. -/
inductive Turn (facts : Facts) (policyId : ℕ) (version : PolicyVersion) (day : Date)
    (state : ImpactState) (employeeId : ℕ) : ImpactState → Prop where
  | unmatched (hmatch : matchesPolicy facts policyId day employeeId = false)
      (hnone : assignmentsFrom facts (some version) day employeeId = []) :
      Turn facts policyId version day state employeeId state
  | conflicted (policyMatch : PolicyMatch) (conflict : PolicyConflict)
      (hmatch : matchesPolicy facts policyId day employeeId = true)
      (horigins : policyMatch.origins ≠ [])
      (hconflict : resolutionConflict facts day employeeId = some conflict)
      (hnone : assignmentsFrom facts (some version) day employeeId = []) :
      Turn facts policyId version day state employeeId
        ((state.countMatch policyMatch).addConflict employeeId conflict)
  | resolved (policyMatch : PolicyMatch) (overridden : List ℕ) (items : List ResolvedAssignment)
      (next : ImpactState)
      (hmatch : matchesPolicy facts policyId day employeeId = true)
      (horigins : policyMatch.origins ≠ [])
      (hconflict : resolutionConflict facts day employeeId = none)
      (hlength : (assignmentsFrom facts (some version) day employeeId).length =
        (items.filter fun r => r.assignmentFieldDefinitionId ∉ overridden).length)
      (hadd : (state.countMatch policyMatch).addAssignments overridden employeeId items = .ok next) :
      Turn facts policyId version day state employeeId next

theorem origins_ne_nil (hfound : findPolicyMatches facts employeeId day = .ok found)
    {m : PolicyMatch} (hm : found.get? policyId = some m) : m.origins ≠ [] := by
  unfold findPolicyMatches at hfound
  split at hfound
  · cases hfound
    exact absurd (Dict.get?_eq_some.mp hm) List.not_mem_nil
  · split at hfound
    · cases hfound
    · dsimp only at hfound
      split at hfound
      · cases hfound
      · cases hfound
        obtain ⟨origins, horigins, hv⟩ := Dict.mem_filterMap.mp (Dict.get?_eq_some.mp hm)
        obtain ⟨v, _, rfl⟩ := Option.map_eq_some_iff.mp hv
        obtain ⟨hkey, rfl⟩ := Dict.mem_collect.mp (Dict.mem_sortByKey.mp horigins)
        obtain ⟨p, hp, rfl⟩ := List.mem_map.mp hkey
        exact List.ne_nil_of_mem (List.mem_map_of_mem (List.mem_filter.mpr ⟨hp, by simp⟩))

/-- Nothing comes from a version whose policy is not matched. -/
theorem assignmentsFrom_unmatched (hversion : version ∈ facts.policyVersions)
    (hfound : findPolicyMatches facts employeeId day = .ok found)
    (hnot : version.policyId ∉ found.keys) :
    assignmentsFrom facts (some version) day employeeId = [] := by
  unfold assignmentsFrom
  split
  · next v resolution hv hresolve =>
    cases hv
    obtain ⟨resolved, hresolved, hassignments⟩ := resolveEmployee_eq_ok hfound hresolve
    refine List.filter_eq_nil_iff.mpr fun a ha => ?_
    rw [hassignments] at ha
    obtain ⟨b, hb, rfl⟩ := List.mem_map.mp ha
    rcases mem_applyEmployeeOverrides.mp hb with ⟨r, hr, _, rfl⟩ | ⟨o, _, rfl⟩
    · obtain ⟨effective, heff⟩ := getEffective_of_found hfound
      rw [resolvePolicyAssignments_eq heff] at hresolved
      obtain ⟨w, hw, rfl⟩ := (mem_resolveCandidates policyCandidates_sorted policyCandidates_agree
        hresolved).mp hr
      have hrow := version_of_candidate (mem_of_head? hw)
      obtain ⟨hw, _, _, hamong⟩ := mem_effectiveRows.mp hrow
      simp only [policyFinal, FinalAssignment.dated, resolvedItem, Option.some.injEq,
        decide_eq_true_eq]
      intro hid
      have hsame : w.version = version := Table.key_inj hw hversion hid
      rw [hsame] at hamong
      exact hnot (by simpa [amongPolicies] using hamong)
    · simp [overrideFinal, FinalAssignment.dated]
  · rfl

theorem summarizeMatch_turn (hversion : version ∈ facts.policyVersions)
    (hpolicy : version.policyId = policyId)
    (h : summarizeMatch facts policyId version day state employeeId = .ok next) :
    Turn facts policyId version day state employeeId next := by
  unfold summarizeMatch at h
  split at h
  · cases h
  · next found hfound =>
    have hmatches : matchesPolicy facts policyId day employeeId = found.keys.contains policyId := by
      rw [matchesPolicy, hfound]
    split at h
    · next hget =>
      cases h
      have hnot : policyId ∉ found.keys := Dict.get?_eq_none.mp hget
      refine .unmatched (by rw [hmatches]; simpa using hnot) ?_
      exact assignmentsFrom_unmatched hversion hfound (by rw [hpolicy]; exact hnot)
    · next m hget =>
      -- from here on the employee matches, and the resolution decides how
      have hmatch : matchesPolicy facts policyId day employeeId = true := by
        rw [hmatches, List.contains_iff_mem]
        exact Dict.mem_keys.mpr ⟨m, Dict.get?_eq_some.mp hget⟩
      have horigins := origins_ne_nil hfound hget
      have hresolve := resolveEmployee_eq hfound
      split at h
      · next conflict hconflict =>
        cases h
        rw [hconflict] at hresolve
        replace hresolve : resolveEmployeeAssignmentsForDate facts employeeId day =
          .error (.policyConflict conflict) := hresolve
        refine .conflicted m conflict hmatch horigins ?_ ?_
        · rw [resolutionConflict, hresolve]
        · simp [assignmentsFrom, hresolve]
      · cases h
      · next resolved hresolved =>
        rw [hresolved] at hresolve
        refine .resolved m _ _ next hmatch horigins ?_ ?_ h
        · rw [resolutionConflict, hresolve]
          rfl
        · exact assignmentsFrom_length hresolve

end

/-! ## The whole loop -/

/-- The counters after some employees, told by their resolutions. -/
structure Tallied (facts : Facts) (policyId : ℕ) (version : PolicyVersion) (day : Date)
    (done : List ℕ) (state : ImpactState) : Prop where
  selectedAssignments : state.selectedAssignmentCount =
    (done.map fun e => (assignmentsFrom facts (some version) day e).length).sum
  selectedEmployees : state.selectedEmployeeCount =
    (done.filter fun e => assignmentsFrom facts (some version) day e ≠ []).length
  conflicted : state.conflictedEmployeeCount = (matchedConflicts facts policyId day done).length
  conflicts : state.conflicts =
    (matchedConflicts facts policyId day done).take maxConflictSamples
  matched : state.matchedEmployeeCount = (done.filter (matchesPolicy facts policyId day)).length
  withoutSelected : state.matchedWithoutSelectedAssignmentCount =
    (done.filter fun e => matchesPolicy facts policyId day e &&
      (resolutionConflict facts day e).isNone &&
        assignmentsFrom facts (some version) day e = []).length
  matchedSplit : state.matchedEmployeeCount = state.selectedEmployeeCount +
    state.matchedWithoutSelectedAssignmentCount + state.conflictedEmployeeCount
  originSplit : state.directMatchEmployeeCount + state.groupMatchEmployeeCount =
    state.matchedEmployeeCount + state.directAndGroupMatchEmployeeCount
  fieldsSelected : (state.fieldAccumulators.values.map fun a => a.selectedAssignmentCount).sum =
    state.selectedAssignmentCount
  fieldsSuppressed : (state.fieldAccumulators.values.map fun a => a.suppressedAssignmentCount).sum =
    state.suppressedAssignmentCount

section

variable {facts : Facts} {policyId : ℕ} {version : PolicyVersion} {day : Date} {employeeId : ℕ}
  {state next : ImpactState}

/-- Every match is direct or through a group. -/
theorem origin_counts {m : PolicyMatch} (h : m.origins ≠ []) :
    (m.origins.any PolicyMatchOrigin.isDirect).toNat + (m.origins.any PolicyMatchOrigin.isGroup).toNat =
      1 + (m.origins.any PolicyMatchOrigin.isDirect && m.origins.any PolicyMatchOrigin.isGroup).toNat := by
  have hone : m.origins.any PolicyMatchOrigin.isDirect = true ∨
      m.origins.any PolicyMatchOrigin.isGroup = true := by
    obtain ⟨o, ho⟩ := List.exists_mem_of_ne_nil _ h
    cases o with
    | conditionMatch clauses => exact Or.inl (List.any_eq_true.mpr ⟨_, ho, rfl⟩)
    | group groupId groupName => exact Or.inr (List.any_eq_true.mpr ⟨_, ho, rfl⟩)
  rcases hone with hone | hone
  · rw [hone, Bool.true_and]
    rfl
  · rw [hone, Bool.and_true, Nat.add_comm]
    rfl

/-- A sample of bounded length, taken one by one. -/
theorem sample_append {α : Type*} (n : ℕ) (l : List α) (a : α) :
    (if (l.take n).length < n then l.take n ++ [a] else l.take n) = (l ++ [a]).take n := by
  rw [List.length_take]
  split
  · next h =>
    have hle : l.length < n := by omega
    rw [List.take_of_length_le hle.le, List.take_of_length_le]
    rw [List.length_append, List.length_singleton]
    exact hle
  · next h =>
    have hle : n ≤ l.length := by omega
    exact (List.take_append_of_le_length hle).symm

theorem matchedConflicts_append (done : List ℕ) (e : ℕ) :
    matchedConflicts facts policyId day (done ++ [e]) = matchedConflicts facts policyId day done ++
      matchedConflicts facts policyId day [e] := by
  rw [matchedConflicts, List.filter_append, List.filterMap_append]
  rfl

theorem addAssignments_eq_ok {overridden : List ℕ} {items : List ResolvedAssignment}
    (h : state.addAssignments overridden employeeId items = .ok next) :
    ∃ accumulators,
      ((accumulators.values.map fun a => a.selectedAssignmentCount).sum =
        (state.fieldAccumulators.values.map fun a => a.selectedAssignmentCount).sum +
          (items.filter fun r => r.assignmentFieldDefinitionId ∉ overridden).length) ∧
      ((accumulators.values.map fun a => a.suppressedAssignmentCount).sum =
        (state.fieldAccumulators.values.map fun a => a.suppressedAssignmentCount).sum +
          (items.filter fun r => r.assignmentFieldDefinitionId ∈ overridden).length) ∧
      accumulators.keys = state.fieldAccumulators.keys ∧
      next = { state with
        fieldAccumulators := accumulators
        selectedEmployeeCount := state.selectedEmployeeCount +
          if (items.filter fun r => r.assignmentFieldDefinitionId ∉ overridden) = [] then 0 else 1
        selectedAssignmentCount := state.selectedAssignmentCount +
          (items.filter fun r => r.assignmentFieldDefinitionId ∉ overridden).length
        matchedWithoutSelectedAssignmentCount := state.matchedWithoutSelectedAssignmentCount +
          if (items.filter fun r => r.assignmentFieldDefinitionId ∉ overridden) = [] then 1 else 0
        suppressedEmployeeCount := state.suppressedEmployeeCount +
          if (items.filter fun r => r.assignmentFieldDefinitionId ∈ overridden) = [] then 0 else 1
        suppressedAssignmentCount := state.suppressedAssignmentCount +
          (items.filter fun r => r.assignmentFieldDefinitionId ∈ overridden).length } := by
  unfold ImpactState.addAssignments at h
  dsimp only at h
  split at h
  · cases h
  · next middle hselected =>
    split at h
    · cases h
    · next last hsuppressed =>
      cases h
      refine ⟨last, ?_, ?_, ?_, rfl⟩
      -- each of the two passes raises one of the counts and leaves the other
      · rw [accumulate_sum (g := fun a => a.selectedAssignmentCount) (n := 0) hsuppressed
            fun _ => rfl,
          accumulate_sum (g := fun a => a.selectedAssignmentCount) (n := 1) hselected fun _ => rfl,
          Nat.zero_mul, Nat.add_zero, Nat.one_mul]
      · rw [accumulate_sum (g := fun a => a.suppressedAssignmentCount) (n := 1) hsuppressed
            fun _ => rfl,
          accumulate_sum (g := fun a => a.suppressedAssignmentCount) (n := 0) hselected
            fun _ => rfl,
          Nat.zero_mul, Nat.add_zero, Nat.one_mul]
      · rw [accumulate_keys hsuppressed, accumulate_keys hselected]

theorem exists_addAssignments {overridden : List ℕ} {items : List ResolvedAssignment}
    (h : ∀ r ∈ items, r.assignmentFieldDefinitionId ∈ state.fieldAccumulators.keys) :
    ∃ next, state.addAssignments overridden employeeId items = .ok next := by
  obtain ⟨middle, hmiddle⟩ : ∃ middle,
      runAll (accumulate (PolicyFieldAccumulator.addSelected employeeId)) state.fieldAccumulators
        (items.filter fun r => r.assignmentFieldDefinitionId ∉ overridden) = .ok middle :=
    exists_accumulate fun r hr => h r (List.mem_of_mem_filter hr)
  obtain ⟨last, hlast⟩ : ∃ last,
      runAll (accumulate (PolicyFieldAccumulator.addSuppressed employeeId)) middle
        (items.filter fun r => r.assignmentFieldDefinitionId ∈ overridden) = .ok last := by
    refine exists_accumulate fun r hr => ?_
    rw [accumulate_keys hmiddle]
    exact h r (List.mem_of_mem_filter hr)
  unfold ImpactState.addAssignments
  dsimp only
  rw [hmiddle]
  dsimp only
  rw [hlast]
  exact ⟨_, rfl⟩

theorem Tallied.unmatched {done : List ℕ} (h : Tallied facts policyId version day done state)
    (hmatch : matchesPolicy facts policyId day employeeId = false)
    (hnone : assignmentsFrom facts (some version) day employeeId = []) :
    Tallied facts policyId version day (done ++ [employeeId]) state := by
  have hconflicts : matchedConflicts facts policyId day (done ++ [employeeId]) =
      matchedConflicts facts policyId day done := by
    rw [matchedConflicts_append]
    simp [matchedConflicts, hmatch]
  constructor
  · simp [h.selectedAssignments, hnone]
  · simp [h.selectedEmployees, List.filter_append, hnone]
  · rw [hconflicts, h.conflicted]
  · rw [hconflicts, h.conflicts]
  · simp [h.matched, List.filter_append, hmatch]
  · simp [h.withoutSelected, List.filter_append, hmatch]
  · exact h.matchedSplit
  · exact h.originSplit
  · exact h.fieldsSelected
  · exact h.fieldsSuppressed

theorem Tallied.turn {done : List ℕ} (h : Tallied facts policyId version day done state)
    (hturn : Turn facts policyId version day state employeeId next) :
    Tallied facts policyId version day (done ++ [employeeId]) next := by
  cases hturn with
  | unmatched hmatch hnone => exact h.unmatched hmatch hnone
  -- a conflict is counted and sampled, and selects nothing
  | conflicted m conflict hmatch horigins hconflict hnone =>
    have hone := origin_counts horigins
    have hconflicts : matchedConflicts facts policyId day (done ++ [employeeId]) =
        matchedConflicts facts policyId day done ++ [⟨employeeId, conflict⟩] := by
      rw [matchedConflicts_append]
      simp [matchedConflicts, hmatch, hconflict]
    constructor
    · simp [ImpactState.addConflict, ImpactState.countMatch, h.selectedAssignments, hnone]
    · simp [ImpactState.addConflict, ImpactState.countMatch, h.selectedEmployees,
        List.filter_append, hnone]
    · simp [ImpactState.addConflict, ImpactState.countMatch, hconflicts, h.conflicted]
    · rw [hconflicts, ← sample_append, ← h.conflicts]
      rfl
    · simp [ImpactState.addConflict, ImpactState.countMatch, h.matched, List.filter_append, hmatch]
    · simp [ImpactState.addConflict, ImpactState.countMatch, h.withoutSelected,
        List.filter_append, hmatch, hconflict]
    · show state.matchedEmployeeCount + 1 = _ + _ + (state.conflictedEmployeeCount + 1)
      rw [h.matchedSplit]
      rfl
    · show (_ + _) + (_ + _) = (_ + _) + (_ + _)
      have := h.originSplit
      omega
    · exact h.fieldsSelected
    · exact h.fieldsSuppressed
  -- the policy's items divide into selected ones and those an override hides
  | resolved m overridden items next hmatch horigins hconflict hlength hadd =>
    obtain ⟨accumulators, hselected, hsuppressed, _, rfl⟩ := addAssignments_eq_ok hadd
    have hone := origin_counts horigins
    have hempty : assignmentsFrom facts (some version) day employeeId = [] ↔
        (items.filter fun r => r.assignmentFieldDefinitionId ∉ overridden) = [] := by
      rw [← List.length_eq_zero_iff, hlength, List.length_eq_zero_iff]
    have hconflicts : matchedConflicts facts policyId day (done ++ [employeeId]) =
        matchedConflicts facts policyId day done := by
      rw [matchedConflicts_append]
      simp [matchedConflicts, hmatch, hconflict]
    generalize (items.filter fun r => r.assignmentFieldDefinitionId ∉ overridden) = selected at *
    constructor
    · show state.selectedAssignmentCount + selected.length = _
      rw [h.selectedAssignments, List.map_append, List.sum_append, ← hlength]
      simp
    · show state.selectedEmployeeCount + _ = _
      rw [h.selectedEmployees, List.filter_append, List.length_append]
      by_cases hs : selected = []
      · simp [hs, hempty.mpr hs]
      · simp [hs, mt hempty.mp hs]
    · rw [hconflicts]
      exact h.conflicted
    · rw [hconflicts]
      exact h.conflicts
    · show state.matchedEmployeeCount + 1 = _
      simp [h.matched, List.filter_append, hmatch]
    · show state.matchedWithoutSelectedAssignmentCount + _ = _
      rw [h.withoutSelected, List.filter_append, List.length_append]
      by_cases hs : selected = []
      · simp [hs, hempty.mpr hs, hmatch, hconflict]
      · simp [hs, mt hempty.mp hs]
    · show state.matchedEmployeeCount + 1 =
        (state.selectedEmployeeCount + _) + (state.matchedWithoutSelectedAssignmentCount + _) +
          state.conflictedEmployeeCount
      rw [h.matchedSplit]
      split <;> omega
    · show (_ + _) + (_ + _) = (_ + _) + (_ + _)
      have := h.originSplit
      omega
    · exact hselected.trans (congrArg (· + _) h.fieldsSelected)
    · exact hsuppressed.trans (congrArg (· + _) h.fieldsSuppressed)

theorem mem_initialAccumulators {rules : Rules} {fieldId : ℕ} :
    fieldId ∈ (initialAccumulators rules version).keys ↔ ∃ row ∈ rules.policyFieldValues,
      row.policyVersionId = version.id ∧ row.assignmentFieldDefinitionId = fieldId := by
  simp [initialAccumulators, Dict.mem_keys_ofList, versionValues, and_assoc]

theorem initial_tallied : Tallied facts policyId version day []
    { fieldAccumulators := initialAccumulators facts.toRules version } := by
  have hzero : ∀ g : PolicyFieldAccumulator → ℕ, (∀ values, g { configuredValues := values } = 0) →
      ((initialAccumulators facts.toRules version).values.map g).sum = 0 := by
    intro g hg
    refine List.sum_eq_zero fun n hn => ?_
    obtain ⟨a, ha, rfl⟩ := List.mem_map.mp hn
    obtain ⟨k, hk⟩ := Dict.mem_values.mp ha
    obtain ⟨fieldId, _, he⟩ := List.mem_map.mp (Dict.mem_of_mem_ofList hk)
    rw [← (Prod.mk.inj he).2]
    exact hg _
  constructor <;> try rfl
  · exact hzero _ fun _ => rfl
  · exact hzero _ fun _ => rfl

theorem summarizeMatch_keys
    (h : summarizeMatch facts policyId version day state employeeId = .ok next) :
    next.fieldAccumulators.keys = state.fieldAccumulators.keys := by
  unfold summarizeMatch at h
  split at h
  · cases h
  · split at h
    · cases h
      rfl
    · split at h
      · cases h
        rfl
      · cases h
      · obtain ⟨accumulators, _, _, hkeys, rfl⟩ := addAssignments_eq_ok h
        exact hkeys

/-- A turn raises only what the matching of the employee raises. -/
theorem summarizeMatch_error {e : ServiceError}
    (hkeys : state.fieldAccumulators.keys = (initialAccumulators facts.toRules version).keys)
    (h : summarizeMatch facts policyId version day state employeeId = .error e) :
    findPolicyMatches facts employeeId day = .error e := by
  unfold summarizeMatch at h
  split at h
  · next e' hfound =>
    cases h
    exact hfound
  · next found hfound =>
    obtain ⟨effective, heff⟩ := getEffective_of_found hfound
    split at h
    · cases h
    · split at h
      · cases h
      · next e' hnot hresolve =>
        -- the versions were looked up before, so only a conflict is left
        rw [resolvePolicyAssignments_eq heff] at hresolve
        obtain ⟨⟨conflict, rfl⟩, _⟩ := resolveCandidates_eq_error policyCandidates_sorted hresolve
        exact absurd rfl (hnot conflict)
      · next m _ _ resolved hresolved =>
        rw [resolvePolicyAssignments_eq heff] at hresolved
        have hitems : ∀ r ∈ resolved.filter fun r => r.sourcePolicyVersionId = version.id,
            r.assignmentFieldDefinitionId ∈ (state.countMatch m).fieldAccumulators.keys := by
          intro r hr
          obtain ⟨hr, hsource⟩ := List.mem_filter.mp hr
          obtain ⟨w, hw, rfl⟩ := (mem_resolveCandidates policyCandidates_sorted
            policyCandidates_agree hresolved).mp hr
          obtain ⟨_, _, _, _, hrow⟩ := mem_policyCandidates.mp (mem_of_head? hw)
          show w.field.id ∈ state.fieldAccumulators.keys
          rw [hkeys]
          exact mem_initialAccumulators.mpr ⟨_, hrow, of_decide_eq_true hsource, rfl⟩
        obtain ⟨next, hnext⟩ := exists_addAssignments hitems
        rw [hnext] at h
        cases h

/-- The fields of a summary add up like their accumulators. -/
theorem sum_fields {rules : Rules} {accumulators : Dict ℕ PolicyFieldAccumulator}
    {fields : List PolicyFieldImpactSummary}
    (h : traverseAll (policyFieldSummary rules) accumulators.sortByKey.entries = .ok fields)
    {f : PolicyFieldImpactSummary → ℕ} {g : PolicyFieldAccumulator → ℕ}
    (hfg : ∀ entry s, policyFieldSummary rules entry = .ok s → f s = g entry.2) :
    (fields.map f).sum = (accumulators.values.map g).sum := by
  have hmap : fields.map f = accumulators.sortByKey.entries.map fun entry => g entry.2 :=
    traverseAll_view h fun entry _ s hs => hfg entry s hs
  rw [hmap, Dict.values, List.map_map]
  exact ((perm_orderBy Prod.fst accumulators.entries).map _).sum_eq

end

/-! ## The summary -/

section

variable {facts : Facts} {policy : Policy} {day : Date} {employeeIds : List ℕ} {mode : ImpactMode}
  {version : PolicyVersion} {summary : PolicyImpactSummary} {state : ImpactState}

theorem Tallied.agrees (h : Tallied facts policy.id version day employeeIds state)
    (hsummary : policyImpactSummary facts.toRules policy (some version) day mode employeeIds state =
      .ok summary) :
    AgreesWithResolver facts policy.id day employeeIds (some version) summary := by
  obtain ⟨fields, hfields, rfl⟩ := exceptMap_eq_ok.mp hsummary
  have hentry : ∀ entry s, policyFieldSummary facts.toRules entry = .ok s →
      s.selectedAssignmentCount = entry.2.selectedAssignmentCount ∧
        s.suppressedByOverrideAssignmentCount = entry.2.suppressedAssignmentCount := by
    intro entry s hs
    obtain ⟨definition, _, rfl⟩ := exceptMap_eq_ok.mp hs
    exact ⟨rfl, rfl⟩
  exact
    { versionId := rfl
      selectedAssignments := h.selectedAssignments
      selectedEmployees := h.selectedEmployees
      conflicted := h.conflicted
      conflicts := h.conflicts
      matched := h.matched
      withoutSelected := h.withoutSelected
      matchedSplit := h.matchedSplit
      originSplit := h.originSplit
      fieldsSelected := (sum_fields hfields fun entry s hs => (hentry entry s hs).1).trans
        h.fieldsSelected
      fieldsSuppressed := (sum_fields hfields fun entry s hs => (hentry entry s hs).2).trans
        h.fieldsSuppressed }

theorem effectiveVersion_mem {rules : Rules} {policyId : ℕ} {version : Option PolicyVersion}
    (h : getEffectivePolicyVersion rules policyId day = .ok version) {v : PolicyVersion} :
    version = some v ↔ v ∈ effectiveRows rules none day ∧ v.policyId = policyId := by
  obtain ⟨vs, hvs, rfl⟩ := exceptMap_eq_ok.mp h
  rw [Dict.get?_eq_some, mem_getEffective hvs, mem_effectiveRows, mem_effectiveRows]
  simp only [amongPolicies, List.contains_iff_mem, List.mem_singleton, and_true]
  constructor
  · rintro ⟨⟨hv, hactive, heff, _⟩, hid⟩
    exact ⟨⟨hv, hactive, heff⟩, hid⟩
  · rintro ⟨⟨hv, hactive, heff⟩, hid⟩
    exact ⟨⟨hv, hactive, heff, hid⟩, hid⟩

theorem effective_of_key {employeeId policyId : ℕ} {found : Dict ℕ PolicyMatch}
    (hfound : findPolicyMatches facts employeeId day = .ok found) (hkey : policyId ∈ found.keys) :
    ∃ v ∈ effectiveRows facts.toRules none day, v.policyId = policyId := by
  cases hfind : facts.employees.find? employeeId with
  | none =>
    rw [findPolicyMatches, hfind] at hfound
    cases hfound
    exact absurd hkey List.not_mem_nil
  | some employee =>
    obtain ⟨hemployee, hid⟩ := Table.find?_eq_some.mp hfind
    subst hid
    obtain ⟨v, hv, hpolicy, _⟩ := (mem_keys_found hemployee hfound).mp hkey
    exact ⟨v, hv, hpolicy⟩

/-- Without an effective version nobody matches. -/
theorem agrees_without_version
    (hversion : getEffectivePolicyVersion facts.toRules policy.id day = .ok none)
    (hsummary : policyImpactSummary facts.toRules policy none day mode employeeIds
      { fieldAccumulators := .empty } = .ok summary) :
    AgreesWithResolver facts policy.id day employeeIds none summary := by
  have hmatch : ∀ e ∈ employeeIds, matchesPolicy facts policy.id day e = false := by
    intro e _
    unfold matchesPolicy
    split
    · rfl
    · next found hfound =>
      rw [Bool.eq_false_iff, ne_eq, List.contains_iff_mem]
      intro hkey
      obtain ⟨v, hv, hid⟩ := effective_of_key hfound hkey
      exact absurd ((effectiveVersion_mem hversion).mpr ⟨hv, hid⟩) (by simp)
  have hnone : employeeIds.filter (matchesPolicy facts policy.id day) = [] :=
    List.filter_eq_nil_iff.mpr fun e he => by simp [hmatch e he]
  obtain ⟨fields, hfields, rfl⟩ := exceptMap_eq_ok.mp hsummary
  cases hfields
  constructor <;> simp [matchedConflicts, hnone, assignmentsFrom]
  -- what is left is the count of the matched employees without an assignment
  refine (List.length_eq_zero_iff.mpr (List.filter_eq_nil_iff.mpr fun e he => ?_)).symm
  simp [hmatch e he]

/-- Some field of the version is missing from the table that it refers to. -/
theorem policyImpactSummary_error {version : Option PolicyVersion} {e : ServiceError}
    (h : policyImpactSummary facts.toRules policy version day mode employeeIds state = .error e) :
    ∃ fieldId ∈ state.fieldAccumulators.keys, facts.assignmentFieldDefinitions.find? fieldId = none := by
  obtain ⟨entry, hentry, he⟩ := traverseAll_eq_error (exceptMap_eq_error.mp h)
  refine ⟨entry.1, Dict.mem_keys.mpr ⟨entry.2, Dict.mem_sortByKey.mp hentry⟩, ?_⟩
  have hlookup := exceptMap_eq_error.mp he
  unfold fieldDefinition orRaise at hlookup
  split at hlookup
  · cases hlookup
  · next hnone => exact hnone

end

/-- A summary agrees with the resolver, or raises what the matching of one of its employees raises. -/
theorem policy_impact_agrees (facts : Facts) (policy : Policy) (day today : Date)
    (visibleEmployeeIds : Option (Finset ℕ)) :
    match buildPolicyImpactSummary facts policy day visibleEmployeeIds today with
    | .ok summary => ∃ version, getEffectivePolicyVersion facts.toRules policy.id day = .ok version ∧
        AgreesWithResolver facts policy.id day (summaryEmployees facts none visibleEmployeeIds) version
          summary
    | .error e => getEffectivePolicyVersion facts.toRules policy.id day = .error e ∨
        (∃ employeeId ∈ summaryEmployees facts none visibleEmployeeIds,
          findPolicyMatches facts employeeId day = .error e ∧
            resolveEmployeeAssignmentsForDate facts employeeId day = .error e) ∨
        ∃ row ∈ facts.policyFieldValues,
          facts.assignmentFieldDefinitions.find? row.assignmentFieldDefinitionId = none := by
  generalize hbuild : buildPolicyImpactSummary facts policy day visibleEmployeeIds today = result
  unfold buildPolicyImpactSummary at hbuild
  dsimp only at hbuild
  generalize summaryEmployees facts none visibleEmployeeIds = employeeIds at *
  cases hversion : getEffectivePolicyVersion facts.toRules policy.id day with
  | error e =>
    rw [hversion] at hbuild
    subst hbuild
    exact Or.inl rfl
  | ok effectiveVersion =>
    rw [hversion] at hbuild
    cases effectiveVersion with
    | none =>
      dsimp only at hbuild
      cases result with
      | ok summary => exact ⟨none, rfl, agrees_without_version hversion hbuild⟩
      | error e =>
        obtain ⟨fieldId, hkey, _⟩ := policyImpactSummary_error hbuild
        exact absurd hkey List.not_mem_nil
    | some version =>
      dsimp only at hbuild
      obtain ⟨hrow, hpolicy⟩ := (effectiveVersion_mem hversion).mp rfl
      have hmem := (mem_effectiveRows.mp hrow).1
      cases hrun : runAll (summarizeMatch facts policy.id version day)
          { fieldAccumulators := initialAccumulators facts.toRules version } employeeIds with
      | error e =>
        rw [hrun] at hbuild
        subst hbuild
        -- the first employee that raises does so in the resolution as well
        obtain ⟨done, employeeId, rest, state, rfl, hdone, hstep⟩ := runAll_eq_error hrun
        have hkeys := runAll_invariant
          (I := fun s => s.fieldAccumulators.keys = (initialAccumulators facts.toRules version).keys)
          (fun _ _ _ _ hu hv => (summarizeMatch_keys hv).trans hu) rfl hdone
        have hfound := summarizeMatch_error hkeys hstep
        refine Or.inr (Or.inl ⟨employeeId, by simp, hfound, ?_⟩)
        rw [resolveEmployeeAssignmentsForDate, hfound]
      | ok state =>
        rw [hrun] at hbuild
        have htallied := runAll_prefix (I := Tallied facts policy.id version day)
          (fun _ _ _ _ _ h hv => h.turn (summarizeMatch_turn hmem hpolicy hv)) initial_tallied hrun
        cases result with
        | ok summary => exact ⟨some version, rfl, htallied.agrees hbuild⟩
        | error e =>
          -- only an output of a field that is gone is left
          obtain ⟨fieldId, hkey, hnone⟩ := policyImpactSummary_error hbuild
          have hkeys := runAll_invariant
            (I := fun s => s.fieldAccumulators.keys =
              (initialAccumulators facts.toRules version).keys)
            (fun _ _ _ _ hu hv => (summarizeMatch_keys hv).trans hu) rfl hrun
          rw [hkeys] at hkey
          obtain ⟨row, hrowmem, _, rfl⟩ := mem_initialAccumulators.mp hkey
          exact Or.inr (Or.inr ⟨row, hrowmem, hnone⟩)

theorem policy_impact_agrees_overlap :
    ∃ summary version, buildPolicyImpactSummary overlapFacts ⟨3, "Pilot", .active, none⟩
        (.on 2027 3 1) none (.on 2027 3 1) = .ok summary ∧
      (summary.matchedEmployeeCount, summary.groupMatchEmployeeCount,
        summary.selectedAssignmentCount, summary.matchedWithoutSelectedAssignmentCount) = (1, 1, 0, 1) ∧
      AgreesWithResolver overlapFacts 3 (.on 2027 3 1) (summaryEmployees overlapFacts none none) version
        summary := by
  have hcounts : ((buildPolicyImpactSummary overlapFacts ⟨3, "Pilot", .active, none⟩
      (.on 2027 3 1) none (.on 2027 3 1)).toOption.map fun s =>
        (s.matchedEmployeeCount, s.groupMatchEmployeeCount, s.selectedAssignmentCount,
          s.matchedWithoutSelectedAssignmentCount)) = some (1, 1, 0, 1) := by decide +kernel
  have h := policy_impact_agrees overlapFacts ⟨3, "Pilot", .active, none⟩ (.on 2027 3 1)
    (.on 2027 3 1) none
  cases hbuild : buildPolicyImpactSummary overlapFacts ⟨3, "Pilot", .active, none⟩
      (.on 2027 3 1) none (.on 2027 3 1) with
  | error e =>
    rw [hbuild] at hcounts
    cases hcounts
  | ok summary =>
    rw [hbuild] at hcounts h
    obtain ⟨version, _, hagrees⟩ := h
    exact ⟨summary, version, rfl, Option.some.inj hcounts, hagrees⟩

end Warp
