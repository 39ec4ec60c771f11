import Warp.Properties.ResolutionEvidence
import Warp.Properties.Settled

/-!
# Reconciling without cause

As long as the facts stay, the same versions are effective and every condition of theirs has the same
result, another reconciliation finds the open rows as they should be, and writes nothing.
-/

namespace Warp

open Infra

/-! ## The evidence on another date -/

/-- The same versions are effective on both dates, and their conditions have the same results. -/
structure SameTruth (facts : Facts) (employee : Employee) (day day' : Date) : Prop where
  effective : ∀ v, v ∈ effectiveRows facts.toRules none day' ↔ v ∈ effectiveRows facts.toRules none day
  results : ∀ c, EffectiveCondition facts.toRules day c →
    conditionResult facts.toRules ⟨facts.employees, employee, day'⟩ c =
      conditionResult facts.toRules ⟨facts.employees, employee, day⟩ c

section

variable {facts : Facts} {employee : Employee} {day day' : Date}

theorem SameTruth.sameMeaning (h : SameTruth facts employee day day') :
    SameMeaning facts facts employee day day' where
  values := rfl
  fields := rfl
  clauses := rfl
  conditions := rfl
  effective := h.effective
  results := h.results
  groups := fun _ => Iff.rfl
  overrides := rfl

/-- Of what a resolver gives, only a tenure shows the date. -/
theorem resolve_undated (employees : Table Employee) (resolver : Resolver) :
    (resolver.resolve ⟨employees, employee, day⟩).map (fun v => (explanationValue v).undated) =
      (resolver.resolve ⟨employees, employee, day'⟩).map fun v => (explanationValue v).undated := by
  cases resolver <;> rfl

theorem evaluateCondition_undated {employees : Table Employee}
    {definition : ConditionFieldDefinition} {operator : Operator} {value : String}
    {evaluation evaluation' : ConditionEvaluation}
    (h : evaluateConditionWithEvidence ⟨employees, employee, day⟩ definition operator value =
      .ok evaluation)
    (h' : evaluateConditionWithEvidence ⟨employees, employee, day'⟩ definition operator value =
      .ok evaluation') :
    evaluation.actual.undated = evaluation'.actual.undated ∧
      evaluation.expected = evaluation'.expected := by
  unfold evaluateConditionWithEvidence at h h'
  cases hspec : supportedSpec? definition with
  | none =>
    rw [hspec] at h h'
    cases h
    cases h'
    exact ⟨rfl, rfl⟩
  | some spec =>
    rw [hspec] at h h'
    dsimp only at h h'
    by_cases hop : operator ∈ spec.allowedOperators
    · rw [if_neg (not_not.mpr hop)] at h h'
      cases hparse : spec.parser.parse value with
      | error e =>
        rw [hparse] at h h'
        cases h
        cases h'
        exact ⟨rfl, rfl⟩
      | ok parsed =>
        rw [hparse] at h h'
        dsimp only at h h'
        have hactual := @resolve_undated employee day day' employees spec.resolver
        cases hres : spec.resolver.resolve ⟨employees, employee, day⟩ with
        | none =>
          rw [hres] at h hactual
          rw [Option.map_eq_none_iff.mp hactual.symm] at h'
          cases h
          cases h'
          exact ⟨rfl, rfl⟩
        | some actual =>
          rw [hres] at h hactual
          obtain ⟨actual', hres', hsame⟩ := Option.map_eq_some_iff.mp hactual.symm
          rw [hres'] at h'
          dsimp only at h h'
          split at h
          · exact absurd h (by simp)
          · split at h'
            · exact absurd h' (by simp)
            · cases h
              cases h'
              exact ⟨hsame.symm, rfl⟩
    · rw [if_pos hop] at h h'
      cases h
      cases h'
      exact ⟨rfl, rfl⟩

theorem evaluateCompiledCondition_undated {rules : Rules} {employees : Table Employee}
    {c : CompiledPolicyCondition} {evidence evidence' : ConditionMatchEvidence}
    (h : evaluateCompiledCondition rules ⟨employees, employee, day⟩ c = .ok evidence)
    (h' : evaluateCompiledCondition rules ⟨employees, employee, day'⟩ c = .ok evidence')
    (hresult : evidence.result = evidence'.result) : evidence.undated = evidence'.undated := by
  unfold evaluateCompiledCondition at h h'
  cases hdef : rules.conditionFieldDefinitions.find? c.conditionFieldDefinitionId with
  | none =>
    rw [hdef] at h
    cases h
  | some definition =>
    rw [hdef] at h h'
    dsimp only at h h'
    split at h
    · exact absurd h (by simp)
    · next evaluation heval =>
      split at h'
      · exact absurd h' (by simp)
      · next evaluation' heval' =>
        cases h
        cases h'
        obtain ⟨hactual, hexpected⟩ := evaluateCondition_undated heval heval'
        simp only [ConditionMatchEvidence.undated, hexpected, hactual]
        rw [show evaluation.result = evaluation'.result from hresult]

theorem ClauseMatchEvidence.undated_isMatch (evidence : ClauseMatchEvidence) :
    evidence.undated.isMatch = evidence.isMatch := by
  simp only [isMatch, undated, List.isEmpty_map, List.all_map]
  rfl

theorem evaluateClause_undated {rules : Rules} {employees : Table Employee}
    {clause : CompiledPolicyClause} {evidence evidence' : ClauseMatchEvidence}
    (hresults : ∀ c ∈ clauseConditions rules clause,
      conditionResult rules ⟨employees, employee, day'⟩ c =
        conditionResult rules ⟨employees, employee, day⟩ c)
    (h : evaluateClause rules ⟨employees, employee, day⟩ clause = .ok evidence)
    (h' : evaluateClause rules ⟨employees, employee, day'⟩ clause = .ok evidence') :
    evidence.undated = evidence'.undated := by
  unfold evaluateClause at h h'
  split at h
  · exact absurd h (by simp)
  · next conditions hall =>
    split at h'
    · exact absurd h' (by simp)
    · next conditions' hall' =>
      cases h
      cases h'
      have hsame : conditions.map ConditionMatchEvidence.undated =
          conditions'.map ConditionMatchEvidence.undated := by
        refine traverseAll_alike (fun c hc b b' hb hb' => ?_) hall hall'
        refine evaluateCompiledCondition_undated hb hb' ?_
        have hresult := hresults c hc
        rw [conditionResult, conditionResult, hb, hb'] at hresult
        exact (Except.ok.inj hresult).symm
      simp only [ClauseMatchEvidence.undated, hsame]

def undatedClause (p : ℕ × ClauseMatchEvidence) : ℕ × ClauseMatchEvidence := (p.1, p.2.undated)

/-- The matched clauses are the same, as far as no date of evaluation is concerned. -/
theorem SameTruth.matchedClauses (h : SameTruth facts employee day day')
    {ids : List ℕ} (hids : ∀ id ∈ ids, ∃ v ∈ effectiveRows facts.toRules none day, v.id = id)
    {clauses clauses' : List (ℕ × ClauseMatchEvidence)}
    (hclauses : matchedClauses facts.toRules ⟨facts.employees, employee, day⟩ ids = .ok clauses)
    (hclauses' : matchedClauses facts.toRules ⟨facts.employees, employee, day'⟩ ids =
      .ok clauses') : clauses.map undatedClause = clauses'.map undatedClause := by
  have hfilter : ∀ l : List (ℕ × ClauseMatchEvidence),
      (l.filter fun p => p.2.isMatch).map undatedClause =
        (l.map undatedClause).filter fun p => p.2.isMatch := by
    intro l
    rw [List.filter_map]
    refine congrArg _ (List.filter_congr fun p _ => ?_)
    exact p.2.undated_isMatch.symm
  unfold Warp.matchedClauses at hclauses hclauses'
  split at hclauses
  · exact absurd hclauses (by simp)
  · next evaluated hall =>
    split at hclauses'
    · exact absurd hclauses' (by simp)
    · next evaluated' hall' =>
      cases hclauses
      cases hclauses'
      rw [hfilter, hfilter]
      refine congrArg _ (traverseAll_alike (fun clause hclause b b' hb hb' => ?_) hall hall')
      obtain ⟨evidence, he, rfl⟩ := exceptMap_eq_ok.mp hb
      obtain ⟨evidence', he', rfl⟩ := exceptMap_eq_ok.mp hb'
      obtain ⟨hmem, hid⟩ := mem_versionClauses.mp hclause
      obtain ⟨v, hv, hvid⟩ := hids _ hid
      refine Prod.ext rfl (evaluateClause_undated (fun c hc => ?_) he he')
      exact h.results c ⟨v, hv, clause, hmem, hvid.symm, hc⟩

theorem clausesOf_undated {clauses clauses' : List (ℕ × ClauseMatchEvidence)}
    (h : clauses.map undatedClause = clauses'.map undatedClause) (versionId : ℕ) :
    (clausesOf clauses versionId).map ClauseMatchEvidence.undated =
      (clausesOf clauses' versionId).map ClauseMatchEvidence.undated := by
  have hmap : ∀ l : List (ℕ × ClauseMatchEvidence),
      (clausesOf l versionId).map ClauseMatchEvidence.undated =
        clausesOf (l.map undatedClause) versionId := by
    intro l
    rw [clausesOf, clausesOf, List.filter_map, List.map_map, List.map_map]
    rfl
  rw [hmap, hmap, h]

/-! ## The resolution on another date -/

theorem SameTruth.getEffective (h : SameTruth facts employee day day')
    {effective : Dict ℕ PolicyVersion}
    (heff : getEffectivePolicyVersions facts.toRules none day = .ok effective) :
    getEffectivePolicyVersions facts.toRules none day' = .ok effective := by
  unfold getEffectivePolicyVersions at heff ⊢
  rw [if_neg (by simp)] at heff ⊢
  rw [effectiveRows_congr h.effective]
  exact collectEffective_eq_ok.mpr (collectEffective_eq_ok.mp heff)

/-- The same versions are matched, and the same is told of each. -/
theorem SameTruth.found (h : SameTruth facts employee day day')
    (hemployee : employee ∈ facts.employees) {found : Dict ℕ PolicyMatch}
    (hfound : findPolicyMatches facts employee.id day = .ok found) :
    ∃ found', findPolicyMatches facts employee.id day' = .ok found' ∧
      effectiveRows facts.toRules (some found'.keys) day' =
        effectiveRows facts.toRules (some found.keys) day ∧
      ∀ v ∈ effectiveRows facts.toRules (some found.keys) day,
        undatedOrigins (explanationOrigins (matchFor (some found) v.policyId)) =
          undatedOrigins (explanationOrigins (matchFor (some found') v.policyId)) := by
  obtain ⟨found', hfound'⟩ := (findPolicyMatches_ok_iff hemployee).mpr
    (h.sameMeaning.evaluable.mpr ((findPolicyMatches_ok_iff hemployee).mp ⟨found, hfound⟩))
  obtain ⟨effective, clauses, heff, hclauses, hmatches⟩ :=
    (findPolicyMatches_eq_ok hemployee).mp hfound
  obtain ⟨effective', clauses', heff', hclauses', hmatches'⟩ :=
    (findPolicyMatches_eq_ok hemployee).mp hfound'
  cases (h.getEffective heff).symm.trans heff'
  have hsame := clausesOf_undated (h.matchedClauses (fun id hid => by
    rw [values_getEffective heff] at hid
    simpa using hid) hclauses hclauses')
  change found = foundMatches facts employee.id effective clauses at hmatches
  change found' = foundMatches facts employee.id effective clauses' at hmatches'
  subst hmatches hmatches'
  refine ⟨_, hfound', effectiveRows_congr fun v => ?_, fun v hv => ?_⟩
  · rw [mem_effectiveRows_found heff', mem_effectiveRows_found heff, h.effective]
    refine and_congr_right fun _ => not_congr ?_
    rw [List.append_eq_nil_iff, List.append_eq_nil_iff, clauseOrigins_eq_nil, clauseOrigins_eq_nil,
      ← List.map_eq_nil_iff, ← hsame, List.map_eq_nil_iff]
  · obtain ⟨hversion, hevidence⟩ := (mem_effectiveRows_found heff).mp hv
    exact sameOrigins_of_clauses heff heff' hversion ((h.effective v).mpr hversion)
      ((mem_keys_foundMatches heff hversion).mpr hevidence) (hsame v.id)

/-- Both resolutions say the same. -/
theorem SameTruth.resolution (h : SameTruth facts employee day day')
    (hemployee : employee ∈ facts.employees) {r : EmployeeAssignmentResolution}
    (hr : resolveEmployeeAssignmentsForDate facts employee.id day = .ok r) :
    ∃ r', resolveEmployeeAssignmentsForDate facts employee.id day' = .ok r' ∧
      r'.assignments.map FinalAssignment.essence = r.assignments.map FinalAssignment.essence := by
  cases hfound : findPolicyMatches facts employee.id day with
  | error e =>
    rw [resolveEmployeeAssignmentsForDate, hfound] at hr
    cases hr
  | ok found =>
    obtain ⟨found', hfound', hrows, horigins⟩ := h.found hemployee hfound
    obtain ⟨restricted, hrestricted⟩ := getEffective_of_found hfound
    obtain ⟨restricted', hrestricted'⟩ := getEffective_of_found hfound'
    rw [resolveEmployee_eq hfound, resolvePolicyAssignments_eq hrestricted] at hr
    rw [resolveEmployee_eq hfound', resolvePolicyAssignments_eq hrestricted', hrows]
    obtain ⟨resolved, hresolved, rfl⟩ := exceptMap_eq_ok.mp hr
    have hmap := @resolveCandidates_mapOrigins undatedOrigins undatedOrigins (some found) (some found') _
      fun c hc => horigins c.version (version_of_candidate hc)
    rw [hresolved] at hmap
    obtain ⟨resolved', hresolved', hsame⟩ := exceptMap_eq_ok.mp hmap.symm
    rw [hresolved']
    refine ⟨_, rfl, essence_of_undated ?_ day⟩
    rw [← applyEmployeeOverrides_mapOrigins, hsame, applyEmployeeOverrides_mapOrigins]

end

/-! ## Another reconciliation -/

/-- Same facts, assignment rows and audit log. -/
structure SameRows (db db' : Db) : Prop where
  facts : db'.facts = db.facts
  rows : db'.employeeAssignments = db.employeeAssignments
  auditLogs : db'.auditLogs = db.auditLogs
  sequences : db'.sequences = db.sequences

theorem SameRows.refl (db : Db) : SameRows db db := ⟨rfl, rfl, rfl, rfl⟩

theorem SameRows.trans {db db' db'' : Db} (h : SameRows db db') (h' : SameRows db' db'') :
    SameRows db db'' where
  facts := h'.facts.trans h.facts
  rows := h'.rows.trans h.rows
  auditLogs := h'.auditLogs.trans h.auditLogs
  sequences := h'.sequences.trans h.sequences

section

variable {db db' : Db} {T T' : DateTime} {actor : Actor} {r r' : EmployeeAssignmentResolution}
  {state : Db × List (ℕ × List EmployeeAssignment)}

/-- Desired assignments that say the same have the same keys. -/
theorem desiredKeys_perm
    (h : r'.assignments.map FinalAssignment.essence = r.assignments.map FinalAssignment.essence) :
    (desiredByKey r.assignments).keys.Perm (desiredByKey r'.assignments).keys := by
  refine (List.perm_ext_iff_of_nodup (Dict.keys_nodup _) (Dict.keys_nodup _)).mpr fun k => ?_
  rw [mem_keys_desiredByKey, mem_keys_desiredByKey, assignmentKeys_of_essence h]

/-- A settled employee stays as it is, for the same resolution at a later time. -/
theorem Settled.quiet (hr : Settled db T r) (hid : r'.employeeId = r.employeeId)
    (h : r'.assignments.map FinalAssignment.essence = r.assignments.map FinalAssignment.essence)
    (hT : T ≤ T') (hrows : state.1.employeeAssignments = db.employeeAssignments) :
    ∃ state', applyResolution T' actor state r' = .ok state' ∧ SameRows state.1 state'.1 := by
  have horder : rejectOutOfOrderReconciliation
      (replaceEmployeePolicies state.1 r'.employeeId r'.policyIds) r'.employeeId T' = .ok () := by
    refine rejectOutOfOrder_eq_ok.mpr fun a ha he => ?_
    have ha : a ∈ db.employeeAssignments := by
      rw [← hrows]
      exact ha
    exact (hr.started a ha (he.trans hid)).trans hT
  have hkeys : ((openAssignments (replaceEmployeePolicies state.1 r'.employeeId r'.policyIds)
      r'.employeeId).map EmployeeAssignment.assignmentKey).Perm
        (desiredByKey r'.assignments).keys := by
    have hopen : openAssignments (replaceEmployeePolicies state.1 r'.employeeId r'.policyIds)
        r'.employeeId = openAssignments db r.employeeId := by
      unfold openAssignments replaceEmployeePolicies
      rw [hrows, hid]
    rw [hopen]
    exact hr.keys.trans (desiredKeys_perm h)
  obtain ⟨hended, hleftover⟩ := syncRows_settled hkeys
  have hwrite : writeAssignments (replaceEmployeePolicies state.1 r'.employeeId r'.policyIds)
      r'.employeeId T' actor (syncAssignments
        (replaceEmployeePolicies state.1 r'.employeeId r'.policyIds) r'.employeeId r'.assignments) =
      replaceEmployeePolicies state.1 r'.employeeId r'.policyIds := by
    unfold writeAssignments syncAssignments
    rw [hended, hleftover]
    rfl
  have hrefresh : ∃ rows, applyResolution T' actor state r' =
      .ok (replaceEmployeePolicies state.1 r'.employeeId r'.policyIds, rows) := by
    unfold applyResolution refreshEmployeeAssignments
    simp only [reconciliationTimestamp, horder, finalAssignments, hwrite]
    exact ⟨_, rfl⟩
  obtain ⟨rows, hrefresh⟩ := hrefresh
  exact ⟨_, hrefresh, ⟨rfl, rfl, rfl, rfl⟩⟩

end

/-- Reconciling again without a cause writes nothing: no row is created, ended or deleted, and there
is no entry in the audit log. -/
theorem reconcile_without_cause {db db₁ mid : Db} {employeeIds employeeIds' : List ℕ}
    {T T' now now' : DateTime} {actor actor' : Actor} {rows : List (ℕ × List EmployeeAssignment)}
    (hfresh : FreshAssignments db)
    (hfirst : reconcileEmployees db employeeIds (some T) actor now = .ok (db₁, rows))
    (hfacts : mid.facts = db₁.facts) (hrows : mid.employeeAssignments = db₁.employeeAssignments)
    (hids : employeeIds' ⊆ employeeIds) (hT : T ≤ T')
    (htruth : ∀ employee ∈ db.facts.employees, employee.id ∈ employeeIds' →
      SameTruth db.facts employee T.date T'.date) :
    ∃ db₂ rows', reconcileEmployees mid employeeIds' (some T') actor' now' = .ok (db₂, rows') ∧
      SameRows mid db₂ := by
  have hsame : mid.facts = db.facts := hfacts.trans (reconcile_reconciled hfresh hfirst).facts
  -- every employee of the second batch is settled, with a resolution that says the same later on
  have hsettled : ∀ e ∈ presentEmployees mid.facts employeeIds', ∃ r r',
      resolveEmployeeAssignmentsForDate mid.facts e T'.date = .ok r' ∧ Settled db₁ T r ∧
        r'.employeeId = r.employeeId ∧
        r'.assignments.map FinalAssignment.essence = r.assignments.map FinalAssignment.essence := by
    intro e he
    obtain ⟨hid, hpresent⟩ := mem_presentEmployees.mp he
    rw [hsame] at hpresent ⊢
    obtain ⟨employee, hemployee, rfl⟩ := Table.isSome_find?.mp hpresent
    obtain ⟨r, hr, hsettled⟩ := reconcile_settled hfresh hfirst
      (mem_presentEmployees.mpr ⟨hids hid, hpresent⟩)
    obtain ⟨r', hr', hessence⟩ := (htruth employee hemployee hid).resolution hemployee hr
    have hemployeeId : r'.employeeId = r.employeeId :=
      (resolve_employeeId hr').trans (resolve_employeeId hr).symm
    exact ⟨r, r', hr', hsettled, hemployeeId, hessence⟩
  obtain ⟨resolutions, hresolutions⟩ := exists_traverseAll_eq_ok.mpr fun e he => by
    obtain ⟨_, r', hr', _⟩ := hsettled e he
    exact ⟨r', hr'⟩
  have hstep : ∀ r' ∈ resolutions, ∀ state : Db × List (ℕ × List EmployeeAssignment),
      SameRows mid state.1 →
        ∃ state', applyResolution T' actor' state r' = .ok state' ∧ SameRows mid state'.1 := by
    intro r' hr' state hstate
    obtain ⟨e, he, hresolve⟩ := mem_of_traverseAll hresolutions hr'
    obtain ⟨r, r'', hr'', hsettled, hid, hessence⟩ := hsettled e he
    cases hresolve.symm.trans hr''
    obtain ⟨state', hrun, hquiet⟩ :=
      hsettled.quiet hid hessence hT (hstate.rows.trans hrows)
    exact ⟨state', hrun, hstate.trans hquiet⟩
  obtain ⟨state, hstate⟩ := exists_runAll_eq_ok hstep (s := (mid, [])) (SameRows.refl mid)
  have hrun : reconcileEmployees mid employeeIds' (some T') actor' now' = .ok state := by
    unfold reconcileEmployees
    rw [show ((some T').getD now') = T' from rfl, hresolutions]
    exact hstate
  refine ⟨state.1, state.2, hrun, runAll_invariant (I := fun u => SameRows mid u.1) ?_
    (SameRows.refl mid) hstate⟩
  intro r' hr' u v hu hv
  obtain ⟨v', hv', hquiet⟩ := hstep r' hr' u hu
  cases hv.symm.trans hv'
  exact hquiet

/-- A laptop and a badge after a year of service, and another badge by override. -/
def serviceDb : Db :=
  { Db.empty with
    facts := { Facts.empty with
      assignmentFieldDefinitions := .ofRows
        [⟨1, "laptop", .one, "priority", .text⟩, ⟨2, "badge", .many, "priority", .text⟩]
      conditionFieldDefinitions := .ofRows
        [⟨1, "tenure", .derived, "calendar_duration", some "employee_tenure_v1", none, none, true⟩]
      policies := .ofRows [⟨1, "Service", .active, none⟩]
      policyVersions := .ofRows [⟨1, 1, 1, 10, .on 2026 1 1, none, none⟩]
      policyFieldValues := .ofRows [⟨1, 1, "large"⟩, ⟨1, 2, "gold"⟩]
      compiledPolicyClauses := .ofRows [⟨1, 1⟩]
      compiledPolicyConditions := .ofRows [⟨1, 1, 1, .ge, "P1Y"⟩]
      employees := .ofRows [⟨1, "Ada", "CA", "Engineering", "full_time", none, .on 2026 1 1, none⟩]
      employeeOverrides := .ofRows [⟨1, 1, 2, "silver", none⟩] } }

theorem reconcile_without_cause_service : ∃ db₁ rows db₂ rows',
    reconcileEmployees serviceDb [1] (some (startOfDay (.on 2027 3 1))) .system
      (startOfDay (.on 2027 3 1)) = .ok (db₁, rows) ∧ db₁.employeeAssignments.rows.length = 2 ∧
    reconcileEmployees db₁ [1] (some (startOfDay (.on 2029 6 1))) .system
      (startOfDay (.on 2029 6 1)) = .ok (db₂, rows') ∧ SameRows db₁ db₂ := by
  have hlength : (reconcileEmployees serviceDb [1] (some (startOfDay (.on 2027 3 1))) .system
      (startOfDay (.on 2027 3 1))).toOption.map (fun p => p.1.employeeAssignments.rows.length) =
        some 2 := by decide +kernel
  cases hfirst : reconcileEmployees serviceDb [1] (some (startOfDay (.on 2027 3 1))) .system
      (startOfDay (.on 2027 3 1)) with
  | error e =>
    rw [hfirst] at hlength
    cases hlength
  | ok out =>
    obtain ⟨db₁, rows⟩ := out
    rw [hfirst] at hlength
    have hfresh : FreshAssignments serviceDb := by
      intro a ha
      cases ha
    have heffective : effectiveRows serviceDb.facts.toRules none (.on 2029 6 1) =
        effectiveRows serviceDb.facts.toRules none (.on 2027 3 1) := by decide +kernel
    have hresults : ∀ employee ∈ serviceDb.facts.employees.rows,
        ∀ c ∈ serviceDb.facts.compiledPolicyConditions.rows,
          conditionResult serviceDb.facts.toRules
            ⟨serviceDb.facts.employees, employee, .on 2029 6 1⟩ c =
          conditionResult serviceDb.facts.toRules
            ⟨serviceDb.facts.employees, employee, .on 2027 3 1⟩ c := by
      decide +kernel
    have htruth : ∀ employee ∈ serviceDb.facts.employees, employee.id ∈ [1] →
        SameTruth serviceDb.facts employee (.on 2027 3 1) (.on 2029 6 1) := by
      intro employee hemployee _
      refine ⟨fun v => by rw [heffective], fun c hc => ?_⟩
      obtain ⟨_, _, clause, _, _, hc⟩ := hc
      exact hresults employee hemployee c (mem_clauseConditions.mp hc).1
    have hsecond : ∃ db₂ rows', reconcileEmployees db₁ [1] (some (startOfDay (.on 2029 6 1))) .system
        (startOfDay (.on 2029 6 1)) = .ok (db₂, rows') ∧ SameRows db₁ db₂ :=
      reconcile_without_cause hfresh hfirst rfl rfl (List.Subset.refl [1]) (by decide +kernel) htruth
    obtain ⟨db₂, rows', hsecond, hquiet⟩ := hsecond
    exact ⟨db₁, rows, db₂, rows', rfl, Option.some.inj hlength, hsecond, hquiet⟩

end Warp
