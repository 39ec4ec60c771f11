import Mathlib.Data.List.Find
import Warp.Properties.Explanations
import Warp.RowOrders

/-!
# Row orders and assignment keys

The order of the conditions of a clause and the order of tied candidates reach the explanations, and so
the keys of the assignments. Where the rows leave such a choice, two orders give different keys.
-/

namespace Warp

open Infra

/-! ## Matching in an order -/

section

variable {rules : Rules} {context : ConditionEvaluationContext} {order order' : RowOrder rules}
  {clause : CompiledPolicyClause} {evidence evidence' : ClauseMatchEvidence} {ids : List ℕ}
  {clauses clauses' : List (ℕ × ClauseMatchEvidence)} {versionId : ℕ}

theorem evaluateClauseIn_eq_ok : evaluateClauseIn order context clause = .ok evidence ↔
    evidence.clauseId = clause.id ∧ traverseAll (evaluateCompiledCondition rules context)
      (order.conditions clause) = .ok evidence.conditions := by
  unfold evaluateClauseIn
  cases traverseAll (evaluateCompiledCondition rules context) (order.conditions clause) with
  | error e => simp
  | ok conditions =>
    cases evidence
    simp [eq_comm]

/-- In every order a clause has the same evidence, up to its order. -/
theorem evaluateClauseIn_perm (order' : RowOrder rules)
    (h : evaluateClauseIn order context clause = .ok evidence) :
    ∃ evidence', evaluateClauseIn order' context clause = .ok evidence' ∧
      evidence.conditions.Perm evidence'.conditions := by
  obtain ⟨hid, hconditions⟩ := evaluateClauseIn_eq_ok.mp h
  have hperm := (order.conditions_perm clause).trans (order'.conditions_perm clause).symm
  obtain ⟨conditions, hconditions', hsame⟩ := traverseAll_perm hperm hconditions
  exact ⟨⟨clause.id, conditions⟩, evaluateClauseIn_eq_ok.mpr ⟨rfl, hconditions'⟩, hsame⟩

theorem ClauseMatchEvidence.isMatch_perm (h : evidence.conditions.Perm evidence'.conditions) :
    evidence.isMatch = evidence'.isMatch := by
  unfold isMatch
  rw [h.isEmpty_eq, h.all_eq]

theorem evaluateClauseIn_isMatch (h : evaluateClauseIn order context clause = .ok evidence) :
    evidence.isMatch = true ↔ ClauseHolds rules context clause := by
  obtain ⟨evidence', h', hperm⟩ := evaluateClauseIn_perm (.byId rules) h
  rw [ClauseMatchEvidence.isMatch_perm hperm]
  exact evaluateClause_isMatch h'

theorem matchedClausesIn_eq_ok : matchedClausesIn order context ids = .ok clauses ↔
    ∃ evaluated, traverseAll (fun clause => (evaluateClauseIn order context clause).map
        fun evidence => (clause.policyVersionId, evidence)) (versionClauses rules ids) =
          .ok evaluated ∧ clauses = evaluated.filter fun p => p.2.isMatch := by
  unfold matchedClausesIn
  cases traverseAll (fun clause => (evaluateClauseIn order context clause).map
      fun evidence => (clause.policyVersionId, evidence)) (versionClauses rules ids) with
  | error e => simp
  | ok evaluated => simp [eq_comm]

/-- Whether everything can be evaluated does not depend on the order. -/
theorem matchedClausesIn_ok (order' : RowOrder rules)
    (h : matchedClausesIn order context ids = .ok clauses) :
    ∃ clauses', matchedClausesIn order' context ids = .ok clauses' := by
  obtain ⟨evaluated, hall, _⟩ := matchedClausesIn_eq_ok.mp h
  have hall' := exists_traverseAll_eq_ok.mpr fun clause hclause => by
    obtain ⟨_, _, heval⟩ := traverseAll_mem hall hclause
    obtain ⟨evidence, he, _⟩ := exceptMap_eq_ok.mp heval
    obtain ⟨evidence', he', _⟩ := evaluateClauseIn_perm order' he
    exact ⟨(clause.policyVersionId, evidence'), exceptMap_eq_ok.mpr ⟨evidence', he', rfl⟩⟩
  obtain ⟨evaluated', hall'⟩ := hall'
  exact ⟨_, matchedClausesIn_eq_ok.mpr ⟨evaluated', hall', rfl⟩⟩

theorem mem_clausesOf (h : matchedClausesIn order context ids = .ok clauses) :
    evidence ∈ clausesOf clauses versionId ↔ versionId ∈ ids ∧
      ∃ clause ∈ rules.compiledPolicyClauses, clause.policyVersionId = versionId ∧
        ClauseHolds rules context clause ∧
          evaluateClauseIn order context clause = .ok evidence := by
  obtain ⟨evaluated, hall, rfl⟩ := matchedClausesIn_eq_ok.mp h
  simp only [clausesOf, List.mem_map, List.mem_filter, decide_eq_true_eq]
  constructor
  · rintro ⟨p, ⟨⟨hp, hmatch⟩, rfl⟩, rfl⟩
    obtain ⟨clause, hclause, heval⟩ := mem_of_traverseAll hall hp
    obtain ⟨evidence, he, rfl⟩ := exceptMap_eq_ok.mp heval
    obtain ⟨hclause, hid⟩ := mem_versionClauses.mp hclause
    exact ⟨hid, clause, hclause, rfl, (evaluateClauseIn_isMatch he).mp hmatch, he⟩
  · rintro ⟨hid, clause, hclause, rfl, hholds, he⟩
    obtain ⟨p, hp, heval⟩ := traverseAll_mem hall (mem_versionClauses.mpr ⟨hclause, hid⟩)
    rw [he] at heval
    cases heval
    exact ⟨_, ⟨⟨hp, (evaluateClauseIn_isMatch he).mpr hholds⟩, rfl⟩, rfl⟩

/-- Clauses of a version that show the same in both orders. -/
theorem clausesOf_alike {δ : Type} {g : ClauseMatchEvidence → δ}
    (h : matchedClausesIn order context ids = .ok clauses)
    (h' : matchedClausesIn order' context ids = .ok clauses')
    (hsame : ∀ clause ∈ rules.compiledPolicyClauses, clause.policyVersionId = versionId →
      ClauseHolds rules context clause → ∀ evidence evidence',
        evaluateClauseIn order context clause = .ok evidence →
          evaluateClauseIn order' context clause = .ok evidence' → g evidence = g evidence') :
    (clausesOf clauses versionId).map g = (clausesOf clauses' versionId).map g := by
  classical
  -- the clauses that hold, chosen before they are evaluated
  have hrun : ∀ {order : RowOrder rules} {clauses : List (ℕ × ClauseMatchEvidence)},
      matchedClausesIn order context ids = .ok clauses →
        traverseAll (fun clause => (evaluateClauseIn order context clause).map
          fun evidence => (clause.policyVersionId, evidence))
            ((versionClauses rules ids).filter fun clause =>
              clause.policyVersionId = versionId ∧ ClauseHolds rules context clause) =
          .ok (clauses.filter fun p => p.1 = versionId) := by
    intro order clauses h
    obtain ⟨evaluated, hall, rfl⟩ := matchedClausesIn_eq_ok.mp h
    rw [List.filter_filter]
    refine traverseAll_filter hall fun clause _ p hp => ?_
    obtain ⟨evidence, he, rfl⟩ := exceptMap_eq_ok.mp hp
    rw [Bool.eq_iff_iff, decide_eq_true_eq, Bool.and_eq_true, decide_eq_true_eq]
    exact and_congr_right fun _ => (evaluateClauseIn_isMatch he).symm
  unfold clausesOf
  rw [List.map_map, List.map_map]
  refine traverseAll_alike (fun clause hclause p p' hp hp' => ?_) (hrun h) (hrun h')
  obtain ⟨hclause, hholds⟩ := List.mem_filter.mp hclause
  obtain ⟨hid, hholds⟩ := of_decide_eq_true hholds
  obtain ⟨evidence, he, rfl⟩ := exceptMap_eq_ok.mp hp
  obtain ⟨evidence', he', rfl⟩ := exceptMap_eq_ok.mp hp'
  exact hsame clause (mem_versionClauses.mp hclause).1 hid hholds evidence evidence' he he'

end

/-! ## A resolution in an order -/

/-- What is effective and matched, with the evidence in its order. -/
structure OrderedMatches (facts : Facts) (employee : Employee) (day : Date)
    (order : RowOrder facts.toRules) where
  effective : Dict ℕ PolicyVersion
  clauses : List (ℕ × ClauseMatchEvidence)
  effective_eq : getEffectivePolicyVersions facts.toRules none day = .ok effective
  clauses_eq : matchedClausesIn order ⟨facts.employees, employee, day⟩
    (effective.values.map fun v => v.id) = .ok clauses

namespace OrderedMatches

variable {facts : Facts} {employee : Employee} {day : Date} {order order' : RowOrder facts.toRules}

def found (run : OrderedMatches facts employee day order) : Dict ℕ PolicyMatch :=
  foundMatches facts employee.id run.effective run.clauses

def candidates (run : OrderedMatches facts employee day order) : List Candidate :=
  order.candidates
    ((effectiveRows facts.toRules (some run.found.keys) day).map fun v => v.id)

/-- There is evidence for every clause that holds. -/
theorem exists_evidence (run : OrderedMatches facts employee day order) {v : PolicyVersion}
    (hv : v ∈ effectiveRows facts.toRules none day) {clause : CompiledPolicyClause}
    (hclause : clause ∈ facts.compiledPolicyClauses) (hid : clause.policyVersionId = v.id)
    (hholds : ClauseHolds facts.toRules ⟨facts.employees, employee, day⟩ clause) :
    ∃ evidence ∈ clausesOf run.clauses v.id,
      evaluateClauseIn order ⟨facts.employees, employee, day⟩ clause = .ok evidence := by
  have hmem : v.id ∈ run.effective.values.map fun v => v.id := by
    rw [values_getEffective run.effective_eq]
    exact List.mem_map_of_mem hv
  obtain ⟨evaluated, hall, _⟩ := matchedClausesIn_eq_ok.mp run.clauses_eq
  obtain ⟨_, _, heval⟩ := traverseAll_mem hall (mem_versionClauses.mpr ⟨hclause, hid ▸ hmem⟩)
  obtain ⟨evidence, he, _⟩ := exceptMap_eq_ok.mp heval
  exact ⟨evidence, (mem_clausesOf run.clauses_eq).mpr ⟨hmem, clause, hclause, hid, hholds, he⟩, he⟩

/-- The versions are those that match, in every order. -/
theorem mem_versions (run : OrderedMatches facts employee day order) {v : PolicyVersion} :
    v ∈ effectiveRows facts.toRules (some run.found.keys) day ↔
      v ∈ effectiveRows facts.toRules none day ∧ MatchesVersion facts employee day v := by
  rw [found, mem_effectiveRows_found run.effective_eq]
  refine and_congr_right fun hv => ?_
  have hclauses : clausesOf run.clauses v.id ≠ [] ↔
      ∃ clause ∈ facts.compiledPolicyClauses, clause.policyVersionId = v.id ∧
        ClauseHolds facts.toRules ⟨facts.employees, employee, day⟩ clause := by
    constructor
    · intro hne
      obtain ⟨evidence, he⟩ := List.exists_mem_of_ne_nil _ hne
      obtain ⟨_, clause, hclause, hid, hholds, _⟩ := (mem_clausesOf run.clauses_eq).mp he
      exact ⟨clause, hclause, hid, hholds⟩
    · rintro ⟨clause, hclause, hid, hholds⟩
      obtain ⟨evidence, he, _⟩ := run.exists_evidence hv hclause hid hholds
      exact List.ne_nil_of_mem he
  have hgroups : groupOrigins facts employee.id v.policyId ≠ [] ↔
      HasGroupPolicy facts employee.id v.policyId := by
    simp [groupOrigins, HasGroupPolicy]
  rw [MatchesVersion, ← hclauses, ← hgroups, ne_eq, List.append_eq_nil_iff, clauseOrigins_eq_nil]
  exact Decidable.not_and_iff_or_not

theorem candidates_perm (run : OrderedMatches facts employee day order)
    (run' : OrderedMatches facts employee day order') : run.candidates.Perm run'.candidates := by
  have hrows : effectiveRows facts.toRules (some run.found.keys) day =
      effectiveRows facts.toRules (some run'.found.keys) day :=
    effectiveRows_congr fun v => run.mem_versions.trans run'.mem_versions.symm
  unfold candidates
  rw [hrows]
  exact (order.candidates_perm _).trans (order'.candidates_perm _).symm

theorem mem_candidates (run : OrderedMatches facts employee day order) {c : Candidate} :
    c ∈ run.candidates ↔ c ∈ MatchedCandidates facts employee day := by
  rw [candidates, (order.candidates_perm _).mem_iff, mem_policyCandidates]
  constructor
  · rintro ⟨hversion, hid, hname, hfield, hrow⟩
    obtain ⟨v, hv, he⟩ := List.mem_map.mp hid
    have hsame : v = c.version := Table.key_inj (mem_effectiveRows.mp hv).1 hversion he
    rw [hsame] at hv
    obtain ⟨heffective, hmatch⟩ := run.mem_versions.mp hv
    exact ⟨heffective, hmatch, hname, hfield, hrow⟩
  · rintro ⟨heffective, hmatch, hname, hfield, hrow⟩
    refine ⟨(mem_effectiveRows.mp heffective).1, ?_, hname, hfield, hrow⟩
    exact List.mem_map_of_mem (run.mem_versions.mpr ⟨heffective, hmatch⟩)

theorem candidateSet_eq (run : OrderedMatches facts employee day order) :
    candidateSet run.candidates = MatchedCandidates facts employee day :=
  Set.ext fun _ => run.mem_candidates

theorem sorted (run : OrderedMatches facts employee day order) : CandidatesSorted run.candidates :=
  order.candidates_sorted _

theorem agree (run : OrderedMatches facts employee day order) : FieldsAgree run.candidates := by
  intro c hc d hd h
  exact Table.key_inj (run.mem_candidates.mp hc).2.2.2.1 (run.mem_candidates.mp hd).2.2.2.1 h

theorem nodup (run : OrderedMatches facts employee day order) : run.candidates.Nodup :=
  (order.candidates_perm _).nodup_iff.mpr policyCandidates_nodup

/-- Only a conflict keeps the candidates from being resolved. -/
theorem resolves_iff (run : OrderedMatches facts employee day order) :
    (∃ resolved, resolveCandidates (some run.found) run.candidates = .ok resolved) ↔
      ¬Conflicted (MatchedCandidates facts employee day) := by
  rw [← run.candidateSet_eq]
  constructor
  · rintro ⟨resolved, hresolved⟩ hconflict
    obtain ⟨_, herror⟩ := @resolveCandidates_conflict _ (some run.found) run.sorted run.agree
      hconflict
    exact absurd (hresolved.symm.trans herror) (by simp)
  · intro hnot
    cases hresolved : resolveCandidates (some run.found) run.candidates with
    | ok resolved => exact ⟨resolved, rfl⟩
    | error e => exact absurd (resolveCandidates_eq_error run.sorted hresolved).2 hnot

/-- When one order leads to matches, so does the other. -/
theorem exists_other (run : OrderedMatches facts employee day order)
    (order' : RowOrder facts.toRules) : Nonempty (OrderedMatches facts employee day order') := by
  obtain ⟨clauses, hclauses⟩ := matchedClausesIn_ok order' run.clauses_eq
  exact ⟨⟨run.effective, clauses, run.effective_eq, hclauses⟩⟩

end OrderedMatches

/-- What a resolution that succeeds comes to on its way. -/
structure OrderedRun (facts : Facts) (employee : Employee) (day : Date)
    (order : RowOrder facts.toRules) extends OrderedMatches facts employee day order where
  resolved : List ResolvedAssignment
  resolved_eq : resolveCandidates (some toOrderedMatches.found) toOrderedMatches.candidates =
    .ok resolved

namespace OrderedRun

variable {facts : Facts} {employee : Employee} {day : Date} {order : RowOrder facts.toRules}

def assignments (run : OrderedRun facts employee day order) : List FinalAssignment :=
  applyEmployeeOverrides facts.toRules run.resolved (activeOverrides facts employee.id)

def result (run : OrderedRun facts employee day order) : EmployeeAssignmentResolution where
  employeeId := employee.id
  evaluationDate := day
  policyIds := run.found.keys
  assignments := run.assignments.map (FinalAssignment.dated day)

end OrderedRun

section

variable {facts : Facts} {employee : Employee} {day : Date} {order order' : RowOrder facts.toRules}

theorem findPolicyMatchesIn_eq_ok (hemployee : employee ∈ facts.employees)
    {found : Dict ℕ PolicyMatch} : findPolicyMatchesIn facts order employee.id day = .ok found ↔
      ∃ effective clauses, getEffectivePolicyVersions facts.toRules none day = .ok effective ∧
        matchedClausesIn order ⟨facts.employees, employee, day⟩
          (effective.values.map fun v => v.id) = .ok clauses ∧
            foundMatches facts employee.id effective clauses = found := by
  have hfind : facts.employees.find? employee.id = some employee := Table.find?_key hemployee
  unfold findPolicyMatchesIn
  rw [hfind]
  cases heff : getEffectivePolicyVersions facts.toRules none day with
  | error e => simp
  | ok effective =>
    cases hclauses : matchedClausesIn order ⟨facts.employees, employee, day⟩
        (effective.values.map fun v => v.id) with
    | error e => simp [hclauses]
    | ok clauses => simp [hclauses, foundMatches]

theorem resolvePolicyAssignmentsIn_eq {rules : Rules} {order : RowOrder rules} {policyIds : List ℕ}
    {m : PolicyMatches} {effective : Dict ℕ PolicyVersion}
    (heff : getEffectivePolicyVersions rules (some policyIds) day = .ok effective) :
    resolvePolicyAssignmentsIn order policyIds day m = resolveCandidates m
      (order.candidates ((effectiveRows rules (some policyIds) day).map fun v => v.id)) := by
  rw [resolvePolicyAssignmentsIn, heff, ← values_getEffective heff]

theorem resolveIn_eq_ok (hemployee : employee ∈ facts.employees) {r : EmployeeAssignmentResolution} :
    resolveEmployeeAssignmentsIn facts order employee.id day = .ok r ↔
      ∃ run : OrderedRun facts employee day order, run.result = r := by
  unfold resolveEmployeeAssignmentsIn
  constructor
  · intro h
    split at h
    · exact absurd h (by simp)
    · next found hfound =>
      obtain ⟨effective, clauses, heff, hclauses, rfl⟩ :=
        (findPolicyMatchesIn_eq_ok hemployee).mp hfound
      obtain ⟨restricted, hrestricted, _⟩ := getEffective_restrict
        (foundMatches facts employee.id effective clauses).keys heff
      rw [resolvePolicyAssignmentsIn_eq hrestricted] at h
      split at h
      · exact absurd h (by simp)
      · next resolved hresolved =>
        cases h
        exact ⟨⟨⟨effective, clauses, heff, hclauses⟩, resolved, hresolved⟩, rfl⟩
  · rintro ⟨run, rfl⟩
    obtain ⟨restricted, hrestricted, _⟩ := getEffective_restrict run.found.keys run.effective_eq
    have hfound : findPolicyMatchesIn facts order employee.id day = .ok run.found :=
      (findPolicyMatchesIn_eq_ok hemployee).mpr
        ⟨run.effective, run.clauses, run.effective_eq, run.clauses_eq, rfl⟩
    have hresolved : resolvePolicyAssignmentsIn order run.found.keys day (some run.found) =
        .ok run.resolved := (resolvePolicyAssignmentsIn_eq hrestricted).trans run.resolved_eq
    rw [hfound]
    dsimp only
    rw [hresolved]
    rfl

theorem exists_run_iff (hemployee : employee ∈ facts.employees) :
    Nonempty (OrderedRun facts employee day order) ↔ Evaluable facts.toRules employee day ∧
      ¬Conflicted (MatchedCandidates facts employee day) := by
  rw [← findPolicyMatches_ok_iff hemployee]
  constructor
  · rintro ⟨run⟩
    obtain ⟨other⟩ := run.exists_other (.byId _)
    refine ⟨⟨other.found, ?_⟩, run.resolves_iff.mp ⟨_, run.resolved_eq⟩⟩
    exact (@findPolicyMatchesIn_eq_ok facts employee day (.byId _) hemployee _).mpr
      ⟨_, _, other.effective_eq, other.clauses_eq, rfl⟩
  · rintro ⟨⟨found, hfound⟩, hnot⟩
    obtain ⟨effective, clauses, heff, hclauses, _⟩ :=
      (@findPolicyMatchesIn_eq_ok facts employee day (.byId _) hemployee _).mp hfound
    obtain ⟨run⟩ := OrderedMatches.exists_other ⟨effective, clauses, heff, hclauses⟩ order
    obtain ⟨resolved, hresolved⟩ := run.resolves_iff.mpr hnot
    exact ⟨⟨run, resolved, hresolved⟩⟩

end

/-! ## The keys of a run -/

def FreeField (facts : Facts) (employeeId fieldId : ℕ) : Prop :=
  ∀ o ∈ activeOverrides facts employeeId, o.assignmentFieldDefinitionId ≠ fieldId

/-- What an override tells of an assignment that it replaces. -/
def replacedAssignment (r : ResolvedAssignment) : ReplacedAssignment :=
  ⟨r.value, r.sourcePolicyVersionId, some r.explanation.policyName⟩

theorem policyFinal_essence {r r' : ResolvedAssignment} {day : Date} :
    ((policyFinal r).dated day).essence = ((policyFinal r').dated day).essence ↔
      r.mapOrigins undatedOrigins = r'.mapOrigins undatedOrigins := by
  cases r
  cases r'
  simp [FinalAssignment.essence, FinalAssignment.identity, FinalAssignment.dated, policyFinal,
    Explanation.undated, ExplanationReason.mapOrigins, ResolvedAssignment.mapOrigins, and_assoc]

theorem overrideFinal_essence {rules : Rules} {resolved resolved' : List ResolvedAssignment}
    {o : EmployeeOverride} {day : Date} :
    ((overrideFinal rules resolved o).dated day).essence =
        ((overrideFinal rules resolved' o).dated day).essence ↔
      (resolved.filter fun r => r.assignmentFieldDefinitionId =
          o.assignmentFieldDefinitionId).map replacedAssignment =
        (resolved'.filter fun r => r.assignmentFieldDefinitionId =
          o.assignmentFieldDefinitionId).map replacedAssignment := by
  simp [FinalAssignment.essence, FinalAssignment.identity, FinalAssignment.dated, overrideFinal,
    Explanation.undated, ExplanationReason.mapOrigins]
  exact Iff.rfl

namespace OrderedRun

variable {facts : Facts} {employee : Employee} {day : Date} {order order' : RowOrder facts.toRules}

def keys (run : OrderedRun facts employee day order) : Finset AssignmentKey :=
  (run.result.assignments.map FinalAssignment.assignmentKey).toFinset

def replaced (run : OrderedRun facts employee day order) (fieldId : ℕ) : List ReplacedAssignment :=
  (run.resolved.filter fun r => r.assignmentFieldDefinitionId = fieldId).map replacedAssignment

theorem mem_keys {run : OrderedRun facts employee day order} {k : AssignmentKey} :
    k ∈ run.keys ↔ ∃ a ∈ run.assignments, (a.dated day).assignmentKey = k := by
  simp [keys, result]

/-- Every assignment of one run has its like in the other. -/
structure CoveredBy (run : OrderedRun facts employee day order)
    (run' : OrderedRun facts employee day order') : Prop where
  free : ∀ r ∈ run.resolved, FreeField facts employee.id r.assignmentFieldDefinitionId →
    ∃ r' ∈ run'.resolved, r.mapOrigins undatedOrigins = r'.mapOrigins undatedOrigins
  replaced : ∀ o ∈ activeOverrides facts employee.id,
    run.replaced o.assignmentFieldDefinitionId = run'.replaced o.assignmentFieldDefinitionId

theorem keys_subset_iff {run : OrderedRun facts employee day order}
    {run' : OrderedRun facts employee day order'} : run.keys ⊆ run'.keys ↔ run.CoveredBy run' := by
  have hkeys : run.keys ⊆ run'.keys ↔ ∀ a ∈ run.assignments, ∃ b ∈ run'.assignments,
      (a.dated day).essence = (b.dated day).essence := by
    constructor
    · intro h a ha
      obtain ⟨b, hb, hk⟩ := mem_keys.mp (h (mem_keys.mpr ⟨a, ha, rfl⟩))
      exact ⟨b, hb, FinalAssignment.assignmentKey_iff.mp hk.symm⟩
    · intro h k hk
      obtain ⟨a, ha, rfl⟩ := mem_keys.mp hk
      obtain ⟨b, hb, he⟩ := h a ha
      exact mem_keys.mpr ⟨b, hb, FinalAssignment.assignmentKey_iff.mpr he.symm⟩
  rw [hkeys]
  constructor
  · intro h
    constructor
    · intro r hr hfree
      obtain ⟨b, hb, he⟩ := h (policyFinal r) (mem_applyEmployeeOverrides.mpr
        (Or.inl ⟨r, hr, hfree, rfl⟩))
      rcases mem_applyEmployeeOverrides.mp hb with ⟨r', hr', _, rfl⟩ | ⟨o, _, rfl⟩
      · exact ⟨r', hr', policyFinal_essence.mp he⟩
      · exact absurd (congrArg (fun p => p.1.sourceOverrideId) he) (Option.some_ne_none _).symm
    · intro o ho
      obtain ⟨b, hb, he⟩ := h (overrideFinal facts.toRules run.resolved o)
        (mem_applyEmployeeOverrides.mpr (Or.inr ⟨o, ho, rfl⟩))
      rcases mem_applyEmployeeOverrides.mp hb with ⟨r', _, _, rfl⟩ | ⟨o', ho', rfl⟩
      · exact absurd (congrArg (fun p => p.1.sourceOverrideId) he) (Option.some_ne_none _)
      · have hid : o.id = o'.id :=
          Option.some.inj (congrArg (fun p => p.1.sourceOverrideId) he)
        have hsame : o = o' := Table.key_inj (Table.mem_select.mp (mem_orderBy.mp ho)).1
          (Table.mem_select.mp (mem_orderBy.mp ho')).1 hid
        subst hsame
        exact overrideFinal_essence.mp he
  · intro h a ha
    rcases mem_applyEmployeeOverrides.mp ha with ⟨r, hr, hfree, rfl⟩ | ⟨o, ho, rfl⟩
    · obtain ⟨r', hr', he⟩ := h.free r hr hfree
      have hfree' : FreeField facts employee.id r'.assignmentFieldDefinitionId := by
        rw [← show r.assignmentFieldDefinitionId = r'.assignmentFieldDefinitionId from
          congrArg (fun x => x.assignmentFieldDefinitionId) he]
        exact hfree
      exact ⟨policyFinal r', mem_applyEmployeeOverrides.mpr (Or.inl ⟨r', hr', hfree', rfl⟩),
        policyFinal_essence.mpr he⟩
    · exact ⟨overrideFinal facts.toRules run'.resolved o,
        mem_applyEmployeeOverrides.mpr (Or.inr ⟨o, ho, rfl⟩),
        overrideFinal_essence.mpr (h.replaced o ho)⟩

end OrderedRun

/-! ## No choice left -/

/-- Both conditions show the same, dates of evaluation apart. -/
def SameEvidence (rules : Rules) (context : ConditionEvaluationContext)
    (x y : CompiledPolicyCondition) : Prop :=
  ∀ e f, evaluateCompiledCondition rules context x = .ok e →
    evaluateCompiledCondition rules context y = .ok f → e.undated = f.undated

/-- The rows leave no order to choose that an explanation would show. -/
structure OrderFree (facts : Facts) (employee : Employee) (day : Date) : Prop where
  conditions : ∀ c ∈ MatchedCandidates facts employee day,
    FreeField facts employee.id c.field.id → ∀ clause ∈ facts.compiledPolicyClauses,
      clause.policyVersionId = c.version.id →
        ClauseHolds facts.toRules ⟨facts.employees, employee, day⟩ clause →
          ∀ x ∈ clauseConditions facts.toRules clause, ∀ y ∈ clauseConditions facts.toRules clause,
            SameEvidence facts.toRules ⟨facts.employees, employee, day⟩ x y
  candidates : ∀ c ∈ MatchedCandidates facts employee day, ∀ d ∈ MatchedCandidates facts employee day,
    c.field = d.field → c.field.cardinality = .one → FreeField facts employee.id c.field.id →
      c.version = d.version → c.value = d.value
  replaced : ∀ c d, ManyWinner (MatchedCandidates facts employee day) c →
    ManyWinner (MatchedCandidates facts employee day) d → c.field = d.field →
      ¬FreeField facts employee.id c.field.id → c.version = d.version → c.value = d.value

section

variable {facts : Facts} {employee : Employee} {day : Date} {order order' : RowOrder facts.toRules}

/-- Where the conditions of a clause all show the same, their order does not show. -/
theorem evaluateClauseIn_undated {rules : Rules} {context : ConditionEvaluationContext}
    {order order' : RowOrder rules} {clause : CompiledPolicyClause}
    {evidence evidence' : ClauseMatchEvidence}
    (hsame : ∀ x ∈ clauseConditions rules clause, ∀ y ∈ clauseConditions rules clause,
      SameEvidence rules context x y)
    (h : evaluateClauseIn order context clause = .ok evidence)
    (h' : evaluateClauseIn order' context clause = .ok evidence') :
    evidence.undated = evidence'.undated := by
  obtain ⟨other, hother, hperm⟩ := evaluateClauseIn_perm order' h
  cases h'.symm.trans hother
  obtain ⟨hid, hconditions⟩ := evaluateClauseIn_eq_ok.mp h
  obtain ⟨hid', _⟩ := evaluateClauseIn_eq_ok.mp h'
  have hequal : ∀ e ∈ evidence.conditions, ∀ f ∈ evidence.conditions, e.undated = f.undated := by
    intro e he f hf
    obtain ⟨x, hx, hx'⟩ := mem_of_traverseAll hconditions he
    obtain ⟨y, hy, hy'⟩ := mem_of_traverseAll hconditions hf
    exact hsame x ((order.conditions_perm clause).mem_iff.mp hx) y
      ((order.conditions_perm clause).mem_iff.mp hy) e f hx' hy'
  -- a list of equal members stays the same in another order
  have hmap : evidence.conditions.map ConditionMatchEvidence.undated =
      evidence'.conditions.map ConditionMatchEvidence.undated := by
    refine (hperm.map _).eq_of_pairwise ?_
      (List.pairwise_of_forall (R := fun _ _ => True) fun _ _ => trivial)
      (List.pairwise_of_forall fun _ _ => trivial)
    intro a b ha hb _ _
    obtain ⟨e, he, rfl⟩ := List.mem_map.mp ha
    obtain ⟨f, hf, rfl⟩ := List.mem_map.mp hb
    exact hequal e he f (hperm.mem_iff.mpr hf)
  simp only [ClauseMatchEvidence.undated, hmap, hid, hid']

theorem matched_ext {c d : Candidate} (hc : c ∈ MatchedCandidates facts employee day)
    (hd : d ∈ MatchedCandidates facts employee day) (hversion : c.version.id = d.version.id)
    (hfield : c.field.id = d.field.id) (hvalue : c.value = d.value) : c = d := by
  have hv : c.version = d.version :=
    Table.key_inj (mem_effectiveRows.mp hc.1).1 (mem_effectiveRows.mp hd.1).1 hversion
  have hf : c.field = d.field := Table.key_inj hc.2.2.2.1 hd.2.2.2.1 hfield
  have hname : c.policyName = d.policyName := by rw [hc.2.2.1, hd.2.2.1, hv]
  cases c
  cases d
  simp_all

/-- Candidates that come before each other are of one field, version and priority. -/
theorem same_of_order {c d : Candidate} (h : candidateOrder c ≤ candidateOrder d)
    (h' : candidateOrder d ≤ candidateOrder c) :
    c.field.id = d.field.id ∧ c.version.id = d.version.id := by
  have he := le_antisymm h h'
  simp only [candidateOrder, EmbeddingLike.apply_eq_iff_eq, Prod.mk.injEq] at he
  exact ⟨he.1, he.2.2⟩

theorem order_of_precedes {c d : Candidate} (hfield : c.field.id = d.field.id) (h : Precedes c d) :
    candidateOrder c ≤ candidateOrder d := by
  refine Prod.Lex.le_iff.mpr (Or.inr ⟨hfield, Prod.Lex.le_iff.mpr ?_⟩)
  rcases h with h | ⟨hpriority, hid⟩
  · exact Or.inl (Int.neg_lt_neg h)
  · exact Or.inr ⟨congrArg Neg.neg hpriority.symm, hid⟩

/-- The candidate put in front is found first among those that the sort puts nowhere before it. -/
theorem find?_candidateFirst {c : Candidate}
    (run : OrderedMatches facts employee day (.candidateFirst _ c))
    (hc : c ∈ MatchedCandidates facts employee day) {p : Candidate → Bool} (hp : p c = true)
    (hmin : ∀ b ∈ MatchedCandidates facts employee day, p b = true →
      candidateOrder c ≤ candidateOrder b) : run.candidates.find? p = some c := by
  have hmem : ∀ b, b ∈ policyCandidates facts.toRules
      ((effectiveRows facts.toRules (some run.found.keys) day).map fun v => v.id) ↔
        b ∈ MatchedCandidates facts employee day := by
    intro b
    rw [← run.mem_candidates]
    exact (RowOrder.candidates_perm _ _).mem_iff.symm
  exact find?_orderBy_toFront ((hmem c).mpr hc) hp fun b hb hpb => hmin b ((hmem b).mp hb) hpb

/-- What an override replaces are the winners of its field. -/
theorem OrderedRun.replaced_eq (run : OrderedRun facts employee day order) (fieldId : ℕ) :
    run.replaced fieldId = (fieldWinners (ofField run.candidates fieldId)).map
      fun c => ⟨c.value, c.version.id, some c.policyName⟩ := by
  rw [OrderedRun.replaced, resolveField_winners run.agree
    (resolveField_of_resolved _ run.sorted run.resolved_eq), List.map_map]
  rfl

namespace OrderFree

theorem sameOrigins (h : OrderFree facts employee day)
    (run : OrderedMatches facts employee day order)
    (run' : OrderedMatches facts employee day order') {c : Candidate}
    (hc : c ∈ MatchedCandidates facts employee day)
    (hfree : FreeField facts employee.id c.field.id) :
    SameOrigins undatedOrigins undatedOrigins (some run.found) (some run'.found) c := by
  have hversion := hc.1
  have hrow := run.mem_versions.mpr ⟨hc.1, hc.2.1⟩
  have heff : run.effective = run'.effective :=
    Except.ok.inj (run.effective_eq.symm.trans run'.effective_eq)
  refine sameOrigins_of_clauses run.effective_eq run'.effective_eq hversion hversion
    (List.contains_iff_mem.mp (mem_effectiveRows.mp hrow).2.2.2) ?_
  refine clausesOf_alike run.clauses_eq (heff ▸ run'.clauses_eq) ?_
  intro clause hclause hid hholds evidence evidence' he he'
  exact evaluateClauseIn_undated (h.conditions c hc hfree clause hclause hid hholds) he he'

theorem listed_eq (h : OrderFree facts employee day)
    (run : OrderedMatches facts employee day order)
    (run' : OrderedMatches facts employee day order') {w : Candidate}
    (hw : w ∈ run.candidates)
    (hfree : w.field.cardinality = .one → FreeField facts employee.id w.field.id) :
    listed run.candidates w = listed run'.candidates w := by
  refine ((run.candidates_perm run').filter _).eq_of_pairwise ?_ (run.sorted.filter _)
    (run'.sorted.filter _)
  intro c d hc hd hcd hdc
  obtain ⟨hc, hcid, hcvalue⟩ := mem_listed.mp hc
  obtain ⟨hd, hdid, hdvalue⟩ := mem_listed.mp hd
  rw [run.mem_candidates] at hc
  rw [run'.mem_candidates] at hd
  obtain ⟨hfield, hversion⟩ := same_of_order hcd hdc
  have hcw : c.field = w.field :=
    Table.key_inj hc.2.2.2.1 (run.mem_candidates.mp hw).2.2.2.1 hcid
  refine matched_ext hc hd hversion hfield ?_
  cases hcardinality : w.field.cardinality with
  | one =>
    refine h.candidates c hc d hd (Table.key_inj hc.2.2.2.1 hd.2.2.2.1 hfield)
      (by rw [hcw, hcardinality]) (by rw [hcw]; exact hfree hcardinality) ?_
    exact Table.key_inj (mem_effectiveRows.mp hc.1).1 (mem_effectiveRows.mp hd.1).1 hversion
  | many => rw [hcvalue hcardinality, hdvalue hcardinality]

theorem free_covered (h : OrderFree facts employee day)
    (run : OrderedRun facts employee day order) (run' : OrderedRun facts employee day order')
    {r : ResolvedAssignment} (hr : r ∈ run.resolved)
    (hfree : FreeField facts employee.id r.assignmentFieldDefinitionId) :
    ∃ r' ∈ run'.resolved, r.mapOrigins undatedOrigins = r'.mapOrigins undatedOrigins := by
  obtain ⟨w, hw, rfl⟩ := (mem_resolveCandidates run.sorted run.agree run.resolved_eq).mp hr
  have hlisted := h.listed_eq run.toOrderedMatches run'.toOrderedMatches (mem_of_head? hw)
    fun _ => hfree
  rw [hlisted] at hw
  refine ⟨_, (mem_resolveCandidates run'.sorted run'.agree run'.resolved_eq).mpr ⟨w, hw, rfl⟩, ?_⟩
  have horigins : ∀ c ∈ listed run'.candidates w,
      SameOrigins undatedOrigins undatedOrigins (some run.found) (some run'.found) c := by
    intro c hc
    obtain ⟨hc, hcid, _⟩ := mem_listed.mp hc
    refine h.sameOrigins run.toOrderedMatches run'.toOrderedMatches (run'.mem_candidates.mp hc) ?_
    rw [hcid]
    exact hfree
  simp only [ResolvedAssignment.mapOrigins, resolvedItem, hlisted]
  rw [policyExplanation_mapOrigins (horigins w (List.mem_of_head? hw)) horigins]

/-- The winner in one order is the winner in the other. -/
theorem winner_kept (h : OrderFree facts employee day)
    (run : OrderedRun facts employee day order) (run' : OrderedRun facts employee day order')
    {w : Candidate} (hw : (listed run.candidates w).head? = some w) :
    (listed run'.candidates w).head? = some w := by
  cases hcardinality : w.field.cardinality with
  | many =>
    rw [← h.listed_eq run.toOrderedMatches run'.toOrderedMatches (mem_of_head? hw)
      (by simp [hcardinality])]
    exact hw
  | one =>
    have hmem : w ∈ listed run'.candidates w := mem_listed.mpr
      ⟨(run.candidates_perm run'.toOrderedMatches).mem_iff.mp (mem_of_head? hw), rfl, fun _ => rfl⟩
    obtain ⟨v, rest, hlist⟩ := List.exists_cons_of_ne_nil (List.ne_nil_of_mem hmem)
    have hv : v ∈ listed run'.candidates w := by
      rw [hlist]
      exact List.mem_cons_self
    obtain ⟨hvmem, hvid, _⟩ := mem_listed.mp hv
    have hsame : listed run'.candidates v = listed run'.candidates w :=
      listed_of_mem run'.agree (mem_listed.mp hmem).1 hv
    have hvhead : (listed run'.candidates v).head? = some v := by
      rw [hsame, hlist]
      rfl
    have hvw : v ∈ listed run.candidates w := mem_listed.mpr
      ⟨(run.candidates_perm run'.toOrderedMatches).mem_iff.mpr hvmem, hvid, by simp [hcardinality]⟩
    have hwv : w ∈ listed run'.candidates v := hsame ▸ hmem
    have hprecedes := listed_precedes run.sorted hw hvw
    have hprecedes' := listed_precedes run'.sorted hvhead hwv
    have hvalue : v.value = w.value := by
      by_contra hne
      have hlower := winner_uncontested run.sorted run.resolved_eq hw hcardinality hvw hne
      exact absurd hprecedes'.priority_le (not_le.mpr hlower)
    have heq : v = w := matched_ext (run'.mem_candidates.mp hvmem)
      (run.mem_candidates.mp (mem_of_head? hw)) (hprecedes'.antisymm_id hprecedes) hvid hvalue
    rw [hlist, heq]
    rfl

/-- An overridden field has the same winners in both orders. -/
theorem fieldWinners_eq (h : OrderFree facts employee day)
    (run : OrderedRun facts employee day order) (run' : OrderedRun facts employee day order')
    {fieldId : ℕ} (hover : ¬FreeField facts employee.id fieldId) :
    fieldWinners (ofField run.candidates fieldId) =
      fieldWinners (ofField run'.candidates fieldId) := by
  have hnodup : ∀ {order : RowOrder facts.toRules} (run : OrderedRun facts employee day order),
      (fieldWinners (ofField run.candidates fieldId)).Nodup :=
    fun run => (fieldWinners_sublist _).nodup (run.nodup.filter _)
  have hperm : (fieldWinners (ofField run.candidates fieldId)).Perm
      (fieldWinners (ofField run'.candidates fieldId)) := by
    refine (List.perm_ext_iff_of_nodup (hnodup run) (hnodup run')).mpr fun w => ?_
    rw [mem_fieldWinners run.agree, mem_fieldWinners run'.agree]
    exact and_congr_left fun _ => ⟨h.winner_kept run run', h.winner_kept run' run⟩
  refine hperm.eq_of_pairwise ?_ ((run.sorted.filter _).sublist (fieldWinners_sublist _))
    ((run'.sorted.filter _).sublist (fieldWinners_sublist _))
  intro a b ha hb hab hba
  obtain ⟨haw, haid⟩ := (mem_fieldWinners run.agree).mp ha
  obtain ⟨hbw, hbid⟩ := (mem_fieldWinners run.agree).mp (hperm.mem_iff.mpr hb)
  have hfield : a.field = b.field :=
    run.agree a (mem_of_head? haw) b (mem_of_head? hbw) (haid.trans hbid.symm)
  cases hcardinality : a.field.cardinality with
  | one =>
    rw [listed_one hcardinality, haid] at haw
    rw [listed_one (by rw [← hfield, hcardinality]), hbid] at hbw
    exact Option.some.inj (haw.symm.trans hbw)
  | many =>
    have hamany := manyWinner_of_head run.sorted haw hcardinality
    have hbmany := manyWinner_of_head run.sorted hbw (by rw [← hfield, hcardinality])
    rw [run.candidateSet_eq] at hamany hbmany
    have hversion := (same_of_order hab hba).2
    refine matched_ext hamany.2.1 hbmany.2.1 hversion (haid.trans hbid.symm) ?_
    refine h.replaced a b hamany hbmany hfield (by rw [haid]; exact hover) ?_
    exact Table.key_inj (mem_effectiveRows.mp hamany.2.1.1).1 (mem_effectiveRows.mp hbmany.2.1.1).1
      hversion

theorem coveredBy (h : OrderFree facts employee day)
    (run : OrderedRun facts employee day order) (run' : OrderedRun facts employee day order') :
    run.CoveredBy run' where
  free := fun _ hr hfree => h.free_covered run run' hr hfree
  replaced := by
    intro o ho
    have hover : ¬FreeField facts employee.id o.assignmentFieldDefinitionId :=
      fun hfree => hfree o ho rfl
    rw [run.replaced_eq, run'.replaced_eq, h.fieldWinners_eq run run' hover]

end OrderFree

/-! ## Choices that show -/

/-- Every candidate of a free field is listed in an explanation, and the other run has its like. -/
theorem OrderedRun.CoveredBy.explained {run : OrderedRun facts employee day order}
    {run' : OrderedRun facts employee day order'} (h : run.CoveredBy run') {c : Candidate}
    (hc : c ∈ run.candidates) (hfree : FreeField facts employee.id c.field.id) :
    ∃ w w', w ∈ run.candidates ∧ w.field = c.field ∧ listed run.candidates w = listed run.candidates c ∧
      w' ∈ run'.candidates ∧
      (resolvedItem (some run.found) run.candidates w).mapOrigins undatedOrigins =
        (resolvedItem (some run'.found) run'.candidates w').mapOrigins undatedOrigins := by
  have hmem : c ∈ listed run.candidates c := mem_listed.mpr ⟨hc, rfl, fun _ => rfl⟩
  obtain ⟨w, rest, hlist⟩ := List.exists_cons_of_ne_nil (List.ne_nil_of_mem hmem)
  have hwmem : w ∈ listed run.candidates c := by
    rw [hlist]
    exact List.mem_cons_self
  have hsame := listed_of_mem run.agree hc hwmem
  have hw : (listed run.candidates w).head? = some w := by
    rw [hsame, hlist]
    rfl
  have hfield : w.field = c.field :=
    run.agree w (mem_of_head? hw) c hc (mem_listed.mp hwmem).2.1
  obtain ⟨r', hr', he⟩ := h.free _
    ((mem_resolveCandidates run.sorted run.agree run.resolved_eq).mpr ⟨w, hw, rfl⟩)
    (show FreeField facts employee.id w.field.id by rw [hfield]; exact hfree)
  obtain ⟨w', hw', rfl⟩ := (mem_resolveCandidates run'.sorted run'.agree run'.resolved_eq).mp hr'
  exact ⟨w, w', mem_of_head? hw, hfield, hsame, mem_of_head? hw', he⟩

/-- The evidence for the policy of a candidate of a free field is the same in both runs. -/
theorem OrderedRun.CoveredBy.sameOrigins {run : OrderedRun facts employee day order}
    {run' : OrderedRun facts employee day order'} (h : run.CoveredBy run') {c : Candidate}
    (hc : c ∈ run.candidates) (hfree : FreeField facts employee.id c.field.id) :
    SameOrigins undatedOrigins undatedOrigins (some run.found) (some run'.found) c := by
  obtain ⟨w, w', _, _, hsame, _, he⟩ := h.explained hc hfree
  have hsummaries := congrArg (fun r => r.explanation.candidates) he
  have hsummary : (candidateSummary (some run.found) w c).mapOrigins undatedOrigins ∈
      ((listed run'.candidates w').map (candidateSummary (some run'.found) w')).map
        (CandidateSummary.mapOrigins undatedOrigins) := by
    rw [← show _ = ((listed run'.candidates w').map (candidateSummary (some run'.found) w')).map
      (CandidateSummary.mapOrigins undatedOrigins) from hsummaries]
    refine List.mem_map_of_mem (List.mem_map_of_mem ?_)
    rw [hsame]
    exact mem_listed.mpr ⟨hc, rfl, fun _ => rfl⟩
  rw [List.map_map] at hsummary
  obtain ⟨c', hc', hequal⟩ := List.mem_map.mp hsummary
  have hversion : c'.version.id = c.version.id := congrArg CandidateSummary.policyVersionId hequal
  have hv : c'.version = c.version := Table.key_inj
    (mem_effectiveRows.mp (run'.mem_candidates.mp (mem_listed.mp hc').1).1).1
    (mem_effectiveRows.mp (run.mem_candidates.mp hc).1).1 hversion
  have horigins : undatedOrigins (explanationOrigins (matchFor (some run'.found) c'.version.policyId))
      = undatedOrigins (explanationOrigins (matchFor (some run.found) c.version.policyId)) :=
    congrArg CandidateSummary.origins hequal
  rw [hv] at horigins
  exact horigins.symm

theorem clauses_of_sameOrigins {run : OrderedMatches facts employee day order}
    {run' : OrderedMatches facts employee day order'} {c : Candidate}
    (hc : c ∈ MatchedCandidates facts employee day)
    (h : SameOrigins undatedOrigins undatedOrigins (some run.found) (some run'.found) c)
    (hne : clausesOf run.clauses c.version.id ≠ []) (hne' : clausesOf run'.clauses c.version.id ≠ []) :
    (clausesOf run.clauses c.version.id).map ClauseMatchEvidence.undated =
      (clausesOf run'.clauses c.version.id).map ClauseMatchEvidence.undated := by
  have hfound : ∀ {order : RowOrder facts.toRules} (run : OrderedMatches facts employee day order),
      undatedOrigins (explanationOrigins (matchFor (some run.found) c.version.policyId)) =
        (clauseOrigins ((clausesOf run.clauses c.version.id).map ClauseMatchEvidence.undated)).map
            .origin ++
          undatedOrigins ((groupOrigins facts employee.id c.version.policyId).map .origin) := by
    intro order run
    have hrow := run.mem_versions.mpr ⟨hc.1, hc.2.1⟩
    rw [OrderedMatches.found, explanationOrigins_found run.effective_eq hc.1
      (List.contains_iff_mem.mp (mem_effectiveRows.mp hrow).2.2.2), List.map_append,
      undatedOrigins_append, undated_clauseOrigins]
  have hsame := (hfound run).symm.trans (Eq.trans h (hfound run'))
  rw [List.append_cancel_right_eq] at hsame
  rw [clauseOrigins, if_neg (by simpa using hne), clauseOrigins, if_neg (by simpa using hne')] at hsame
  simpa using hsame

/-- With the condition in front, the evidence for its clause starts with the evidence for it. -/
theorem evaluateClauseIn_conditionFirst {rules : Rules} {context : ConditionEvaluationContext}
    {clause : CompiledPolicyClause} {x : CompiledPolicyCondition} {evidence : ClauseMatchEvidence}
    (hx : x ∈ clauseConditions rules clause)
    (h : evaluateClauseIn (.conditionFirst rules x) context clause = .ok evidence) :
    ∃ e, evaluateCompiledCondition rules context x = .ok e ∧ evidence.conditions.head? = some e := by
  obtain ⟨_, hconditions⟩ := evaluateClauseIn_eq_ok.mp h
  rw [show (RowOrder.conditionFirst rules x).conditions clause =
    toFront x (clauseConditions rules clause) from rfl, toFront_of_mem hx] at hconditions
  obtain ⟨e, rest, he, _, hlist⟩ := traverseAll_cons_eq_ok.mp hconditions
  exact ⟨e, he, by rw [hlist]; rfl⟩

/-- Conditions that show differently are told apart by putting each of them in front. -/
theorem sameEvidence_of_covered {x y : CompiledPolicyCondition} {clause : CompiledPolicyClause}
    {run : OrderedRun facts employee day (.conditionFirst _ x)}
    {run' : OrderedRun facts employee day (.conditionFirst _ y)} (hcovered : run.CoveredBy run')
    {c : Candidate} (hc : c ∈ MatchedCandidates facts employee day)
    (hfree : FreeField facts employee.id c.field.id)
    (hclause : clause ∈ facts.compiledPolicyClauses) (hid : clause.policyVersionId = c.version.id)
    (hholds : ClauseHolds facts.toRules ⟨facts.employees, employee, day⟩ clause)
    (hx : x ∈ clauseConditions facts.toRules clause)
    (hy : y ∈ clauseConditions facts.toRules clause) :
    SameEvidence facts.toRules ⟨facts.employees, employee, day⟩ x y := by
  intro e f he hf
  obtain ⟨evidence, hevidence, heval⟩ := run.exists_evidence hc.1 hclause hid hholds
  obtain ⟨_, hother, _⟩ := run'.exists_evidence hc.1 hclause hid hholds
  have hsame := clauses_of_sameOrigins hc (hcovered.sameOrigins (run.mem_candidates.mpr hc) hfree)
    (List.ne_nil_of_mem hevidence) (List.ne_nil_of_mem hother)
  have hmem : evidence.undated ∈
      (clausesOf run'.clauses c.version.id).map ClauseMatchEvidence.undated := by
    rw [← hsame]
    exact List.mem_map_of_mem hevidence
  obtain ⟨evidence', hevidence', hundated⟩ := List.mem_map.mp hmem
  obtain ⟨_, clause', hclause', _, _, heval'⟩ := (mem_clausesOf run'.clauses_eq).mp hevidence'
  -- the same clause gave both
  have hids : evidence'.clauseId = evidence.clauseId :=
    congrArg (fun c => c.clauseId) hundated
  rw [(evaluateClauseIn_eq_ok.mp heval).1, (evaluateClauseIn_eq_ok.mp heval').1] at hids
  have hclauses : clause' = clause := Table.key_inj hclause' hclause hids
  subst hclauses
  obtain ⟨e', he', hhead⟩ := evaluateClauseIn_conditionFirst hx heval
  obtain ⟨f', hf', hhead'⟩ := evaluateClauseIn_conditionFirst hy heval'
  cases he.symm.trans he'
  cases hf.symm.trans hf'
  have hheads := congrArg (fun c => c.conditions.head?) hundated
  simp only [ClauseMatchEvidence.undated, List.head?_map, hhead, hhead'] at hheads
  exact (Option.some.inj hheads).symm

/-- Values of one version for a one-valued field are told apart by putting each of them in front. -/
theorem sameValue_of_covered {c d : Candidate}
    {run : OrderedRun facts employee day (.candidateFirst _ c)}
    {run' : OrderedRun facts employee day (.candidateFirst _ d)} (hcovered : run.CoveredBy run')
    (hc : c ∈ MatchedCandidates facts employee day) (hd : d ∈ MatchedCandidates facts employee day)
    (hfield : c.field = d.field) (hone : c.field.cardinality = .one)
    (hfree : FreeField facts employee.id c.field.id) (hversion : c.version = d.version) :
    c.value = d.value := by
  obtain ⟨w, w', _, hwfield, hsame, hw', he⟩ :=
    hcovered.explained (run.mem_candidates.mpr hc) hfree
  have hid : w.field.id = w'.field.id := congrArg (fun r => r.assignmentFieldDefinitionId) he
  have hwfield' : w'.field = c.field := by
    rw [← hwfield]
    refine (Table.key_inj ?_ (run'.mem_candidates.mp hw').2.2.2.1 hid).symm
    rw [hwfield]
    exact hc.2.2.2.1
  -- both explanations list the same values of the same versions
  have hlists : (ofField run.candidates c.field.id).map (fun x => (x.version.id, x.value)) =
      (ofField run'.candidates c.field.id).map fun x => (x.version.id, x.value) := by
    have hlisted' : listed run'.candidates w' = ofField run'.candidates c.field.id := by
      rw [listed_one (by rw [hwfield', hone]), hwfield']
    have hsummaries := congrArg (fun r => r.explanation.candidates.map
      fun s => (s.policyVersionId, s.value)) he
    simp only [ResolvedAssignment.mapOrigins, resolvedItem, policyExplanation,
      PolicyExplanation.mapOrigins, List.map_map] at hsummaries
    rw [hsame, listed_one hone, hlisted'] at hsummaries
    exact hsummaries
  have hfinds : ∀ {order : RowOrder facts.toRules} (run : OrderedRun facts employee day order) {x},
      run.candidates.find? (fun b => b.field.id = c.field.id && b.version.id = c.version.id) =
        some x → ((ofField run.candidates c.field.id).map fun x => (x.version.id, x.value)).find?
          (fun p => p.1 = c.version.id) = some (x.version.id, x.value) := by
    intro order run x hx
    rw [List.find?_map, ofField, List.find?_filter, Option.map_eq_some_iff]
    refine ⟨x, ?_, rfl⟩
    rw [← hx]
    congr 1
    funext b
    simp
  have hmin : ∀ {a}, a.field = c.field → a.version = c.version →
      ∀ b ∈ MatchedCandidates facts employee day,
        (decide (b.field.id = c.field.id) && decide (b.version.id = c.version.id)) = true →
          candidateOrder a ≤ candidateOrder b := by
    intro a haf hav b hb hpb
    obtain ⟨hbf, hbv⟩ : b.field.id = c.field.id ∧ b.version.id = c.version.id := by simpa using hpb
    have hv : b.version = c.version :=
      Table.key_inj (mem_effectiveRows.mp hb.1).1 (mem_effectiveRows.mp hc.1).1 hbv
    rw [candidateOrder, candidateOrder, haf, hav, hbf, hv]
  have hfirst := hfinds run (find?_candidateFirst run.toOrderedMatches hc (by simp) (hmin rfl rfl))
  have hfirst' := hfinds run' (find?_candidateFirst run'.toOrderedMatches hd
    (by simp [hfield, hversion]) (hmin hfield.symm hversion.symm))
  rw [hlists, hfirst'] at hfirst
  exact (Prod.mk.inj (Option.some.inj hfirst)).2.symm

theorem find?_fieldWinners {l : List Candidate} (hmany : ∀ c ∈ l, c.field.cardinality = .many)
    (q : String → Bool) : (fieldWinners l).find? (fun c => q c.value) = l.find? fun c => q c.value := by
  cases l with
  | nil => rfl
  | cons first rest =>
    rw [fieldWinners_many (hmany first List.mem_cons_self)]
    generalize first :: rest = l
    have hentries : ∀ p ∈ (uniqueCandidates l).entries, p.2.value = p.1 := by
      intro p hp
      obtain ⟨c, _, rfl⟩ := List.mem_map.mp ((Dict.firsts_sublist _).subset hp)
      rfl
    have hfirst := Dict.find?_firsts (l.map fun c : Candidate => (c.value, c)) q
    rw [List.find?_map] at hfirst
    have hvalues : (uniqueCandidates l).entries.find? (fun p => q p.2.value) =
        (uniqueCandidates l).entries.find? fun p => q p.1 :=
      List.find?_congr fun p hp => by rw [hentries p hp]
    rw [Dict.values, List.find?_map]
    refine (congrArg (Option.map Prod.snd) (hvalues.trans hfirst)).trans ?_
    rw [Option.map_map]
    exact congrFun Option.map_id _

/-- So are values of one version for a many-valued field that is overridden. -/
theorem sameWinner_of_covered {c d : Candidate}
    {run : OrderedRun facts employee day (.candidateFirst _ c)}
    {run' : OrderedRun facts employee day (.candidateFirst _ d)} (hcovered : run.CoveredBy run')
    (hc : ManyWinner (MatchedCandidates facts employee day) c)
    (hd : ManyWinner (MatchedCandidates facts employee day) d) (hfield : c.field = d.field)
    (hover : ¬FreeField facts employee.id c.field.id) (hversion : c.version = d.version) :
    c.value = d.value := by
  obtain ⟨o, ho, hoid⟩ : ∃ o ∈ activeOverrides facts employee.id,
      o.assignmentFieldDefinitionId = c.field.id := by
    simpa [FreeField] using hover
  have hlists : ((fieldWinners (ofField run.candidates c.field.id)).map fun x => x.value) =
      (fieldWinners (ofField run'.candidates c.field.id)).map fun x => x.value := by
    have hreplaced := congrArg (List.map ReplacedAssignment.value) (hcovered.replaced o ho)
    rw [run.replaced_eq, run'.replaced_eq, List.map_map, List.map_map, hoid] at hreplaced
    exact hreplaced
  have hfinds : ∀ {order : RowOrder facts.toRules} (run : OrderedRun facts employee day order) {x},
      run.candidates.find? (fun b => b.field.id = c.field.id && (b.value = c.value || b.value = d.value))
        = some x → ((fieldWinners (ofField run.candidates c.field.id)).map fun x => x.value).find?
          (fun v => v = c.value || v = d.value) = some x.value := by
    intro order run x hx
    rw [List.find?_map]
    refine Option.map_eq_some_iff.mpr ⟨x, ?_, rfl⟩
    have hmany : ∀ b ∈ ofField run.candidates c.field.id, b.field.cardinality = .many := by
      intro b hb
      obtain ⟨hb, hbid⟩ := mem_ofField.mp hb
      rw [Table.key_inj (run.mem_candidates.mp hb).2.2.2.1 hc.2.1.2.2.2.1 hbid, hc.1]
    refine (find?_fieldWinners hmany fun v => v = c.value || v = d.value).trans ?_
    rw [← hx, ofField, List.find?_filter]
    congr 1
    funext b
    simp
  have hmin : ∀ {a}, a.field = c.field → a.version = c.version →
      ∀ b ∈ MatchedCandidates facts employee day, (decide (b.field.id = c.field.id) &&
        (decide (b.value = c.value) || decide (b.value = d.value))) = true →
          candidateOrder a ≤ candidateOrder b := by
    intro a haf hav b hb hpb
    have hle : candidateOrder c ≤ candidateOrder b := by
      obtain ⟨hbf, hbv⟩ : b.field.id = c.field.id ∧ (b.value = c.value ∨ b.value = d.value) := by
        simpa using hpb
      rcases hbv with hbv | hbv
      · exact order_of_precedes hbf.symm (hc.2.2 b hb hbf hbv)
      · have hprecedes := order_of_precedes (by rw [hbf, hfield])
          (hd.2.2 b hb (by rw [hbf, hfield]) hbv)
        rwa [candidateOrder, ← hfield, ← hversion] at hprecedes
    rwa [candidateOrder, haf, hav]
  have hfirst := hfinds run (find?_candidateFirst run.toOrderedMatches hc.2.1 (by simp) (hmin rfl rfl))
  have hfirst' := hfinds run' (find?_candidateFirst run'.toOrderedMatches hd.2.1
    (by simp [hfield]) (hmin hfield.symm hversion.symm))
  rw [hlists, hfirst'] at hfirst
  exact (Option.some.inj hfirst).symm

end

/-! ## Independence of the order -/

section

variable {facts : Facts} {employee : Employee} {day : Date}

theorem resolvedKeys_run (hemployee : employee ∈ facts.employees) {order : RowOrder facts.toRules}
    (run : OrderedRun facts employee day order) :
    resolvedKeys facts order employee.id day = some run.keys := by
  rw [resolvedKeys, (resolveIn_eq_ok hemployee).mpr ⟨run, rfl⟩]
  rfl

/-- Whether a resolution raises does not depend on the order. -/
theorem resolvedKeys_none (hemployee : employee ∈ facts.employees) {order : RowOrder facts.toRules}
    (h : ¬(Evaluable facts.toRules employee day ∧ ¬Conflicted (MatchedCandidates facts employee day))) :
    resolvedKeys facts order employee.id day = none := by
  unfold resolvedKeys
  cases hresolve : resolveEmployeeAssignmentsIn facts order employee.id day with
  | error e => rfl
  | ok r =>
    obtain ⟨run, _⟩ := (resolveIn_eq_ok hemployee).mp hresolve
    exact absurd ((exists_run_iff hemployee).mp ⟨run⟩) h

theorem orderFree_of_keys (hemployee : employee ∈ facts.employees)
    (hsame : ∀ order order' : RowOrder facts.toRules,
      resolvedKeys facts order employee.id day = resolvedKeys facts order' employee.id day)
    (hruns : ∀ order : RowOrder facts.toRules, Nonempty (OrderedRun facts employee day order)) :
    OrderFree facts employee day := by
  have hcovered : ∀ {order order'} (run : OrderedRun facts employee day order)
      (run' : OrderedRun facts employee day order'), run.CoveredBy run' := by
    intro order order' run run'
    have hkeys := hsame order order'
    rw [resolvedKeys_run hemployee run, resolvedKeys_run hemployee run'] at hkeys
    exact OrderedRun.keys_subset_iff.mp (Option.some.inj hkeys).subset
  constructor
  · intro c hc hfree clause hclause hid hholds x hx y hy
    obtain ⟨run⟩ := hruns (.conditionFirst _ x)
    obtain ⟨run'⟩ := hruns (.conditionFirst _ y)
    exact sameEvidence_of_covered (hcovered run run') hc hfree hclause hid hholds hx hy
  · intro c hc d hd hfield hone hfree hversion
    obtain ⟨run⟩ := hruns (.candidateFirst _ c)
    obtain ⟨run'⟩ := hruns (.candidateFirst _ d)
    exact sameValue_of_covered (hcovered run run') hc hd hfield hone hfree hversion
  · intro c d hc hd hfield hover hversion
    obtain ⟨run⟩ := hruns (.candidateFirst _ c)
    obtain ⟨run'⟩ := hruns (.candidateFirst _ d)
    exact sameWinner_of_covered (hcovered run run') hc hd hfield hover hversion

theorem OrderFree.keys_eq (h : OrderFree facts employee day) {order order' : RowOrder facts.toRules}
    (run : OrderedRun facts employee day order) (run' : OrderedRun facts employee day order') :
    run.keys = run'.keys :=
  Finset.Subset.antisymm (OrderedRun.keys_subset_iff.mpr (h.coveredBy run run'))
    (OrderedRun.keys_subset_iff.mpr (h.coveredBy run' run))

end

/-- The keys of an employee are the same in all row orders exactly if no order shows. -/
theorem row_order_iff {facts : Facts} {employee : Employee} {day : Date}
    (hemployee : employee ∈ facts.employees) :
    (∀ order order' : RowOrder facts.toRules,
      resolvedKeys facts order employee.id day = resolvedKeys facts order' employee.id day) ↔
    (Evaluable facts.toRules employee day → ¬Conflicted (MatchedCandidates facts employee day) →
      OrderFree facts employee day) := by
  constructor
  · intro hsame hevaluable hnot
    exact orderFree_of_keys hemployee hsame fun order =>
      (exists_run_iff hemployee).mpr ⟨hevaluable, hnot⟩
  · intro hfree order order'
    by_cases h : Evaluable facts.toRules employee day ∧
        ¬Conflicted (MatchedCandidates facts employee day)
    · have hruns : ∀ o : RowOrder facts.toRules, Nonempty (OrderedRun facts employee day o) :=
        fun _ => (exists_run_iff hemployee).mpr h
      obtain ⟨run⟩ := hruns order
      obtain ⟨run'⟩ := hruns order'
      rw [resolvedKeys_run hemployee run, resolvedKeys_run hemployee run',
        (hfree h.1 h.2).keys_eq run run']
    · rw [resolvedKeys_none hemployee h, resolvedKeys_none hemployee h]

theorem row_order_iff_overlap :
    let ada : Employee := ⟨1, "Ada", "CA", "Engineering", "full_time", none, .on 2026 1 1, none⟩
    ¬(Evaluable overlapFacts.toRules ada (.on 2027 3 1) →
      ¬Conflicted (MatchedCandidates overlapFacts ada (.on 2027 3 1)) →
        OrderFree overlapFacts ada (.on 2027 3 1)) := by
  intro ada h
  have hada : ada ∈ overlapFacts.employees :=
    (Table.find?_eq_some.mp (show overlapFacts.employees.find? 1 = some ada by decide +kernel)).1
  have hsame := (row_order_iff hada).mpr h (.byId _)
    (.conditionFirst _ ⟨2, 1, 2, .eq, "Engineering"⟩)
  revert hsame
  decide +kernel

/-- Two conditions of a clause, in either order. -/
theorem row_order_two_conditions :
    ¬∀ (facts : Facts) (order order' : RowOrder facts.toRules) (employeeId : ℕ) (day : Date),
      resolvedKeys facts order employeeId day = resolvedKeys facts order' employeeId day := by
  intro h
  have hsame := h overlapFacts (.byId _)
    (.conditionFirst _ ⟨2, 1, 2, .eq, "Engineering"⟩) 1 (.on 2027 3 1)
  revert hsame
  decide +kernel

end Warp
