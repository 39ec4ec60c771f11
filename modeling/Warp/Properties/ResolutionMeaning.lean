import Warp.Properties.ConditionMatching
import Warp.Properties.ConflictResolution

/-!
# What a resolution says

The matcher and the engine walk over lists and dictionaries. Here the identities they arrive at are
described as a set: which versions match an employee, what their candidates are and when there is a
result at all. Two resolutions with the same answers to these questions have the same identities.
-/

namespace Warp

open Infra

/-! ## Matching -/

/-- The clause has a condition, and every condition of it is evaluated and holds. -/
def ClauseHolds (rules : Rules) (context : ConditionEvaluationContext)
    (clause : CompiledPolicyClause) : Prop :=
  clauseConditions rules clause ≠ [] ∧ ∀ c ∈ clauseConditions rules clause,
    ∃ evidence, evaluateCompiledCondition rules context c = .ok evidence ∧ evidence.result = true

/-- The employee is in a group with the policy. -/
def HasGroupPolicy (facts : Facts) (employeeId policyId : ℕ) : Prop :=
  ∃ r ∈ groupRows facts employeeId, r.2.2 = policyId

/-- A clause of the version holds, or a group of the employee has its policy. -/
def MatchesVersion (facts : Facts) (employee : Employee) (day : Date) (v : PolicyVersion) : Prop :=
  (∃ clause ∈ facts.compiledPolicyClauses, clause.policyVersionId = v.id ∧
    ClauseHolds facts.toRules ⟨facts.employees, employee, day⟩ clause) ∨
  HasGroupPolicy facts employee.id v.policyId

section

variable {rules : Rules} {facts : Facts} {context : ConditionEvaluationContext}
  {employee : Employee} {day : Date}

theorem evaluateClause_isMatch {clause : CompiledPolicyClause} {evidence : ClauseMatchEvidence}
    (h : evaluateClause rules context clause = .ok evidence) :
    evidence.isMatch = true ↔ ClauseHolds rules context clause := by
  unfold evaluateClause at h
  split at h
  · exact absurd h (by simp)
  · next conditions hall =>
    cases h
    have hempty : conditions = [] ↔ clauseConditions rules clause = [] := by
      rw [← List.length_eq_zero_iff, ← List.length_eq_zero_iff,
        (traverseAll_eq_ok.mp hall).length_eq]
    simp only [ClauseMatchEvidence.isMatch, Bool.and_eq_true, Bool.not_eq_true',
      List.isEmpty_eq_false_iff, List.all_eq_true, ClauseHolds, ne_eq, hempty]
    refine and_congr_right fun _ => ?_
    constructor
    · intro hholds c hc
      obtain ⟨evidence, he, heval⟩ := traverseAll_mem hall hc
      exact ⟨evidence, heval, hholds evidence he⟩
    · intro hholds evidence he
      obtain ⟨c, hc, heval⟩ := mem_of_traverseAll hall he
      obtain ⟨evidence', heval', hresult⟩ := hholds c hc
      rw [heval] at heval'
      cases heval'
      exact hresult

theorem mem_matchedClauses {ids : List ℕ} {clauses : List (ℕ × ClauseMatchEvidence)}
    (h : matchedClauses rules context ids = .ok clauses) {versionId : ℕ} :
    versionId ∈ clauses.map Prod.fst ↔ versionId ∈ ids ∧
      ∃ clause ∈ rules.compiledPolicyClauses, clause.policyVersionId = versionId ∧
        ClauseHolds rules context clause := by
  unfold matchedClauses at h
  split at h
  · exact absurd h (by simp)
  · next evaluated hall =>
    cases h
    constructor
    · intro hm
      obtain ⟨p, hp, rfl⟩ := List.mem_map.mp hm
      obtain ⟨hp, hmatch⟩ := List.mem_filter.mp hp
      obtain ⟨clause, hclause, heval⟩ := mem_of_traverseAll hall hp
      obtain ⟨evidence, he, rfl⟩ := exceptMap_eq_ok.mp heval
      obtain ⟨hclause, hid⟩ := mem_versionClauses.mp hclause
      exact ⟨hid, clause, hclause, rfl, (evaluateClause_isMatch he).mp hmatch⟩
    · rintro ⟨hid, clause, hclause, rfl, hholds⟩
      obtain ⟨p, hp, heval⟩ := traverseAll_mem hall (mem_versionClauses.mpr ⟨hclause, hid⟩)
      obtain ⟨evidence, he, rfl⟩ := exceptMap_eq_ok.mp heval
      refine List.mem_map.mpr ⟨_, List.mem_filter.mpr ⟨hp, ?_⟩, rfl⟩
      exact (evaluateClause_isMatch he).mpr hholds

/-- The matched policies are those of the effective versions that match. -/
theorem mem_keys_found (hemployee : employee ∈ facts.employees) {found : Dict ℕ PolicyMatch}
    (h : findPolicyMatches facts employee.id day = .ok found) {policyId : ℕ} :
    policyId ∈ found.keys ↔ ∃ v ∈ effectiveRows facts.toRules none day,
      v.policyId = policyId ∧ MatchesVersion facts employee day v := by
  obtain ⟨effective, clauses, heff, hclauses, rfl⟩ := (findPolicyMatches_eq_ok hemployee).mp h
  have hkey : ∀ p, p ∈ effective.keys ↔
      ∃ v ∈ effectiveRows facts.toRules none day, v.policyId = p := by
    intro p
    simp only [Dict.mem_keys, mem_getEffective heff]
  have hfound : policyId ∈ ((Dict.collect (matchOrigins facts employee.id effective
      clauses)).sortByKey.filterMap fun policyId origins => (effective.get? policyId).map
        fun version => policyMatch facts.toRules version origins).keys ↔
      policyId ∈ (matchOrigins facts employee.id effective clauses).map Prod.fst ∧
        policyId ∈ effective.keys := by
    rw [← Dict.mem_keys_collect, Dict.mem_keys, Dict.mem_keys, Dict.mem_keys]
    simp only [Dict.mem_filterMap, Dict.mem_sortByKey, Option.map_eq_some_iff, Dict.get?_eq_some]
    constructor
    · rintro ⟨_, origins, horigins, v, hv, rfl⟩
      exact ⟨⟨origins, horigins⟩, v, hv⟩
    · rintro ⟨⟨origins, horigins⟩, v, hv⟩
      exact ⟨_, origins, horigins, v, hv, rfl⟩
  have hmatched : ∀ v ∈ effectiveRows facts.toRules none day,
      (v.id ∈ clauses.map Prod.fst ↔ ∃ clause ∈ facts.compiledPolicyClauses,
        clause.policyVersionId = v.id ∧
          ClauseHolds facts.toRules ⟨facts.employees, employee, day⟩ clause) := by
    intro v hv
    rw [mem_matchedClauses hclauses, and_iff_right_iff_imp]
    intro _
    rw [values_getEffective heff]
    exact List.mem_map_of_mem hv
  rw [hfound, hkey]
  simp only [matchOrigins, List.map_append, List.mem_append, List.mem_map, List.mem_filterMap,
    List.mem_filter, Option.map_eq_some_iff, decide_eq_true_eq]
  constructor
  · rintro ⟨horigin | hgroup, v, hv, rfl⟩
    · obtain ⟨_, ⟨p, hp, policy, hpolicy, rfl⟩, hid⟩ := horigin
      have hid : policy = v.policyId := hid
      rw [hid, versionPolicy?_of_effective heff hv] at hpolicy
      refine ⟨v, hv, rfl, Or.inl ((hmatched v hv).mp ?_)⟩
      rw [← hpolicy]
      exact Dict.mem_keys_collect.mp (Dict.mem_keys.mpr ⟨p.2, hp⟩)
    · obtain ⟨_, ⟨r, ⟨hr, _⟩, rfl⟩, hid⟩ := hgroup
      exact ⟨v, hv, rfl, Or.inr ⟨r, hr, hid⟩⟩
  · rintro ⟨v, hv, rfl, hmatch | ⟨r, hr, hid⟩⟩
    · refine ⟨Or.inl ?_, v, hv, rfl⟩
      obtain ⟨l, hl⟩ := Dict.mem_keys.mp (Dict.mem_keys_collect.mpr ((hmatched v hv).mpr hmatch))
      exact ⟨_, ⟨(v.id, l), hl, v.policyId,
        (versionPolicy?_of_effective heff hv).mpr rfl, rfl⟩, rfl⟩
    · refine ⟨Or.inr ⟨_, ⟨r, ⟨hr, ?_⟩, rfl⟩, hid⟩, v, hv, rfl⟩
      exact (hkey _).mpr ⟨v, hv, hid.symm⟩

/-! ## The identities of a resolution -/

/-- The outputs of the effective versions that match the employee. -/
def MatchedCandidates (facts : Facts) (employee : Employee) (day : Date) : Set Candidate :=
  {c | c.version ∈ effectiveRows facts.toRules none day ∧ MatchesVersion facts employee day c.version ∧
    c.policyName = policyName facts.toRules c.version.policyId ∧
    c.field ∈ facts.assignmentFieldDefinitions ∧
    ⟨c.version.id, c.field.id, c.value⟩ ∈ facts.policyFieldValues}

/-- What a resolution for a date would give, read as a set; `none` if it raises. -/
def resolvedIdentities (facts : Facts) (employeeId : ℕ) (day : Date) :
    Option (Finset AssignmentIdentity) :=
  (resolveEmployeeAssignmentsForDate facts employeeId day).toOption.map fun r =>
    (r.assignments.map FinalAssignment.identity).toFinset

theorem resolvedIdentities_eq_some {employeeId : ℕ} {s : Finset AssignmentIdentity} :
    resolvedIdentities facts employeeId day = some s ↔
      ∃ r, resolveEmployeeAssignmentsForDate facts employeeId day = .ok r ∧
        (r.assignments.map FinalAssignment.identity).toFinset = s := by
  unfold resolvedIdentities
  cases resolveEmployeeAssignmentsForDate facts employeeId day with
  | error e => simp [Except.toOption]
  | ok r => simp [Except.toOption]

theorem effectiveCandidates_found (hemployee : employee ∈ facts.employees)
    {found : Dict ℕ PolicyMatch} (h : findPolicyMatches facts employee.id day = .ok found) :
    EffectiveCandidates facts.toRules found.keys day = MatchedCandidates facts employee day := by
  obtain ⟨effective, _, heff, _⟩ := (findPolicyMatches_eq_ok hemployee).mp h
  have hunique := getEffective_ok_iff.mp ⟨effective, heff⟩
  ext c
  simp only [EffectiveCandidates, MatchedCandidates, Set.mem_ofPred_eq, mem_keys_found hemployee h,
    mem_effectiveRows, amongPolicies, and_true]
  constructor
  · rintro ⟨hv, ⟨w, ⟨hw, hwactive, hweff⟩, hpolicy, hmatch⟩, hactive, heffective, hrest⟩
    have hsame : w = c.version := hunique w (mem_effectiveRows.mpr ⟨hw, hwactive, hweff, rfl⟩)
      c.version (mem_effectiveRows.mpr ⟨hv, hactive, heffective, rfl⟩) hpolicy
    rw [hsame] at hmatch
    exact ⟨⟨hv, hactive, heffective⟩, hmatch, hrest⟩
  · rintro ⟨⟨hv, hactive, heffective⟩, hmatch, hrest⟩
    exact ⟨hv, ⟨c.version, ⟨hv, hactive, heffective⟩, rfl, hmatch⟩, hactive, heffective, hrest⟩

/-- A resolution succeeds when the matcher can evaluate everything and nothing is in conflict, and
then it gives the reference of the matched candidates. -/
theorem resolvedIdentities_iff (hemployee : employee ∈ facts.employees)
    {s : Finset AssignmentIdentity} :
    resolvedIdentities facts employee.id day = some s ↔
      Evaluable facts.toRules employee day ∧ ¬ Conflicted (MatchedCandidates facts employee day) ∧
        ∀ i, i ∈ s ↔ ReferenceResult facts employee.id (MatchedCandidates facts employee day) i := by
  rw [resolvedIdentities_eq_some]
  constructor
  · rintro ⟨r, hr, rfl⟩
    cases hfound : findPolicyMatches facts employee.id day with
    | error e =>
      rw [resolveEmployeeAssignmentsForDate, hfound] at hr
      cases hr
    | ok found =>
      obtain ⟨resolved, hres, hassign⟩ := resolveEmployee_eq_ok hfound hr
      obtain ⟨effective, heff⟩ := getEffective_of_found hfound
      have hset := effectiveCandidates_found hemployee hfound
      refine ⟨(findPolicyMatches_ok_iff hemployee).mp ⟨found, hfound⟩, ?_, fun i => ?_⟩
      · rw [← hset, ← resolvePolicyAssignments_conflict_iff (some found) heff, hres]
        rintro ⟨conflict, hconflict⟩
        cases hconflict
      · rw [List.mem_toFinset, hassign, mem_dated, ← hset]
        exact applyEmployeeOverrides_reference (resolvePolicyAssignments_eq_ok heff hres).2
  · rintro ⟨hevaluable, hnot, hs⟩
    obtain ⟨found, hfound⟩ := (findPolicyMatches_ok_iff hemployee).mpr hevaluable
    obtain ⟨effective, heff⟩ := getEffective_of_found hfound
    rw [← effectiveCandidates_found hemployee hfound] at hnot hs
    obtain ⟨resolved, hres⟩ :=
      resolvePolicyAssignments_ok_of_not_conflicted (some found) heff hnot
    rw [resolveEmployee_eq hfound, hres]
    refine ⟨_, rfl, ?_⟩
    ext i
    rw [List.mem_toFinset, mem_dated, hs]
    exact applyEmployeeOverrides_reference (resolvePolicyAssignments_eq_ok heff hres).2

end

/-! ## Policy names do not count -/

def Candidate.unnamed (c : Candidate) : Candidate := { c with policyName := "" }

section

variable {S : Set Candidate}

theorem topCandidate_unnamed {c : Candidate} (hc : c ∈ S) :
    TopCandidate (Candidate.unnamed '' S) c.unnamed ↔ TopCandidate S c := by
  constructor
  · exact fun h => ⟨hc, fun x hx => h.top x.unnamed (Set.mem_image_of_mem _ hx)⟩
  · refine fun h => ⟨Set.mem_image_of_mem _ hc, ?_⟩
    rintro _ ⟨x, hx, rfl⟩
    exact h.top x hx

theorem conflicted_unnamed : Conflicted (Candidate.unnamed '' S) ↔ Conflicted S := by
  constructor
  · rintro ⟨_, _, hc, hd, hfield, hone, hvalue⟩
    obtain ⟨c, hcS, rfl⟩ := hc.mem
    obtain ⟨d, hdS, rfl⟩ := hd.mem
    exact ⟨c, d, (topCandidate_unnamed hcS).mp hc, (topCandidate_unnamed hdS).mp hd, hfield, hone,
      hvalue⟩
  · rintro ⟨c, d, hc, hd, hrest⟩
    exact ⟨c.unnamed, d.unnamed, (topCandidate_unnamed hc.mem).mpr hc,
      (topCandidate_unnamed hd.mem).mpr hd, hrest⟩

theorem oneWinner_unnamed {c : Candidate} (hc : c ∈ S) :
    OneWinner (Candidate.unnamed '' S) c.unnamed ↔ OneWinner S c := by
  refine and_congr Iff.rfl (and_congr (topCandidate_unnamed hc) ?_)
  constructor
  · exact fun h d hd => h d.unnamed ((topCandidate_unnamed hd.mem).mpr hd)
  · intro h x hx
    obtain ⟨d, hd, rfl⟩ := hx.mem
    exact h d ((topCandidate_unnamed hd).mp hx)

theorem manyWinner_unnamed {c : Candidate} (hc : c ∈ S) :
    ManyWinner (Candidate.unnamed '' S) c.unnamed ↔ ManyWinner S c := by
  have hmem : c.unnamed ∈ Candidate.unnamed '' S := Set.mem_image_of_mem _ hc
  refine and_congr Iff.rfl (and_congr (iff_of_true hmem hc) ?_)
  constructor
  · exact fun h d hd => h d.unnamed (Set.mem_image_of_mem _ hd)
  · rintro h _ ⟨d, hd, rfl⟩
    exact h d hd

theorem referenceAssignment_unnamed {fieldId : ℕ} {value : String} {source : ℕ} :
    ReferenceAssignment (Candidate.unnamed '' S) fieldId value source ↔
      ReferenceAssignment S fieldId value source := by
  constructor
  · rintro ⟨x, hwin, hrest⟩
    have hx : x ∈ Candidate.unnamed '' S := hwin.elim (fun h => h.2.1.mem) fun h => h.2.1
    obtain ⟨c, hc, rfl⟩ := hx
    exact ⟨c, hwin.imp (oneWinner_unnamed hc).mp (manyWinner_unnamed hc).mp, hrest⟩
  · rintro ⟨c, hwin, hrest⟩
    have hc : c ∈ S := hwin.elim (fun h => h.2.1.mem) fun h => h.2.1
    exact ⟨c.unnamed, hwin.imp (oneWinner_unnamed hc).mpr (manyWinner_unnamed hc).mpr, hrest⟩

theorem referenceResult_unnamed {facts : Facts} {employeeId : ℕ} {i : AssignmentIdentity} :
    ReferenceResult facts employeeId (Candidate.unnamed '' S) i ↔
      ReferenceResult facts employeeId S i := by
  constructor
  · rintro (⟨fieldId, value, source, hfree, hassigned⟩ | ⟨o, ho⟩)
    · exact .policy _ _ _ hfree (referenceAssignment_unnamed.mp hassigned)
    · exact .override o ho
  · rintro (⟨fieldId, value, source, hfree, hassigned⟩ | ⟨o, ho⟩)
    · exact .policy _ _ _ hfree (referenceAssignment_unnamed.mpr hassigned)
    · exact .override o ho

end

/-! ## Resolutions with one meaning -/

/-- Whether a condition row holds, without the evidence. -/
def conditionResult (rules : Rules) (context : ConditionEvaluationContext)
    (c : CompiledPolicyCondition) : Except ServiceError Bool :=
  (evaluateCompiledCondition rules context c).map fun evidence => evidence.result

/-- A condition row of an effective version. -/
def EffectiveCondition (rules : Rules) (day : Date) (c : CompiledPolicyCondition) : Prop :=
  ∃ v ∈ effectiveRows rules none day, ∃ clause ∈ rules.compiledPolicyClauses,
    clause.policyVersionId = v.id ∧ c ∈ clauseConditions rules clause

/-- Everything that the identities of an employee's resolution depend on is the same. -/
structure SameMeaning (facts facts' : Facts) (employee : Employee) (day day' : Date) : Prop where
  values : facts'.policyFieldValues = facts.policyFieldValues
  fields : facts'.assignmentFieldDefinitions = facts.assignmentFieldDefinitions
  clauses : facts'.compiledPolicyClauses = facts.compiledPolicyClauses
  conditions : facts'.compiledPolicyConditions = facts.compiledPolicyConditions
  effective : ∀ v, v ∈ effectiveRows facts'.toRules none day' ↔
    v ∈ effectiveRows facts.toRules none day
  results : ∀ c, EffectiveCondition facts.toRules day c →
    conditionResult facts'.toRules ⟨facts'.employees, employee, day'⟩ c =
      conditionResult facts.toRules ⟨facts.employees, employee, day⟩ c
  groups : ∀ policyId, HasGroupPolicy facts' employee.id policyId ↔
    HasGroupPolicy facts employee.id policyId
  overrides : activeOverrides facts' employee.id = activeOverrides facts employee.id

section

variable {facts facts' : Facts} {employee : Employee} {day day' : Date}

theorem conditionResult_eq_ok {rules : Rules} {context : ConditionEvaluationContext}
    {c : CompiledPolicyCondition} {b : Bool} : conditionResult rules context c = .ok b ↔
      ∃ evidence, evaluateCompiledCondition rules context c = .ok evidence ∧ evidence.result = b := by
  rw [conditionResult, exceptMap_eq_ok]

theorem conditionResult_ok_iff {rules : Rules} {context : ConditionEvaluationContext}
    {c : CompiledPolicyCondition} : (∃ b, conditionResult rules context c = .ok b) ↔
      WithinCalendar rules context.employee c := by
  rw [← evaluateCompiledCondition_ok_iff]
  simp only [conditionResult_eq_ok]
  constructor
  · rintro ⟨_, evidence, h, _⟩
    exact ⟨evidence, h⟩
  · rintro ⟨evidence, h⟩
    exact ⟨_, evidence, h, rfl⟩

/-- A condition keeps its result if what it resolves to stays, tenure apart, and the comparison of a
tenure too. -/
theorem conditionResult_congr {rules : Rules} {context context' : ConditionEvaluationContext}
    {c : CompiledPolicyCondition}
    (hresolve : ∀ resolver : Resolver, resolver ≠ .tenure →
      resolver.resolve context' = resolver.resolve context)
    (htenure : ∀ definition years,
      rules.conditionFieldDefinitions.find? c.conditionFieldDefinitionId = some definition →
      tenureYears? definition c.operator c.value = some years →
        compareTenure context'.employee.startDate context'.evaluationDate c.operator years =
          compareTenure context.employee.startDate context.evaluationDate c.operator years) :
    conditionResult rules context' c = conditionResult rules context c := by
  unfold conditionResult evaluateCompiledCondition
  cases hdef : rules.conditionFieldDefinitions.find? c.conditionFieldDefinitionId with
  | none => rfl
  | some definition =>
    have htenure := fun years => htenure definition years hdef
    dsimp only
    unfold evaluateConditionWithEvidence
    unfold tenureYears? at htenure
    cases hspec : supportedSpec? definition with
    | none => rfl
    | some spec =>
      rw [hspec] at htenure
      dsimp only at htenure ⊢
      by_cases hop : c.operator ∈ spec.allowedOperators
      · rw [if_neg (not_not.mpr hop), if_neg (not_not.mpr hop)]
        by_cases hresolver : spec.resolver = .tenure
        · -- the evidence shows the evaluation date, the result does not
          obtain ⟨hparser, href⟩ := tenure_parsed spec (supportedSpec?_mem hspec).1 hresolver
          rw [if_pos ⟨hresolver, hop⟩] at htenure
          rw [hparser, hresolver]
          simp only [Parser.parse, calendarDurationParser, Resolver.resolve]
          cases hyears : calendarDurationYears c.value with
          | error e => rfl
          | ok years =>
            rw [hyears] at htenure
            have hsame := htenure years rfl
            simp only [compareWithSpec, href, Bool.false_eq_true, if_false, hsame]
            cases compareTenure context.employee.startDate context.evaluationDate c.operator
              years <;> rfl
        · rw [hresolve spec.resolver hresolver]
      · rw [if_pos hop, if_pos hop]

theorem SameMeaning.clauseConditions (h : SameMeaning facts facts' employee day day')
    (clause : CompiledPolicyClause) :
    Warp.clauseConditions facts'.toRules clause = Warp.clauseConditions facts.toRules clause := by
  unfold Warp.clauseConditions
  rw [h.conditions]

theorem SameMeaning.evaluable (h : SameMeaning facts facts' employee day day') :
    Evaluable facts'.toRules employee day' ↔ Evaluable facts.toRules employee day := by
  have hcalendar : ∀ v ∈ effectiveRows facts.toRules none day,
      ∀ clause ∈ facts.compiledPolicyClauses, clause.policyVersionId = v.id →
        ∀ c ∈ facts.compiledPolicyConditions, c.clauseId = clause.id →
          (WithinCalendar facts'.toRules employee c ↔ WithinCalendar facts.toRules employee c) := by
    intro v hv clause hclause hid c hc hcid
    have hsame := h.results c ⟨v, hv, clause, hclause, hid, mem_clauseConditions.mpr ⟨hc, hcid⟩⟩
    rw [← @conditionResult_ok_iff facts'.toRules ⟨facts'.employees, employee, day'⟩,
      ← @conditionResult_ok_iff facts.toRules ⟨facts.employees, employee, day⟩, hsame]
  constructor
  · refine fun he => ⟨fun v hv w hw => he.unique v ((h.effective v).mpr hv) w
      ((h.effective w).mpr hw), fun v hv clause hclause hid c hc hcid => ?_⟩
    rw [← hcalendar v hv clause hclause hid c hc hcid]
    refine he.withinCalendar v ((h.effective v).mpr hv) clause ?_ hid c ?_ hcid
    · rw [h.clauses]
      exact hclause
    · rw [h.conditions]
      exact hc
  · refine fun he => ⟨fun v hv w hw => he.unique v ((h.effective v).mp hv) w
      ((h.effective w).mp hw), fun v hv clause hclause hid c hc hcid => ?_⟩
    rw [h.clauses] at hclause
    rw [h.conditions] at hc
    have hv := (h.effective v).mp hv
    rw [hcalendar v hv clause hclause hid c hc hcid]
    exact he.withinCalendar v hv clause hclause hid c hc hcid

theorem SameMeaning.matchesVersion (h : SameMeaning facts facts' employee day day')
    {v : PolicyVersion} (hv : v ∈ effectiveRows facts.toRules none day) :
    MatchesVersion facts' employee day' v ↔ MatchesVersion facts employee day v := by
  refine or_congr ?_ (h.groups v.policyId)
  rw [h.clauses]
  refine exists_congr fun clause => and_congr_right fun hclause => and_congr_right fun hid => ?_
  unfold ClauseHolds
  rw [h.clauseConditions]
  refine and_congr_right fun _ => forall₂_congr fun c hc => ?_
  rw [← conditionResult_eq_ok, ← conditionResult_eq_ok, h.results c ⟨v, hv, clause, hclause, hid, hc⟩]

theorem SameMeaning.candidates (h : SameMeaning facts facts' employee day day') :
    Candidate.unnamed '' MatchedCandidates facts' employee day' =
      Candidate.unnamed '' MatchedCandidates facts employee day := by
  ext x
  constructor
  · rintro ⟨c, ⟨hv, hmatch, _, hfield, hvalue⟩, rfl⟩
    have hv := (h.effective _).mp hv
    rw [h.fields] at hfield
    rw [h.values] at hvalue
    exact ⟨{ c with policyName := policyName facts.toRules c.version.policyId },
      ⟨hv, (h.matchesVersion hv).mp hmatch, rfl, hfield, hvalue⟩, rfl⟩
  · rintro ⟨c, ⟨hv, hmatch, _, hfield, hvalue⟩, rfl⟩
    rw [← h.fields] at hfield
    rw [← h.values] at hvalue
    exact ⟨{ c with policyName := policyName facts'.toRules c.version.policyId },
      ⟨(h.effective _).mpr hv, (h.matchesVersion hv).mpr hmatch, rfl, hfield, hvalue⟩, rfl⟩

theorem SameMeaning.referenceResult (h : SameMeaning facts facts' employee day day')
    {i : AssignmentIdentity} :
    ReferenceResult facts' employee.id (MatchedCandidates facts' employee day') i ↔
      ReferenceResult facts employee.id (MatchedCandidates facts employee day) i := by
  rw [← referenceResult_unnamed, h.candidates, ← @referenceResult_unnamed (MatchedCandidates facts employee day)]
  constructor
  · rintro (⟨fieldId, value, source, hfree, hassigned⟩ | ⟨o, ho⟩)
    · rw [h.overrides] at hfree
      exact .policy _ _ _ hfree hassigned
    · rw [h.overrides] at ho
      exact .override o ho
  · rintro (⟨fieldId, value, source, hfree, hassigned⟩ | ⟨o, ho⟩)
    · rw [← h.overrides] at hfree
      exact .policy _ _ _ hfree hassigned
    · rw [← h.overrides] at ho
      exact .override o ho

/-- Resolutions with one meaning have the same identities, and they raise together. -/
theorem SameMeaning.identities (h : SameMeaning facts facts' employee day day')
    (hemployee : employee ∈ facts.employees) (hemployee' : employee ∈ facts'.employees) :
    resolvedIdentities facts' employee.id day' = resolvedIdentities facts employee.id day := by
  refine Option.ext fun s => ?_
  rw [resolvedIdentities_iff hemployee', resolvedIdentities_iff hemployee, h.evaluable,
    ← conflicted_unnamed, h.candidates, conflicted_unnamed]
  refine and_congr_right fun _ => and_congr_right fun _ => forall_congr' fun i => ?_
  rw [h.referenceResult]

end

end Warp
