import Warp.Properties.StoredClauses
import Warp.Properties.Tenure

/-!
# Matching a compiled condition

The matcher evaluates the stored clauses of all effective versions at once. For one version, what it
reports is compared with the recursive evaluation of the version's condition tree.
-/

namespace Warp

open Infra

/-! ## Leaves, trees and reports -/

/-- `evaluate_condition` of a leaf is true. -/
def leafHolds (context : ConditionEvaluationContext) (c : CompiledCondition) : Bool :=
  match evaluateCondition context c.conditionFieldDefinition c.operator c.value with
  | .ok result => result
  | .error _ => false

/-- The matcher's result has these clauses as a condition match of the version. -/
def ReportedIn (found : Dict ℕ PolicyMatch) (version : PolicyVersion)
    (reported : List ClauseMatchEvidence) : Prop :=
  ∃ m, (version.policyId, m) ∈ found.entries ∧ m.policyVersionId = version.id ∧
    .conditionMatch reported ∈ m.origins

/-- The matcher returns, and its report of a version agrees with the meaning of the tree. -/
def ReportsMeaning (facts : Facts) (employee : Employee) (day : Date) (version : PolicyVersion)
    (tree : ConditionGroup) (clauses : List CompiledClause) : Prop :=
  ∃ found, findPolicyMatches facts employee.id day = .ok found ∧
    ((∃ reported, ReportedIn found version reported) ↔
      tree.holds (leafHolds ⟨facts.employees, employee, day⟩) = true) ∧
    ∀ reported, ReportedIn found version reported →
      reported.map (fun c => c.clauseId) =
        (((versionClauses facts.toRules [version.id]).zip clauses).filter
          (fun x => x.2.all (leafHolds ⟨facts.employees, employee, day⟩))).map (fun x => x.1.id) ∧
      ∀ c ∈ reported, ∀ k ∈ c.conditions, k.result = true

/-! ## Compiled clauses are not empty -/

theorem product_nonempty {left right : List CompiledClause} (hl : ∀ c ∈ right, c ≠ []) :
    ∀ c ∈ Dnf.product left right, c ≠ [] := by
  intro c hc
  obtain ⟨l, _, r, hr, rfl⟩ := Dnf.mem_product hc
  exact List.append_ne_nil_of_right_ne_nil l (hl r hr)

theorem foldl_product_nonempty : ∀ {operands : List (List CompiledClause)}
    {acc : List CompiledClause}, (∀ o ∈ operands, ∀ c ∈ o, c ≠ []) →
      (operands ≠ [] ∨ ∀ c ∈ acc, c ≠ []) → ∀ c ∈ operands.foldl Dnf.product acc, c ≠ []
  | [], _, _, h => h.resolve_left fun h => h rfl
  | o :: rest, acc, hops, _ => by
    rw [List.foldl_cons]
    refine foldl_product_nonempty (fun x hx => hops x (List.mem_cons_of_mem _ hx)) (Or.inr ?_)
    exact product_nonempty (hops o List.mem_cons_self)

theorem joinOperands_nonempty {op : LogicalOperator} {operands : List (List CompiledClause)}
    {clauses : List CompiledClause} (h : joinOperands op operands = .ok clauses)
    (hops : ∀ o ∈ operands, ∀ c ∈ o, c ≠ []) : ∀ c ∈ clauses, c ≠ [] := by
  unfold joinOperands at h
  split at h
  · exact absurd h (by simp)
  · next hne =>
    cases op with
    | or =>
      dsimp only at h
      split at h
      · exact absurd h (by simp)
      · cases h
        intro c hc
        obtain ⟨o, ho, hco⟩ := List.mem_flatten.mp hc
        exact hops o ho c hco
    | and =>
      rw [andClauses_eq h]
      exact foldl_product_nonempty hops (Or.inl fun he => hne (by rw [he]; rfl))

mutual

theorem compileGroup_nonempty : ∀ {g : ConditionGroup} {clauses : List CompiledClause},
    compileGroup g = .ok clauses → ∀ c ∈ clauses, c ≠ []
  | .mk op links children, clauses, h => by
    rw [compileGroup] at h
    split at h
    · exact absurd h (by simp)
    · next operands hc =>
      refine joinOperands_nonempty h fun o ho => ?_
      rcases List.mem_append.mp ho with ho | ho
      · obtain ⟨link, _, rfl⟩ := List.mem_map.mp ho
        simp
      · exact compileGroups_nonempty hc o ho

theorem compileGroups_nonempty : ∀ {gs : List ConditionGroup}
    {operands : List (List CompiledClause)}, compileGroups gs = .ok operands →
      ∀ o ∈ operands, ∀ c ∈ o, c ≠ []
  | [], _, h => by
    cases h
    simp
  | g :: rest, operands, h => by
    rw [compileGroups] at h
    split at h
    · exact absurd h (by simp)
    · next clauses hg =>
      split at h
      · exact absurd h (by simp)
      · next tail hr =>
        cases h
        intro o ho
        rcases List.mem_cons.mp ho with rfl | ho
        · exact compileGroup_nonempty hg
        · exact compileGroups_nonempty hr o ho

end

/-! ## Evaluating the stored clauses -/

section

variable {rules : Rules} {context : ConditionEvaluationContext}

/-- The evidence of a condition row is about the condition it holds. -/
theorem evaluateCompiledCondition_evidence {row : CompiledPolicyCondition} {c : CompiledCondition}
    {evidence : ConditionMatchEvidence} (hrow : HoldsCondition rules row c)
    (h : evaluateCompiledCondition rules context row = .ok evidence) :
    evidence.result = leafHolds context c := by
  obtain ⟨hdef, hop, hval⟩ := hrow
  unfold evaluateCompiledCondition at h
  rw [hdef] at h
  dsimp only at h
  rw [hop, hval] at h
  unfold leafHolds evaluateCondition
  cases he : evaluateConditionWithEvidence context c.conditionFieldDefinition c.operator c.value with
  | error e =>
    simp only [he] at h
    exact absurd h (by simp)
  | ok evaluation =>
    simp only [he] at h
    cases h
    rfl

theorem evaluateClause_evidence {row : CompiledPolicyClause} {clause : CompiledClause}
    {evidence : ClauseMatchEvidence} (hne : clause ≠ [])
    (hrow : List.Forall₂ (HoldsCondition rules) (clauseConditions rules row) clause)
    (h : evaluateClause rules context row = .ok evidence) :
    evidence.clauseId = row.id ∧ evidence.isMatch = clause.all (leafHolds context) := by
  unfold evaluateClause at h
  split at h
  · exact absurd h (by simp)
  · next conditions ht =>
    cases h
    refine ⟨rfl, ?_⟩
    have hall : List.Forall₂ (fun (k : ConditionMatchEvidence) c => k.result = leafHolds context c)
        conditions clause := by
      have hev := traverseAll_eq_ok.mp ht
      clear ht hne
      generalize clauseConditions rules row = rows at hrow hev
      induction hrow generalizing conditions with
      | nil =>
        cases hev
        exact List.Forall₂.nil
      | cons hc _ ih =>
        cases hev with
        | cons he hrest =>
          exact List.Forall₂.cons (evaluateCompiledCondition_evidence hc he) (ih _ hrest)
    have hlen : conditions.isEmpty = false := by
      cases hall with
      | nil => exact absurd rfl hne
      | cons => rfl
    rw [ClauseMatchEvidence.isMatch, hlen, Bool.not_false, Bool.true_and]
    clear hlen ht hrow hne
    induction hall with
    | nil => rfl
    | cons hk _ ih => rw [List.all_cons, List.all_cons, hk, ih]

/-- The matching evidence of a version is that of the clauses that hold. -/
theorem matched_of_stored {rows : List CompiledPolicyClause} {clauses : List CompiledClause}
    {evidence : List ClauseMatchEvidence} (hne : ∀ c ∈ clauses, c ≠ [])
    (hstored : List.Forall₂ (fun row clause =>
      List.Forall₂ (HoldsCondition rules) (clauseConditions rules row) clause) rows clauses)
    (h : traverseAll (evaluateClause rules context) rows = .ok evidence) :
    (evidence.filter ClauseMatchEvidence.isMatch).map (fun c => c.clauseId) =
      ((rows.zip clauses).filter (fun x => x.2.all (leafHolds context))).map (fun x => x.1.id) ∧
    (evidence.any ClauseMatchEvidence.isMatch = Dnf.holds (leafHolds context) clauses) := by
  have hev := traverseAll_eq_ok.mp h
  clear h
  induction hstored generalizing evidence with
  | nil =>
    cases hev
    exact ⟨rfl, rfl⟩
  | @cons row clause rows clauses hrow _ ih =>
    cases hev with
    | @cons _ e _ es he hrest =>
      obtain ⟨hids, hany⟩ := ih (fun c hc => hne c (List.mem_cons_of_mem _ hc)) hrest
      obtain ⟨hid, hmatch⟩ := evaluateClause_evidence (hne clause List.mem_cons_self) hrow he
      constructor
      · rw [List.zip_cons_cons, List.filter_cons, List.filter_cons, hmatch]
        dsimp only
        split
        · rw [List.map_cons, List.map_cons, hids, hid]
        · exact hids
      · rw [List.any_cons, hany, hmatch]
        rfl

end

/-! ## When the matcher returns -/

/-- No policy has two effective versions, and every condition of an effective version can be
evaluated for the employee. -/
structure Evaluable (rules : Rules) (employee : Employee) (day : Date) : Prop where
  unique : ∀ v ∈ effectiveRows rules none day, ∀ w ∈ effectiveRows rules none day,
    v.policyId = w.policyId → v = w
  withinCalendar : ∀ v ∈ effectiveRows rules none day, ∀ clause ∈ rules.compiledPolicyClauses,
    clause.policyVersionId = v.id → ∀ condition ∈ rules.compiledPolicyConditions,
      condition.clauseId = clause.id → WithinCalendar rules employee condition

section

variable {facts : Facts} {rules : Rules} {employee : Employee} {day : Date}

theorem mem_clauseConditions {clause : CompiledPolicyClause} {c : CompiledPolicyCondition} :
    c ∈ clauseConditions rules clause ↔
      c ∈ rules.compiledPolicyConditions ∧ c.clauseId = clause.id := by
  simp [clauseConditions]

theorem mem_versionClauses {ids : List ℕ} {clause : CompiledPolicyClause} :
    clause ∈ versionClauses rules ids ↔
      clause ∈ rules.compiledPolicyClauses ∧ clause.policyVersionId ∈ ids := by
  simp [versionClauses]

theorem evaluateClause_ok_iff {context : ConditionEvaluationContext}
    {clause : CompiledPolicyClause} :
    (∃ evidence, evaluateClause rules context clause = .ok evidence) ↔
      ∀ c ∈ clauseConditions rules clause, WithinCalendar rules context.employee c := by
  have hconditions : (∃ evidence, evaluateClause rules context clause = .ok evidence) ↔
      ∃ conditions, traverseAll (evaluateCompiledCondition rules context)
        (clauseConditions rules clause) = .ok conditions := by
    unfold evaluateClause
    cases traverseAll (evaluateCompiledCondition rules context) (clauseConditions rules clause) with
    | error e => simp
    | ok conditions => simp
  rw [hconditions, exists_traverseAll_eq_ok]
  exact forall₂_congr fun c _ => evaluateCompiledCondition_ok_iff

theorem matchedClauses_ok_iff {context : ConditionEvaluationContext} {ids : List ℕ} :
    (∃ clauses, matchedClauses rules context ids = .ok clauses) ↔
      ∀ clause ∈ versionClauses rules ids, ∀ c ∈ clauseConditions rules clause,
        WithinCalendar rules context.employee c := by
  have hevaluated : (∃ clauses, matchedClauses rules context ids = .ok clauses) ↔
      ∃ evaluated, traverseAll (fun clause => (evaluateClause rules context clause).map
        fun evidence => (clause.policyVersionId, evidence)) (versionClauses rules ids) =
          .ok evaluated := by
    unfold matchedClauses
    split
    · next h => simp [h]
    · next h => simp [h]
  rw [hevaluated, exists_traverseAll_eq_ok]
  refine forall₂_congr fun clause _ => ?_
  rw [← evaluateClause_ok_iff]
  cases evaluateClause rules context clause with
  | error e => simp [Except.map]
  | ok evidence => simp [Except.map]

theorem getEffective_ok_iff :
    (∃ effective, getEffectivePolicyVersions rules none day = .ok effective) ↔
      ∀ v ∈ effectiveRows rules none day, ∀ w ∈ effectiveRows rules none day,
        v.policyId = w.policyId → v = w := by
  rw [← policyIds_nodup_iff]
  constructor
  · rintro ⟨effective, h⟩
    have hn := effective.keys_nodup
    rw [Dict.keys, getEffective_entries h, List.map_map] at hn
    exact hn
  · intro hn
    rw [getEffectivePolicyVersions, if_neg (by simp)]
    refine ⟨⟨(effectiveRows rules none day).map (fun v => (v.policyId, v)), ?_⟩, ?_⟩
    · rw [List.map_map]
      exact hn
    · exact collectEffective_eq_ok.mpr ⟨by simpa using hn, by simp [Dict.empty]⟩

/-- What the matcher computes for an employee of the table. -/
theorem findPolicyMatches_eq_ok {found : Dict ℕ PolicyMatch} (hemployee : employee ∈ facts.employees) :
    findPolicyMatches facts employee.id day = .ok found ↔
      ∃ effective clauses,
        getEffectivePolicyVersions facts.toRules none day = .ok effective ∧
        matchedClauses facts.toRules ⟨facts.employees, employee, day⟩
          (effective.values.map (fun v => v.id)) = .ok clauses ∧
        found = (Dict.collect (matchOrigins facts employee.id effective clauses)).sortByKey.filterMap
          (fun policyId origins =>
            (effective.get? policyId).map fun version => policyMatch facts.toRules version origins)
        := by
  have hfind : facts.employees.find? employee.id = some employee := Table.find?_key hemployee
  unfold findPolicyMatches
  rw [hfind]
  dsimp only
  constructor
  · intro h
    split at h
    · exact absurd h (by simp)
    · next effective heff =>
      split at h
      · exact absurd h (by simp)
      · next clauses hclauses =>
        cases h
        exact ⟨effective, clauses, heff, hclauses, rfl⟩
  · rintro ⟨effective, clauses, heff, hclauses, rfl⟩
    rw [heff]
    dsimp only
    rw [hclauses]

theorem findPolicyMatches_ok_iff (hemployee : employee ∈ facts.employees) :
    (∃ found, findPolicyMatches facts employee.id day = .ok found) ↔
      Evaluable facts.toRules employee day := by
  have hin : ∀ {effective : Dict ℕ PolicyVersion},
      getEffectivePolicyVersions facts.toRules none day = .ok effective →
      ((∃ clauses, matchedClauses facts.toRules ⟨facts.employees, employee, day⟩
        (effective.values.map (fun v => v.id)) = .ok clauses) ↔
        ∀ v ∈ effectiveRows facts.toRules none day, ∀ clause ∈ facts.compiledPolicyClauses,
          clause.policyVersionId = v.id → ∀ c ∈ facts.compiledPolicyConditions,
            c.clauseId = clause.id → WithinCalendar facts.toRules employee c) := by
    intro effective heff
    rw [matchedClauses_ok_iff, values_getEffective heff]
    simp only [mem_versionClauses, mem_clauseConditions, List.mem_map, and_imp,
      forall_exists_index]
    constructor
    · exact fun h v hv clause hc hid c hk hkid => h clause hc v hv hid.symm c hk hkid
    · exact fun h clause hc v hv hid c hk hkid => h v hv clause hc hid.symm c hk hkid
  constructor
  · rintro ⟨found, h⟩
    obtain ⟨effective, clauses, heff, hclauses, _⟩ := (findPolicyMatches_eq_ok hemployee).mp h
    exact ⟨getEffective_ok_iff.mp ⟨effective, heff⟩, (hin heff).mp ⟨clauses, hclauses⟩⟩
  · rintro ⟨hunique, hcalendar⟩
    obtain ⟨effective, heff⟩ := getEffective_ok_iff.mpr hunique
    obtain ⟨clauses, hclauses⟩ := (hin heff).mpr hcalendar
    exact ⟨_, (findPolicyMatches_eq_ok hemployee).mpr ⟨effective, clauses, heff, hclauses, rfl⟩⟩

end

/-! ## What the matcher reports of a version -/

section

variable {facts : Facts} {employee : Employee} {day : Date} {version : PolicyVersion}
  {effective : Dict ℕ PolicyVersion} {clauses : List (ℕ × ClauseMatchEvidence)}

theorem versionPolicy?_of_effective
    (heff : getEffectivePolicyVersions facts.toRules none day = .ok effective)
    (hversion : version ∈ effectiveRows facts.toRules none day) {versionId : ℕ} :
    versionPolicy? effective.values versionId = some version.policyId ↔ versionId = version.id := by
  have hunique := getEffective_ok_iff.mp ⟨effective, heff⟩
  rw [versionPolicy?, values_getEffective heff, Option.map_eq_some_iff]
  constructor
  · rintro ⟨w, hw, hpolicy⟩
    have hid : w.id = versionId := by simpa using List.find?_some hw
    rw [← hid, hunique w (List.mem_of_find?_eq_some hw) version hversion hpolicy]
  · rintro rfl
    cases hf : (effectiveRows facts.toRules none day).find? (fun v => v.id = version.id) with
    | none => exact absurd (decide_eq_true rfl) (List.find?_eq_none.mp hf version hversion)
    | some w =>
      have hid : w.id = version.id := by simpa using List.find?_some hf
      have hw : w = version := Table.key_inj
        (mem_effectiveRows.mp (List.mem_of_find?_eq_some hf)).1
        (mem_effectiveRows.mp hversion).1 hid
      exact ⟨w, rfl, by rw [hw]⟩

/-- The condition match of a version holds its matched clauses, and there is one if there are any. -/
theorem reportedIn_iff (heff : getEffectivePolicyVersions facts.toRules none day = .ok effective)
    (hversion : version ∈ effectiveRows facts.toRules none day)
    {reported : List ClauseMatchEvidence} {employeeId : ℕ} :
    ReportedIn ((Dict.collect (matchOrigins facts employeeId effective
        clauses)).sortByKey.filterMap fun policyId origins => (effective.get? policyId).map
          fun version => policyMatch facts.toRules version origins) version reported ↔
      reported ≠ [] ∧
        reported = (clauses.filter (fun p => p.1 = version.id)).map Prod.snd := by
  have hget : effective.get? version.policyId = some version :=
    Dict.get?_eq_some.mpr ((mem_getEffective heff).mpr ⟨hversion, rfl⟩)
  have horigins : ∀ policyId, (policyId, PolicyMatchOrigin.conditionMatch reported) ∈
      matchOrigins facts employeeId effective clauses ↔
        ∃ versionId, versionPolicy? effective.values versionId = some policyId ∧
          versionId ∈ clauses.map Prod.fst ∧
          reported = (clauses.filter (fun p => p.1 = versionId)).map Prod.snd := by
    intro policyId
    simp only [matchOrigins, List.mem_append, List.mem_filterMap, List.mem_map,
      Option.map_eq_some_iff, Prod.mk.injEq, PolicyMatchOrigin.conditionMatch.injEq, reduceCtorEq,
      and_false, exists_false, or_false, Prod.exists]
    constructor
    · rintro ⟨versionId, l, hcollect, policyId', hp, rfl, rfl⟩
      obtain ⟨hmem, hl⟩ := Dict.mem_collect.mp hcollect
      exact ⟨versionId, hp, by simpa using hmem, hl⟩
    · rintro ⟨versionId, hp, hmem, hl⟩
      exact ⟨versionId, reported, Dict.mem_collect.mpr ⟨by simpa using hmem, hl⟩, policyId, hp,
        rfl, rfl⟩
  have hreported : ReportedIn ((Dict.collect (matchOrigins facts employeeId effective
      clauses)).sortByKey.filterMap fun policyId origins => (effective.get? policyId).map
        fun version => policyMatch facts.toRules version origins) version reported ↔
      (version.policyId, PolicyMatchOrigin.conditionMatch reported) ∈
        matchOrigins facts employeeId effective clauses := by
    unfold ReportedIn
    simp only [Dict.mem_filterMap, Dict.mem_sortByKey, Dict.mem_collect, hget, Option.map_some,
      Option.some.injEq]
    constructor
    · rintro ⟨m, ⟨origins, ⟨_, rfl⟩, rfl⟩, _, hmem⟩
      obtain ⟨p, hp, hp2⟩ := List.mem_map.mp hmem
      obtain ⟨hp1, hkey⟩ := List.mem_filter.mp hp
      rw [← hp2, ← of_decide_eq_true hkey]
      exact hp1
    · intro hmem
      refine ⟨_, ⟨_, ⟨List.mem_map.mpr ⟨_, hmem, rfl⟩, rfl⟩, rfl⟩, rfl, ?_⟩
      exact List.mem_map.mpr ⟨_, List.mem_filter.mpr ⟨hmem, by simp⟩, rfl⟩
  rw [hreported, horigins]
  simp only [versionPolicy?_of_effective heff hversion, exists_eq_left, ne_eq, List.mem_map,
    Prod.exists, exists_and_right, exists_eq_right]
  constructor
  · rintro ⟨⟨evidence, hmem⟩, rfl⟩
    refine ⟨?_, rfl⟩
    intro hnil
    rw [List.map_eq_nil_iff, List.filter_eq_nil_iff] at hnil
    exact hnil _ hmem (by simp)
  · rintro ⟨hne, rfl⟩
    rw [List.map_eq_nil_iff, List.filter_eq_nil_iff] at hne
    push Not at hne
    obtain ⟨⟨versionId, evidence⟩, hmem, hid⟩ := hne
    rw [← of_decide_eq_true hid]
    exact ⟨⟨evidence, hmem⟩, rfl⟩

/-- Among the clauses of several versions, those of one version are evaluated as if alone. -/
theorem matchedClauses_of_version {rules : Rules} {context : ConditionEvaluationContext}
    {ids : List ℕ} (h : matchedClauses rules context ids = .ok clauses) {versionId : ℕ}
    (hid : versionId ∈ ids) :
    ∃ evidence, traverseAll (evaluateClause rules context) (versionClauses rules [versionId]) =
        .ok evidence ∧
      (clauses.filter (fun p => p.1 = versionId)).map Prod.snd =
        evidence.filter ClauseMatchEvidence.isMatch := by
  have hrows : (versionClauses rules ids).filter (fun c => c.policyVersionId = versionId) =
      versionClauses rules [versionId] := by
    unfold versionClauses
    rw [← orderBy_filter]
    congr 1
    rw [Table.select, Table.select, List.filter_filter]
    refine List.filter_congr fun c _ => ?_
    by_cases hc : c.policyVersionId = versionId <;> simp [hc, hid]
  unfold matchedClauses at h
  split at h
  · exact absurd h (by simp)
  · next evaluated ht =>
    cases h
    have hone := traverseAll_filter (p := fun c => decide (c.policyVersionId = versionId))
      (q := fun p => decide (p.1 = versionId)) ht fun a _ b hb => by
        obtain ⟨evidence, _, rfl⟩ := exceptMap_eq_ok.mp hb
        rfl
    rw [hrows] at hone
    refine ⟨(evaluated.filter fun p => p.1 = versionId).map Prod.snd, ?_, ?_⟩
    · refine traverseAll_eq_ok.mpr (List.forall₂_map_right_iff.mpr ?_)
      refine (traverseAll_eq_ok.mp hone).imp fun row p hp => ?_
      obtain ⟨evidence, he, rfl⟩ := exceptMap_eq_ok.mp hp
      exact he
    · rw [List.filter_map, List.filter_filter, List.filter_filter]
      refine congrArg (List.map Prod.snd) (List.filter_congr fun p _ => ?_)
      exact Bool.and_comm _ _

/-- The matcher reports the meaning of a stored tree exactly when it can evaluate every condition
of every effective version, of other policies as well. -/
theorem find_policy_matches_meaning {tree : ConditionGroup} {compiled : List CompiledClause}
    (hemployee : employee ∈ facts.employees)
    (hversion : version ∈ effectiveRows facts.toRules none day)
    (htree : compileGroup tree = .ok compiled)
    (hstored : StoredClauses facts.toRules version.id compiled) :
    ReportsMeaning facts employee day version tree compiled ↔
      Evaluable facts.toRules employee day := by
  constructor
  · rintro ⟨found, hfound, _⟩
    exact (findPolicyMatches_ok_iff hemployee).mp ⟨found, hfound⟩
  · intro heval
    obtain ⟨found, hfound⟩ := (findPolicyMatches_ok_iff hemployee).mpr heval
    obtain ⟨effective, clauses, heff, hclauses, hentries⟩ :=
      (findPolicyMatches_eq_ok hemployee).mp hfound
    have hid : version.id ∈ effective.values.map (fun v => v.id) := by
      rw [values_getEffective heff]
      exact List.mem_map_of_mem hversion
    obtain ⟨evidence, hevidence, hmatched⟩ := matchedClauses_of_version hclauses hid
    obtain ⟨hids, hany⟩ := matched_of_stored (compileGroup_nonempty htree) hstored hevidence
    -- the version reports the clauses that match, if there are any
    have hreport : ∀ reported, ReportedIn found version reported ↔
        reported ≠ [] ∧ reported = evidence.filter ClauseMatchEvidence.isMatch := by
      intro reported
      rw [hentries, ← hmatched]
      exact reportedIn_iff heff hversion
    refine ⟨found, hfound, ?_, ?_⟩
    · rw [← compileGroup_holds htree, ← hany, List.any_eq_true]
      constructor
      · rintro ⟨reported, h⟩
        obtain ⟨hne, rfl⟩ := (hreport reported).mp h
        obtain ⟨c, hc⟩ := List.exists_mem_of_ne_nil _ hne
        exact ⟨c, List.mem_filter.mp hc⟩
      · rintro ⟨c, hc⟩
        have hmem := List.mem_filter.mpr hc
        exact ⟨_, (hreport _).mpr ⟨List.ne_nil_of_mem hmem, rfl⟩⟩
    · intro reported h
      obtain ⟨_, rfl⟩ := (hreport reported).mp h
      refine ⟨hids, fun c hc k hk => ?_⟩
      have hmatch := (List.mem_filter.mp hc).2
      exact List.all_eq_true.mp (Bool.and_eq_true_iff.mp hmatch).2 k hk

end

/-! ## A second policy that cannot be evaluated -/

def departmentField : ConditionFieldDefinition :=
  ⟨1, "department", .static, "string", some "employee_attribute_department_v1", some "employees",
    some "department", true⟩

def ada : Employee := ⟨1, "Ada", "CA", "Engineering", "full_time", none, (.on 2026 1 1), none⟩

def engineersVersion : PolicyVersion := ⟨1, 1, 1, 10, (.on 2026 1 1), none, none⟩

def engineersTree : ConditionGroup := .mk .and [⟨departmentField, .eq, "Engineering"⟩] []

/-- From 2030 on, another policy asks for 7973 years, which Ada reaches in the year 9999. -/
def anniversaryFacts : Facts where
  assignmentFieldDefinitions := .empty
  conditionFieldDefinitions := .ofRows
    [departmentField, ⟨2, "tenure", .derived, "calendar_duration", some "employee_tenure_v1",
      none, none, true⟩]
  conditionFieldDependencies := .empty
  policies := .ofRows [⟨1, "Engineers", .active, none⟩, ⟨2, "Anniversary", .active, none⟩]
  policyVersions := .ofRows
    [engineersVersion, ⟨2, 2, 1, 10, (.on 2030 1 1), none, none⟩]
  policyFieldValues := .empty
  compiledPolicyClauses := .ofRows [⟨1, 1⟩, ⟨2, 2⟩]
  compiledPolicyConditions := .ofRows
    [⟨1, 1, 1, .eq, "Engineering"⟩, ⟨2, 2, 2, .ge, "P7973Y"⟩]
  employees := .ofRows [ada]
  groups := .empty
  employeeGroupMemberships := .empty
  groupPolicies := .empty
  employeeOverrides := .empty

theorem engineersTree_stored : StoredClauses anniversaryFacts.toRules engineersVersion.id
    [[⟨departmentField, .eq, "Engineering"⟩]] := by
  have hclauses : versionClauses anniversaryFacts.toRules [engineersVersion.id] = [⟨1, 1⟩] := by
    decide +kernel
  have hconditions : clauseConditions anniversaryFacts.toRules ⟨1, 1⟩ =
      [⟨1, 1, 1, .eq, "Engineering"⟩] := by decide +kernel
  have hfield : anniversaryFacts.conditionFieldDefinitions.find? 1 = some departmentField := by
    decide +kernel
  rw [StoredClauses, hclauses]
  refine List.Forall₂.cons ?_ List.Forall₂.nil
  rw [hconditions]
  exact List.Forall₂.cons ⟨hfield, rfl, rfl⟩ List.Forall₂.nil

theorem find_policy_matches_meaning_engineers :
    ReportsMeaning anniversaryFacts ada (.on 2026 1 1) engineersVersion engineersTree
      [[⟨departmentField, .eq, "Engineering"⟩]] := by
  have hreturns : (findPolicyMatches anniversaryFacts ada.id
      (.on 2026 1 1)).toOption.isSome = true := by
    decide +kernel
  have hada : ada ∈ anniversaryFacts.employees := by
    rw [Table.mem_def]
    decide +kernel
  refine (find_policy_matches_meaning hada (by decide +kernel) rfl engineersTree_stored).mpr
    ((findPolicyMatches_ok_iff hada).mp ?_)
  cases h : findPolicyMatches anniversaryFacts ada.id (.on 2026 1 1) with
  | ok found => exact ⟨found, rfl⟩
  | error e =>
    rw [h] at hreturns
    exact absurd hreturns (by simp [Except.toOption])

/-- The value is in normalized form and its transition date is a date, yet the matcher raises in
2030 for an employee of the other policy. -/
theorem find_policy_matches_raises :
    normalizeCondition "tenure" .ge "P7973Y" = .ok "P7973Y" ∧
    (tenureTransitionDates ada.startDate .ge "P7973Y").toOption.isSome = true ∧
    ada ∈ anniversaryFacts.employees.rows ∧
    engineersVersion ∈ effectiveRows anniversaryFacts.toRules none (.on 2030 1 1) ∧
    compileGroup engineersTree = .ok [[⟨departmentField, .eq, "Engineering"⟩]] ∧
    StoredClauses anniversaryFacts.toRules engineersVersion.id
      [[⟨departmentField, .eq, "Engineering"⟩]] ∧
    engineersTree.holds (leafHolds ⟨anniversaryFacts.employees, ada, (.on 2030 1 1)⟩)
      = true ∧
    ¬ ReportsMeaning anniversaryFacts ada (.on 2030 1 1) engineersVersion engineersTree
      [[⟨departmentField, .eq, "Engineering"⟩]] := by
  refine ⟨by decide +kernel, by decide +kernel, by decide +kernel, by decide +kernel, rfl,
    engineersTree_stored, by decide +kernel, ?_⟩
  rintro ⟨found, h, _⟩
  have hraises : (findPolicyMatches anniversaryFacts ada.id
      (.on 2030 1 1)).toOption.isNone = true := by
    decide +kernel
  rw [h] at hraises
  exact absurd hraises (by simp [Except.toOption])

end Warp
