import Warp.Properties.AssignmentKeys
import Warp.Properties.ResolutionMeaning

/-!
# What a resolution takes from the evidence

The engine picks its winners without a look at the evidence, which it only copies into the
explanations. So whatever is done to the lists of origins may as well be done afterwards.
-/

namespace Warp

open Infra

/-! ## Origins in the explanations -/

def ResolvedAssignment.mapOrigins (f : OriginsMap) (r : ResolvedAssignment) : ResolvedAssignment :=
  { r with explanation := r.explanation.mapOrigins f }

def FinalAssignment.mapOrigins (f : OriginsMap) (a : FinalAssignment) : FinalAssignment :=
  { a with explanation := { a.explanation with reason := a.explanation.reason.mapOrigins f } }

/-- What `f` makes of the evidence for the candidate's policy is what `g` makes of the other. -/
def SameOrigins (f g : OriginsMap) (m m' : PolicyMatches) (c : Candidate) : Prop :=
  f (explanationOrigins (matchFor m c.version.policyId)) =
    g (explanationOrigins (matchFor m' c.version.policyId))

section

variable {f g : OriginsMap} {m m' : PolicyMatches}

theorem candidateSummary_mapOrigins {winner c : Candidate} (h : SameOrigins f g m m' c) :
    (candidateSummary m winner c).mapOrigins f = (candidateSummary m' winner c).mapOrigins g := by
  unfold CandidateSummary.mapOrigins candidateSummary
  rw [show f (explanationOrigins (matchFor m c.version.policyId)) = _ from h]

theorem policyExplanation_mapOrigins {field : AssignmentFieldDefinition} {winner : Candidate}
    {candidates : List Candidate} (hwinner : SameOrigins f g m m' winner)
    (h : ∀ c ∈ candidates, SameOrigins f g m m' c) :
    (policyExplanation field winner candidates m).mapOrigins f =
      (policyExplanation field winner candidates m').mapOrigins g := by
  have hcandidates : (candidates.map (candidateSummary m winner)).map (CandidateSummary.mapOrigins f)
      = (candidates.map (candidateSummary m' winner)).map (CandidateSummary.mapOrigins g) := by
    rw [List.map_map, List.map_map]
    exact List.map_congr_left fun c hc => candidateSummary_mapOrigins (h c hc)
  unfold PolicyExplanation.mapOrigins
  simp only [policyExplanation, hcandidates]
  rw [show f (explanationOrigins (matchFor m winner.version.policyId)) = _ from hwinner]

theorem resolveOne_mapOrigins {field : AssignmentFieldDefinition} {first : Candidate}
    {rest : List Candidate} (h : ∀ c ∈ first :: rest, SameOrigins f g m m' c) :
    (resolveOne field first rest m).map (ResolvedAssignment.mapOrigins f) =
      (resolveOne field first rest m').map (ResolvedAssignment.mapOrigins g) := by
  unfold resolveOne
  split
  · rfl
  · refine congrArg Except.ok ?_
    simp only [ResolvedAssignment.mapOrigins]
    rw [policyExplanation_mapOrigins (h first List.mem_cons_self) h]

theorem uniqueCandidates_mem {candidates : List Candidate} {c : Candidate}
    (h : c ∈ (uniqueCandidates candidates).values) : c ∈ candidates :=
  List.mem_of_find?_eq_some (mem_uniqueCandidates.mp h)

theorem resolveMany_mapOrigins {field : AssignmentFieldDefinition} {candidates : List Candidate}
    (h : ∀ c ∈ candidates, SameOrigins f g m m' c) :
    (resolveMany field candidates m).map (ResolvedAssignment.mapOrigins f) =
      (resolveMany field candidates m').map (ResolvedAssignment.mapOrigins g) := by
  unfold resolveMany
  rw [List.map_map, List.map_map]
  refine List.map_congr_left fun c hc => ?_
  simp only [Function.comp_apply, ResolvedAssignment.mapOrigins]
  rw [policyExplanation_mapOrigins (h c (uniqueCandidates_mem hc)) fun d hd =>
    h d (List.mem_of_mem_filter hd)]

theorem resolveField_one {first : Candidate} {rest : List Candidate}
    (h : first.field.cardinality = .one) : resolveField m (first :: rest) =
      (resolveOne first.field first rest m).map fun r => [r] := by
  rw [resolveField, h]

theorem resolveField_many {first : Candidate} {rest : List Candidate}
    (h : first.field.cardinality = .many) : resolveField m (first :: rest) =
      .ok (resolveMany first.field (first :: rest) m) := by
  rw [resolveField, h]

theorem resolveField_mapOrigins {candidates : List Candidate}
    (h : ∀ c ∈ candidates, SameOrigins f g m m' c) :
    (resolveField m candidates).map (List.map (ResolvedAssignment.mapOrigins f)) =
      (resolveField m' candidates).map (List.map (ResolvedAssignment.mapOrigins g)) := by
  cases candidates with
  | nil => rfl
  | cons first rest =>
    cases hcardinality : first.field.cardinality with
    | one =>
      have hsingle : ∀ (h : OriginsMap) (x : Except ServiceError ResolvedAssignment),
          (x.map fun r => [r]).map (List.map (ResolvedAssignment.mapOrigins h)) =
            (x.map (ResolvedAssignment.mapOrigins h)).map fun r => [r] := by
        intro h x
        cases x <;> rfl
      rw [resolveField_one hcardinality, resolveField_one hcardinality, hsingle, hsingle,
        resolveOne_mapOrigins h]
    | many =>
      rw [resolveField_many hcardinality, resolveField_many hcardinality]
      exact congrArg Except.ok (resolveMany_mapOrigins h)

/-- Which values win, and what is said of them, depends on the origins in the explanations only. -/
theorem resolveCandidates_mapOrigins {candidates : List Candidate}
    (h : ∀ c ∈ candidates, SameOrigins f g m m' c) :
    (resolveCandidates m candidates).map (List.map (ResolvedAssignment.mapOrigins f)) =
      (resolveCandidates m' candidates).map (List.map (ResolvedAssignment.mapOrigins g)) := by
  have hmap : ∀ (h : OriginsMap) (m : PolicyMatches),
      (resolveCandidates m candidates).map (List.map (ResolvedAssignment.mapOrigins h)) =
        (traverseAll (fun group => (resolveField m group.2).map
          (List.map (ResolvedAssignment.mapOrigins h)))
            (groupBy (fun c : Candidate => c.field.id) candidates)).map List.flatten := by
    intro h m
    rw [resolveCandidates, traverseAll_map_result]
    cases traverseAll (fun group => resolveField m group.2)
        (groupBy (fun c : Candidate => c.field.id) candidates) with
    | error e => rfl
    | ok parts => exact congrArg Except.ok List.map_flatten
  rw [hmap, hmap]
  refine congrArg (Except.map List.flatten) (traverseAll_congr fun group hgroup => ?_)
  refine resolveField_mapOrigins fun c hc => h c ?_
  rw [← groupBy_flatMap (fun c : Candidate => c.field.id) candidates]
  exact List.mem_flatMap.mpr ⟨group, hgroup, hc⟩

theorem mapOrigins_id : ResolvedAssignment.mapOrigins id = id := by
  funext r
  have hid : CandidateSummary.mapOrigins id = id := rfl
  simp [ResolvedAssignment.mapOrigins, PolicyExplanation.mapOrigins, hid]

/-- Every resolved assignment is explained by candidates of its field. -/
theorem resolveField_explained {candidates : List Candidate} {resolved : List ResolvedAssignment}
    (h : resolveField m candidates = .ok resolved) {r : ResolvedAssignment} (hr : r ∈ resolved) :
    ∃ field winner explained, winner ∈ candidates ∧
      r.explanation = policyExplanation field winner explained m := by
  cases candidates with
  | nil =>
    cases h
    exact absurd hr List.not_mem_nil
  | cons first rest =>
    cases hcardinality : first.field.cardinality with
    | one =>
      rw [resolveField_one hcardinality] at h
      obtain ⟨one, hone, rfl⟩ := exceptMap_eq_ok.mp h
      rw [List.mem_singleton.mp hr]
      unfold resolveOne at hone
      split at hone
      · exact absurd hone (by simp)
      · cases hone
        exact ⟨_, first, _, List.mem_cons_self, rfl⟩
    | many =>
      rw [resolveField_many hcardinality] at h
      cases h
      obtain ⟨c, hc, rfl⟩ := List.mem_map.mp hr
      exact ⟨_, c, _, uniqueCandidates_mem hc, rfl⟩

theorem resolveCandidates_explained {candidates : List Candidate}
    {resolved : List ResolvedAssignment} (h : resolveCandidates m candidates = .ok resolved)
    {r : ResolvedAssignment} (hr : r ∈ resolved) :
    ∃ field winner explained, winner ∈ candidates ∧
      r.explanation = policyExplanation field winner explained m := by
  unfold resolveCandidates at h
  split at h
  · exact absurd h (by simp)
  · next parts hparts =>
    cases h
    obtain ⟨part, hpart, hr⟩ := List.mem_flatten.mp hr
    obtain ⟨group, hgroup, hfield⟩ := mem_of_traverseAll hparts hpart
    obtain ⟨field, winner, explained, hwinner, he⟩ := resolveField_explained hfield hr
    refine ⟨field, winner, explained, ?_, he⟩
    rw [← groupBy_flatMap (fun c : Candidate => c.field.id) candidates]
    exact List.mem_flatMap.mpr ⟨group, hgroup, hwinner⟩

/-! ## Overrides -/

theorem overrideFinal_mapOrigins {rules : Rules} {resolved : List ResolvedAssignment}
    {o : EmployeeOverride} : overrideFinal rules (resolved.map (ResolvedAssignment.mapOrigins f)) o =
      (overrideFinal rules resolved o).mapOrigins f := by
  simp only [overrideFinal, FinalAssignment.mapOrigins, ExplanationReason.mapOrigins,
    List.filter_map, List.map_map]
  rfl

/-- An override tells what it replaces without the evidence for it. -/
theorem applyEmployeeOverrides_mapOrigins {rules : Rules} {resolved : List ResolvedAssignment}
    {overrides : List EmployeeOverride} :
    applyEmployeeOverrides rules (resolved.map (ResolvedAssignment.mapOrigins f)) overrides =
      (applyEmployeeOverrides rules resolved overrides).map (FinalAssignment.mapOrigins f) := by
  have hkey : ∀ l : List FinalAssignment,
      orderBy (fun item => toLex (item.assignmentFieldDefinitionId, item.value))
        (l.map (FinalAssignment.mapOrigins f)) =
      (orderBy (fun item => toLex (item.assignmentFieldDefinitionId, item.value)) l).map
        (FinalAssignment.mapOrigins f) := fun l => orderBy_map _ _ l
  unfold applyEmployeeOverrides
  dsimp only
  rw [← hkey, List.map_append, List.filter_map, List.map_map, List.map_map, List.map_map]
  refine congrArg _ (congrArg₂ _ rfl ?_)
  exact List.map_congr_left fun o _ => overrideFinal_mapOrigins

end

/-! ## The evidence for a policy -/

def clauseOrigins (clauses : List ClauseMatchEvidence) : List PolicyMatchOrigin :=
  if clauses = [] then [] else [.conditionMatch clauses]

/-- The groups through which the employee has the policy. -/
def groupOrigins (facts : Facts) (employeeId policyId : ℕ) : List PolicyMatchOrigin :=
  ((groupRows facts employeeId).filter (fun r => r.2.2 = policyId)).map fun r =>
    .group r.1 r.2.1

/-- The matched clauses of one version. -/
def clausesOf (clauses : List (ℕ × ClauseMatchEvidence)) (versionId : ℕ) :
    List ClauseMatchEvidence :=
  (clauses.filter (fun p => p.1 = versionId)).map Prod.snd

/-- What the matcher makes of the effective versions and the matched clauses. -/
def foundMatches (facts : Facts) (employeeId : ℕ) (effective : Dict ℕ PolicyVersion)
    (clauses : List (ℕ × ClauseMatchEvidence)) : Dict ℕ PolicyMatch :=
  (Dict.collect (matchOrigins facts employeeId effective clauses)).sortByKey.filterMap
    fun policyId origins =>
      (effective.get? policyId).map fun version => policyMatch facts.toRules version origins

section

variable {facts : Facts} {employeeId : ℕ} {day : Date} {version : PolicyVersion}
  {effective : Dict ℕ PolicyVersion} {clauses : List (ℕ × ClauseMatchEvidence)}

theorem collect_clauses (versionId : ℕ) :
    ((Dict.collect clauses).entries.filter (fun p => p.1 = versionId)).map
      (fun p => PolicyMatchOrigin.conditionMatch p.2) =
        clauseOrigins (clausesOf clauses versionId) := by
  rw [Dict.filter_key, clauseOrigins]
  cases hget : (Dict.collect clauses).get? versionId with
  | none =>
    have hnone : clausesOf clauses versionId = [] := by
      refine List.map_eq_nil_iff.mpr (List.filter_eq_nil_iff.mpr fun p hp hid => ?_)
      refine Dict.get?_eq_none.mp hget (Dict.mem_keys_collect.mpr ?_)
      exact List.mem_map.mpr ⟨p, hp, of_decide_eq_true hid⟩
    rw [if_pos hnone]
    rfl
  | some l =>
    obtain ⟨hkey, rfl⟩ := Dict.mem_collect.mp (Dict.get?_eq_some.mp hget)
    obtain ⟨p, hp, hid⟩ := List.mem_map.mp hkey
    have hsome : clausesOf clauses versionId ≠ [] :=
      List.ne_nil_of_mem (List.mem_map_of_mem (List.mem_filter.mpr ⟨hp, decide_eq_true hid⟩))
    rw [if_neg hsome]
    rfl

/-- The origins of an effective version's policy: its matched clauses, then the groups. -/
theorem matchOrigins_of_version
    (heff : getEffectivePolicyVersions facts.toRules none day = .ok effective)
    (hversion : version ∈ effectiveRows facts.toRules none day) :
    ((matchOrigins facts employeeId effective clauses).filter
        (fun p => p.1 = version.policyId)).map Prod.snd =
      clauseOrigins (clausesOf clauses version.id) ++
        groupOrigins facts employeeId version.policyId := by
  have hkey : version.policyId ∈ effective.keys :=
    Dict.mem_keys.mpr ⟨version, (mem_getEffective heff).mpr ⟨hversion, rfl⟩⟩
  have hclauses : ((((Dict.collect clauses).entries.filterMap fun p =>
      (versionPolicy? effective.values p.1).map fun policyId =>
        (policyId, PolicyMatchOrigin.conditionMatch p.2)).filter
          (fun p => p.1 = version.policyId)).map Prod.snd) =
      ((Dict.collect clauses).entries.filter (fun p => p.1 = version.id)).map
        (fun p => PolicyMatchOrigin.conditionMatch p.2) := by
    induction (Dict.collect clauses).entries with
    | nil => rfl
    | cons p rest ih =>
      have hiff := @versionPolicy?_of_effective _ _ _ _ heff hversion p.1
      by_cases hid : p.1 = version.id
      · rw [List.filterMap_cons, hiff.mpr hid, List.filter_cons_of_pos (by simpa using hid),
          List.map_cons, ← ih]
        exact congrArg (List.map Prod.snd) (List.filter_cons_of_pos (by simp))
      · rw [List.filter_cons_of_neg (by simpa using hid), ← ih, List.filterMap_cons]
        cases hpolicy : versionPolicy? effective.values p.1 with
        | none => rfl
        | some policyId =>
          have hne : policyId ≠ version.policyId := by
            rintro rfl
            exact hid (hiff.mp hpolicy)
          exact congrArg _ (List.filter_cons_of_neg (by simpa using hne))
  have hgroups : ((((groupRows facts employeeId).filter (fun r => r.2.2 ∈ effective.keys)).map
      fun r => (r.2.2, PolicyMatchOrigin.group r.1 r.2.1)).filter
        (fun p => p.1 = version.policyId)).map Prod.snd =
      groupOrigins facts employeeId version.policyId := by
    rw [List.filter_map, List.map_map, List.filter_filter, groupOrigins]
    refine congrArg _ (List.filter_congr fun r _ => ?_)
    by_cases hr : r.2.2 = version.policyId <;> simp [hr, hkey]
  rw [matchOrigins, List.filter_append, List.map_append, hclauses, hgroups, collect_clauses]

theorem foundMatches_entry {policyId : ℕ} {m : PolicyMatch} :
    (policyId, m) ∈ (foundMatches facts employeeId effective clauses).entries ↔
      ∃ v, (policyId, v) ∈ effective.entries ∧
        policyId ∈ (matchOrigins facts employeeId effective clauses).map Prod.fst ∧
        m = policyMatch facts.toRules v
          (((matchOrigins facts employeeId effective clauses).filter
            (fun p => p.1 = policyId)).map Prod.snd) := by
  simp only [foundMatches, Dict.mem_filterMap, Dict.mem_sortByKey, Dict.mem_collect,
    Option.map_eq_some_iff, Dict.get?_eq_some]
  constructor
  · rintro ⟨origins, ⟨hkey, rfl⟩, v, hv, rfl⟩
    exact ⟨v, hv, hkey, rfl⟩
  · rintro ⟨v, hv, hkey, rfl⟩
    exact ⟨_, ⟨hkey, rfl⟩, v, hv, rfl⟩

/-- An effective version is matched when there is evidence for it. -/
theorem mem_keys_foundMatches
    (heff : getEffectivePolicyVersions facts.toRules none day = .ok effective)
    (hversion : version ∈ effectiveRows facts.toRules none day) :
    version.policyId ∈ (foundMatches facts employeeId effective clauses).keys ↔
      clauseOrigins (clausesOf clauses version.id) ++
        groupOrigins facts employeeId version.policyId ≠ [] := by
  rw [← matchOrigins_of_version heff hversion, Dict.mem_keys]
  simp only [foundMatches_entry, ne_eq, List.map_eq_nil_iff, List.filter_eq_nil_iff]
  constructor
  · rintro ⟨m, v, hv, hkey, rfl⟩ hnone
    obtain ⟨p, hp, hid⟩ := List.mem_map.mp hkey
    exact hnone p hp (decide_eq_true hid)
  · intro hsome
    push Not at hsome
    obtain ⟨p, hp, hid⟩ := hsome
    exact ⟨_, version, (mem_getEffective heff).mpr ⟨hversion, rfl⟩,
      List.mem_map.mpr ⟨p, hp, of_decide_eq_true hid⟩, rfl⟩

/-- The origins that an explanation gives for a matched version. -/
theorem explanationOrigins_found
    (heff : getEffectivePolicyVersions facts.toRules none day = .ok effective)
    (hversion : version ∈ effectiveRows facts.toRules none day)
    (hkey : version.policyId ∈ (foundMatches facts employeeId effective clauses).keys) :
    explanationOrigins (matchFor (some (foundMatches facts employeeId effective clauses))
        version.policyId) =
      (clauseOrigins (clausesOf clauses version.id) ++
        groupOrigins facts employeeId version.policyId).map .origin := by
  obtain ⟨m, hm⟩ := Dict.mem_keys.mp hkey
  have hget : matchFor (some (foundMatches facts employeeId effective clauses)) version.policyId =
      some m := Dict.get?_eq_some.mpr hm
  obtain ⟨v, _, _, rfl⟩ := foundMatches_entry.mp hm
  rw [hget, ← matchOrigins_of_version heff hversion]
  rfl

/-- The effective versions among the matched policies are those with evidence. -/
theorem mem_effectiveRows_found
    (heff : getEffectivePolicyVersions facts.toRules none day = .ok effective) :
    version ∈ effectiveRows facts.toRules
        (some (foundMatches facts employeeId effective clauses).keys) day ↔
      version ∈ effectiveRows facts.toRules none day ∧
        clauseOrigins (clausesOf clauses version.id) ++
          groupOrigins facts employeeId version.policyId ≠ [] := by
  have hamong : version ∈ effectiveRows facts.toRules
      (some (foundMatches facts employeeId effective clauses).keys) day ↔
        version ∈ effectiveRows facts.toRules none day ∧
          version.policyId ∈ (foundMatches facts employeeId effective clauses).keys := by
    rw [mem_effectiveRows, mem_effectiveRows]
    simp [amongPolicies, and_assoc]
  rw [hamong]
  exact and_congr_right fun hversion => mem_keys_foundMatches heff hversion

theorem effectiveRows_congr {rules : Rules} {ids ids' : Option (List ℕ)} {day day' : Date}
    (h : ∀ v, v ∈ effectiveRows rules ids day ↔ v ∈ effectiveRows rules ids' day') :
    effectiveRows rules ids day = effectiveRows rules ids' day' := by
  unfold effectiveRows
  refine congrArg _ (Table.select_congr fun v => ?_)
  have hv := h v
  rw [mem_effectiveRows, mem_effectiveRows] at hv
  simpa [and_assoc] using hv

theorem undated_clauseOrigins (l : List ClauseMatchEvidence) :
    undatedOrigins ((clauseOrigins l).map .origin) =
      (clauseOrigins (l.map ClauseMatchEvidence.undated)).map .origin := by
  cases l with
  | nil => rfl
  | cons evidence l => rfl

theorem undatedOrigins_append (l m : List ExplanationOrigin) :
    undatedOrigins (l ++ m) = undatedOrigins l ++ undatedOrigins m := List.map_append

theorem clauseOrigins_eq_nil {l : List ClauseMatchEvidence} : clauseOrigins l = [] ↔ l = [] := by
  cases l <;> simp [clauseOrigins]

/-- Evidence that differs in dates of evaluation is told in the same way. -/
theorem sameOrigins_of_clauses {day' : Date} {effective' : Dict ℕ PolicyVersion}
    {clauses' : List (ℕ × ClauseMatchEvidence)}
    (heff : getEffectivePolicyVersions facts.toRules none day = .ok effective)
    (heff' : getEffectivePolicyVersions facts.toRules none day' = .ok effective')
    (hversion : version ∈ effectiveRows facts.toRules none day)
    (hversion' : version ∈ effectiveRows facts.toRules none day')
    (hkey : version.policyId ∈ (foundMatches facts employeeId effective clauses).keys)
    (hsame : (clausesOf clauses version.id).map ClauseMatchEvidence.undated =
      (clausesOf clauses' version.id).map ClauseMatchEvidence.undated) :
    undatedOrigins (explanationOrigins
        (matchFor (some (foundMatches facts employeeId effective clauses)) version.policyId)) =
      undatedOrigins (explanationOrigins
        (matchFor (some (foundMatches facts employeeId effective' clauses')) version.policyId)) := by
  have hnil : clauseOrigins (clausesOf clauses version.id) = [] ↔
      clauseOrigins (clausesOf clauses' version.id) = [] := by
    rw [clauseOrigins_eq_nil, clauseOrigins_eq_nil, ← List.map_eq_nil_iff, hsame,
      List.map_eq_nil_iff]
  have hkey' : version.policyId ∈ (foundMatches facts employeeId effective' clauses').keys := by
    rw [mem_keys_foundMatches heff hversion] at hkey
    rw [mem_keys_foundMatches heff' hversion']
    simpa [hnil] using hkey
  rw [explanationOrigins_found heff hversion hkey, explanationOrigins_found heff' hversion' hkey',
    List.map_append, List.map_append, undatedOrigins_append, undatedOrigins_append,
    undated_clauseOrigins, undated_clauseOrigins, hsame]

/-! ## The resolution in one piece -/

theorem resolvePolicyAssignments_eq {rules : Rules} {policyIds : List ℕ} {m : PolicyMatches}
    (heff : getEffectivePolicyVersions rules (some policyIds) day = .ok effective) :
    resolvePolicyAssignments rules policyIds day m = resolveCandidates m
      (policyCandidates rules ((effectiveRows rules (some policyIds) day).map fun v => v.id)) := by
  rw [resolvePolicyAssignments, heff, ← values_getEffective heff]

theorem version_of_candidate {rules : Rules} {policyIds : Option (List ℕ)} {c : Candidate}
    (hc : c ∈ policyCandidates rules ((effectiveRows rules policyIds day).map fun v => v.id)) :
    c.version ∈ effectiveRows rules policyIds day := by
  obtain ⟨hversion, hid, _⟩ := mem_policyCandidates.mp hc
  obtain ⟨v, hv, he⟩ := List.mem_map.mp hid
  rw [← Table.key_inj (mem_effectiveRows.mp hv).1 hversion he]
  exact hv

/-- What an assignment says is left by the evidence without its dates. -/
theorem essence_of_undated {l l' : List FinalAssignment}
    (h : l.map (FinalAssignment.mapOrigins undatedOrigins) =
      l'.map (FinalAssignment.mapOrigins undatedOrigins)) (day' : Date) :
    (l.map (FinalAssignment.dated day)).map FinalAssignment.essence =
      (l'.map (FinalAssignment.dated day')).map FinalAssignment.essence := by
  have hessence : ∀ (d : Date) (l : List FinalAssignment),
      (l.map (FinalAssignment.dated d)).map FinalAssignment.essence =
        (l.map (FinalAssignment.mapOrigins undatedOrigins)).map fun a =>
          (a.identity, ⟨none, a.explanation.reason⟩) := by
    intro d l
    rw [List.map_map, List.map_map]
    rfl
  rw [hessence, hessence, h]

end

end Warp
