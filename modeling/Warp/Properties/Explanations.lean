import Warp.Properties.ResolutionEvidence

/-!
# What the explanations say

The explanation of a result lists the candidates that it was chosen from, says of each why it was chosen
or not, and gives the evidence for every policy among them. All of it is true.
-/

namespace Warp

open Infra

/-! ## The listed candidates -/

/-- The candidates of the winner's field, and in a many-valued field only those of its value. -/
def listed (candidates : List Candidate) (winner : Candidate) : List Candidate :=
  candidates.filter fun c => c.field.id = winner.field.id &&
    (winner.field.cardinality = .one || c.value = winner.value)

def resolvedItem (policyMatches : PolicyMatches) (candidates : List Candidate)
    (winner : Candidate) : ResolvedAssignment where
  assignmentFieldDefinitionId := winner.field.id
  value := winner.value
  sourcePolicyVersionId := winner.version.id
  explanation := policyExplanation winner.field winner (listed candidates winner) policyMatches

section

variable {candidates : List Candidate} {m : PolicyMatches} {c w : Candidate}

theorem mem_listed : c ∈ listed candidates w ↔
    c ∈ candidates ∧ c.field.id = w.field.id ∧ (w.field.cardinality = .many → c.value = w.value) := by
  cases hcardinality : w.field.cardinality <;> simp [listed, hcardinality]

theorem listed_one (h : w.field.cardinality = .one) :
    listed candidates w = ofField candidates w.field.id := by
  unfold listed ofField
  refine List.filter_congr fun c _ => ?_
  simp [h]

theorem listed_many (h : w.field.cardinality = .many) :
    listed candidates w = (ofField candidates w.field.id).filter fun c => c.value = w.value := by
  unfold listed ofField
  rw [List.filter_filter]
  refine List.filter_congr fun c _ => ?_
  simp [h, Bool.and_comm]

theorem mem_of_head? (h : (listed candidates w).head? = some w) : w ∈ candidates :=
  (mem_listed.mp (List.mem_of_head? h)).1

/-- Candidates that are listed together are listed with the same others. -/
theorem listed_of_mem (hagree : FieldsAgree candidates) (hc : c ∈ candidates)
    (hw : w ∈ listed candidates c) : listed candidates w = listed candidates c := by
  obtain ⟨hw, hid, hvalue⟩ := mem_listed.mp hw
  have hfield : w.field = c.field := hagree w hw c hc hid
  cases hcardinality : c.field.cardinality with
  | one => rw [listed_one (by rw [hfield, hcardinality]), listed_one hcardinality, hid]
  | many =>
    rw [listed_many (by rw [hfield, hcardinality]), listed_many hcardinality, hid,
      hvalue hcardinality]

/-- The candidates of a field that give its values. -/
def fieldWinners : List Candidate → List Candidate
  | [] => []
  | first :: rest =>
    match first.field.cardinality with
    | .one => [first]
    | .many => (uniqueCandidates (first :: rest)).values

theorem fieldWinners_one {first : Candidate} {rest : List Candidate}
    (h : first.field.cardinality = .one) : fieldWinners (first :: rest) = [first] := by
  rw [fieldWinners, h]

theorem fieldWinners_many {first : Candidate} {rest : List Candidate}
    (h : first.field.cardinality = .many) :
    fieldWinners (first :: rest) = (uniqueCandidates (first :: rest)).values := by
  rw [fieldWinners, h]

/-- The winners of a field are the first of the candidates listed with them. -/
theorem mem_fieldWinners (hagree : FieldsAgree candidates) {fieldId : ℕ} :
    w ∈ fieldWinners (ofField candidates fieldId) ↔
      (listed candidates w).head? = some w ∧ w.field.id = fieldId := by
  cases hlist : ofField candidates fieldId with
  | nil =>
    refine iff_of_false List.not_mem_nil ?_
    rintro ⟨hw, hid⟩
    have hmem : w ∈ ofField candidates fieldId := mem_ofField.mpr ⟨mem_of_head? hw, hid⟩
    rw [hlist] at hmem
    exact List.not_mem_nil hmem
  | cons first rest =>
    obtain ⟨hfirst, hid⟩ := first_mem hlist
    have hsame : ∀ c ∈ candidates, c.field.id = fieldId → c.field = first.field :=
      fun c hc hcid => hagree c hc first hfirst (hcid.trans hid.symm)
    cases hcardinality : first.field.cardinality with
    | one =>
      rw [fieldWinners_one hcardinality, List.mem_singleton]
      constructor
      · rintro rfl
        rw [listed_one hcardinality, hid, hlist]
        exact ⟨rfl, rfl⟩
      · rintro ⟨hw, hwid⟩
        rw [listed_one (by rw [hsame w (mem_of_head? hw) hwid, hcardinality]), hwid, hlist] at hw
        exact (Option.some.inj hw).symm
    | many =>
      rw [fieldWinners_many hcardinality, ← hlist, mem_uniqueCandidates]
      have hlisted : ∀ c ∈ candidates, c.field.id = fieldId → listed candidates c =
          (ofField candidates fieldId).filter fun x => x.value = c.value := by
        intro c hc hcid
        rw [listed_many (by rw [hsame c hc hcid, hcardinality]), hcid]
      constructor
      · intro hfind
        obtain ⟨hwm, hwid⟩ := mem_ofField.mp (List.mem_of_find?_eq_some hfind)
        rw [hlisted w hwm hwid, List.head?_filter]
        exact ⟨hfind, hwid⟩
      · rintro ⟨hw, hwid⟩
        rw [hlisted w (mem_of_head? hw) hwid, List.head?_filter] at hw
        exact hw

/-- The results of a field are those of its winners, in their order. -/
theorem resolveField_winners (hagree : FieldsAgree candidates) {fieldId : ℕ}
    {results : List ResolvedAssignment}
    (h : resolveField m (ofField candidates fieldId) = .ok results) :
    results = (fieldWinners (ofField candidates fieldId)).map (resolvedItem m candidates) := by
  cases hlist : ofField candidates fieldId with
  | nil =>
    rw [hlist] at h
    cases h
    rfl
  | cons first rest =>
    obtain ⟨hfirst, hid⟩ := first_mem hlist
    cases hcardinality : first.field.cardinality with
    | one =>
      rw [hlist, resolveField_one hcardinality] at h
      obtain ⟨one, hone, rfl⟩ := exceptMap_eq_ok.mp h
      rw [fieldWinners_one hcardinality, List.map_singleton]
      unfold resolveOne at hone
      split at hone
      · exact absurd hone (by simp)
      · cases hone
        rw [resolvedItem, listed_one hcardinality, hid, hlist]
    | many =>
      rw [hlist, resolveField_many hcardinality] at h
      cases h
      rw [fieldWinners_many hcardinality]
      refine List.map_congr_left fun c hc => ?_
      have hcm := uniqueCandidates_mem hc
      rw [← hlist] at hcm ⊢
      obtain ⟨hcm, hcid⟩ := mem_ofField.mp hcm
      have hsame : c.field = first.field := hagree c hcm first hfirst (hcid.trans hid.symm)
      rw [resolvedItem, listed_many (by rw [hsame, hcardinality]), hcid, hsame]

theorem fieldWinners_sublist (l : List Candidate) : (fieldWinners l).Sublist l := by
  cases l with
  | nil => exact List.Sublist.slnil
  | cons first rest =>
    cases hcardinality : first.field.cardinality with
    | one =>
      rw [fieldWinners_one hcardinality]
      exact List.Sublist.cons_cons _ (List.nil_sublist _)
    | many =>
      rw [fieldWinners_many hcardinality]
      have hvalues := (Dict.firsts_sublist
        ((first :: rest).map fun c : Candidate => (c.value, c))).map Prod.snd
      rw [List.map_map] at hvalues
      exact hvalues.trans (by rw [show Prod.snd ∘ (fun c : Candidate => (c.value, c)) = id from rfl,
        List.map_id])

theorem manyWinner_of_head (hs : CandidatesSorted candidates)
    (hw : (listed candidates w).head? = some w) (hmany : w.field.cardinality = .many) :
    ManyWinner (candidateSet candidates) w := by
  rw [listed_many hmany, List.head?_filter] at hw
  exact (unique_manyWinner hs hmany (mem_uniqueCandidates.mpr hw)).1

theorem listed_precedes (hs : CandidatesSorted candidates)
    (hw : (listed candidates w).head? = some w) (hc : c ∈ listed candidates w) : Precedes w c := by
  have hp : (listed candidates w).Pairwise Precedes := by
    refine (hs.filter _).imp_of_mem fun {a b} ha hb h => precedes_of_order h ?_
    rw [(mem_listed.mp ha).2.1, (mem_listed.mp hb).2.1]
  obtain ⟨rest, hlist⟩ := List.head?_eq_some_iff.mp hw
  rw [hlist] at hp hc
  rcases List.mem_cons.mp hc with rfl | hc
  · exact Precedes.refl _
  · exact (List.pairwise_cons.mp hp).1 c hc

/-- The results of the engine are those of the first listed candidates. -/
theorem mem_resolveCandidates (hs : CandidatesSorted candidates) (hagree : FieldsAgree candidates)
    {resolved : List ResolvedAssignment} (h : resolveCandidates m candidates = .ok resolved)
    {r : ResolvedAssignment} : r ∈ resolved ↔
      ∃ w, (listed candidates w).head? = some w ∧ resolvedItem m candidates w = r := by
  have hfield := resolveField_winners hagree
    (resolveField_of_resolved r.assignmentFieldDefinitionId hs h)
  have hmem : r ∈ resolved ↔ r ∈ resolved.filter fun x =>
      x.assignmentFieldDefinitionId = r.assignmentFieldDefinitionId := by simp
  rw [hmem, hfield, List.mem_map]
  constructor
  · rintro ⟨w, hw, he⟩
    exact ⟨w, ((mem_fieldWinners hagree).mp hw).1, he⟩
  · rintro ⟨w, hw, rfl⟩
    exact ⟨w, (mem_fieldWinners hagree).mpr ⟨hw, rfl⟩, rfl⟩

/-- Where a one-valued field has a result, its candidates of the highest priority agree. -/
theorem winner_uncontested (hs : CandidatesSorted candidates) {resolved : List ResolvedAssignment}
    (h : resolveCandidates m candidates = .ok resolved)
    (hw : (listed candidates w).head? = some w) (hone : w.field.cardinality = .one)
    (hc : c ∈ listed candidates w) (hne : c.value ≠ w.value) :
    c.version.priority < w.version.priority := by
  obtain ⟨rest, hlist⟩ : ∃ rest, ofField candidates w.field.id = w :: rest := by
    rw [← listed_one hone]
    exact List.head?_eq_some_iff.mp hw
  obtain ⟨hmem, hid, _⟩ := mem_listed.mp hc
  refine lt_of_le_of_ne (listed_precedes hs hw hc).priority_le fun hpriority => hne ?_
  have hfield := resolveField_of_resolved w.field.id hs h
  rw [hlist, resolveField_one hone] at hfield
  obtain ⟨one, hresolved, _⟩ := exceptMap_eq_ok.mp hfield
  refine (resolveOne_eq_ok hresolved).2.2.2 c (List.mem_filter.mpr ⟨?_, decide_eq_true hpriority⟩)
  rw [← hlist]
  exact mem_ofField.mpr ⟨hmem, hid⟩

end

/-! ## True explanations -/

/-- What a summary tells of a candidate. -/
structure Describes (s : CandidateSummary) (c : Candidate) : Prop where
  policyId : s.policyId = c.version.policyId
  policyName : s.policyName = c.policyName
  policyVersionId : s.policyVersionId = c.version.id
  versionNumber : s.versionNumber = c.version.versionNumber
  value : s.value = c.value
  priority : s.priority = c.version.priority

/-- The outcome of a candidate against the result. -/
inductive TrueOutcome (r : ResolvedAssignment) (s : CandidateSummary) : Prop where
  | selected (outcome : s.outcome = .selected) (mark : s.selected = true) : TrueOutcome r s
  | duplicateValue (outcome : s.outcome = .duplicateValue) (mark : s.selected = false)
      (value : s.value = r.value) : TrueOutcome r s
  | lowerPriority (outcome : s.outcome = .lowerPriority) (mark : s.selected = false)
      (priority : s.priority < r.explanation.priority) : TrueOutcome r s

/-- A policy matches through a group, or through clauses with conditions that all hold. -/
inductive TrueOrigin : ExplanationOrigin → Prop where
  | conditionMatch (clauses : List ClauseMatchEvidence) (nonempty : clauses ≠ [])
      (holds : ∀ clause ∈ clauses, clause.conditions ≠ [] ∧
        ∀ c ∈ clause.conditions, c.result = true) : TrueOrigin (.origin (.conditionMatch clauses))
  | group (groupId : ℕ) (groupName : String) : TrueOrigin (.origin (.group groupId groupName))

def TrueOrigins (origins : List ExplanationOrigin) : Prop :=
  origins ≠ [] ∧ ∀ o ∈ origins, TrueOrigin o

/-- The explanation of a result, against the set of all candidates. -/
structure TrueExplanation (S : Set Candidate) (r : ResolvedAssignment) : Prop where
  candidates : ∃ all : List Candidate, all.Nodup ∧
    (∀ c, c ∈ all ↔ c ∈ S ∧ c.field.id = r.assignmentFieldDefinitionId ∧
      (r.explanation.cardinality = .many → c.value = r.value)) ∧
    List.Forall₂ Describes r.explanation.candidates all
  selected : ∃ s, (r.explanation.candidates.filter fun s => s.selected) = [s] ∧
    s.value = r.value ∧ s.policyVersionId = r.sourcePolicyVersionId ∧
    s.policyVersionId = r.explanation.policyVersionId ∧ s.policyId = r.explanation.policyId ∧
    s.priority = r.explanation.priority
  outcomes : ∀ s ∈ r.explanation.candidates, TrueOutcome r s
  origins : TrueOrigins r.explanation.origins
  candidateOrigins : ∀ s ∈ r.explanation.candidates, TrueOrigins s.origins

section

variable {candidates : List Candidate} {m : PolicyMatches} {c w : Candidate}

theorem describes_candidateSummary (l : List Candidate) :
    List.Forall₂ Describes (l.map (candidateSummary m w)) l := by
  induction l with
  | nil => exact List.Forall₂.nil
  | cons c l ih => exact List.Forall₂.cons ⟨rfl, rfl, rfl, rfl, rfl, rfl⟩ ih

theorem filter_selected {l : List Candidate} (hn : l.Nodup) (hw : w ∈ l) :
    ((l.map (candidateSummary m w)).filter fun s => s.selected) = [candidateSummary m w w] := by
  have hone : l.filter (fun c => c = w) = [w] := by
    rw [List.filter_eq, List.count_eq_one_of_mem hn hw]
    rfl
  rw [List.filter_map, ← List.map_singleton, ← hone]
  rfl

theorem trueOutcome_of_listed {r : ResolvedAssignment} (hvalue : r.value = w.value)
    (hpriority : r.explanation.priority = w.version.priority)
    (hlower : c.value ≠ w.value → c.version.priority < w.version.priority) :
    TrueOutcome r (candidateSummary m w c) := by
  by_cases hself : c = w
  · subst hself
    exact .selected (if_pos rfl) (decide_eq_true rfl)
  · by_cases hsame : c.value = w.value
    · refine .duplicateValue ?_ (decide_eq_false hself) (hsame.trans hvalue.symm)
      exact (if_neg hself).trans (if_pos hsame)
    · refine .lowerPriority ?_ (decide_eq_false hself) ?_
      · exact (if_neg hself).trans (if_neg hsame)
      · rw [hpriority]
        exact hlower hsame

theorem trueExplanation_of_listed (hs : CandidatesSorted candidates) (hn : candidates.Nodup)
    {resolved : List ResolvedAssignment} (h : resolveCandidates m candidates = .ok resolved)
    (hw : (listed candidates w).head? = some w)
    (horigins : ∀ c ∈ candidates, TrueOrigins (explanationOrigins (matchFor m c.version.policyId))) :
    TrueExplanation (candidateSet candidates) (resolvedItem m candidates w) where
  candidates := ⟨listed candidates w, hn.filter _, fun _ => mem_listed, describes_candidateSummary _⟩
  selected := ⟨_, filter_selected (hn.filter _) (List.mem_of_head? hw), rfl, rfl, rfl, rfl, rfl⟩
  outcomes := by
    intro s hsummary
    obtain ⟨c, hc, rfl⟩ := List.mem_map.mp hsummary
    refine trueOutcome_of_listed rfl rfl fun hne => ?_
    cases hcardinality : w.field.cardinality with
    | one => exact winner_uncontested hs h hw hcardinality hc hne
    | many => exact absurd ((mem_listed.mp hc).2.2 hcardinality) hne
  origins := horigins w (mem_of_head? hw)
  candidateOrigins := by
    intro s hsummary
    obtain ⟨c, hc, rfl⟩ := List.mem_map.mp hsummary
    exact horigins c (mem_listed.mp hc).1

end

/-! ## True origins -/

section

variable {facts : Facts} {employee : Employee} {employeeId : ℕ} {day : Date}
  {found : Dict ℕ PolicyMatch}

theorem ClauseMatchEvidence.conditions_of_isMatch {evidence : ClauseMatchEvidence}
    (h : evidence.isMatch = true) :
    evidence.conditions ≠ [] ∧ ∀ c ∈ evidence.conditions, c.result = true := by
  simpa [isMatch] using h

theorem clausesOf_isMatch {rules : Rules} {context : ConditionEvaluationContext} {ids : List ℕ}
    {clauses : List (ℕ × ClauseMatchEvidence)} (h : matchedClauses rules context ids = .ok clauses)
    {versionId : ℕ} {evidence : ClauseMatchEvidence} (he : evidence ∈ clausesOf clauses versionId) :
    evidence.isMatch = true := by
  obtain ⟨p, hp, rfl⟩ := List.mem_map.mp he
  unfold matchedClauses at h
  split at h
  · exact absurd h (by simp)
  · cases h
    exact (List.mem_filter.mp (List.mem_filter.mp hp).1).2

/-- There is evidence for every matched version, and it is true. -/
theorem trueOrigins_found (hemployee : employee ∈ facts.employees)
    (hfound : findPolicyMatches facts employee.id day = .ok found) {v : PolicyVersion}
    (hv : v ∈ effectiveRows facts.toRules (some found.keys) day) :
    TrueOrigins (explanationOrigins (matchFor (some found) v.policyId)) := by
  obtain ⟨effective, clauses, heff, hclauses, hmatches⟩ :=
    (findPolicyMatches_eq_ok hemployee).mp hfound
  change found = foundMatches facts employee.id effective clauses at hmatches
  subst hmatches
  obtain ⟨hversion, hevidence⟩ := (mem_effectiveRows_found heff).mp hv
  rw [explanationOrigins_found heff hversion ((mem_keys_foundMatches heff hversion).mpr hevidence)]
  refine ⟨fun he => hevidence (List.map_eq_nil_iff.mp he), fun o ho => ?_⟩
  obtain ⟨origin, horigin, rfl⟩ := List.mem_map.mp ho
  rcases List.mem_append.mp horigin with hclause | hgroup
  · unfold clauseOrigins at hclause
    split at hclause
    · exact absurd hclause List.not_mem_nil
    · next hne =>
      rw [List.mem_singleton.mp hclause]
      refine .conditionMatch _ hne fun evidence he => ?_
      exact evidence.conditions_of_isMatch (clausesOf_isMatch hclauses he)
  · obtain ⟨row, _, rfl⟩ := List.mem_map.mp hgroup
    exact .group _ _

end

/-- Explanations from fresh matches are true of the candidates of all matched versions. -/
theorem explanations_true {facts : Facts} {employeeId : ℕ} {day : Date}
    {found : Dict ℕ PolicyMatch} {resolved : List ResolvedAssignment}
    (hfound : findPolicyMatches facts employeeId day = .ok found)
    (hresolved : resolvePolicyAssignments facts.toRules found.keys day (some found) = .ok resolved)
    {r : ResolvedAssignment} (hr : r ∈ resolved) :
    ∃ employee ∈ facts.employees, employee.id = employeeId ∧
      TrueExplanation (MatchedCandidates facts employee day) r := by
  obtain ⟨effective, heff⟩ := getEffective_of_found hfound
  rw [resolvePolicyAssignments_eq heff] at hresolved
  obtain ⟨w, hw, rfl⟩ := (mem_resolveCandidates policyCandidates_sorted policyCandidates_agree
    hresolved).mp hr
  cases hfind : facts.employees.find? employeeId with
  | none =>
    -- nobody matches nothing
    rw [findPolicyMatches, hfind] at hfound
    cases hfound
    have hversion := version_of_candidate (mem_of_head? hw)
    exact absurd (mem_effectiveRows.mp hversion).2.2.2 (by simp [amongPolicies])
  | some employee =>
    obtain ⟨hemployee, hkey⟩ := Table.find?_eq_some.mp hfind
    replace hkey : employee.id = employeeId := hkey
    subst hkey
    refine ⟨employee, hemployee, rfl, ?_⟩
    rw [← effectiveCandidates_found hemployee hfound, ← candidateSet_policyCandidates heff,
      values_getEffective heff]
    exact trueExplanation_of_listed policyCandidates_sorted policyCandidates_nodup hresolved hw
      fun c hc => trueOrigins_found hemployee hfound (version_of_candidate hc)

/-- A laptop and badges from three policies: two with conditions and one of a group. -/
def overlapFacts : Facts :=
  { Facts.empty with
    assignmentFieldDefinitions := .ofRows
      [⟨1, "laptop", .one, "priority", .text⟩, ⟨2, "badge", .many, "priority", .text⟩]
    conditionFieldDefinitions := .ofRows
      [⟨1, "tenure", .derived, "calendar_duration", some "employee_tenure_v1", none, none, true⟩,
        ⟨2, "department", .static, "string", some "employee_attribute_department_v1",
          some "employees", some "department", true⟩]
    policies := .ofRows
      [⟨1, "Service", .active, none⟩, ⟨2, "Engineering", .active, none⟩, ⟨3, "Pilot", .active, none⟩]
    policyVersions := .ofRows
      [⟨1, 1, 1, 10, .on 2026 1 1, none, none⟩, ⟨2, 2, 1, 10, .on 2026 1 1, none, none⟩,
        ⟨3, 3, 1, 5, .on 2026 1 1, none, none⟩]
    policyFieldValues := .ofRows
      [⟨1, 1, "large"⟩, ⟨1, 2, "gold"⟩, ⟨2, 1, "large"⟩, ⟨2, 2, "blue"⟩, ⟨3, 1, "small"⟩,
        ⟨3, 2, "gold"⟩]
    compiledPolicyClauses := .ofRows [⟨1, 1⟩, ⟨2, 2⟩]
    compiledPolicyConditions := .ofRows
      [⟨1, 1, 1, .ge, "P1Y"⟩, ⟨2, 1, 2, .eq, "Engineering"⟩, ⟨3, 2, 2, .eq, "Engineering"⟩]
    employees := .ofRows [⟨1, "Ada", "CA", "Engineering", "full_time", none, .on 2026 1 1, none⟩]
    groups := .ofRows [⟨1, "Pilots"⟩]
    employeeGroupMemberships := .ofRows [⟨1, 1⟩]
    groupPolicies := .ofRows [⟨1, 3⟩] }

theorem explanations_true_overlap : ∃ found resolved,
    findPolicyMatches overlapFacts 1 (.on 2027 3 1) = .ok found ∧
    resolvePolicyAssignments overlapFacts.toRules found.keys (.on 2027 3 1) (some found) =
      .ok resolved ∧
    resolved.map (fun r => (r.value, r.explanation.candidates.map fun s => s.outcome)) =
      [("large", [.selected, .duplicateValue, .lowerPriority]), ("gold", [.selected, .duplicateValue]),
        ("blue", [.selected])] ∧
    ∀ r ∈ resolved, ∃ employee ∈ overlapFacts.employees, employee.id = 1 ∧
      TrueExplanation (MatchedCandidates overlapFacts employee (.on 2027 3 1)) r := by
  have hrun : ((findPolicyMatches overlapFacts 1 (.on 2027 3 1)).toOption.bind fun found =>
      (resolvePolicyAssignments overlapFacts.toRules found.keys (.on 2027 3 1)
        (some found)).toOption.map fun resolved =>
          resolved.map fun r => (r.value, r.explanation.candidates.map fun s => s.outcome)) =
      some [("large", [.selected, .duplicateValue, .lowerPriority]),
        ("gold", [.selected, .duplicateValue]), ("blue", [.selected])] := by decide +kernel
  cases hfound : findPolicyMatches overlapFacts 1 (.on 2027 3 1) with
  | error e =>
    rw [hfound] at hrun
    cases hrun
  | ok found =>
    rw [hfound] at hrun
    obtain ⟨out, hout, houtcomes⟩ := Option.map_eq_some_iff.mp hrun
    cases hresolved : resolvePolicyAssignments overlapFacts.toRules found.keys (.on 2027 3 1)
        (some found) with
    | error e =>
      rw [hresolved] at hout
      cases hout
    | ok resolved =>
      rw [hresolved] at hout
      cases hout
      exact ⟨found, _, rfl, hresolved, houtcomes, fun r hr => explanations_true hfound hresolved hr⟩

end Warp
