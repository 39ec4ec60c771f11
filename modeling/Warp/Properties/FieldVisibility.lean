import Warp.ImpactSummaries
import Warp.Properties.ConflictResolution

/-!
# Field visibility

Two states that differ only in the outputs, overrides and assignment rows of hidden fields. Past and
present answers are the same in both. A future answer is the same exactly when the conflicts of the
hidden fields are, because a conflict ends the resolution before the hidden fields are dropped.
-/

namespace Warp

open Infra

variable {visible : Option (Finset ℕ)}

/-! ## Masks -/

/-- The outputs of the visible fields, everything else as it is. -/
def Rules.masked (visible : Option (Finset ℕ)) (rules : Rules) : Rules :=
  { rules with
    policyFieldValues :=
      rules.policyFieldValues.filter fun r => fieldVisible visible r.assignmentFieldDefinitionId }

def Facts.masked (visible : Option (Finset ℕ)) (facts : Facts) : Facts :=
  { facts with
    toRules := facts.toRules.masked visible
    employeeOverrides :=
      facts.employeeOverrides.filter fun o => fieldVisible visible o.assignmentFieldDefinitionId }

def Db.masked (visible : Option (Finset ℕ)) (db : Db) : Db :=
  { db with
    facts := db.facts.masked visible
    employeeAssignments :=
      db.employeeAssignments.filter fun a => fieldVisible visible a.assignmentFieldDefinitionId }

/-! ## Resolving only the visible fields -/

def visibleCandidates (visible : Option (Finset ℕ)) (candidates : List Candidate) :
    List Candidate :=
  candidates.filter fun c => fieldVisible visible c.field.id

/-- A restriction of the rows that can be read off what is made of them. -/
theorem filterMap_restrict {α β : Type} {f : α → Option β} {p : α → Bool} {q : β → Bool}
    (h : ∀ a b, f a = some b → p a = q b) : ∀ l : List α,
      (l.filter p).filterMap f = (l.filterMap f).filter q
  | [] => rfl
  | a :: l => by
    have ih := filterMap_restrict h l
    cases ha : f a with
    | none =>
      rw [List.filterMap_cons_none ha, ← ih, List.filter_cons]
      split
      · rw [List.filterMap_cons_none ha]
      · rfl
    | some b =>
      rw [List.filterMap_cons_some ha, List.filter_cons, List.filter_cons, h a b ha, ← ih]
      split
      · rw [List.filterMap_cons_some ha]
      · rfl

theorem policyCandidates_masked {rules : Rules} {versionIds : List ℕ} :
    policyCandidates (rules.masked visible) versionIds =
      visibleCandidates visible (policyCandidates rules versionIds) := by
  have hcandidate : candidateOf? (rules.masked visible) = candidateOf? rules := rfl
  unfold policyCandidates visibleCandidates
  rw [← orderBy_filter, hcandidate]
  congr 1
  rw [← filterMap_restrict (p := fun r => fieldVisible visible r.assignmentFieldDefinitionId)]
  · simp only [Rules.masked, Table.select, Table.filter, List.filter_filter, Bool.and_comm]
  · intro row c hc
    obtain ⟨_, _, _, rfl⟩ := candidateOf?_eq_some.mp hc
    rfl

section

variable {candidates : List Candidate} {policyMatches : PolicyMatches}
  {resolved : List ResolvedAssignment}

def visibleResolved (visible : Option (Finset ℕ)) (resolved : List ResolvedAssignment) :
    List ResolvedAssignment :=
  resolved.filter fun r => fieldVisible visible r.assignmentFieldDefinitionId

/-- Without the hidden fields, the visible ones are resolved as before. -/
theorem resolveCandidates_visible (hs : CandidatesSorted candidates)
    (h : resolveCandidates policyMatches candidates = .ok resolved) :
    resolveCandidates policyMatches (visibleCandidates visible candidates) =
      .ok (visibleResolved visible resolved) :=
  resolveCandidates_filter (fieldVisible visible) hs h

end

/-- Overrides replace values of their own field only. -/
theorem applyEmployeeOverrides_visible {rules : Rules} {resolved : List ResolvedAssignment}
    {overrides : List EmployeeOverride} :
    visibleItems visible (applyEmployeeOverrides rules resolved overrides) =
      applyEmployeeOverrides rules (visibleResolved visible resolved)
        (overrides.filter fun o => fieldVisible visible o.assignmentFieldDefinitionId) := by
  -- a visible field is overridden by visible overrides only
  have hfree : ∀ fieldId, fieldVisible visible fieldId = true →
      (fieldId ∈ overrides.map (fun o => o.assignmentFieldDefinitionId) ↔
        fieldId ∈ (overrides.filter fun o => fieldVisible visible o.assignmentFieldDefinitionId).map
          fun o => o.assignmentFieldDefinitionId) := by
    intro fieldId hv
    simp only [List.mem_map, List.mem_filter]
    constructor
    · rintro ⟨o, ho, rfl⟩
      exact ⟨o, ⟨ho, hv⟩, rfl⟩
    · rintro ⟨o, ⟨ho, _⟩, rfl⟩
      exact ⟨o, ho, rfl⟩
  have hoverride : ∀ o : EmployeeOverride,
      fieldVisible visible o.assignmentFieldDefinitionId = true →
        overrideFinal rules resolved o = overrideFinal rules (visibleResolved visible resolved) o := by
    intro o hv
    have hreplaced : (visibleResolved visible resolved).filter (fun item =>
        item.assignmentFieldDefinitionId = o.assignmentFieldDefinitionId) =
          resolved.filter fun item =>
            item.assignmentFieldDefinitionId = o.assignmentFieldDefinitionId := by
      rw [visibleResolved, List.filter_filter]
      refine List.filter_congr fun r _ => ?_
      by_cases hr : r.assignmentFieldDefinitionId = o.assignmentFieldDefinitionId <;> simp [hr, hv]
    simp only [overrideFinal, hreplaced]
  unfold visibleItems applyEmployeeOverrides
  rw [← orderBy_filter, List.filter_append, List.filter_map, List.filter_map, List.filter_filter]
  congr 2
  · rw [visibleResolved, List.filter_filter]
    refine congrArg (List.map policyFinal) (List.filter_congr fun r _ => ?_)
    by_cases hv : fieldVisible visible r.assignmentFieldDefinitionId = true
    · simp only [Function.comp_apply, policyFinal, hv, Bool.true_and, Bool.and_true,
        decide_eq_decide]
      exact not_congr (hfree _ hv)
    · simp [policyFinal, hv]
  · exact List.map_congr_left fun o ho => hoverride o (List.mem_filter.mp ho).2

theorem activeOverrides_masked {facts : Facts} {employeeId : ℕ} :
    activeOverrides (facts.masked visible) employeeId =
      (activeOverrides facts employeeId).filter
        fun o => fieldVisible visible o.assignmentFieldDefinitionId := by
  unfold activeOverrides
  rw [← orderBy_filter]
  simp only [Facts.masked, Table.select, Table.filter, List.filter_filter, Bool.and_comm]

section

variable {facts : Facts} {employeeId : ℕ} {day : Date} {resolution : EmployeeAssignmentResolution}

def EmployeeAssignmentResolution.visiblePart (visible : Option (Finset ℕ))
    (resolution : EmployeeAssignmentResolution) : EmployeeAssignmentResolution :=
  { resolution with assignments := visibleItems visible resolution.assignments }

/-- Neither the outputs nor the overrides have a say in the matches. -/
theorem findPolicyMatches_masked :
    findPolicyMatches (facts.masked visible) employeeId day =
      findPolicyMatches facts employeeId day := rfl

/-- A resolution that succeeds says about the visible fields what the masked state says. -/
theorem resolveEmployee_masked
    (h : resolveEmployeeAssignmentsForDate facts employeeId day = .ok resolution) :
    resolveEmployeeAssignmentsForDate (facts.masked visible) employeeId day =
      .ok (resolution.visiblePart visible) := by
  unfold resolveEmployeeAssignmentsForDate at h ⊢
  rw [findPolicyMatches_masked]
  cases hfound : findPolicyMatches facts employeeId day with
  | error e =>
    rw [hfound] at h
    exact absurd h (by simp)
  | ok found =>
    simp only [hfound] at h ⊢
    cases hres : resolvePolicyAssignments facts.toRules found.keys day (some found) with
    | error e =>
      rw [hres] at h
      exact absurd h (by simp)
    | ok resolved =>
      rw [hres] at h
      cases h
      -- the fields that are left resolve as they did among all
      have hvisible : resolvePolicyAssignments (facts.masked visible).toRules found.keys day
          (some found) = .ok (visibleResolved visible resolved) := by
        obtain ⟨effective, heff⟩ := getEffective_of_resolved hres
        have heff' : getEffectivePolicyVersions (facts.masked visible).toRules (some found.keys)
            day = .ok effective := heff
        unfold resolvePolicyAssignments at hres ⊢
        rw [heff] at hres
        rw [heff']
        dsimp only at hres ⊢
        have hmasked : (facts.masked visible).toRules = facts.toRules.masked visible := rfl
        rw [hmasked, policyCandidates_masked]
        exact resolveCandidates_visible policyCandidates_sorted hres
      rw [hvisible]
      have hdated : ∀ items : List FinalAssignment,
          visibleItems visible (items.map (FinalAssignment.dated day)) =
            (visibleItems visible items).map (FinalAssignment.dated day) := fun items =>
        List.filter_map
      simp only [EmployeeAssignmentResolution.visiblePart, hdated, applyEmployeeOverrides_visible,
        activeOverrides_masked]
      rfl

end

/-! ## The first conflict -/

/-- Two candidates with the highest priority of a one-valued field carry different values. -/
def ConflictedField (S : Set Candidate) (fieldId : ℕ) : Prop :=
  ∃ c d, TopCandidate S c ∧ TopCandidate S d ∧ c.field.id = fieldId ∧ d.field.id = fieldId ∧
    c.field.cardinality = .one ∧ c.value ≠ d.value

/-- The fields are resolved in the order of their ids, so the lowest conflict ends the resolution. -/
def FirstConflicted (S : Set Candidate) (fieldId : ℕ) : Prop :=
  ConflictedField S fieldId ∧ ∀ g < fieldId, ¬ ConflictedField S g

/-- What the conflict of a field reports. -/
def tieConflict (first : Candidate) (rest : List Candidate) : PolicyConflict where
  assignmentFieldDefinitionId := first.field.id
  assignmentFieldName := first.field.name
  priority := first.version.priority
  candidates := (winners first rest).map conflictCandidate

theorem FirstConflicted.unique {S : Set Candidate} {f g : ℕ} (hf : FirstConflicted S f)
    (hg : FirstConflicted S g) : f = g := by
  rcases lt_trichotomy f g with hlt | heq | hlt
  · exact absurd hf.1 (hg.2 f hlt)
  · exact heq
  · exact absurd hg.1 (hf.2 g hlt)

theorem ConflictedField.exists_first {S : Set Candidate} : ∀ {f : ℕ}, ConflictedField S f →
    ∃ g ≤ f, FirstConflicted S g := by
  intro f
  induction f using Nat.strong_induction_on with
  | h f ih =>
    intro hf
    by_cases hlower : ∃ g < f, ConflictedField S g
    · obtain ⟨g, hg, hc⟩ := hlower
      obtain ⟨k, hk, hfirst⟩ := ih g hg hc
      exact ⟨k, hk.trans hg.le, hfirst⟩
    · exact ⟨f, le_rfl, hf, fun g hg hc => hlower ⟨g, hg, hc⟩⟩

section

variable {candidates : List Candidate} {policyMatches : PolicyMatches} {fieldId : ℕ}
  {e : ServiceError}

theorem resolveField_error_iff (hs : CandidatesSorted candidates) (hagree : FieldsAgree candidates) :
    resolveField policyMatches (ofField candidates fieldId) = .error e ↔
      ConflictedField (candidateSet candidates) fieldId ∧ ∃ first rest,
        ofField candidates fieldId = first :: rest ∧ e = .policyConflict (tieConflict first rest) := by
  cases hf : ofField candidates fieldId with
  | nil => simp [resolveField]
  | cons first rest =>
    obtain ⟨hm, hid⟩ := first_mem hf
    have htop := first_top hs hf
    rw [resolveField]
    constructor
    · intro h
      cases hc : first.field.cardinality with
      | many =>
        rw [hc] at h
        exact absurd h (by simp)
      | one =>
        rw [hc] at h
        have hone := exceptMap_eq_error.mp h
        obtain ⟨_, d, hd, hne⟩ := resolveOne_eq_error hone
        obtain ⟨hdtop, hdf⟩ := (mem_winners hs hf).mp hd
        refine ⟨⟨first, d, htop, hdtop, hid, hdf, hc, Ne.symm hne⟩, first, rest, rfl, ?_⟩
        have hany : (winners first rest).any (fun c => c.value ≠ first.value) = true :=
          List.any_eq_true.mpr ⟨d, hd, by simpa using hne⟩
        rw [resolveOne, if_pos hany] at hone
        exact (Except.error.inj hone).symm
    -- of two tops with different values, one differs from the first
    · rintro ⟨⟨c, d, hc, hd, hcf, hdf, hone, hne⟩, first', rest', he, rfl⟩
      cases he
      have hfield : first.field = c.field := hagree first hm c hc.mem (hid.trans hcf.symm)
      have hany : (winners first rest).any (fun x => x.value ≠ first.value) = true := by
        rw [List.any_eq_true]
        by_cases hv : c.value = first.value
        · exact ⟨d, (mem_winners hs hf).mpr ⟨hd, hdf⟩, by simpa [← hv] using Ne.symm hne⟩
        · exact ⟨c, (mem_winners hs hf).mpr ⟨hc, hcf⟩, by simpa using hv⟩
      rw [hfield, hone]
      dsimp only
      rw [resolveOne, if_pos hany, hfield.symm]
      rfl

/-- The engine reports the conflicted field with the lowest id. -/
theorem resolveCandidates_error_iff (hs : CandidatesSorted candidates)
    (hagree : FieldsAgree candidates) :
    resolveCandidates policyMatches candidates = .error e ↔ ∃ f first rest,
      FirstConflicted (candidateSet candidates) f ∧ ofField candidates f = first :: rest ∧
        e = .policyConflict (tieConflict first rest) := by
  have hfirst : ∀ {e : ServiceError}, resolveCandidates policyMatches candidates = .error e →
      ∃ f first rest, FirstConflicted (candidateSet candidates) f ∧
        ofField candidates f = first :: rest ∧ e = .policyConflict (tieConflict first rest) := by
    intro e h
    unfold resolveCandidates at h
    cases ht : traverseAll (fun g => resolveField policyMatches g.2)
        (groupBy (fun c : Candidate => c.field.id) candidates) with
    | ok parts =>
      rw [ht] at h
      exact absurd h (by simp)
    | error e' =>
      rw [ht] at h
      cases h
      obtain ⟨pre, g, post, hsplit, hg, hpre⟩ := traverseAll_first_error ht
      have hmem : g ∈ groupBy (fun c : Candidate => c.field.id) candidates := by
        rw [hsplit]
        simp
      rw [group_eq_ofField hs hmem] at hg
      obtain ⟨hconflict, first, rest, hf, he⟩ := (resolveField_error_iff hs hagree).mp hg
      refine ⟨g.1, first, rest, ⟨hconflict, fun k hk hc => ?_⟩, hf, he⟩
      -- a conflict of a lower field would have ended the traversal before
      obtain ⟨c, d, htop, _, hcf, _⟩ := id hc
      obtain ⟨part, hpart, _⟩ := mem_groupBy_of_mem (fun c : Candidate => c.field.id) htop.mem
      rw [hcf] at hpart
      have hkeys := groupBy_keys_sorted (fun c : Candidate => c.field.id) (hs.imp field_le_of_order)
      have hinpre : (k, part) ∈ pre := by
        rw [hsplit] at hpart hkeys
        rcases List.mem_append.mp hpart with hp | hp
        · exact hp
        · rcases List.mem_cons.mp hp with heq | hp
          · rw [← heq] at hk
            exact absurd hk (lt_irrefl k)
          · have hlt := (List.pairwise_cons.mp (List.pairwise_append.mp hkeys).2.1).1 _ hp
            exact absurd hk (not_lt_of_gt hlt)
      obtain ⟨resolved, hok⟩ := hpre _ hinpre
      dsimp only at hok
      rw [show part = ofField candidates k from group_eq_ofField hs hpart] at hok
      cases hk' : ofField candidates k with
      | nil =>
        have : c ∈ ofField candidates k := mem_ofField.mpr ⟨htop.mem, hcf⟩
        rw [hk'] at this
        exact absurd this (by simp)
      | cons first' rest' =>
        rw [(resolveField_error_iff hs hagree).mpr ⟨hc, first', rest', hk', rfl⟩] at hok
        exact absurd hok (by simp)
  refine ⟨hfirst, ?_⟩
  rintro ⟨f, first, rest, hf, hlist, rfl⟩
  obtain ⟨c, d, hc, hd, hcf, hdf, hone, hne⟩ := hf.1
  obtain ⟨conflict, herr⟩ : ∃ conflict, resolveCandidates policyMatches candidates =
      .error (.policyConflict conflict) :=
    resolveCandidates_conflict hs hagree ⟨c, d, hc, hd, hcf.trans hdf.symm, hone, hne⟩
  obtain ⟨f', first', rest', hf', hlist', he⟩ := hfirst herr
  cases hf.unique hf'
  rw [hlist] at hlist'
  cases hlist'
  rw [herr, he]

end

/-! ## Ties of two states -/

theorem winners_strict {candidates : List Candidate} {fieldId : ℕ} {first : Candidate}
    {rest : List Candidate} (hs : candidates.Pairwise fun c d => candidateKey c < candidateKey d)
    (hf : ofField candidates fieldId = first :: rest) :
    (winners first rest).Pairwise fun c d => candidateKey c < candidateKey d := by
  have hp : (ofField candidates fieldId).Pairwise fun c d => candidateKey c < candidateKey d :=
    hs.filter _
  rw [hf] at hp
  exact hp.filter _

theorem winners_eq_cons (first : Candidate) (rest : List Candidate) :
    ∃ others, winners first rest = first :: others :=
  ⟨_, List.filter_cons_of_pos (by simp)⟩

/-- The candidates that the resolution of an employee considers. -/
def consideredCandidates (facts : Facts) (employeeId : ℕ) (day : Date) : Set Candidate :=
  {c | ∃ found, findPolicyMatches facts employeeId day = .ok found ∧
    c ∈ EffectiveCandidates facts.toRules found.keys day}

section

variable {facts facts' : Facts} {employeeId fieldId : ℕ} {day : Date}

theorem consideredCandidates_of_found {found : Dict ℕ PolicyMatch}
    (h : findPolicyMatches facts employeeId day = .ok found) :
    consideredCandidates facts employeeId day =
      EffectiveCandidates facts.toRules found.keys day := by
  ext c
  constructor
  · rintro ⟨found', h', hc⟩
    rw [h] at h'
    cases h'
    exact hc
  · exact fun hc => ⟨found, h, hc⟩

/-- Once the matches are found, only the first conflict among the candidates can go wrong. -/
theorem resolveEmployee_error_iff {found : Dict ℕ PolicyMatch} {effective : Dict ℕ PolicyVersion}
    (hfound : findPolicyMatches facts employeeId day = .ok found)
    (heff : getEffectivePolicyVersions facts.toRules (some found.keys) day = .ok effective)
    {e : ServiceError} :
    resolveEmployeeAssignmentsForDate facts employeeId day = .error e ↔ ∃ f first rest,
      FirstConflicted (consideredCandidates facts employeeId day) f ∧
        ofField (policyCandidates facts.toRules (effective.values.map fun v => v.id)) f =
          first :: rest ∧ e = .policyConflict (tieConflict first rest) := by
  rw [resolveEmployee_eq hfound, exceptMap_eq_error, consideredCandidates_of_found hfound,
    ← candidateSet_policyCandidates heff,
    ← resolveCandidates_error_iff policyCandidates_sorted policyCandidates_agree,
    resolvePolicyAssignments, heff]

/-- The candidates of the visible fields are those of the masked state. -/
theorem topCandidate_masked (hv : fieldVisible visible fieldId = true) {c : Candidate}
    (hc : c.field.id = fieldId) :
    TopCandidate (consideredCandidates (facts.masked visible) employeeId day) c ↔
      TopCandidate (consideredCandidates facts employeeId day) c := by
  have hmem : ∀ d : Candidate, d.field.id = fieldId →
      (d ∈ consideredCandidates (facts.masked visible) employeeId day ↔
        d ∈ consideredCandidates facts employeeId day) := by
    intro d hd
    refine exists_congr fun found => and_congr_right fun _ => ?_
    have hrow : (⟨d.version.id, d.field.id, d.value⟩ : PolicyFieldValue) ∈
        (facts.masked visible).policyFieldValues ↔
          ⟨d.version.id, d.field.id, d.value⟩ ∈ facts.policyFieldValues := by
      rw [← hd] at hv
      exact Table.mem_filter.trans (and_iff_left hv)
    unfold EffectiveCandidates
    simp only [Set.mem_ofPred_eq, hrow]
    rfl
  constructor
  · rintro ⟨hm, htop⟩
    exact ⟨(hmem c hc).mp hm, fun x hx hxc => htop x ((hmem x (hxc.trans hc)).mpr hx) hxc⟩
  · rintro ⟨hm, htop⟩
    exact ⟨(hmem c hc).mpr hm, fun x hx hxc => htop x ((hmem x (hxc.trans hc)).mp hx) hxc⟩

end

/-- A field has the same candidates of the highest priority on both sides. -/
def SameTops (S T : Set Candidate) (fieldId : ℕ) : Prop :=
  ∀ c, c.field.id = fieldId → (TopCandidate S c ↔ TopCandidate T c)

/-- A hidden conflict that comes first on one side is the same conflict on the other. -/
def HiddenTiesAgree (visible : Option (Finset ℕ)) (S T : Set Candidate) : Prop :=
  ∀ fieldId, fieldVisible visible fieldId = false →
    FirstConflicted S fieldId ∨ FirstConflicted T fieldId → SameTops S T fieldId

theorem SameTops.symm {S T : Set Candidate} {f : ℕ} (h : SameTops S T f) : SameTops T S f :=
  fun c hc => (h c hc).symm

theorem HiddenTiesAgree.symm {S T : Set Candidate} (h : HiddenTiesAgree visible S T) :
    HiddenTiesAgree visible T S :=
  fun f hf hc => (h f hf hc.symm).symm

theorem SameTops.conflicted {S T : Set Candidate} {f : ℕ} (h : SameTops S T f)
    (hc : ConflictedField S f) : ConflictedField T f := by
  obtain ⟨c, d, hc, hd, hcf, hdf, hone, hne⟩ := hc
  exact ⟨c, d, (h c hcf).mp hc, (h d hdf).mp hd, hcf, hdf, hone, hne⟩

/-- When the visible fields agree and the hidden ties do, both sides have the same first conflict. -/
theorem HiddenTiesAgree.first {S T : Set Candidate} (h : HiddenTiesAgree visible S T)
    (hvis : ∀ f, fieldVisible visible f = true → SameTops S T f) {f : ℕ}
    (hf : FirstConflicted S f) : FirstConflicted T f ∧ SameTops S T f := by
  have htops : ∀ g, FirstConflicted S g ∨ FirstConflicted T g → SameTops S T g := by
    intro g hg
    cases hv : fieldVisible visible g with
    | true => exact hvis g hv
    | false => exact h g hv hg
  have hsame := htops f (Or.inl hf)
  refine ⟨⟨hsame.conflicted hf.1, fun g hg hc => ?_⟩, hsame⟩
  obtain ⟨k, hk, hfirst⟩ := hc.exists_first
  exact hf.2 k (hk.trans_lt hg) ((htops k (Or.inr hfirst)).symm.conflicted hfirst.1)

/-- The same candidates of the highest priority are reported as the same conflict. -/
theorem tieConflict_congr {candidates candidates' : List Candidate} {f : ℕ}
    {first first' : Candidate} {rest rest' : List Candidate}
    (hs : CandidatesSorted candidates) (hs' : CandidatesSorted candidates')
    (hk : candidates.Pairwise fun c d => candidateKey c < candidateKey d)
    (hk' : candidates'.Pairwise fun c d => candidateKey c < candidateKey d)
    (hf : ofField candidates f = first :: rest) (hf' : ofField candidates' f = first' :: rest')
    (h : SameTops (candidateSet candidates) (candidateSet candidates') f) :
    tieConflict first rest = tieConflict first' rest' := by
  have hw : winners first rest = winners first' rest' := by
    refine eq_of_strictly_sorted (winners_strict hk hf) (winners_strict hk' hf') fun c => ?_
    rw [mem_winners hs hf, mem_winners hs' hf']
    exact and_congr_left fun hc => h c hc
  obtain ⟨others, ho⟩ := winners_eq_cons first rest
  obtain ⟨others', ho'⟩ := winners_eq_cons first' rest'
  have hfirst : first = first' := by
    rw [ho, ho'] at hw
    exact (List.cons.inj hw).1
  rw [tieConflict, hw, hfirst]
  rfl

/-! ## Resolving in both states -/

section

variable {facts facts' : Facts} {employeeId fieldId : ℕ} {day : Date}

/-- What a resolution says about the visible fields, or its error. -/
def visibleOutcome (visible : Option (Finset ℕ)) (facts : Facts) (employeeId : ℕ) (day : Date) :
    Except ServiceError EmployeeAssignmentResolution :=
  (resolveEmployeeAssignmentsForDate facts employeeId day).map
    (EmployeeAssignmentResolution.visiblePart visible)

theorem sameTops_of_visible (hm : facts.masked visible = facts'.masked visible)
    (hv : fieldVisible visible fieldId = true) :
    SameTops (consideredCandidates facts employeeId day)
      (consideredCandidates facts' employeeId day) fieldId := by
  intro c hc
  rw [← topCandidate_masked hv hc, hm, topCandidate_masked hv hc]

theorem findPolicyMatches_same (hm : facts.masked visible = facts'.masked visible) :
    findPolicyMatches facts' employeeId day = findPolicyMatches facts employeeId day := by
  have h : ∀ f : Facts, findPolicyMatches (f.masked visible) employeeId day =
      findPolicyMatches f employeeId day := fun _ => findPolicyMatches_masked
  rw [← h, ← hm, h]

theorem getEffective_same (hm : facts.masked visible = facts'.masked visible)
    {ids : Option (List ℕ)} :
    getEffectivePolicyVersions facts'.toRules ids day =
      getEffectivePolicyVersions facts.toRules ids day := by
  have h : ∀ f : Facts, getEffectivePolicyVersions (f.masked visible).toRules ids day =
      getEffectivePolicyVersions f.toRules ids day := fun _ => rfl
  rw [← h, ← hm, h]

theorem exists_ofField {candidates : List Candidate}
    (h : ConflictedField (candidateSet candidates) fieldId) :
    ∃ first rest, ofField candidates fieldId = first :: rest := by
  obtain ⟨c, _, hc, _, hcf, _⟩ := h
  exact List.exists_cons_of_ne_nil (List.ne_nil_of_mem (mem_ofField.mpr ⟨hc.mem, hcf⟩))

theorem resolveEmployee_error_same (hm : facts.masked visible = facts'.masked visible)
    (h : HiddenTiesAgree visible (consideredCandidates facts employeeId day)
      (consideredCandidates facts' employeeId day)) {e : ServiceError}
    (he : resolveEmployeeAssignmentsForDate facts employeeId day = .error e) :
    resolveEmployeeAssignmentsForDate facts' employeeId day = .error e := by
  cases hfound : findPolicyMatches facts employeeId day with
  | error e' =>
    have hfound' := (findPolicyMatches_same hm).trans hfound
    unfold resolveEmployeeAssignmentsForDate at he ⊢
    rw [hfound] at he
    rw [hfound']
    exact he
  | ok found =>
    have hfound' := (findPolicyMatches_same hm).trans hfound
    obtain ⟨effective, heff⟩ := getEffective_of_found hfound
    have heff' := (getEffective_same hm).trans heff
    obtain ⟨f, first, rest, hf, hlist, rfl⟩ := (resolveEmployee_error_iff hfound heff).mp he
    obtain ⟨hf', htops⟩ := h.first (fun g => sameTops_of_visible hm) hf
    have hset := candidateSet_policyCandidates heff
    have hset' := candidateSet_policyCandidates heff'
    rw [consideredCandidates_of_found hfound, consideredCandidates_of_found hfound', ← hset,
      ← hset'] at htops
    obtain ⟨first', rest', hlist'⟩ : ∃ first rest, ofField (policyCandidates facts'.toRules
        (effective.values.map fun v => v.id)) f = first :: rest := by
      refine exists_ofField ?_
      rw [hset', ← consideredCandidates_of_found hfound']
      exact hf'.1
    refine (resolveEmployee_error_iff hfound' heff').mpr ⟨f, first', rest', hf', hlist', ?_⟩
    rw [tieConflict_congr policyCandidates_sorted policyCandidates_sorted policyCandidates_strict
      policyCandidates_strict hlist hlist' htops]

theorem visibleOutcome_same (hm : facts.masked visible = facts'.masked visible)
    (h : HiddenTiesAgree visible (consideredCandidates facts employeeId day)
      (consideredCandidates facts' employeeId day)) :
    visibleOutcome visible facts employeeId day = visibleOutcome visible facts' employeeId day := by
  unfold visibleOutcome
  cases hr : resolveEmployeeAssignmentsForDate facts employeeId day with
  | error e => rw [resolveEmployee_error_same hm h hr]
  | ok resolution =>
    cases hr' : resolveEmployeeAssignmentsForDate facts' employeeId day with
    | error e =>
      rw [resolveEmployee_error_same hm.symm h.symm hr'] at hr
      exact absurd hr (by simp)
    | ok resolution' =>
      have hv : resolveEmployeeAssignmentsForDate (facts.masked visible) employeeId day =
          .ok (resolution.visiblePart visible) := resolveEmployee_masked hr
      rw [hm, resolveEmployee_masked hr'] at hv
      exact hv.symm

/-- A reported candidate determines the row it stands for. -/
theorem candidate_of_reported (hm : facts.masked visible = facts'.masked visible) {ids : List ℕ}
    {c d : Candidate} (hc : c ∈ policyCandidates facts.toRules ids)
    (hd : d ∈ policyCandidates facts'.toRules ids) (hf : c.field.id = d.field.id)
    (h : conflictCandidate c = conflictCandidate d) : c = d := by
  obtain ⟨hcv, _, hcn, hcf, _⟩ := mem_policyCandidates.mp hc
  obtain ⟨hdv, _, hdn, hdf, _⟩ := mem_policyCandidates.mp hd
  have hversions := congrArg (fun f : Facts => f.policyVersions) hm
  have hfields := congrArg (fun f : Facts => f.assignmentFieldDefinitions) hm
  change facts.policyVersions = facts'.policyVersions at hversions
  change facts.assignmentFieldDefinitions = facts'.assignmentFieldDefinitions at hfields
  have hversion : c.version = d.version := by
    rw [← hversions] at hdv
    exact Table.key_inj hcv hdv (congrArg ConflictCandidate.policyVersionId h)
  have hfield : c.field = d.field := by
    rw [← hfields] at hdf
    exact Table.key_inj hcf hdf hf
  have hname : c.policyName = d.policyName := congrArg ConflictCandidate.policyName h
  have hvalue : c.value = d.value := congrArg ConflictCandidate.value h
  cases c
  cases d
  simp_all

/-- Where both sides report the same conflict, a top candidate of one is a top candidate of the other. -/
theorem top_of_reported (hm : facts.masked visible = facts'.masked visible) {ids : List ℕ}
    {first first' : Candidate} {rest rest' : List Candidate}
    (hlist : ofField (policyCandidates facts.toRules ids) fieldId = first :: rest)
    (hlist' : ofField (policyCandidates facts'.toRules ids) fieldId = first' :: rest')
    (hreported : (winners first rest).map conflictCandidate =
      (winners first' rest').map conflictCandidate) {c : Candidate}
    (htop : TopCandidate (candidateSet (policyCandidates facts.toRules ids)) c) (hc : c.field.id = fieldId) :
    TopCandidate (candidateSet (policyCandidates facts'.toRules ids)) c := by
  have hwinner := (mem_winners policyCandidates_sorted hlist).mpr ⟨htop, hc⟩
  have hreport := List.mem_map_of_mem (f := conflictCandidate) hwinner
  rw [hreported] at hreport
  obtain ⟨d, hd, hdc⟩ := List.mem_map.mp hreport
  obtain ⟨hdtop, hdf⟩ := (mem_winners policyCandidates_sorted hlist').mp hd
  rw [candidate_of_reported hm htop.mem hdtop.mem (hc.trans hdf.symm) hdc.symm]
  exact hdtop

/-- A conflict that both states report comes from the same candidates. -/
theorem sameTops_of_reported (hm : facts.masked visible = facts'.masked visible)
    (hf : FirstConflicted (consideredCandidates facts employeeId day) fieldId)
    (h : ∀ conflict,
      resolveEmployeeAssignmentsForDate facts employeeId day = .error (.policyConflict conflict) →
        resolveEmployeeAssignmentsForDate facts' employeeId day =
          .error (.policyConflict conflict)) :
    SameTops (consideredCandidates facts employeeId day)
      (consideredCandidates facts' employeeId day) fieldId := by
  obtain ⟨found, hfound⟩ : ∃ found, findPolicyMatches facts employeeId day = .ok found := by
    obtain ⟨⟨c, _, hc, _⟩, _⟩ := hf
    exact hc.mem.imp fun _ hfound => hfound.1
  have hfound' := (findPolicyMatches_same hm).trans hfound
  obtain ⟨effective, heff⟩ := getEffective_of_found hfound
  have heff' := (getEffective_same hm).trans heff
  have hset := (consideredCandidates_of_found hfound).trans (candidateSet_policyCandidates heff).symm
  have hset' := (consideredCandidates_of_found hfound').trans
    (candidateSet_policyCandidates heff').symm
  obtain ⟨first, rest, hlist⟩ : ∃ first rest, ofField (policyCandidates facts.toRules
      (effective.values.map fun v => v.id)) fieldId = first :: rest := by
    refine exists_ofField ?_
    rw [← hset]
    exact hf.1
  have herr := h _ ((resolveEmployee_error_iff hfound heff).mpr
    ⟨fieldId, first, rest, hf, hlist, rfl⟩)
  obtain ⟨f', first', rest', _, hlist', he⟩ := (resolveEmployee_error_iff hfound' heff').mp herr
  have htie : tieConflict first rest = tieConflict first' rest' := by
    injection he
  have hid : f' = fieldId := by
    have := congrArg PolicyConflict.assignmentFieldDefinitionId htie
    exact (first_mem hlist').2.symm.trans (this.symm.trans (first_mem hlist).2)
  rw [hid] at hlist'
  have hreported : (winners first rest).map conflictCandidate =
      (winners first' rest').map conflictCandidate := congrArg PolicyConflict.candidates htie
  rw [hset, hset']
  exact fun c hc => ⟨fun htop => top_of_reported hm hlist hlist' hreported htop hc,
    fun htop => top_of_reported hm.symm hlist' hlist hreported.symm htop hc⟩

end

/-! ## Answers from the assignment rows -/

section

variable {db : Db} {day : Date} {mode : AssignmentQueryMode} {effectiveAt now : DateTime}
  {employeeId : ℕ}

theorem visibleRows_masked : visibleRows visible
    (getEmployeeAssignmentsAsOf (db.masked visible) employeeId effectiveAt) =
      visibleRows visible (getEmployeeAssignmentsAsOf db employeeId effectiveAt) := by
  unfold visibleRows getEmployeeAssignmentsAsOf
  rw [← orderBy_filter, ← orderBy_filter]
  congr 1
  simp only [Db.masked, Table.select, Table.filter, List.filter_filter]
  refine List.filter_congr fun a _ => ?_
  cases fieldVisible visible a.assignmentFieldDefinitionId <;> simp

theorem persistedResult_masked :
    persistedResult (db.masked visible) day mode effectiveAt visible =
      persistedResult db day mode effectiveAt visible := by
  funext employeeId
  unfold persistedResult
  rw [visibleRows_masked]
  rfl

theorem persistedAssignments_masked {employeeIds : List ℕ} :
    persistedAssignments (db.masked visible) employeeIds effectiveAt visible =
      persistedAssignments db employeeIds effectiveAt visible := by
  unfold persistedAssignments visibleRows
  simp only [Db.masked, Table.select, Table.filter, List.filter_filter]
  congr 2
  refine List.filter_congr fun a _ => ?_
  cases fieldVisible visible a.assignmentFieldDefinitionId <;> simp

/-- Up to the present day the answers are read from visible rows. -/
theorem queryEmployeeAssignments_masked (h : day ≤ now.date) {employeeIds : List ℕ} :
    queryEmployeeAssignments (db.masked visible) employeeIds day visible now =
      queryEmployeeAssignments db employeeIds day visible now := by
  have hemployees : (db.masked visible).facts.employees = db.facts.employees := rfl
  unfold queryEmployeeAssignments
  simp only [persistedResult_masked, hemployees]
  rcases h.lt_or_eq with hlt | heq
  · rw [if_pos hlt, if_pos hlt]
  · rw [if_pos heq, if_pos heq]

theorem buildAssignmentSummary_masked (h : day ≤ now.date) {employee : Option ℕ}
    {visibleEmployeeIds : Option (Finset ℕ)} :
    buildAssignmentSummary (db.masked visible) day employee visibleEmployeeIds visible now =
      buildAssignmentSummary db day employee visibleEmployeeIds visible now := by
  have hemployees : summaryEmployees (db.masked visible).facts = summaryEmployees db.facts := rfl
  have hsummary : assignmentSummary (db.masked visible).facts.toRules =
      assignmentSummary db.facts.toRules := rfl
  unfold buildAssignmentSummary
  simp only [persistedAssignments_masked, hemployees, hsummary]
  rcases h.lt_or_eq with hlt | heq
  · rw [if_pos hlt, if_pos hlt]
  · rw [if_pos heq, if_pos heq]

end

/-! ## Answers from a resolution -/

section

variable {facts facts' : Facts} {day : Date}

theorem visibleItems_none (items : List FinalAssignment) : visibleItems none items = items :=
  List.filter_eq_self.mpr fun _ _ => rfl

/-- The calculated values depend on the visible part of each resolution only. -/
theorem calculatedResults_eq {ids : List ℕ} : calculatedResults facts ids day visible =
    match traverseAll (fun id => visibleOutcome visible facts id day) ids with
    | .error e => .error e
    | .ok resolutions =>
      traverseAll (calculatedResult (facts.masked visible).toRules none) resolutions := by
  have hvalues : ∀ resolution : EmployeeAssignmentResolution,
      calculatedResult (facts.masked visible).toRules none (resolution.visiblePart visible) =
        calculatedResult facts.toRules visible resolution := by
    intro resolution
    unfold calculatedResult
    rw [visibleItems_none]
    rfl
  unfold calculatedResults visibleOutcome
  rw [traverseAll_map_result]
  cases traverseAll (fun id => resolveEmployeeAssignmentsForDate facts id day) ids with
  | error e => rfl
  | ok resolutions =>
    simp only [Except.map, traverseAll_map, hvalues]

theorem summarizeEmployee_same
    (h : ∀ id, visibleOutcome visible facts id day = visibleOutcome visible facts' id day) :
    summarizeEmployee facts day visible = summarizeEmployee facts' day visible := by
  funext state id
  have hid := h id
  unfold visibleOutcome at hid
  unfold summarizeEmployee
  cases hr : resolveEmployeeAssignmentsForDate facts id day with
  | error e =>
    rw [hr] at hid
    rw [exceptMap_eq_error.mp hid.symm]
  | ok resolution =>
    rw [hr] at hid
    obtain ⟨resolution', hr', hpart⟩ := exceptMap_eq_ok.mp hid.symm
    rw [hr']
    have hitems := congrArg EmployeeAssignmentResolution.assignments hpart
    change visibleItems visible resolution'.assignments =
      visibleItems visible resolution.assignments at hitems
    simp only [hitems]

end

/-! ## The two states seen through the services -/

/-- Every request about a date gets the same answer, or the same error, from both states. -/
def SameAnswers (visible : Option (Finset ℕ)) (day : Date) (now : DateTime) (s t : Db) : Prop :=
  (∀ employeeIds, queryEmployeeAssignments s employeeIds day visible now =
    queryEmployeeAssignments t employeeIds day visible now) ∧
  ∀ employeeId visibleEmployeeIds,
    buildAssignmentSummary s day employeeId visibleEmployeeIds visible now =
      buildAssignmentSummary t day employeeId visibleEmployeeIds visible now

section

variable {s t : Db} {day : Date} {now : DateTime}

theorem sameAnswers_of_past (hm : s.masked visible = t.masked visible) (h : day ≤ now.date) :
    SameAnswers visible day now s t := by
  constructor
  · intro employeeIds
    rw [← queryEmployeeAssignments_masked h, hm, queryEmployeeAssignments_masked h]
  · intro employeeId visibleEmployeeIds
    rw [← buildAssignmentSummary_masked h, hm, buildAssignmentSummary_masked h]

theorem sameAnswers_of_outcomes (hm : s.masked visible = t.masked visible)
    (h : ∀ id, visibleOutcome visible s.facts id day = visibleOutcome visible t.facts id day) :
    SameAnswers visible day now s t := by
  rcases le_or_gt day now.date with hle | hlt
  · exact sameAnswers_of_past hm hle
  have hfacts : s.facts.masked visible = t.facts.masked visible := congrArg Db.facts hm
  have hemployees := congrArg (fun f : Facts => f.employees) hfacts
  change s.facts.employees = t.facts.employees at hemployees
  have hfuture : ¬ day < now.date ∧ day ≠ now.date := ⟨not_lt_of_gt hlt, hlt.ne'⟩
  constructor
  · intro employeeIds
    have houtcomes : (fun id => visibleOutcome visible s.facts id day) =
        fun id => visibleOutcome visible t.facts id day := funext h
    simp only [queryEmployeeAssignments, if_neg hfuture.1, if_neg hfuture.2, calculatedResults_eq,
      hemployees, houtcomes, hfacts]
  · intro employeeId visibleEmployeeIds
    have hlist : summaryEmployees s.facts = summaryEmployees t.facts := by
      unfold summaryEmployees
      rw [hemployees]
    have hmasked : ∀ f : Facts, assignmentSummary (f.masked visible).toRules =
        assignmentSummary f.toRules := fun _ => rfl
    have hsummary : assignmentSummary s.facts.toRules = assignmentSummary t.facts.toRules := by
      rw [← hmasked, hfacts, hmasked]
    simp only [buildAssignmentSummary, if_neg hfuture.1, if_neg hfuture.2,
      summarizeEmployee_same h, hlist, hsummary]

/-- Only an employee that exists has candidates. -/
theorem employee_of_conflicted {facts : Facts} {employeeId fieldId : ℕ}
    (h : ConflictedField (consideredCandidates facts employeeId day) fieldId) :
    (facts.employees.find? employeeId).isSome := by
  cases he : facts.employees.find? employeeId with
  | some employee => rfl
  | none =>
    obtain ⟨c, _, ⟨⟨found, hfound, hc⟩, _⟩, _⟩ := h
    unfold findPolicyMatches at hfound
    rw [he] at hfound
    cases hfound
    exact absurd hc.2.1 (by simp [Dict.keys, Dict.empty])

/-- Building the values fails only on a field that is not in the catalog. -/
theorem calculatedResult_error {rules : Rules} {resolution : EmployeeAssignmentResolution}
    {e : ServiceError} (h : calculatedResult rules visible resolution = .error e) :
    ∃ id, e = .notFound "AssignmentFieldDefinition" id := by
  obtain ⟨item, _, he⟩ := traverseAll_eq_error (exceptMap_eq_error.mp h)
  have hfield := exceptMap_eq_error.mp he
  unfold fieldDefinition orRaise at hfield
  split at hfield
  · exact absurd hfield (by simp)
  · exact ⟨_, (Except.error.inj hfield).symm⟩

/-- The query for one employee reports a conflict exactly when the resolution does. -/
theorem queryEmployeeAssignments_conflict {employeeId : ℕ}
    (hp : (s.facts.employees.find? employeeId).isSome) (hday : now.date < day)
    {conflict : PolicyConflict} :
    queryEmployeeAssignments s [employeeId] day visible now = .error (.policyConflict conflict) ↔
      resolveEmployeeAssignmentsForDate s.facts employeeId day =
        .error (.policyConflict conflict) := by
  have hids : sortedSet [employeeId].toFinset = [employeeId] := by
    simp only [List.toFinset_cons, List.toFinset_nil, insert_empty_eq]
    rfl
  have hpresent : [employeeId].filter (fun id => (s.facts.employees.find? id).isNone) = [] := by
    simp [Option.isSome_iff_ne_none.mp hp]
  simp only [queryEmployeeAssignments, hids, hpresent, ne_eq, not_true_eq_false, if_false,
    if_neg (not_lt_of_gt hday), if_neg hday.ne', calculatedResults, traverseAll]
  cases hr : resolveEmployeeAssignmentsForDate s.facts employeeId day with
  | error e => simp
  | ok resolution =>
    refine iff_of_false (fun h => ?_) (by simp)
    obtain ⟨_, _, hvalues⟩ := traverseAll_eq_error h
    obtain ⟨_, he⟩ := calculatedResult_error hvalues
    exact absurd he (by simp)

theorem hidden_fields_unobservable (hm : s.masked visible = t.masked visible) :
    SameAnswers visible day now s t ↔ day ≤ now.date ∨ ∀ employeeId,
      HiddenTiesAgree visible (consideredCandidates s.facts employeeId day)
        (consideredCandidates t.facts employeeId day) := by
  have hfacts : s.facts.masked visible = t.facts.masked visible := congrArg Db.facts hm
  constructor
  · rintro ⟨hquery, _⟩
    refine or_iff_not_imp_left.mpr fun hday employeeId fieldId _ hf => ?_
    rw [not_le] at hday
    have hemployees := congrArg (fun f : Facts => f.employees) hfacts
    change s.facts.employees = t.facts.employees at hemployees
    rcases hf with hf | hf
    · have hp := employee_of_conflicted hf.1
      refine sameTops_of_reported hfacts hf fun conflict hr => ?_
      rw [← queryEmployeeAssignments_conflict (hemployees ▸ hp) hday, ← hquery]
      exact (queryEmployeeAssignments_conflict hp hday).mpr hr
    · have hp := employee_of_conflicted hf.1
      refine (sameTops_of_reported hfacts.symm hf fun conflict hr => ?_).symm
      rw [← queryEmployeeAssignments_conflict (hemployees ▸ hp) hday, hquery]
      exact (queryEmployeeAssignments_conflict hp hday).mpr hr
  · rintro (hday | hties)
    · exact sameAnswers_of_past hm hday
    · exact sameAnswers_of_outcomes hm fun id => visibleOutcome_same hfacts (hties id)

end

/-! ## A tie in a hidden field -/

def nextJuly : Date := .on 2026 7 1

/-- Two policies that start in June set the hidden field 2, the second one to `value`. -/
def bandDb (value : String) : Db :=
  { Db.empty with
    facts :=
      { assignmentFieldDefinitions := .ofRows
          [⟨1, "laptop", .one, "priority", .text⟩, ⟨2, "salary_band", .one, "priority", .text⟩]
        conditionFieldDefinitions := .ofRows
          [⟨1, "department", .static, "string", some "employee_attribute_department_v1",
            some "employees", some "department", true⟩]
        conditionFieldDependencies := .empty
        policies := .ofRows [⟨1, "Standard", .active, none⟩, ⟨2, "Engineers", .active, none⟩]
        policyVersions := .ofRows
          [⟨1, 1, 1, 10, .on 2026 6 1, none, none⟩, ⟨2, 2, 1, 10, .on 2026 6 1, none, none⟩]
        policyFieldValues := .ofRows [⟨1, 1, "small"⟩, ⟨1, 2, "A"⟩, ⟨2, 2, value⟩]
        compiledPolicyClauses := .ofRows [⟨1, 1⟩, ⟨2, 2⟩]
        compiledPolicyConditions := .ofRows
          [⟨1, 1, 1, .eq, "Engineering"⟩, ⟨2, 2, 1, .eq, "Engineering"⟩]
        employees := .ofRows [⟨1, "Ada", "CA", "Engineering", "full_time", none, newYear, none⟩]
        groups := .empty
        employeeGroupMemberships := .empty
        groupPolicies := .empty
        employeeOverrides := .empty } }

theorem bandDb_masked (value value' : String) :
    (bandDb value).masked (some {1}) = (bandDb value').masked (some {1}) := rfl

theorem hidden_fields_unobservable_today :
    SameAnswers (some {1}) newYear (startOfDay newYear) (bandDb "A") (bandDb "B") :=
  (hidden_fields_unobservable (bandDb_masked "A" "B")).mpr (Or.inl le_rfl)

/-- The conflict of the hidden field is the answer to a query that may only see the other one. -/
theorem hidden_conflict_observable :
    (bandDb "A").masked (some {1}) = (bandDb "B").masked (some {1}) ∧
      ¬ SameAnswers (some {1}) nextJuly (startOfDay newYear) (bandDb "A") (bandDb "B") := by
  refine ⟨bandDb_masked "A" "B", fun h => ?_⟩
  have hquery := h.1 [1]
  have hleft : (queryEmployeeAssignments (bandDb "A") [1] nextJuly (some {1})
      (startOfDay newYear)).toOption.isSome = true := by decide +kernel
  have hright : (queryEmployeeAssignments (bandDb "B") [1] nextJuly (some {1})
      (startOfDay newYear)).toOption.isSome = false := by decide +kernel
  rw [hquery, hright] at hleft
  exact absurd hleft (by simp)

end Warp
