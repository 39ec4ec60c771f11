import Warp.Overrides

/-!
# Conflict resolution

The engine sorts the candidates, groups them by field and folds over the groups. Here its result is
compared with a definition over the set of the candidates: who has the highest priority in a field,
and which source is the smallest in (-priority, version id).
-/

namespace Warp

open Infra

/-! ## The reference -/

/-- A candidate with the highest priority of its field. -/
structure TopCandidate (S : Set Candidate) (c : Candidate) : Prop where
  mem : c ∈ S
  top : ∀ x ∈ S, x.field.id = c.field.id → x.version.priority ≤ c.version.priority

/-- Two candidates with the highest priority of a one-valued field carry different values. -/
def Conflicted (S : Set Candidate) : Prop :=
  ∃ c d, TopCandidate S c ∧ TopCandidate S d ∧ c.field.id = d.field.id ∧
    c.field.cardinality = .one ∧ c.value ≠ d.value

/-- Smaller in (-priority, version id). -/
def Precedes (c d : Candidate) : Prop :=
  d.version.priority < c.version.priority ∨
    (d.version.priority = c.version.priority ∧ c.version.id ≤ d.version.id)

/-- The candidate that a one-valued field takes its value and its source from. -/
def OneWinner (S : Set Candidate) (c : Candidate) : Prop :=
  c.field.cardinality = .one ∧ TopCandidate S c ∧
    ∀ d, TopCandidate S d → d.field.id = c.field.id → c.version.id ≤ d.version.id

/-- The candidate that a many-valued field takes the source of its value from. -/
def ManyWinner (S : Set Candidate) (c : Candidate) : Prop :=
  c.field.cardinality = .many ∧ c ∈ S ∧
    ∀ d ∈ S, d.field.id = c.field.id → d.value = c.value → Precedes c d

/-- What the reference assigns: field, value and source version. -/
def ReferenceAssignment (S : Set Candidate) (fieldId : ℕ) (value : String) (source : ℕ) : Prop :=
  ∃ c, (OneWinner S c ∨ ManyWinner S c) ∧ c.field.id = fieldId ∧ c.value = value ∧
    c.version.id = source

/-- The candidates of a list, in any order. -/
def candidateSet (candidates : List Candidate) : Set Candidate := {c | c ∈ candidates}

/-- The field id of a candidate determines the field. -/
def FieldsAgree (candidates : List Candidate) : Prop :=
  ∀ c ∈ candidates, ∀ d ∈ candidates, c.field.id = d.field.id → c.field = d.field

def CandidatesSorted (candidates : List Candidate) : Prop :=
  candidates.Pairwise (fun c d => candidateOrder c ≤ candidateOrder d)

/-! ## The candidates of a field -/

def ofField (candidates : List Candidate) (fieldId : ℕ) : List Candidate :=
  candidates.filter (fun c => c.field.id = fieldId)

theorem mem_ofField {candidates : List Candidate} {fieldId : ℕ} {c : Candidate} :
    c ∈ ofField candidates fieldId ↔ c ∈ candidates ∧ c.field.id = fieldId := by
  simp [ofField]

theorem field_le_of_order {c d : Candidate} (h : candidateOrder c ≤ candidateOrder d) :
    c.field.id ≤ d.field.id := by
  rcases Prod.Lex.le_iff.mp h with h | h
  · exact le_of_lt h
  · exact h.1.le

theorem precedes_of_order {c d : Candidate} (h : candidateOrder c ≤ candidateOrder d)
    (hf : c.field.id = d.field.id) : Precedes c d := by
  rcases Prod.Lex.le_iff.mp h with h | ⟨_, h⟩
  · exact absurd hf (ne_of_lt h)
  · rcases Prod.Lex.le_iff.mp h with h | ⟨h1, h2⟩
    · exact Or.inl (Int.neg_lt_neg_iff.mp h)
    · exact Or.inr ⟨(Int.neg_inj.mp h1).symm, h2⟩

theorem Precedes.refl (c : Candidate) : Precedes c c := Or.inr ⟨rfl, le_rfl⟩

theorem Precedes.priority_le {c d : Candidate} (h : Precedes c d) :
    d.version.priority ≤ c.version.priority :=
  h.elim le_of_lt fun h => h.1.le

theorem Precedes.antisymm_id {c d : Candidate} (h : Precedes c d) (h' : Precedes d c) :
    c.version.id = d.version.id := by
  rcases h with h | ⟨h1, h2⟩
  · exact absurd h'.priority_le (not_le.mpr h)
  · rcases h' with h' | ⟨_, h3⟩
    · exact absurd h1.le (not_le.mpr h')
    · exact le_antisymm h2 h3

section

variable {candidates : List Candidate} {fieldId : ℕ} {first : Candidate} {rest : List Candidate}

theorem ofField_precedes (hs : CandidatesSorted candidates) (fieldId : ℕ) :
    (ofField candidates fieldId).Pairwise Precedes := by
  have hp := List.Pairwise.filter (fun c : Candidate => c.field.id = fieldId) hs
  refine hp.imp_of_mem ?_
  intro c d hc hd h
  refine precedes_of_order h ?_
  rw [(mem_ofField.mp hc).2, (mem_ofField.mp hd).2]

/-- The first candidate of a field comes before all of them. -/
theorem first_precedes (hs : CandidatesSorted candidates)
    (hf : ofField candidates fieldId = first :: rest) {c : Candidate} (hc : c ∈ candidates)
    (hcf : c.field.id = fieldId) : Precedes first c := by
  have hp := ofField_precedes hs fieldId
  rw [hf] at hp
  have hm : c ∈ first :: rest := by
    rw [← hf]
    exact mem_ofField.mpr ⟨hc, hcf⟩
  rcases List.mem_cons.mp hm with rfl | hm
  · exact Precedes.refl _
  · exact (List.pairwise_cons.mp hp).1 c hm

theorem first_mem (hf : ofField candidates fieldId = first :: rest) :
    first ∈ candidates ∧ first.field.id = fieldId := by
  refine mem_ofField.mp ?_
  rw [hf]
  exact List.mem_cons_self

theorem first_top (hs : CandidatesSorted candidates)
    (hf : ofField candidates fieldId = first :: rest) : TopCandidate (candidateSet candidates) first := by
  obtain ⟨hm, hid⟩ := first_mem hf
  refine ⟨hm, fun x hx hxf => ?_⟩
  exact (first_precedes hs hf hx (hxf.trans hid)).priority_le

end

/-! ## One-valued fields -/

section

variable {candidates : List Candidate} {fieldId : ℕ} {first : Candidate} {rest : List Candidate}
  {policyMatches : PolicyMatches} {field : AssignmentFieldDefinition}

/-- The winners of a field are its candidates of the highest priority. -/
theorem mem_winners (hs : CandidatesSorted candidates)
    (hf : ofField candidates fieldId = first :: rest) {c : Candidate} :
    c ∈ winners first rest ↔ TopCandidate (candidateSet candidates) c ∧ c.field.id = fieldId := by
  obtain ⟨hm, hid⟩ := first_mem hf
  rw [winners, List.mem_filter, ← hf, mem_ofField, decide_eq_true_eq]
  constructor
  · rintro ⟨⟨hc, hcf⟩, hp⟩
    refine ⟨⟨hc, fun x hx hxf => ?_⟩, hcf⟩
    rw [hp]
    exact (first_precedes hs hf hx (hxf.trans hcf)).priority_le
  · rintro ⟨⟨hc, htop⟩, hcf⟩
    refine ⟨⟨hc, hcf⟩, le_antisymm ?_ (htop first hm (hid.trans hcf.symm))⟩
    exact (first_precedes hs hf hc hcf).priority_le

theorem resolveOne_eq_error {e : ServiceError}
    (h : resolveOne field first rest policyMatches = .error e) :
    (∃ conflict, e = .policyConflict conflict) ∧
      ∃ d ∈ winners first rest, d.value ≠ first.value := by
  unfold resolveOne at h
  by_cases hany : (winners first rest).any (fun c => c.value ≠ first.value) = true
  · obtain ⟨d, hd, hne⟩ := List.any_eq_true.mp hany
    rw [if_pos hany] at h
    exact ⟨⟨_, (Except.error.inj h).symm⟩, d, hd, by simpa using hne⟩
  · rw [if_neg hany] at h
    exact absurd h (by simp)

theorem resolveOne_of_conflict (field : AssignmentFieldDefinition) (policyMatches : PolicyMatches)
    {d : Candidate} (hd : d ∈ winners first rest)
    (hne : d.value ≠ first.value) :
    ∃ conflict, resolveOne field first rest policyMatches = .error (.policyConflict conflict) := by
  have hany : (winners first rest).any (fun c => c.value ≠ first.value) = true :=
    List.any_eq_true.mpr ⟨d, hd, by simpa using hne⟩
  unfold resolveOne
  rw [if_pos hany]
  exact ⟨_, rfl⟩

theorem resolveOne_eq_ok {r : ResolvedAssignment}
    (h : resolveOne field first rest policyMatches = .ok r) :
    r.assignmentFieldDefinitionId = field.id ∧ r.value = first.value ∧
      r.sourcePolicyVersionId = first.version.id ∧
        ∀ d ∈ winners first rest, d.value = first.value := by
  unfold resolveOne at h
  by_cases hany : (winners first rest).any (fun c => c.value ≠ first.value) = true
  · rw [if_pos hany] at h
    exact absurd h (by simp)
  · rw [if_neg hany] at h
    cases h
    refine ⟨rfl, rfl, rfl, fun d hd => ?_⟩
    by_contra hne
    exact hany (List.any_eq_true.mpr ⟨d, hd, by simpa using hne⟩)

/-- Without a conflict the first candidate is the one the reference chooses. -/
theorem oneWinner_iff (hs : CandidatesSorted candidates) (hagree : FieldsAgree candidates)
    (hf : ofField candidates fieldId = first :: rest) (hone : first.field.cardinality = .one)
    (hsame : ∀ d ∈ winners first rest, d.value = first.value) {value : String} {source : ℕ} :
    ReferenceAssignment (candidateSet candidates) fieldId value source ↔
      first.value = value ∧ first.version.id = source := by
  obtain ⟨hm, hid⟩ := first_mem hf
  have hlowest : ∀ d, TopCandidate (candidateSet candidates) d → d.field.id = fieldId →
      first.version.id ≤ d.version.id := by
    intro d hd hdf
    rcases first_precedes hs hf hd.mem hdf with hlt | ⟨_, hle⟩
    · exact absurd (hd.top first hm (hid.trans hdf.symm)) (not_le.mpr hlt)
    · exact hle
  constructor
  · rintro ⟨c, hc | hc, hcid, rfl, rfl⟩
    · refine ⟨(hsame c ((mem_winners hs hf).mpr ⟨hc.2.1, hcid⟩)).symm, ?_⟩
      refine le_antisymm (hlowest c hc.2.1 hcid) ?_
      exact hc.2.2 first (first_top hs hf) (hid.trans hcid.symm)
    · have hcard := hc.1
      rw [hagree c hc.2.1 first hm (hcid.trans hid.symm), hone] at hcard
      exact absurd hcard (by simp)
  · rintro ⟨rfl, rfl⟩
    refine ⟨first, Or.inl ⟨hone, first_top hs hf, fun d hd hdf => ?_⟩, hid, rfl, rfl⟩
    exact hlowest d hd (hdf.trans hid)

end

/-! ## Many-valued fields -/

section

variable {candidates : List Candidate} {fieldId : ℕ} {policyMatches : PolicyMatches}
  {field : AssignmentFieldDefinition}

theorem mem_uniqueCandidates {group : List Candidate} {c : Candidate} :
    c ∈ (uniqueCandidates group).values ↔ group.find? (fun x => x.value = c.value) = some c := by
  rw [Dict.mem_values, uniqueCandidates]
  simp only [Dict.mem_firsts, List.find?_map, Option.map_eq_some_iff, Prod.mk.injEq]
  constructor
  · rintro ⟨v, x, hx, rfl, rfl⟩
    exact hx
  · exact fun h => ⟨c.value, c, h, rfl, rfl⟩

/-- The first candidate of each value is the one the reference chooses. -/
theorem unique_manyWinner (hs : CandidatesSorted candidates) {c : Candidate}
    (hmany : c.field.cardinality = .many)
    (hc : c ∈ (uniqueCandidates (ofField candidates fieldId)).values) :
    ManyWinner (candidateSet candidates) c ∧ c.field.id = fieldId := by
  have hfind := mem_uniqueCandidates.mp hc
  obtain ⟨hm, hid⟩ := mem_ofField.mp (List.mem_of_find?_eq_some hfind)
  refine ⟨⟨hmany, hm, fun d hd hdf hdv => ?_⟩, hid⟩
  have hdm : d ∈ ofField candidates fieldId := mem_ofField.mpr ⟨hd, hdf.trans hid⟩
  rcases find?_first (ofField_precedes hs _) hfind hdm (by simpa using hdv) with rfl | hp
  · exact Precedes.refl _
  · exact hp

theorem manyWinner_unique (hs : CandidatesSorted candidates) (hagree : FieldsAgree candidates)
    {c : Candidate} (hc : ManyWinner (candidateSet candidates) c) (hid : c.field.id = fieldId) :
    ∃ w ∈ (uniqueCandidates (ofField candidates fieldId)).values, w.value = c.value ∧
      w.version.id = c.version.id := by
  have hcm : c ∈ ofField candidates fieldId := mem_ofField.mpr ⟨hc.2.1, hid⟩
  obtain ⟨w, hw⟩ : ∃ w, (ofField candidates fieldId).find? (fun x => x.value = c.value) = some w :=
    Option.isSome_iff_exists.mp (List.find?_isSome.mpr ⟨c, hcm, by simp⟩)
  have hwv : w.value = c.value := by simpa using List.find?_some hw
  have hwu : w ∈ (uniqueCandidates (ofField candidates fieldId)).values :=
    mem_uniqueCandidates.mpr (by rw [hwv]; exact hw)
  obtain ⟨hwm, hwid⟩ := mem_ofField.mp (List.mem_of_find?_eq_some hw)
  have hmany : w.field.cardinality = .many := by
    rw [hagree w hwm c hc.2.1 (hwid.trans hid.symm)]
    exact hc.1
  have hwc := (unique_manyWinner hs hmany hwu).1.2.2 c hc.2.1 (hid.trans hwid.symm) hwv.symm
  have hcw := hc.2.2 w hwm (hwid.trans hid.symm) hwv
  exact ⟨w, hwu, hwv, hwc.antisymm_id hcw⟩

end

/-! ## One field of the engine -/

section

variable {candidates : List Candidate} {fieldId : ℕ} {policyMatches : PolicyMatches}

theorem resolveField_eq_error (hs : CandidatesSorted candidates) {e : ServiceError}
    (h : resolveField policyMatches (ofField candidates fieldId) = .error e) :
    (∃ conflict, e = .policyConflict conflict) ∧ Conflicted (candidateSet candidates) := by
  cases hf : ofField candidates fieldId with
  | nil =>
    rw [hf] at h
    exact absurd h (by simp [resolveField])
  | cons first rest =>
    rw [hf, resolveField] at h
    cases hc : first.field.cardinality with
    | many =>
      rw [hc] at h
      exact absurd h (by simp)
    | one =>
      rw [hc] at h
      obtain ⟨hconflict, d, hd, hne⟩ := resolveOne_eq_error (exceptMap_eq_error.mp h)
      obtain ⟨hdtop, hdf⟩ := (mem_winners hs hf).mp hd
      refine ⟨hconflict, first, d, first_top hs hf, hdtop, ?_, hc, Ne.symm hne⟩
      rw [(first_mem hf).2, hdf]

theorem resolveField_conflict (policyMatches : PolicyMatches) (hs : CandidatesSorted candidates) (hagree : FieldsAgree candidates)
    {c d : Candidate} (hc : TopCandidate (candidateSet candidates) c) (hd : TopCandidate (candidateSet candidates) d)
    (hcd : c.field.id = d.field.id) (hone : c.field.cardinality = .one) (hne : c.value ≠ d.value) :
    ∃ conflict, resolveField policyMatches (ofField candidates c.field.id) =
      .error (.policyConflict conflict) := by
  cases hf : ofField candidates c.field.id with
  | nil =>
    have hm : c ∈ ofField candidates c.field.id := mem_ofField.mpr ⟨hc.mem, rfl⟩
    rw [hf] at hm
    exact absurd hm (by simp)
  | cons first rest =>
    obtain ⟨hm, hid⟩ := first_mem hf
    have hdiffers : ∃ x ∈ winners first rest, x.value ≠ first.value := by
      by_cases hcv : c.value = first.value
      · exact ⟨d, (mem_winners hs hf).mpr ⟨hd, hcd.symm⟩, fun h => hne (hcv.trans h.symm)⟩
      · exact ⟨c, (mem_winners hs hf).mpr ⟨hc, rfl⟩, hcv⟩
    obtain ⟨x, hx, hxne⟩ := hdiffers
    obtain ⟨conflict, he⟩ := resolveOne_of_conflict first.field policyMatches hx hxne
    refine ⟨conflict, ?_⟩
    rw [resolveField, hagree first hm c hc.mem hid, hone, ← hagree first hm c hc.mem hid, he]
    rfl

/-- What a field without a conflict resolves to. -/
theorem resolveField_eq_ok (hs : CandidatesSorted candidates) (hagree : FieldsAgree candidates)
    {resolved : List ResolvedAssignment}
    (h : resolveField policyMatches (ofField candidates fieldId) = .ok resolved)
    {value : String} {source : ℕ} :
    (∃ r ∈ resolved, r.value = value ∧ r.sourcePolicyVersionId = source) ↔
      ReferenceAssignment (candidateSet candidates) fieldId value source := by
  cases hf : ofField candidates fieldId with
  | nil =>
    rw [hf, resolveField] at h
    cases h
    refine iff_of_false (by simp) ?_
    rintro ⟨c, hc, hcf, _, _⟩
    have hm : c ∈ candidates := hc.elim (fun h => h.2.1.mem) (fun h => h.2.1)
    have hmf : c ∈ ofField candidates fieldId := mem_ofField.mpr ⟨hm, hcf⟩
    rw [hf] at hmf
    exact absurd hmf (by simp)
  | cons first rest =>
    obtain ⟨hm, hid⟩ := first_mem hf
    rw [hf, resolveField] at h
    cases hcard : first.field.cardinality with
    -- a one-valued field that resolves has a single winner
    | one =>
      rw [hcard] at h
      obtain ⟨r, hr, rfl⟩ := exceptMap_eq_ok.mp h
      obtain ⟨_, hv, hsrc, hsame⟩ := resolveOne_eq_ok hr
      rw [oneWinner_iff hs hagree hf hcard hsame]
      simp [hv, hsrc]
    -- a many-valued field keeps the first candidate of every value
    | many =>
      rw [hcard] at h
      cases h
      have hmany : ∀ c ∈ (uniqueCandidates (ofField candidates fieldId)).values,
          c.field.cardinality = .many := by
        intro c hc
        have hcm := List.mem_of_find?_eq_some (mem_uniqueCandidates.mp hc)
        obtain ⟨hcm, hcid⟩ := mem_ofField.mp hcm
        rw [hagree c hcm first hm (hcid.trans hid.symm)]
        exact hcard
      rw [← hf]
      constructor
      · rintro ⟨r, hr, rfl, rfl⟩
        obtain ⟨c, hc, rfl⟩ := List.mem_map.mp hr
        obtain ⟨hwin, hcid⟩ := unique_manyWinner hs (hmany c hc) hc
        exact ⟨c, Or.inr hwin, hcid, rfl, rfl⟩
      · rintro ⟨c, hc | hc, hcid, rfl, rfl⟩
        · have hone := hc.1
          rw [hagree c hc.2.1.mem first hm (hcid.trans hid.symm), hcard] at hone
          exact absurd hone (by simp)
        · obtain ⟨w, hw, hwv, hwid⟩ := manyWinner_unique hs hagree hc hcid
          exact ⟨_, List.mem_map_of_mem hw, hwv, hwid⟩

end

/-! ## All fields -/

/-- No two results of a list have the same field and value. -/
def DistinctValues (resolved : List ResolvedAssignment) : Prop :=
  resolved.Pairwise (fun r r' =>
    (r.assignmentFieldDefinitionId, r.value) ≠ (r'.assignmentFieldDefinitionId, r'.value))

section

variable {candidates : List Candidate} {policyMatches : PolicyMatches}

theorem resolveField_fieldId {fieldId : ℕ} {resolved : List ResolvedAssignment}
    (h : resolveField policyMatches (ofField candidates fieldId) = .ok resolved) :
    ∀ r ∈ resolved, r.assignmentFieldDefinitionId = fieldId := by
  cases hf : ofField candidates fieldId with
  | nil =>
    rw [hf] at h
    cases h
    simp
  | cons first rest =>
    intro r hr
    rw [hf, resolveField] at h
    cases hcard : first.field.cardinality with
    | one =>
      rw [hcard] at h
      obtain ⟨r', hr', rfl⟩ := exceptMap_eq_ok.mp h
      rw [List.mem_singleton.mp hr, (resolveOne_eq_ok hr').1]
      exact (first_mem hf).2
    | many =>
      rw [hcard] at h
      cases h
      obtain ⟨c, hc, rfl⟩ := List.mem_map.mp hr
      have hcm := List.mem_of_find?_eq_some (mem_uniqueCandidates.mp hc)
      rw [← hf] at hcm
      exact (mem_ofField.mp hcm).2

theorem resolveField_distinct {group : List Candidate} {resolved : List ResolvedAssignment}
    (h : resolveField policyMatches group = .ok resolved) : DistinctValues resolved := by
  cases group with
  | nil =>
    cases h
    exact List.Pairwise.nil
  | cons first rest =>
    rw [resolveField] at h
    cases hcard : first.field.cardinality with
    | one =>
      rw [hcard] at h
      obtain ⟨r, _, rfl⟩ := exceptMap_eq_ok.mp h
      exact List.pairwise_singleton _ _
    | many =>
      rw [hcard] at h
      cases h
      refine List.Pairwise.map _ (R := fun c d : Candidate => c.value ≠ d.value) ?_ ?_
      · intro c d hne he
        exact hne (congrArg Prod.snd he)
      · -- the values are the keys of the dictionary
        have hkeys := (uniqueCandidates (first :: rest)).nodup
        have hval : ∀ p ∈ (uniqueCandidates (first :: rest)).entries, p.1 = p.2.value := by
          rintro ⟨v, c⟩ hp
          rw [uniqueCandidates, Dict.mem_firsts, List.find?_map, Option.map_eq_some_iff] at hp
          obtain ⟨x, _, he⟩ := hp
          cases he
          rfl
        rw [List.Nodup, List.pairwise_map] at hkeys
        rw [Dict.values, List.pairwise_map]
        refine hkeys.imp_of_mem ?_
        intro p q hp hq hne
        rw [← hval p hp, ← hval q hq]
        exact hne

theorem group_eq_ofField (hs : CandidatesSorted candidates) {g : ℕ × List Candidate}
    (hg : g ∈ groupBy (fun c : Candidate => c.field.id) candidates) :
    g.2 = ofField candidates g.1 := by
  have hsorted : candidates.Pairwise (fun c d => c.field.id ≤ d.field.id) :=
    hs.imp field_le_of_order
  exact groupBy_eq_filter hsorted (k := g.1) (g := g.2) hg

/-- Restricted to some of the fields, those are resolved as before. -/
theorem resolveCandidates_filter (p : ℕ → Bool) (hs : CandidatesSorted candidates)
    {resolved : List ResolvedAssignment}
    (h : resolveCandidates policyMatches candidates = .ok resolved) :
    resolveCandidates policyMatches (candidates.filter fun c => p c.field.id) =
      .ok (resolved.filter fun r => p r.assignmentFieldDefinitionId) := by
  have hsorted : candidates.Pairwise (fun c d => c.field.id ≤ d.field.id) :=
    hs.imp field_le_of_order
  unfold resolveCandidates at h ⊢
  rw [groupBy_filter p hsorted]
  cases ht : traverseAll (fun g => resolveField policyMatches g.2)
      (groupBy (fun c : Candidate => c.field.id) candidates) with
  | error e =>
    rw [ht] at h
    exact absurd h (by simp)
  | ok parts =>
    rw [ht] at h
    cases h
    have hfield : ∀ g ∈ groupBy (fun c : Candidate => c.field.id) candidates, ∀ part,
        resolveField policyMatches g.2 = .ok part → ∀ r ∈ part,
          p r.assignmentFieldDefinitionId = p g.1 := by
      intro g hg part hpart r hr
      rw [group_eq_ofField hs hg] at hpart
      rw [resolveField_fieldId hpart r hr]
    obtain ⟨cs, hcs, hflat⟩ := traverseAll_filter_flatten
      (q := fun r => p r.assignmentFieldDefinitionId) ht hfield
    rw [hcs]
    exact congrArg Except.ok hflat

/-- The results of one field are resolved from its candidates. -/
theorem resolveField_of_resolved (fieldId : ℕ) (hs : CandidatesSorted candidates)
    {resolved : List ResolvedAssignment}
    (h : resolveCandidates policyMatches candidates = .ok resolved) :
    resolveField policyMatches (ofField candidates fieldId) =
      .ok (resolved.filter fun r => r.assignmentFieldDefinitionId = fieldId) := by
  have hfield := resolveCandidates_filter (fun f => f = fieldId) hs h
  change resolveCandidates policyMatches (ofField candidates fieldId) = _ at hfield
  rw [← hfield]
  unfold resolveCandidates
  by_cases hne : ofField candidates fieldId = []
  · rw [hne]
    rfl
  · rw [groupBy_const hne fun c hc => (mem_ofField.mp hc).2, traverseAll_cons]
    cases resolveField policyMatches (ofField candidates fieldId) with
    | error e => rfl
    | ok part => simp

theorem resolveCandidates_eq_error (hs : CandidatesSorted candidates) {e : ServiceError}
    (h : resolveCandidates policyMatches candidates = .error e) :
    (∃ conflict, e = .policyConflict conflict) ∧ Conflicted (candidateSet candidates) := by
  unfold resolveCandidates at h
  split at h
  · next e' ht =>
    cases h
    obtain ⟨g, hg, he⟩ := traverseAll_eq_error ht
    rw [group_eq_ofField hs hg] at he
    exact resolveField_eq_error hs he
  · exact absurd h (by simp)

/-- The engine raises a conflict whenever the reference has one. -/
theorem resolveCandidates_conflict (hs : CandidatesSorted candidates)
    (hagree : FieldsAgree candidates) (h : Conflicted (candidateSet candidates)) :
    ∃ conflict, resolveCandidates policyMatches candidates = .error (.policyConflict conflict) := by
  obtain ⟨c, d, hc, hd, hcd, hone, hne⟩ := h
  have herror : ∃ e, resolveCandidates policyMatches candidates = .error e := by
    unfold resolveCandidates
    split
    · next e _ => exact ⟨e, rfl⟩
    · next resolved ht =>
      obtain ⟨g, hg, _⟩ := mem_groupBy_of_mem (fun c : Candidate => c.field.id) hc.mem
      obtain ⟨r, _, hr⟩ := traverseAll_mem ht hg
      obtain ⟨conflict, he⟩ := resolveField_conflict policyMatches hs hagree hc hd hcd hone
        hne
      rw [group_eq_ofField hs hg, he] at hr
      exact absurd hr (by simp)
  obtain ⟨e, he⟩ := herror
  obtain ⟨⟨conflict, rfl⟩, _⟩ := resolveCandidates_eq_error hs he
  exact ⟨conflict, he⟩

theorem resolveCandidates_eq_ok (hs : CandidatesSorted candidates) (hagree : FieldsAgree candidates)
    {resolved : List ResolvedAssignment}
    (h : resolveCandidates policyMatches candidates = .ok resolved) {fieldId : ℕ} {value : String}
    {source : ℕ} :
    (∃ r ∈ resolved, r.assignmentFieldDefinitionId = fieldId ∧ r.value = value ∧
      r.sourcePolicyVersionId = source) ↔
        ReferenceAssignment (candidateSet candidates) fieldId value source := by
  unfold resolveCandidates at h
  split at h
  · exact absurd h (by simp)
  · next parts ht =>
    cases h
    constructor
    · rintro ⟨r, hr, hrf, hrv⟩
      obtain ⟨part, hpart, hrp⟩ := List.mem_flatten.mp hr
      obtain ⟨g, hg, hres⟩ := mem_of_traverseAll ht hpart
      rw [group_eq_ofField hs hg] at hres
      rw [resolveField_fieldId hres r hrp] at hrf
      rw [← hrf]
      exact (resolveField_eq_ok hs hagree hres).mp ⟨r, hrp, hrv⟩
    · intro href
      obtain ⟨c, hc, hcf, _⟩ := id href
      have hcm : c ∈ candidates := hc.elim (fun h => h.2.1.mem) (fun h => h.2.1)
      obtain ⟨g, hg, _⟩ := mem_groupBy_of_mem (fun c : Candidate => c.field.id) hcm
      obtain ⟨part, hpart, hres⟩ := traverseAll_mem ht hg
      rw [group_eq_ofField hs hg] at hres
      have hres' : resolveField policyMatches (ofField candidates fieldId) = .ok part := by
        rw [← hcf]
        exact hres
      obtain ⟨r, hr, hrv⟩ := (resolveField_eq_ok hs hagree hres').mpr href
      exact ⟨r, List.mem_flatten.mpr ⟨part, hpart, hr⟩, resolveField_fieldId hres' r hr, hrv⟩

theorem resolveCandidates_distinct (hs : CandidatesSorted candidates)
    {resolved : List ResolvedAssignment}
    (h : resolveCandidates policyMatches candidates = .ok resolved) : DistinctValues resolved := by
  unfold resolveCandidates at h
  split at h
  · exact absurd h (by simp)
  · next parts ht =>
    cases h
    have hgroups := groupBy_keys_sorted (fun c : Candidate => c.field.id)
      (hs.imp field_le_of_order)
    rw [DistinctValues, List.pairwise_flatten]
    constructor
    · intro part hpart
      obtain ⟨g, _, hres⟩ := mem_of_traverseAll ht hpart
      exact resolveField_distinct hres
    · -- two groups have different field ids
      refine traverseAll_pairwise ht hgroups fun g hg g' hg' part part' hlt hres hres' => ?_
      rw [group_eq_ofField hs hg] at hres
      rw [group_eq_ofField hs hg'] at hres'
      intro r hr r' hr' he
      have hid := resolveField_fieldId hres r hr
      have hid' := resolveField_fieldId hres' r' hr'
      have hne := hlt.ne
      rw [← hid, ← hid'] at hne
      exact hne (congrArg Prod.fst he)

end

/-! ## The candidates of the matched versions -/

/-- The outputs of the versions of some policies that are effective on a date. -/
def EffectiveCandidates (rules : Rules) (policyIds : List ℕ) (day : Date) : Set Candidate :=
  {c | c.version ∈ rules.policyVersions ∧ c.version.policyId ∈ policyIds ∧
    rules.policyActive c.version.policyId = true ∧ c.version.effectiveOn day = true ∧
    c.policyName = policyName rules c.version.policyId ∧
    c.field ∈ rules.assignmentFieldDefinitions ∧
    ⟨c.version.id, c.field.id, c.value⟩ ∈ rules.policyFieldValues}

section

variable {rules : Rules} {versionIds : List ℕ}

theorem candidateOf?_eq_some {row : PolicyFieldValue} {c : Candidate} :
    candidateOf? rules row = some c ↔ c.version ∈ rules.policyVersions ∧
      c.policyName = policyName rules c.version.policyId ∧
      c.field ∈ rules.assignmentFieldDefinitions ∧ row = ⟨c.version.id, c.field.id, c.value⟩ := by
  unfold candidateOf?
  constructor
  · intro h
    split at h
    · next version field hv hf =>
      cases h
      obtain ⟨hvm, hvk⟩ := Table.find?_eq_some.mp hv
      obtain ⟨hfm, hfk⟩ := Table.find?_eq_some.mp hf
      refine ⟨hvm, rfl, hfm, ?_⟩
      cases row
      cases hvk
      cases hfk
      rfl
    · exact absurd h (by simp)
  · rintro ⟨hv, hn, hf, rfl⟩
    have hvf : rules.policyVersions.find? c.version.id = some c.version := Table.find?_key hv
    have hff : rules.assignmentFieldDefinitions.find? c.field.id = some c.field :=
      Table.find?_key hf
    simp only [hvf, hff, ← hn]

theorem mem_policyCandidates {c : Candidate} : c ∈ policyCandidates rules versionIds ↔
    c.version ∈ rules.policyVersions ∧ c.version.id ∈ versionIds ∧
      c.policyName = policyName rules c.version.policyId ∧
      c.field ∈ rules.assignmentFieldDefinitions ∧
      ⟨c.version.id, c.field.id, c.value⟩ ∈ rules.policyFieldValues := by
  simp only [policyCandidates, mem_orderBy, List.mem_filterMap, Table.mem_select,
    candidateOf?_eq_some, List.contains_iff_mem]
  constructor
  · rintro ⟨row, ⟨hr, hid⟩, hv, hn, hf, rfl⟩
    exact ⟨hv, hid, hn, hf, hr⟩
  · rintro ⟨hv, hid, hn, hf, hr⟩
    exact ⟨_, ⟨hr, hid⟩, hv, hn, hf, rfl⟩

theorem policyCandidates_sorted : CandidatesSorted (policyCandidates rules versionIds) :=
  orderBy_sorted candidateOrder _

theorem policyCandidates_agree : FieldsAgree (policyCandidates rules versionIds) := by
  intro c hc d hd h
  exact Table.key_inj (mem_policyCandidates.mp hc).2.2.2.1 (mem_policyCandidates.mp hd).2.2.2.1 h

/-- Field, priority, version and value, which is the order in which candidates are listed. -/
def candidateKey (c : Candidate) : (ℕ ×ₗ ℤ ×ₗ ℕ) ×ₗ (ℕ ×ₗ ℕ ×ₗ String) :=
  toLex (candidateOrder c, toLex (c.version.id, toLex (c.field.id, c.value)))

theorem policyCandidates_strict :
    (policyCandidates rules versionIds).Pairwise fun c d => candidateKey c < candidateKey d := by
  have hrows : ((rules.policyFieldValues.select fun row =>
      versionIds.contains row.policyVersionId).filterMap (candidateOf? rules)).Pairwise
        fun c d => toLex (c.version.id, toLex (c.field.id, c.value)) <
          toLex (d.version.id, toLex (d.field.id, d.value)) := by
    refine List.Pairwise.filterMap _ (fun row row' hlt c hc c' hc' => ?_)
      (rules.policyFieldValues.sorted.filter _)
    obtain ⟨_, _, _, rfl⟩ := candidateOf?_eq_some.mp hc
    obtain ⟨_, _, _, rfl⟩ := candidateOf?_eq_some.mp hc'
    exact hlt
  refine (orderBy_stable hrows).imp fun h => ?_
  exact Prod.Lex.toLex_lt_toLex.mpr h

theorem policyCandidates_nodup : (policyCandidates rules versionIds).Nodup :=
  policyCandidates_strict.imp fun hlt he => absurd (congrArg candidateKey he) hlt.ne

/-- The engine's candidates are those of the effective versions. -/
theorem candidateSet_policyCandidates {policyIds : List ℕ} {day : Date}
    {effective : Dict ℕ PolicyVersion}
    (h : getEffectivePolicyVersions rules (some policyIds) day = .ok effective) :
    candidateSet (policyCandidates rules (effective.values.map (fun v => v.id))) =
      EffectiveCandidates rules policyIds day := by
  ext c
  rw [values_getEffective h]
  simp only [candidateSet, Set.mem_ofPred_eq, mem_policyCandidates, EffectiveCandidates,
    List.mem_map, mem_effectiveRows, amongPolicies, List.contains_iff_mem]
  constructor
  · rintro ⟨hv, ⟨v, ⟨hvm, ha, he, hp⟩, hid⟩, hn, hf, hr⟩
    have hvc : v = c.version := Table.key_inj hvm hv hid
    cases hvc
    exact ⟨hv, hp, ha, he, hn, hf, hr⟩
  · rintro ⟨hv, hp, ha, he, hn, hf, hr⟩
    exact ⟨hv, ⟨c.version, ⟨hv, ha, he, hp⟩, rfl⟩, hn, hf, hr⟩

end

/-! ## Overrides -/

def OneValued (rules : Rules) (fieldId : ℕ) : Prop :=
  ∃ field ∈ rules.assignmentFieldDefinitions, field.id = fieldId ∧ field.cardinality = .one

/-- What the validation of overrides lets an employee have. -/
structure OverridesAdmitted (facts : Facts) (employeeId : ℕ) : Prop where
  one : ∀ o ∈ activeOverrides facts employeeId, ∀ p ∈ activeOverrides facts employeeId,
    o.assignmentFieldDefinitionId = p.assignmentFieldDefinitionId →
      OneValued facts.toRules o.assignmentFieldDefinitionId → o = p
  distinct : ∀ o ∈ activeOverrides facts employeeId, ∀ p ∈ activeOverrides facts employeeId,
    o.assignmentFieldDefinitionId = p.assignmentFieldDefinitionId → o.value = p.value → o = p

/-- What the reference gives an employee: the policy values of the fields without an override, and
the overrides. -/
inductive ReferenceResult (facts : Facts) (employeeId : ℕ) (S : Set Candidate) :
    AssignmentIdentity → Prop where
  | policy (fieldId : ℕ) (value : String) (source : ℕ)
      (free : ∀ o ∈ activeOverrides facts employeeId, o.assignmentFieldDefinitionId ≠ fieldId)
      (assigned : ReferenceAssignment S fieldId value source) :
      ReferenceResult facts employeeId S ⟨fieldId, value, some source, none⟩
  | override (o : EmployeeOverride) (mem : o ∈ activeOverrides facts employeeId) :
      ReferenceResult facts employeeId S ⟨o.assignmentFieldDefinitionId, o.value, none, some o.id⟩

section

variable {rules : Rules} {resolved : List ResolvedAssignment} {overrides : List EmployeeOverride}

theorem mem_applyEmployeeOverrides {a : FinalAssignment} :
    a ∈ applyEmployeeOverrides rules resolved overrides ↔
      (∃ r ∈ resolved, (∀ o ∈ overrides,
        o.assignmentFieldDefinitionId ≠ r.assignmentFieldDefinitionId) ∧ policyFinal r = a) ∨
      ∃ o ∈ overrides, overrideFinal rules resolved o = a := by
  simp only [applyEmployeeOverrides, mem_orderBy, List.mem_append, List.mem_map, List.mem_filter,
    decide_eq_true_eq, not_exists, not_and]
  constructor
  · rintro (⟨r, ⟨hr, hn⟩, ha⟩ | ho)
    · exact Or.inl ⟨r, hr, hn, ha⟩
    · exact Or.inr ho
  · rintro (⟨r, hr, hn, ha⟩ | ho)
    · exact Or.inl ⟨r, ⟨hr, hn⟩, ha⟩
    · exact Or.inr ho

/-- The final assignments of a list have distinct (field, value) pairs. -/
def DistinctFinal (assignments : List FinalAssignment) : Prop :=
  assignments.Pairwise (fun a b =>
    (a.assignmentFieldDefinitionId, a.value) ≠ (b.assignmentFieldDefinitionId, b.value))

theorem applyEmployeeOverrides_distinct (hr : DistinctValues resolved) (hn : overrides.Nodup)
    (hd : ∀ o ∈ overrides, ∀ p ∈ overrides,
      o.assignmentFieldDefinitionId = p.assignmentFieldDefinitionId → o.value = p.value → o = p) :
    DistinctFinal (applyEmployeeOverrides rules resolved overrides) := by
  unfold DistinctFinal applyEmployeeOverrides
  refine (perm_orderBy _ _).symm.pairwise ?_ (fun h => Ne.symm h)
  rw [List.pairwise_append]
  refine ⟨?_, ?_, ?_⟩
  · exact List.Pairwise.map _ (fun _ _ h => h) (hr.filter _)
  · refine List.Pairwise.map _ (fun o p (h : ¬ (o.assignmentFieldDefinitionId =
      p.assignmentFieldDefinitionId ∧ o.value = p.value)) he => ?_) ?_
    · exact h ⟨congrArg Prod.fst he, congrArg Prod.snd he⟩
    · exact List.Pairwise.imp_of_mem (fun ho hp hne h => hne (hd _ ho _ hp h.1 h.2)) hn
  · intro a ha b hb he
    obtain ⟨r, hrm, rfl⟩ := List.mem_map.mp ha
    obtain ⟨o, ho, rfl⟩ := List.mem_map.mp hb
    have hfree := (List.mem_filter.mp hrm).2
    rw [decide_eq_true_eq] at hfree
    refine hfree (List.mem_map.mpr ⟨o, ho, ?_⟩)
    exact (congrArg Prod.fst he).symm

end

theorem activeOverrides_nodup {facts : Facts} {employeeId : ℕ} :
    (activeOverrides facts employeeId).Nodup :=
  orderBy_nodup (Table.select_nodup _ _)

/-! ## The two levels -/

section

variable {facts : Facts} {employeeId : ℕ} {day : Date} {found : Dict ℕ PolicyMatch}
  {policyMatches : PolicyMatches} {policyIds : List ℕ} {effective : Dict ℕ PolicyVersion}

/-- When the matches were found, the versions of the matched policies can be looked up. -/
theorem getEffective_of_found (h : findPolicyMatches facts employeeId day = .ok found) :
    ∃ effective, getEffectivePolicyVersions facts.toRules (some found.keys) day = .ok effective := by
  unfold findPolicyMatches at h
  split at h
  · cases h
    exact ⟨.empty, rfl⟩
  · split at h
    · exact absurd h (by simp)
    · next effective heff =>
      obtain ⟨restricted, hr, _⟩ := getEffective_restrict found.keys heff
      exact ⟨restricted, hr⟩

theorem resolvePolicyAssignments_conflict_iff (policyMatches : PolicyMatches) {rules : Rules}
    (h : getEffectivePolicyVersions rules (some policyIds) day = .ok effective) :
    (∃ conflict, resolvePolicyAssignments rules policyIds day policyMatches =
      .error (.policyConflict conflict)) ↔ Conflicted (EffectiveCandidates rules policyIds day) := by
  rw [← candidateSet_policyCandidates h]
  unfold resolvePolicyAssignments
  rw [h]
  constructor
  · rintro ⟨conflict, he⟩
    exact (resolveCandidates_eq_error policyCandidates_sorted he).2
  · exact resolveCandidates_conflict policyCandidates_sorted policyCandidates_agree

/-- The policy level raises nothing but conflicts. -/
theorem resolvePolicyAssignments_ok_of_not_conflicted (policyMatches : PolicyMatches)
    {rules : Rules}
    (h : getEffectivePolicyVersions rules (some policyIds) day = .ok effective)
    (hc : ¬ Conflicted (EffectiveCandidates rules policyIds day)) :
    ∃ resolved, resolvePolicyAssignments rules policyIds day policyMatches = .ok resolved := by
  rw [← candidateSet_policyCandidates h] at hc
  unfold resolvePolicyAssignments
  rw [h]
  dsimp only
  cases hr : resolveCandidates policyMatches
      (policyCandidates rules (effective.values.map (fun v => v.id))) with
  | ok resolved => exact ⟨resolved, rfl⟩
  | error e => exact absurd (resolveCandidates_eq_error policyCandidates_sorted hr).2 hc

theorem resolvePolicyAssignments_eq_ok {rules : Rules} {resolved : List ResolvedAssignment}
    (h : getEffectivePolicyVersions rules (some policyIds) day = .ok effective)
    (hr : resolvePolicyAssignments rules policyIds day policyMatches = .ok resolved) :
    DistinctValues resolved ∧ ∀ fieldId value source,
      (∃ r ∈ resolved, r.assignmentFieldDefinitionId = fieldId ∧ r.value = value ∧
        r.sourcePolicyVersionId = source) ↔
          ReferenceAssignment (EffectiveCandidates rules policyIds day) fieldId value source := by
  unfold resolvePolicyAssignments at hr
  rw [h] at hr
  rw [← candidateSet_policyCandidates h]
  exact ⟨resolveCandidates_distinct policyCandidates_sorted hr, fun _ _ _ =>
    resolveCandidates_eq_ok policyCandidates_sorted policyCandidates_agree hr⟩

/-- Overrides decide about neither success nor conflict. -/
theorem resolveEmployee_eq (h : findPolicyMatches facts employeeId day = .ok found) :
    resolveEmployeeAssignmentsForDate facts employeeId day =
      (resolvePolicyAssignments facts.toRules found.keys day (some found)).map fun resolved =>
        { employeeId := employeeId
          evaluationDate := day
          policyIds := found.keys
          assignments := (applyEmployeeOverrides facts.toRules resolved
            (activeOverrides facts employeeId)).map (FinalAssignment.dated day) } := by
  unfold resolveEmployeeAssignmentsForDate
  rw [h]
  dsimp only
  cases resolvePolicyAssignments facts.toRules found.keys day (some found) with
  | error e => rfl
  | ok resolved => rfl

/-- A field of the reference has one value and one source when it is one-valued. -/
theorem referenceAssignment_one {rules : Rules} {S : Set Candidate}
    (hS : ∀ c ∈ S, c.field ∈ rules.assignmentFieldDefinitions) {fieldId : ℕ}
    (hone : OneValued rules fieldId) (hc : ¬ Conflicted S) {v w : String} {s t : ℕ}
    (h : ReferenceAssignment S fieldId v s) (h' : ReferenceAssignment S fieldId w t) :
    v = w := by
  obtain ⟨field, hf, hfid, hcard⟩ := hone
  have hwin : ∀ c, (OneWinner S c ∨ ManyWinner S c) → c.field.id = fieldId → OneWinner S c := by
    rintro c (hc | hc) hid
    · exact hc
    · have heq : c.field = field := Table.key_inj (hS c hc.2.1) hf (hid.trans hfid.symm)
      have hmany := hc.1
      rw [heq, hcard] at hmany
      exact absurd hmany (by simp)
  obtain ⟨c, hcw, hcid, rfl, rfl⟩ := h
  obtain ⟨d, hdw, hdid, rfl, rfl⟩ := h'
  have hc1 := hwin c hcw hcid
  have hd1 := hwin d hdw hdid
  by_contra hne
  exact hc ⟨c, d, hc1.2.1, hd1.2.1, hcid.trans hdid.symm, hc1.1, hne⟩

theorem mem_dated {assignments : List FinalAssignment} {identity : AssignmentIdentity} :
    identity ∈ (assignments.map (FinalAssignment.dated day)).map FinalAssignment.identity ↔
      ∃ a ∈ assignments, a.identity = identity := by
  rw [List.map_map, List.mem_map]
  rfl

/-- The final assignments are those of the reference. -/
theorem applyEmployeeOverrides_reference {S : Set Candidate} {resolved : List ResolvedAssignment}
    (href : ∀ fieldId value source, (∃ r ∈ resolved, r.assignmentFieldDefinitionId = fieldId ∧
      r.value = value ∧ r.sourcePolicyVersionId = source) ↔
        ReferenceAssignment S fieldId value source) {identity : AssignmentIdentity} :
    (∃ a ∈ applyEmployeeOverrides facts.toRules resolved (activeOverrides facts employeeId),
      a.identity = identity) ↔ ReferenceResult facts employeeId S identity := by
  constructor
  · rintro ⟨a, ha, rfl⟩
    rcases mem_applyEmployeeOverrides.mp ha with ⟨r, hr, hfree, rfl⟩ | ⟨o, ho, rfl⟩
    · exact .policy _ _ _ hfree ((href _ _ _).mp ⟨r, hr, rfl, rfl, rfl⟩)
    · exact .override o ho
  · rintro (⟨fieldId, value, source, hfree, hassigned⟩ | ⟨o, ho⟩)
    · obtain ⟨r, hr, rfl, rfl, rfl⟩ := (href _ _ _).mpr hassigned
      exact ⟨policyFinal r, mem_applyEmployeeOverrides.mpr (Or.inl ⟨r, hr, hfree, rfl⟩), rfl⟩
    · exact ⟨overrideFinal facts.toRules resolved o,
        mem_applyEmployeeOverrides.mpr (Or.inr ⟨o, ho, rfl⟩), rfl⟩

end

/-! ## The resolution of an employee -/

/-- Policy level and final result of an employee's resolution agree with the reference. -/
structure ResolvesAsReference (facts : Facts) (employeeId : ℕ) (day : Date)
    (found : Dict ℕ PolicyMatch) : Prop where
  policyConflict :
    (∃ conflict, resolvePolicyAssignments facts.toRules found.keys day (some found) =
      .error (.policyConflict conflict)) ↔
        Conflicted (EffectiveCandidates facts.toRules found.keys day)
  policyResult : ∀ resolved,
    resolvePolicyAssignments facts.toRules found.keys day (some found) = .ok resolved →
      ∀ fieldId value source, (∃ r ∈ resolved, r.assignmentFieldDefinitionId = fieldId ∧
        r.value = value ∧ r.sourcePolicyVersionId = source) ↔
          ReferenceAssignment (EffectiveCandidates facts.toRules found.keys day) fieldId value source
  conflict :
    (∃ conflict, resolveEmployeeAssignmentsForDate facts employeeId day =
      .error (.policyConflict conflict)) ↔
        ∃ conflict, resolvePolicyAssignments facts.toRules found.keys day (some found) =
          .error (.policyConflict conflict)
  success : ¬ Conflicted (EffectiveCandidates facts.toRules found.keys day) →
    ∃ resolution, resolveEmployeeAssignmentsForDate facts employeeId day = .ok resolution
  result : ∀ resolution, resolveEmployeeAssignmentsForDate facts employeeId day = .ok resolution →
    ∀ identity, identity ∈ resolution.assignments.map FinalAssignment.identity ↔
      ReferenceResult facts employeeId (EffectiveCandidates facts.toRules found.keys day) identity
  oneEntry : ∀ resolution,
    resolveEmployeeAssignmentsForDate facts employeeId day = .ok resolution →
      resolution.assignments.Pairwise fun a b =>
        a.assignmentFieldDefinitionId = b.assignmentFieldDefinitionId →
          ¬ OneValued facts.toRules a.assignmentFieldDefinitionId
  distinct : ∀ resolution,
    resolveEmployeeAssignmentsForDate facts employeeId day = .ok resolution →
      DistinctFinal resolution.assignments
  oneSource : ∀ resolution,
    resolveEmployeeAssignmentsForDate facts employeeId day = .ok resolution →
      ∀ a ∈ resolution.assignments, a.sourcePolicyVersionId.isSome ≠ a.sourceOverrideId.isSome

section

variable {facts : Facts} {employeeId : ℕ} {day : Date} {found : Dict ℕ PolicyMatch}

theorem resolveEmployee_eq_ok (h : findPolicyMatches facts employeeId day = .ok found)
    {resolution : EmployeeAssignmentResolution}
    (hr : resolveEmployeeAssignmentsForDate facts employeeId day = .ok resolution) :
    ∃ resolved, resolvePolicyAssignments facts.toRules found.keys day (some found) = .ok resolved ∧
      resolution.assignments = (applyEmployeeOverrides facts.toRules resolved
        (activeOverrides facts employeeId)).map (FinalAssignment.dated day) := by
  rw [resolveEmployee_eq h] at hr
  obtain ⟨resolved, hres, rfl⟩ := exceptMap_eq_ok.mp hr
  exact ⟨resolved, hres, rfl⟩

/-- Two results for a one-valued field have the same value, so there is only one. -/
theorem referenceResult_one (hadm : OverridesAdmitted facts employeeId) {S : Set Candidate}
    (hS : ∀ c ∈ S, c.field ∈ facts.assignmentFieldDefinitions) (hc : ¬ Conflicted S)
    {i j : AssignmentIdentity} (hi : ReferenceResult facts employeeId S i)
    (hj : ReferenceResult facts employeeId S j)
    (he : i.assignmentFieldDefinitionId = j.assignmentFieldDefinitionId)
    (hone : OneValued facts.toRules i.assignmentFieldDefinitionId) : i.value = j.value := by
  cases hi with
  | policy f v s hfree ha =>
    cases hj with
    | policy f' v' s' _ ha' =>
      dsimp only at he hone ⊢
      rw [← he] at ha'
      exact referenceAssignment_one hS hone hc ha ha'
    | override o ho => exact absurd he.symm (hfree o ho)
  | override o ho =>
    cases hj with
    | policy f v s hfree ha => exact absurd he (hfree o ho)
    | override p hp => rw [hadm.one o ho p hp he hone]

theorem getEffective_of_resolved {resolved : List ResolvedAssignment} {policyIds : List ℕ}
    {policyMatches : PolicyMatches}
    (hr : resolvePolicyAssignments facts.toRules policyIds day policyMatches = .ok resolved) :
    ∃ effective, getEffectivePolicyVersions facts.toRules (some policyIds) day = .ok effective := by
  unfold resolvePolicyAssignments at hr
  split at hr
  · exact absurd hr (by simp)
  · next effective heff => exact ⟨effective, heff⟩

/-- Overrides over a resolved policy level: no two values for the same pair of field and value, and
one value for a one-valued field. -/
theorem applyEmployeeOverrides_apart {resolved : List ResolvedAssignment} {policyIds : List ℕ}
    {policyMatches : PolicyMatches}
    (hr : resolvePolicyAssignments facts.toRules policyIds day policyMatches = .ok resolved)
    (hadm : OverridesAdmitted facts employeeId) :
    (applyEmployeeOverrides facts.toRules resolved (activeOverrides facts employeeId)).Pairwise
      fun a b => a.assignmentFieldDefinitionId = b.assignmentFieldDefinitionId →
        a.value ≠ b.value ∧ ¬ OneValued facts.toRules a.assignmentFieldDefinitionId := by
  obtain ⟨effective, heff⟩ := getEffective_of_resolved hr
  obtain ⟨hdistinct, href⟩ := resolvePolicyAssignments_eq_ok heff hr
  have hnot : ¬ Conflicted (EffectiveCandidates facts.toRules policyIds day) := by
    rw [← resolvePolicyAssignments_conflict_iff policyMatches heff]
    rintro ⟨conflict, hcon⟩
    rw [hr] at hcon
    exact absurd hcon (by simp)
  have hS : ∀ c ∈ EffectiveCandidates facts.toRules policyIds day,
      c.field ∈ facts.assignmentFieldDefinitions := fun c hc => hc.2.2.2.2.2.1
  have happly := @applyEmployeeOverrides_distinct facts.toRules _ _ hdistinct
    activeOverrides_nodup hadm.distinct
  refine happly.imp_of_mem fun {a b} ha hb hne he => ?_
  have hvalue : a.value ≠ b.value := fun hv => hne (Prod.ext he hv)
  refine ⟨hvalue, fun hone => hvalue ?_⟩
  exact referenceResult_one hadm hS hnot
    ((applyEmployeeOverrides_reference href).mp ⟨a, ha, rfl⟩)
    ((applyEmployeeOverrides_reference href).mp ⟨b, hb, rfl⟩) he hone

/-- The field of a final assignment is in the catalog, or an override names it. -/
theorem applyEmployeeOverrides_field {resolved : List ResolvedAssignment} {policyIds : List ℕ}
    {policyMatches : PolicyMatches}
    (hr : resolvePolicyAssignments facts.toRules policyIds day policyMatches = .ok resolved)
    {a : FinalAssignment}
    (ha : a ∈ applyEmployeeOverrides facts.toRules resolved (activeOverrides facts employeeId)) :
    (∃ f ∈ facts.assignmentFieldDefinitions, f.id = a.assignmentFieldDefinitionId) ∨
      ∃ o ∈ facts.employeeOverrides,
        o.assignmentFieldDefinitionId = a.assignmentFieldDefinitionId := by
  rcases mem_applyEmployeeOverrides.mp ha with ⟨r, hrm, _, rfl⟩ | ⟨o, ho, rfl⟩
  · obtain ⟨effective, heff⟩ := getEffective_of_resolved hr
    obtain ⟨c, hc, hid, _⟩ :=
      ((resolvePolicyAssignments_eq_ok heff hr).2 _ _ _).mp ⟨r, hrm, rfl, rfl, rfl⟩
    refine Or.inl ⟨c.field, ?_, hid⟩
    rcases hc with hc | hc
    · exact hc.2.1.mem.2.2.2.2.2.1
    · exact hc.2.1.2.2.2.2.2.1
  · refine Or.inr ⟨o, ?_, rfl⟩
    rw [activeOverrides, mem_orderBy, Table.mem_select] at ho
    exact ho.1

theorem resolve_employee_assignments_reference
    (hfound : findPolicyMatches facts employeeId day = .ok found)
    (hadm : OverridesAdmitted facts employeeId) :
    ResolvesAsReference facts employeeId day found := by
  obtain ⟨effective, heff⟩ := getEffective_of_found hfound
  have hconflict := resolvePolicyAssignments_conflict_iff (some found) heff
  have hS : ∀ c ∈ EffectiveCandidates facts.toRules found.keys day,
      c.field ∈ facts.assignmentFieldDefinitions := fun c hc => hc.2.2.2.2.2.1
  -- overrides replace the policy values of their fields, field by field
  have hresult : ∀ resolution,
      resolveEmployeeAssignmentsForDate facts employeeId day = .ok resolution →
        ∀ identity, identity ∈ resolution.assignments.map FinalAssignment.identity ↔
          ReferenceResult facts employeeId (EffectiveCandidates facts.toRules found.keys day)
            identity := by
    intro resolution hr identity
    obtain ⟨resolved, hres, hassign⟩ := resolveEmployee_eq_ok hfound hr
    rw [hassign, mem_dated]
    exact applyEmployeeOverrides_reference (resolvePolicyAssignments_eq_ok heff hres).2
  have hdistinct : ∀ resolution,
      resolveEmployeeAssignmentsForDate facts employeeId day = .ok resolution →
        DistinctFinal resolution.assignments := by
    intro resolution hr
    obtain ⟨resolved, hres, hassign⟩ := resolveEmployee_eq_ok hfound hr
    rw [hassign]
    refine List.Pairwise.map _ (fun _ _ h => h) ?_
    exact applyEmployeeOverrides_distinct (resolvePolicyAssignments_eq_ok heff hres).1
      activeOverrides_nodup hadm.distinct
  refine
    { policyConflict := hconflict
      policyResult := fun resolved hr => (resolvePolicyAssignments_eq_ok heff hr).2
      conflict := ?_
      success := ?_
      result := hresult
      oneEntry := ?_
      distinct := hdistinct
      oneSource := ?_ }
  · rw [resolveEmployee_eq hfound]
    simp only [exceptMap_eq_error]
  · intro hc
    obtain ⟨resolved, hres⟩ :=
      resolvePolicyAssignments_ok_of_not_conflicted (some found) heff hc
    rw [resolveEmployee_eq hfound, hres]
    exact ⟨_, rfl⟩
  -- two entries of a one-valued field would be a conflict, and the resolution succeeded
  · intro resolution hr
    refine List.Pairwise.imp_of_mem ?_ (hdistinct resolution hr)
    intro a b ha hb hne he hone
    have hnot : ¬ Conflicted (EffectiveCandidates facts.toRules found.keys day) := by
      rw [← hconflict]
      rintro ⟨conflict, hcon⟩
      rw [resolveEmployee_eq hfound, hcon] at hr
      exact absurd hr (by simp [Except.map])
    have hia := (hresult resolution hr _).mp (List.mem_map_of_mem ha)
    have hib := (hresult resolution hr _).mp (List.mem_map_of_mem hb)
    exact hne (Prod.ext he (referenceResult_one hadm hS hnot hia hib he hone))
  · intro resolution hr a ha
    have hi := (hresult resolution hr _).mp (List.mem_map_of_mem ha)
    generalize hid : a.identity = i at hi
    have h1 : a.sourcePolicyVersionId = i.sourcePolicyVersionId := by rw [← hid]; rfl
    have h2 : a.sourceOverrideId = i.sourceOverrideId := by rw [← hid]; rfl
    rw [h1, h2]
    cases hi with
    | policy => simp
    | override => simp

end

/-! ## An employee with two matches and an override -/

def newYear : Date := (.on 2026 1 1)

/-- Two policies give everyone in Engineering a laptop, and an override replaces it. -/
def laptopFacts : Facts where
  assignmentFieldDefinitions := .ofRows [⟨1, "laptop", .one, "priority", .text⟩]
  conditionFieldDefinitions := .ofRows
    [⟨1, "department", .static, "string", some "employee_attribute_department_v1",
      some "employees", some "department", true⟩]
  conditionFieldDependencies := .empty
  policies := .ofRows [⟨1, "Standard", .active, none⟩, ⟨2, "Engineers", .active, none⟩]
  policyVersions := .ofRows
    [⟨1, 1, 1, 10, newYear, none, none⟩, ⟨2, 2, 1, 20, newYear, none, none⟩]
  policyFieldValues := .ofRows [⟨1, 1, "small"⟩, ⟨2, 1, "large"⟩]
  compiledPolicyClauses := .ofRows [⟨1, 1⟩, ⟨2, 2⟩]
  compiledPolicyConditions := .ofRows
    [⟨1, 1, 1, .eq, "Engineering"⟩, ⟨2, 2, 1, .eq, "Engineering"⟩]
  employees := .ofRows [⟨1, "Ada", "CA", "Engineering", "full_time", none, newYear, none⟩]
  groups := .empty
  employeeGroupMemberships := .empty
  groupPolicies := .empty
  employeeOverrides := .ofRows [⟨1, 1, 1, "custom", none⟩]

theorem resolve_employee_assignments_reference_laptop :
    ∃ found, findPolicyMatches laptopFacts 1 newYear = .ok found ∧ found.keys = [1, 2] ∧
      ResolvesAsReference laptopFacts 1 newYear found := by
  have hkeys : (findPolicyMatches laptopFacts 1 newYear).toOption.map Dict.keys = some [1, 2] := by
    decide +kernel
  have hoverrides : activeOverrides laptopFacts 1 = [⟨1, 1, 1, "custom", none⟩] := by
    decide +kernel
  have hsingle : ∀ o ∈ activeOverrides laptopFacts 1, ∀ p ∈ activeOverrides laptopFacts 1,
      o = p := by
    rw [hoverrides]
    intro o ho p hp
    rw [List.mem_singleton.mp ho, List.mem_singleton.mp hp]
  cases hfound : findPolicyMatches laptopFacts 1 newYear with
  | error e =>
    rw [hfound] at hkeys
    exact absurd hkeys (by simp [Except.toOption])
  | ok found =>
    rw [hfound] at hkeys
    refine ⟨found, rfl, Option.some.inj hkeys, ?_⟩
    exact resolve_employee_assignments_reference hfound
      ⟨fun o ho p hp _ _ => hsingle o ho p hp, fun o ho p hp _ _ => hsingle o ho p hp⟩

end Warp
