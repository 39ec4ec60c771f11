import Warp.ConditionCatalog
import Warp.PolicyAuthoring
import Warp.Properties.ConflictResolution
import Warp.Properties.DerivedWrites

/-!
# Outputs of a policy version

The checks of a new version strip every output and look up its field, but they take the outputs one by
one. So a version can give a one-valued field two values, which the engine rejects for everybody it
matches, or give the same value twice, which the database rejects.
-/

namespace Warp

open Infra

/-! ## Outputs in normal form -/

/-- Two outputs for one field: the field takes many values, and these are different. -/
def OutputsApart (rules : Rules) (values : List (ℕ × String)) : Prop :=
  values.Pairwise fun a b => a.1 = b.1 → ¬OneValued rules a.1 ∧ Text.strip a.2 ≠ Text.strip b.2

instance (rules : Rules) (fieldId : ℕ) : Decidable (OneValued rules fieldId) :=
  inferInstanceAs (Decidable (∃ field ∈ rules.assignmentFieldDefinitions.rows,
    field.id = fieldId ∧ field.cardinality = .one))

instance (rules : Rules) (values : List (ℕ × String)) : Decidable (OutputsApart rules values) :=
  inferInstanceAs (Decidable (List.Pairwise _ values))

/-- A one-valued field has at most one value. -/
def OneValueEach (rules : Rules) (values : List (ℕ × String)) : Prop :=
  ∀ a ∈ values, ∀ b ∈ values, a.1 = b.1 → OneValued rules a.1 → a.2 = b.2

section

variable {rules : Rules} {values normalized : List (ℕ × String)}

theorem normalizeAssignmentValue_ok {definition : AssignmentFieldDefinition} {value out : String}
    (h : normalizeAssignmentValue definition value = .ok out) : out = Text.strip value := by
  unfold normalizeAssignmentValue at h
  dsimp only at h
  split at h
  · cases h
  · split at h
    · exact (Except.ok.inj h).symm
    · split at h
      · exact (Except.ok.inj h).symm
      · cases h

/-- The checks strip the values and keep everything else. -/
theorem normalizedValues_ok (h : normalizedValues rules values = .ok normalized) :
    normalized = values.map fun item => (item.1, Text.strip item.2) := by
  simp only [normalizedValues, bind_eq_ok, ensure_eq_ok] at h
  obtain ⟨_, _, h⟩ := h
  have hview := traverseAll_view (g := id) (k := fun item => (item.1, Text.strip item.2)) h ?_
  · rwa [List.map_id] at hview
  · intro item _ out hout
    simp only [bind_eq_ok, pure_eq_ok] at hout
    obtain ⟨_, _, value, hvalue, rfl⟩ := hout
    rw [id, normalizeAssignmentValue_ok hvalue]

/-- The checks have looked up the field of every output. -/
theorem normalizedValues_known (h : normalizedValues rules values = .ok normalized) :
    ∀ v ∈ normalized, (rules.assignmentFieldDefinitions.find? v.1).isSome := by
  intro v hv
  rw [normalizedValues_ok h] at hv
  obtain ⟨item, hitem, rfl⟩ := List.mem_map.mp hv
  simp only [normalizedValues, bind_eq_ok, ensure_eq_ok, List.isEmpty_iff] at h
  obtain ⟨_, hmissing, _⟩ := h
  rw [List.filter_eq_nil_iff] at hmissing
  have hfound := hmissing item.1 (mem_sortedSet.mpr (List.mem_toFinset.mpr (List.mem_map_of_mem hitem)))
  exact Option.isSome_iff_ne_none.mpr fun hnone => hfound (Option.isNone_iff_eq_none.mpr hnone)

theorem outputsApart_iff : OutputsApart rules values ↔
    (values.map fun item => (item.1, Text.strip item.2)).Nodup ∧
      OneValueEach rules (values.map fun item => (item.1, Text.strip item.2)) := by
  unfold OutputsApart
  constructor
  · intro h
    have hnodup : (values.map fun item => (item.1, Text.strip item.2)).Nodup := by
      refine List.pairwise_map.mpr (h.imp fun hab he => ?_)
      obtain ⟨hfield, hvalue⟩ := Prod.mk.inj he
      exact (hab hfield).2 hvalue
    refine ⟨hnodup, fun a ha b hb hfield hone => ?_⟩
    obtain ⟨x, hx, rfl⟩ := List.mem_map.mp ha
    obtain ⟨y, hy, rfl⟩ := List.mem_map.mp hb
    by_contra hne
    have hxy : x ≠ y := fun he => hne (by rw [he])
    have : Std.Symm fun a b : ℕ × String =>
        a.1 = b.1 → ¬OneValued rules a.1 ∧ Text.strip a.2 ≠ Text.strip b.2 :=
      ⟨fun a b hab he => ⟨he ▸ (hab he.symm).1, (hab he.symm).2.symm⟩⟩
    exact (h.forall hx hy hxy hfield).1 hone
  · rintro ⟨hnodup, hone⟩
    refine List.Pairwise.imp_of_mem ?_ (List.pairwise_map.mp hnodup)
    intro a b ha hb hne hfield
    have hvalues : Text.strip a.2 ≠ Text.strip b.2 := fun he => hne (Prod.ext hfield he)
    refine ⟨fun h => hvalues ?_, hvalues⟩
    exact hone _ (List.mem_map.mpr ⟨a, ha, rfl⟩) _ (List.mem_map.mpr ⟨b, hb, rfl⟩) hfield h

end

/-! ## Stored outputs -/

/-- The engine looks at this version and no other. -/
def MatchedAlone (rules : Rules) (policyIds : List ℕ) (day : Date) (version : PolicyVersion) : Prop :=
  ∃ effective, getEffectivePolicyVersions rules (some policyIds) day = .ok effective ∧
    effective.values.map (fun v => v.id) = [version.id]

/-- A version that does not contradict itself. -/
structure SelfConsistent (rules : Rules) (version : PolicyVersion) : Prop where
  one : ∀ r ∈ rules.policyFieldValues, ∀ r' ∈ rules.policyFieldValues,
    r.policyVersionId = version.id → r'.policyVersionId = version.id →
      r.assignmentFieldDefinitionId = r'.assignmentFieldDefinitionId →
        OneValued rules r.assignmentFieldDefinitionId → r.value = r'.value
  resolves : ∀ policyIds day policyMatches, MatchedAlone rules policyIds day version →
    ∃ resolved, resolvePolicyAssignments rules policyIds day policyMatches = .ok resolved

section

variable {rules rules' : Rules} {version : PolicyVersion} {versionId : ℕ}
  {values : List (ℕ × String)}

/-- The engine raises nothing for a version with one value for each one-valued field. -/
theorem resolves_of_one (h : ∀ r ∈ rules.policyFieldValues, ∀ r' ∈ rules.policyFieldValues,
    r.policyVersionId = version.id → r'.policyVersionId = version.id →
      r.assignmentFieldDefinitionId = r'.assignmentFieldDefinitionId →
        OneValued rules r.assignmentFieldDefinitionId → r.value = r'.value) {policyIds : List ℕ}
    {day : Date} {policyMatches : PolicyMatches} (halone : MatchedAlone rules policyIds day version) :
    ∃ resolved, resolvePolicyAssignments rules policyIds day policyMatches = .ok resolved := by
  obtain ⟨effective, heffective, hids⟩ := halone
  refine resolvePolicyAssignments_ok_of_not_conflicted policyMatches heffective ?_
  rw [← candidateSet_policyCandidates heffective, hids]
  rintro ⟨c, d, hc, hd, hfield, hone, hne⟩
  obtain ⟨_, hcid, _, hcfield, hcrow⟩ := mem_policyCandidates.mp hc.mem
  obtain ⟨_, hdid, _, _, hdrow⟩ := mem_policyCandidates.mp hd.mem
  exact hne (h _ hcrow _ hdrow (List.mem_singleton.mp hcid) (List.mem_singleton.mp hdid) hfield
    ⟨c.field, hcfield, rfl, hone⟩)

/-- The key of a row is the whole row. -/
theorem mem_insert_value {table : Table PolicyFieldValue} {r r' : PolicyFieldValue} :
    r ∈ table.insert r' ↔ r = r' ∨ r ∈ table := by
  rw [Table.mem_insert]
  refine ⟨fun h => h.imp_right And.left, fun h => ?_⟩
  by_cases hr : r = r'
  · exact Or.inl hr
  · refine Or.inr ⟨h.resolve_left hr, fun hkey => hr ?_⟩
    obtain ⟨hversion, hrest⟩ := Prod.mk.inj (toLex.injective hkey)
    obtain ⟨hfield, hvalue⟩ := Prod.mk.inj (toLex.injective hrest)
    cases r
    cases r'
    cases hversion
    cases hfield
    cases hvalue
    rfl

theorem mem_storeValues {r : PolicyFieldValue} :
    r ∈ (storeValues versionId values rules).policyFieldValues ↔
      r ∈ rules.policyFieldValues ∨ r.policyVersionId = versionId ∧
        (r.assignmentFieldDefinitionId, r.value) ∈ values := by
  show r ∈ values.foldl (fun table v => table.insert ⟨versionId, v.1, v.2⟩) rules.policyFieldValues ↔ _
  generalize rules.policyFieldValues = table
  induction values generalizing table with
  | nil => simp
  | cons v values ih =>
    rw [List.foldl_cons, ih, mem_insert_value, List.mem_cons]
    cases r
    simp only [PolicyFieldValue.mk.injEq, Prod.ext_iff]
    tauto

/-- Storing clauses leaves outputs and fields alone. -/
theorem storeClauses_outputs (clauses : List CompiledClause) {clauseId conditionId : ℕ} :
    (storeClauses versionId clauseId conditionId rules clauses).policyFieldValues =
        rules.policyFieldValues ∧
      (storeClauses versionId clauseId conditionId rules clauses).assignmentFieldDefinitions =
        rules.assignmentFieldDefinitions := by
  induction clauses generalizing clauseId conditionId rules with
  | nil => exact ⟨rfl, rfl⟩
  | cons clause rest ih => exact ih

end

/-! ## The new version -/

/-- A version is stored, its outputs are pairwise distinct, and it does not contradict itself. -/
def StoredConsistently (input : PolicyVersionInput) (out : Except ServiceError (Db × PolicyVersion)) :
    Prop :=
  ∃ db version, out = .ok (db, version) ∧ input.values.Nodup ∧
    SelfConsistent db.facts.toRules version

section

variable {db db' : Db} {policyId : ℕ} {input : PolicyVersionInput} {version : PolicyVersion}
  {actor : Actor} {now : DateTime} {data : PolicyVersionCreate}

/-- What a new version writes into the outputs. -/
theorem createPolicyVersion_outputs
    (h : createPolicyVersion db policyId input actor now = .ok (db', version)) :
    version.id = db.sequences.policyVersion ∧ input.values.Nodup ∧
      db'.facts.assignmentFieldDefinitions = db.facts.assignmentFieldDefinitions ∧
      ∀ r, r ∈ db'.facts.policyFieldValues ↔ r ∈ db.facts.policyFieldValues ∨
        r.policyVersionId = version.id ∧ (r.assignmentFieldDefinitionId, r.value) ∈ input.values := by
  unfold createPolicyVersion storePolicyVersion at h
  dsimp only at h
  split at h
  · cases h
  · next rules' version' hstore =>
    cases h
    split at hstore
    · cases hstore
    · next versions added hadd =>
      split at hstore
      · cases hstore
      · next hrows =>
        cases hstore
        have hid : version.id = db.sequences.policyVersion := by
          unfold addPolicyVersion at hadd
          split at hadd
          · cases hadd
          · split at hadd
            · cases hadd
            · split at hadd
              · cases hadd
              · cases hadd
                rfl
        obtain ⟨hvalues, hfields⟩ := @storeClauses_outputs
          (storeValues version.id input.values { db.facts.toRules with policyVersions := versions })
          version.id input.compiledClauses db.sequences.compiledPolicyClause
          db.sequences.compiledPolicyCondition
        refine ⟨hid, (checkVersionRows_eq_ok.mp hrows).distinct, hfields, fun r => ?_⟩
        show r ∈ (storeClauses version.id _ _ _ input.compiledClauses).policyFieldValues ↔ _
        rw [hvalues, mem_storeValues]

theorem createPolicyVersion_ok {added : Table PolicyVersion × PolicyVersion}
    (hrange : addPolicyVersion db.facts.policyVersions db.sequences.policyVersion policyId input =
      .ok added) (hrows : StorableRows db.facts.toRules input) :
    ∃ db' version, createPolicyVersion db policyId input actor now = .ok (db', version) := by
  unfold createPolicyVersion storePolicyVersion
  rw [hrange]
  dsimp only
  rw [checkVersionRows_eq_ok.mpr hrows]
  exact ⟨_, _, rfl⟩

theorem oneValued_congr {rules rules' : Rules}
    (h : rules'.assignmentFieldDefinitions = rules.assignmentFieldDefinitions) {fieldId : ℕ} :
    OneValued rules' fieldId ↔ OneValued rules fieldId := by
  unfold OneValued
  rw [h]

/-- The rows of the new version are its outputs, as its id is new. -/
theorem selfConsistent_iff
    (hids : ∀ r ∈ db.facts.policyFieldValues, r.policyVersionId < db.sequences.policyVersion)
    (h : createPolicyVersion db policyId input actor now = .ok (db', version)) :
    SelfConsistent db'.facts.toRules version ↔ OneValueEach db.facts.toRules input.values := by
  obtain ⟨hid, _, hfields, hrows⟩ := createPolicyVersion_outputs h
  have hnew : ∀ r ∈ db'.facts.policyFieldValues, r.policyVersionId = version.id →
      (r.assignmentFieldDefinitionId, r.value) ∈ input.values := fun r hr hversion =>
    (((hrows r).mp hr).resolve_left fun hold => (hids r hold).ne (hversion.trans hid)).2
  constructor
  · intro hself a ha b hb hfield hone
    exact hself.one ⟨version.id, a.1, a.2⟩ ((hrows _).mpr (.inr ⟨rfl, ha⟩)) ⟨version.id, b.1, b.2⟩
      ((hrows _).mpr (.inr ⟨rfl, hb⟩)) rfl rfl hfield ((oneValued_congr hfields).mpr hone)
  · intro hone
    have hrows' : ∀ r ∈ db'.facts.policyFieldValues, ∀ r' ∈ db'.facts.policyFieldValues,
        r.policyVersionId = version.id → r'.policyVersionId = version.id →
          r.assignmentFieldDefinitionId = r'.assignmentFieldDefinitionId →
            OneValued db'.facts.toRules r.assignmentFieldDefinitionId → r.value = r'.value := by
      intro r hr r' hr' hversion hversion' hfield hvalued
      exact hone _ (hnew r hr hversion) _ (hnew r' hr' hversion') hfield
        ((oneValued_congr hfields).mp hvalued)
    exact ⟨hrows', fun _ _ _ halone => resolves_of_one hrows' halone⟩

theorem policyVersionInput_values (h : policyVersionInput db.facts data actor = .ok input) :
    input.values = data.values.map fun item => (item.1, Text.strip item.2) := by
  simp only [policyVersionInput, bind_eq_ok, pure_eq_ok] at h
  obtain ⟨values, hvalues, _, _, _, _, _, _, _, _, rfl⟩ := h
  exact normalizedValues_ok hvalues

theorem policyVersionInput_storable (h : policyVersionInput db.facts data actor = .ok input)
    (hfits : FitsColumns input) (hdistinct : input.values.Nodup) :
    StorableRows db.facts.toRules input := by
  simp only [policyVersionInput, bind_eq_ok, pure_eq_ok] at h
  obtain ⟨values, hvalues, _, _, _, _, _, _, _, _, rfl⟩ := h
  exact ⟨hfits, normalizedValues_known hvalues, hdistinct⟩

/-- An input that passes all checks, with data that the columns can hold, is stored as a version that does
not contradict itself if its outputs are apart. -/
theorem version_outputs_iff
    (hids : ∀ r ∈ db.facts.policyFieldValues, r.policyVersionId < db.sequences.policyVersion)
    (hinput : policyVersionInput db.facts data actor = .ok input)
    (hrange : ∃ added, addPolicyVersion db.facts.policyVersions db.sequences.policyVersion policyId
      input = .ok added) (hfits : FitsColumns input) :
    (StoredConsistently input (createPolicyVersion db policyId input actor now) ↔
      OutputsApart db.facts.toRules data.values) ∧
    ∀ db' version, createPolicyVersionFromInput db policyId data actor now = .ok (db', version) →
      (SelfConsistent db'.facts.toRules version ↔ OutputsApart db.facts.toRules data.values) := by
  rw [outputsApart_iff, ← policyVersionInput_values hinput]
  obtain ⟨added, hrange⟩ := hrange
  refine ⟨⟨?_, ?_⟩, fun db' version hcreate => ?_⟩
  · rintro ⟨db', version, hcreate, hnodup, hself⟩
    exact ⟨hnodup, (selfConsistent_iff hids hcreate).mp hself⟩
  · rintro ⟨hnodup, hone⟩
    obtain ⟨db', version, hcreate⟩ := @createPolicyVersion_ok db policyId input actor now added
      hrange (policyVersionInput_storable hinput hfits hnodup)
    exact ⟨db', version, hcreate, hnodup, (selfConsistent_iff hids hcreate).mpr hone⟩
  · simp only [createPolicyVersionFromInput, bind_eq_ok, pure_eq_ok] at hcreate
    obtain ⟨input', hinput', ⟨db₁, _⟩, hstore, db₂, hversions, db₃, htenure, hout⟩ := hcreate
    cases hout
    cases Except.ok.inj (hinput.symm.trans hinput')
    have hfacts : db'.facts = db₁.facts :=
      (derives_kept ((derives_syncVersions hversions).trans (derives_syncAllTenure htenure))).facts
    rw [hfacts, selfConsistent_iff hids hstore]
    exact (and_iff_right (createPolicyVersion_outputs hstore).2.1).symm

end

/-- A policy without versions, a one-valued field and a many-valued one. -/
def outputsDb : Db :=
  syncConditionFieldDefinitions
    { Db.empty with
      facts := { Facts.empty with
        policies := .ofRows [⟨1, "laptops", .active, none⟩]
        assignmentFieldDefinitions := .ofRows
          [⟨1, "laptop", .one, "priority", .text⟩, ⟨2, "apps", .many, "priority", .text⟩] } }

def outputsInput (values : List (ℕ × String)) : PolicyVersionCreate where
  priority := 10
  effectiveFrom := .on 2026 1 1
  conditionGroup := .mk .and [⟨"department", .eq, "engineering"⟩] []
  values := values

theorem outputsDb_ids : ∀ r ∈ outputsDb.facts.policyFieldValues,
    r.policyVersionId < outputsDb.sequences.policyVersion :=
  fun _ hr => absurd hr Table.not_mem_empty

/-- The checks of an input for the policy, with those of its dates. -/
theorem outputsDb_accepts {values : List (ℕ × String)}
    (h : (do
      let input ← policyVersionInput outputsDb.facts (outputsInput values) .system
      let _ ← addPolicyVersion outputsDb.facts.policyVersions outputsDb.sequences.policyVersion 1 input
      checkVersionRows outputsDb.facts.toRules input) = (.ok () : Except ServiceError Unit)) :
    ∃ input, policyVersionInput outputsDb.facts (outputsInput values) .system = .ok input ∧
      (∃ added, addPolicyVersion outputsDb.facts.policyVersions outputsDb.sequences.policyVersion 1
        input = .ok added) ∧ FitsColumns input := by
  simp only [bind_eq_ok] at h
  obtain ⟨input, hinput, added, hrange, hrows⟩ := h
  exact ⟨input, hinput, ⟨added, hrange⟩, (checkVersionRows_eq_ok.mp hrows).toFitsColumns⟩

theorem version_outputs_iff_apps : ∃ input,
    policyVersionInput outputsDb.facts (outputsInput [(1, "large"), (2, "mail"), (2, " chat ")])
      .system = .ok input ∧
    StoredConsistently input
      (createPolicyVersion outputsDb 1 input .system (startOfDay (.on 2026 1 1))) := by
  obtain ⟨input, hinput, hrange, hfits⟩ :=
    @outputsDb_accepts [(1, "large"), (2, "mail"), (2, " chat ")] (by decide +kernel)
  exact ⟨input, hinput, (version_outputs_iff outputsDb_ids hinput hrange hfits).1.mpr
    (by decide +kernel)⟩

/-- Two laptops are stored for a field that takes one, and the same app twice breaks the primary key. -/
theorem version_outputs_conflict :
    (¬ ∀ (db : Db) (policyId : ℕ) (data : PolicyVersionCreate) (input : PolicyVersionInput)
      (actor : Actor) (now : DateTime),
      (∀ r ∈ db.facts.policyFieldValues, r.policyVersionId < db.sequences.policyVersion) →
      policyVersionInput db.facts data actor = .ok input →
      (∃ added, addPolicyVersion db.facts.policyVersions db.sequences.policyVersion policyId input =
        .ok added) → FitsColumns input →
          StoredConsistently input (createPolicyVersion db policyId input actor now)) ∧
    (createPolicyVersionFromInput outputsDb 1 (outputsInput [(1, "large"), (1, "small")]) .system
      (startOfDay (.on 2026 1 1))).map (fun _ => ()) = .ok () ∧
    (createPolicyVersionFromInput outputsDb 1 (outputsInput [(2, "mail"), (2, "mail ")]) .system
      (startOfDay (.on 2026 1 1))).map (fun _ => ()) = .error (.integrity "policy_field_values") := by
  refine ⟨fun h => ?_, by decide +kernel, by decide +kernel⟩
  obtain ⟨input, hinput, hrange, hfits⟩ :=
    @outputsDb_accepts [(1, "large"), (1, "small")] (by decide +kernel)
  obtain ⟨db', version, hcreate, _, hself⟩ :=
    h outputsDb 1 _ input .system (startOfDay (.on 2026 1 1)) outputsDb_ids hinput hrange hfits
  have hone := (selfConsistent_iff outputsDb_ids hcreate).mp hself
  rw [policyVersionInput_values hinput] at hone
  have hsame : Text.strip "large" = Text.strip "small" :=
    hone (1, Text.strip "large") (by simp [outputsInput]) (1, Text.strip "small")
      (by simp [outputsInput]) rfl (by decide +kernel)
  exact absurd hsame (by decide +kernel)

end Warp
