import Warp.Properties.OperationSteps
import Warp.Properties.VersionOutputs

/-!
# What stays of the facts

New employees, groups, policies and versions have ids from the sequences, and no policy and no output of
a version ever goes away.
-/

namespace Warp

open Infra

/-- The ids in use are below the next ones. -/
structure IdsDrawn (db : Db) : Prop where
  employees : ∀ e ∈ db.facts.employees, e.id < db.sequences.employee
  groups : ∀ g ∈ db.facts.groups, g.id < db.sequences.group
  policies : ∀ p ∈ db.facts.policies, p.id < db.sequences.policy
  versions : ∀ v ∈ db.facts.policyVersions, v.id < db.sequences.policyVersion

/-- The policies, the versions and their outputs are still there. -/
structure RulesKept (rules rules' : Rules) : Prop where
  policies : ∀ p ∈ rules.policies, ∃ p' ∈ rules'.policies, p'.id = p.id
  versions : ∀ v ∈ rules.policyVersions,
    ∃ v' ∈ rules'.policyVersions, v'.id = v.id ∧ v'.policyId = v.policyId
  outputs : ∀ r ∈ rules.policyFieldValues, r ∈ rules'.policyFieldValues

theorem RulesKept.refl (rules : Rules) : RulesKept rules rules where
  policies p hp := ⟨p, hp, rfl⟩
  versions v hv := ⟨v, hv, rfl, rfl⟩
  outputs _ hr := hr

section

variable {α : Type} [Row α ℕ] {t : Table α} {n : ℕ}

/-- A row with the next id. -/
theorem drawn_insert_next {a : α} (h : ∀ r ∈ t, Row.key r < n) (ha : Row.key a = n) :
    ∀ r ∈ t.insert a, Row.key r < n + 1 := by
  intro r hr
  rcases Table.mem_insert.mp hr with rfl | ⟨hr, _⟩
  · omega
  · exact (h r hr).trans (Nat.lt_succ_self n)

/-- A row in the place of another one. -/
theorem drawn_insert_same {a b : α} (h : ∀ r ∈ t, Row.key r < n) (hb : b ∈ t)
    (ha : Row.key a = Row.key b) : ∀ r ∈ t.insert a, Row.key r < n := by
  intro r hr
  rcases Table.mem_insert.mp hr with rfl | ⟨hr, _⟩
  · rw [ha]
    exact h b hb
  · exact h r hr

/-- Every row is still there after an insert, or another one with its id. -/
theorem kept_insert {a : α} : ∀ r ∈ t, ∃ r' ∈ t.insert a, Row.key r' = Row.key r := by
  intro r hr
  by_cases hkey : Row.key r = Row.key a
  · exact ⟨a, Table.mem_insert_self, hkey.symm⟩
  · exact ⟨r, Table.mem_insert.mpr (Or.inr ⟨hr, hkey⟩), rfl⟩

end

/-! ## A new version -/

section

variable {versions versions' : Table PolicyVersion} {policyId versionId : ℕ}
  {input : PolicyVersionInput} {v : PolicyVersion}

theorem closePrior_kept {day : Date} (h : closePriorOpenEndedVersion versions policyId day = .ok versions')
    (hids : ∀ w ∈ versions, w.id < versionId) :
    (∀ w ∈ versions, ∃ w' ∈ versions', w'.id = w.id ∧ w'.policyId = w.policyId) ∧
      ∀ w ∈ versions', w.id < versionId := by
  unfold closePriorOpenEndedVersion at h
  split at h
  · cases h
    exact ⟨fun w hw => ⟨w, hw, rfl, rfl⟩, hids⟩
  · split at h
    · exact absurd h (by simp)
    · next prior _ last _ =>
      cases h
      unfold setEffectiveUntil
      refine ⟨fun w hw => ⟨_, Table.mem_modify.mpr ⟨w, hw, rfl⟩, ?_⟩, fun w hw => ?_⟩
      · split <;> exact ⟨rfl, rfl⟩
      · obtain ⟨r, hr, rfl⟩ := Table.mem_modify.mp hw
        have hlt := hids r hr
        split <;> exact hlt

theorem addPolicyVersion_kept
    (h : addPolicyVersion versions versionId policyId input = .ok (versions', v))
    (hids : ∀ w ∈ versions, w.id < versionId) :
    v ∈ versions' ∧ v.id = versionId ∧ v.policyId = policyId ∧
      (∀ w ∈ versions, ∃ w' ∈ versions', w'.id = w.id ∧ w'.policyId = w.policyId) ∧
      ∀ w ∈ versions', w.id < versionId + 1 := by
  unfold addPolicyVersion at h
  split at h
  · exact absurd h (by simp)
  · split at h
    · exact absurd h (by simp)
    · next closed hclose =>
      split at h
      · exact absurd h (by simp)
      · cases h
        obtain ⟨hkept, hclosed⟩ := closePrior_kept hclose hids
        refine ⟨Table.mem_insert_self, rfl, rfl, fun w hw => ?_, ?_⟩
        · obtain ⟨w', hw', hid, hpolicy⟩ := hkept w hw
          refine ⟨w', Table.mem_insert.mpr (Or.inr ⟨hw', ?_⟩), hid, hpolicy⟩
          exact (hclosed w' hw').ne
        · exact drawn_insert_next hclosed rfl

theorem storePolicyVersion_kept {rules rules' : Rules} {sequences : Sequences}
    (h : storePolicyVersion rules sequences policyId input = .ok (rules', v))
    (hids : ∀ w ∈ rules.policyVersions, w.id < sequences.policyVersion) :
    RulesKept rules rules' ∧ v ∈ rules'.policyVersions ∧ v.policyId = policyId ∧
      rules'.policies = rules.policies ∧
      ∀ w ∈ rules'.policyVersions, w.id < sequences.policyVersion + 1 := by
  unfold storePolicyVersion at h
  split at h
  · exact absurd h (by simp)
  · next versions version hadd =>
    split at h
    · exact absurd h (by simp)
    · cases h
      obtain ⟨hmem, _, hpolicy, hkept, hdrawn⟩ := addPolicyVersion_kept hadd hids
      rw [storeClauses_policyVersions, (storeClauses_frame _).1]
      refine ⟨⟨fun p hp => ?_, fun w hw => ?_, fun r hr => ?_⟩, hmem, hpolicy, rfl, hdrawn⟩
      · rw [(storeClauses_frame _).1]
        exact ⟨p, hp, rfl⟩
      · rw [storeClauses_policyVersions]
        exact hkept w hw
      · rw [(storeClauses_outputs input.compiledClauses).1, mem_storeValues]
        exact Or.inl hr

end

/-! ## Steps -/

section

variable {db db' : Db} {T : DateTime} {gone : Set ℕ} {actor : Actor}

theorem IdsDrawn.derives (h : IdsDrawn db) (hd : Derives db db') : IdsDrawn db' := by
  have hkept := derives_kept hd
  constructor
  · rw [hkept.facts, hkept.sequences]
    exact h.employees
  · rw [hkept.facts, hkept.sequences]
    exact h.groups
  · rw [hkept.facts, hkept.sequences]
    exact h.policies
  · rw [hkept.facts, hkept.sequences]
    exact h.versions

/-- What a change of the facts keeps. -/
structure FactsKeep (db db' : Db) : Prop where
  ids : IdsDrawn db'
  rules : RulesKept db.facts.toRules db'.facts.toRules

theorem FactWrite.keeps {entityType action : String} {entityId : ℕ} {before after : Option Snapshot}
    (h : FactWrite T gone db db' entityType entityId action before after) (hids : IdsDrawn db) :
    FactsKeep db db' := by
  obtain ⟨hemployees, hgroups, hpolicies, hversions⟩ := hids
  have hrules := RulesKept.refl db.facts.toRules
  cases h with
  | employeeCreated e drawn =>
    exact ⟨⟨drawn_insert_next hemployees drawn, hgroups, hpolicies, hversions⟩, hrules⟩
  | employeeChanged e changed _ present same =>
    exact ⟨⟨drawn_insert_same hemployees present same, hgroups, hpolicies, hversions⟩, hrules⟩
  | employeeDeleted e _ =>
    refine ⟨⟨fun r hr => ?_, hgroups, hpolicies, hversions⟩, hrules⟩
    obtain ⟨_, x, hx, hid⟩ := withoutEmployee_id hr
    exact hid ▸ hemployees x hx
  | groupCreated g drawn =>
    exact ⟨⟨hemployees, drawn_insert_next hgroups drawn, hpolicies, hversions⟩, hrules⟩
  | groupChanged g changed present same =>
    exact ⟨⟨hemployees, drawn_insert_same hgroups present same, hpolicies, hversions⟩, hrules⟩
  | policyCreated p drawn =>
    exact ⟨⟨hemployees, hgroups, drawn_insert_next hpolicies drawn, hversions⟩,
      { hrules with policies := kept_insert }⟩
  | policyChanged p changed _ present same =>
    exact ⟨⟨hemployees, hgroups, drawn_insert_same hpolicies present same, hversions⟩,
      { hrules with policies := kept_insert }⟩
  | versionCreated policyId input rules v _ stored =>
    obtain ⟨hkept, _, _, hsame, hdrawn⟩ := storePolicyVersion_kept stored hversions
    refine ⟨⟨hemployees, hgroups, fun p hp => ?_, hdrawn⟩, hkept⟩
    exact hpolicies p (hsame ▸ hp)
  | overrideCreated | overrideChanged | overrideRemoved | memberAdded | memberRemoved
  | policyAttached | policyDetached =>
    exact ⟨⟨hemployees, hgroups, hpolicies, hversions⟩, hrules⟩

theorem OperationStep.keeps (h : OperationStep T gone db db') (hids : IdsDrawn db) :
    FactsKeep db db' := by
  cases h with
  | recorded actor written =>
    obtain ⟨⟨hemployees, hgroups, hpolicies, hversions⟩, hrules⟩ := written.keeps hids
    exact ⟨⟨hemployees, hgroups, hpolicies, hversions⟩, hrules⟩
  | refreshed employeeId evaluationDate actor desired now sourced ok =>
    have hd := derives_refresh ok
    refine ⟨hids.derives hd, ?_⟩
    rw [(derives_kept hd).facts]
    exact .refl _
  | links links => exact ⟨⟨hids.employees, hids.groups, hids.policies, hids.versions⟩, .refl _⟩
  | events events next =>
    exact ⟨⟨hids.employees, hids.groups, hids.policies, hids.versions⟩, .refl _⟩

/-! ## Runs -/

theorem idsDrawn_seeded (fields : Table AssignmentFieldDefinition) : IdsDrawn (seededDb fields) where
  employees _ he := absurd he Table.not_mem_empty
  groups _ hg := absurd hg Table.not_mem_empty
  policies _ hp := absurd hp Table.not_mem_empty
  versions _ hv := absurd hv Table.not_mem_empty

/-- What every step keeps, as long as the ids are drawn, every run keeps. -/
theorem operations_invariant {I : Db → Prop}
    (hstep : ∀ {T gone db db'}, IdsDrawn db → OperationStep T gone db db' → I db → I db')
    (calls : List OperationCall) {db : Db} (hids : IdsDrawn db) (h : I db) :
    IdsDrawn (runOperations db calls) ∧ I (runOperations db calls) := by
  induction calls generalizing db with
  | nil => exact ⟨hids, h⟩
  | cons call rest ih =>
    have hone : IdsDrawn (operationStep db call) ∧ I (operationStep db call) := by
      unfold operationStep
      split
      · next db' hrun =>
        have hsteps := runOperation_steps hrun
        clear hrun
        induction hsteps with
        | refl => exact ⟨hids, h⟩
        | tail _ hlast ih => exact ⟨(hlast.keeps ih.1).ids, hstep ih.1 hlast ih.2⟩
      · exact ⟨hids, h⟩
    exact ih hone.1 hone.2

end

end Warp
