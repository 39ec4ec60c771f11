import Warp.Infra.ReadCommitted
import Warp.PolicyVersions

/-!
# Creating policy versions concurrently

`create_policy_version` as the statements of a transaction. The first one locks the policy row.
-/

namespace Warp

open Infra

inductive VersionWrite where
  | closeAt (policyId versionId : ℕ) (last : Date)
  | insert (version : PolicyVersion)
deriving DecidableEq, Repr

/-- The `UPDATE` names the version row. A row never changes its policy, so it is also a row of the
policy the transaction works on. -/
def closeRow (policyId versionId : ℕ) (last : Date) (v : PolicyVersion) : PolicyVersion :=
  if v.id = versionId ∧ v.policyId = policyId then { v with effectiveUntil := some last } else v

theorem closeRow_id {policyId versionId : ℕ} {last : Date} (v : PolicyVersion) :
    (closeRow policyId versionId last v).id = v.id := by
  unfold closeRow
  split <;> rfl

theorem closeRow_policyId {policyId versionId : ℕ} {last : Date} (v : PolicyVersion) :
    (closeRow policyId versionId last v).policyId = v.policyId := by
  unfold closeRow
  split <;> rfl

def applyVersionWrite (versions : Table PolicyVersion) : VersionWrite → Table PolicyVersion
  | .closeAt policyId versionId last =>
    versions.modify (closeRow policyId versionId last) closeRow_id
  | .insert version => versions.insert version

/-- The variables of `create_policy_version`. -/
structure VersionDraft where
  priorVersion : Option PolicyVersion := none
  priorOpenVersion : Option PolicyVersion := none
  currentVersionNumber : ℕ := 0

abbrev VersionStatement :=
  Statement (Table PolicyVersion) VersionWrite VersionDraft ServiceError ℕ

/-- The range check, which reads nothing, and `SELECT ... FOR UPDATE` of the policy row. -/
def lockPolicy (policyId : ℕ) (input : PolicyVersionInput) : VersionStatement where
  locks _ _ := [policyId]
  exec _ draft :=
    (requireValidRange policyId input.effectiveFrom input.effectiveUntil).map fun _ => (draft, [])

def selectPriorVersion (policyId : ℕ) : VersionStatement where
  locks _ _ := []
  exec versions draft := .ok ({ draft with priorVersion := priorVersion? versions policyId }, [])

def selectPriorOpenVersion (policyId : ℕ) (input : PolicyVersionInput) : VersionStatement where
  locks _ _ := []
  exec versions draft :=
    .ok ({ draft with
      priorOpenVersion := priorOpenVersion? versions policyId input.effectiveFrom }, [])

def updatePriorOpenVersion (policyId : ℕ) (input : PolicyVersionInput) : VersionStatement where
  locks _ _ := []
  exec _ draft :=
    match draft.priorOpenVersion with
    | none => .ok (draft, [])
    | some prior =>
      match input.effectiveFrom.pred? with
      | none => .error .dateOutOfRange
      | some last => .ok (draft, [.closeAt policyId prior.id last])

def selectOverlap (policyId : ℕ) (input : PolicyVersionInput) : VersionStatement where
  locks _ _ := []
  exec versions draft :=
    (rejectOverlappingRange versions policyId input.effectiveFrom input.effectiveUntil).map
      fun _ => (draft, [])

def selectVersionNumber (policyId : ℕ) : VersionStatement where
  locks _ _ := []
  exec versions draft :=
    .ok ({ draft with currentVersionNumber := currentVersionNumber versions policyId }, [])

def draftedVersion (versionId policyId : ℕ) (input : PolicyVersionInput) (number : ℕ) :
    PolicyVersion where
  id := versionId
  policyId := policyId
  versionNumber := number + 1
  priority := input.priority
  effectiveFrom := input.effectiveFrom
  effectiveUntil := input.effectiveUntil
  createdBy := input.createdBy

def insertVersion (versionId policyId : ℕ) (input : PolicyVersionInput) : VersionStatement where
  locks _ _ := []
  exec _ draft :=
    .ok (draft, [.insert (draftedVersion versionId policyId input draft.currentVersionNumber)])

def createPolicyVersionProgram (versionId policyId : ℕ) (input : PolicyVersionInput) :
    Program (Table PolicyVersion) VersionWrite VersionDraft ServiceError ℕ where
  memory := {}
  statements :=
    [lockPolicy policyId input, selectPriorVersion policyId, selectPriorOpenVersion policyId input,
      updatePriorOpenVersion policyId input, selectOverlap policyId input,
      selectVersionNumber policyId, insertVersion versionId policyId input]

/-! ## Alone, the transaction is `create_policy_version` -/

theorem priorOpenVersion?_mem {versions : Table PolicyVersion} {policyId : ℕ} {next : Date}
    {prior : PolicyVersion} (h : priorOpenVersion? versions policyId next = some prior) :
    prior ∈ versions ∧ prior.policyId = policyId ∧ prior.effectiveUntil = none ∧
      prior.effectiveFrom < next := by
  have hmem := mem_orderBy.mp (List.mem_of_head? h)
  simpa [and_assoc] using hmem

/-- Closing a row of the policy by its id closes that row. -/
theorem setEffectiveUntil_eq {versions : Table PolicyVersion} {policyId : ℕ} {prior : PolicyVersion}
    (hm : prior ∈ versions) (hp : prior.policyId = policyId) (last : Date) :
    setEffectiveUntil versions prior.id last =
      applyVersionWrite versions (.closeAt policyId prior.id last) := by
  refine Table.ext_mem fun v => ?_
  rw [setEffectiveUntil, applyVersionWrite, Table.mem_modify, Table.mem_modify]
  refine exists_congr fun u => and_congr_right fun hu => ?_
  by_cases hid : u.id = prior.id
  · have hup : u.policyId = policyId := by
      rw [Table.key_inj hu hm hid]
      exact hp
    rw [closeRow, if_pos hid, if_pos ⟨hid, hup⟩]
  · rw [closeRow, if_neg hid, if_neg fun h => hid h.1]

theorem runStatements_createPolicyVersion {versions : Table PolicyVersion} {versionId policyId : ℕ}
    {input : PolicyVersionInput} {draft : VersionDraft} {writes : List VersionWrite}
    (h : runStatements applyVersionWrite (createPolicyVersionProgram versionId policyId
      input).statements versions (createPolicyVersionProgram versionId policyId input).memory [] =
        .ok (draft, writes)) :
    ∃ version, version.id = versionId ∧
      addPolicyVersion versions versionId policyId input =
        .ok (writes.foldl applyVersionWrite versions, version) := by
  unfold addPolicyVersion closePriorOpenEndedVersion
  simp only [createPolicyVersionProgram, runStatements, lockPolicy, selectPriorVersion,
    selectPriorOpenVersion, updatePriorOpenVersion, selectOverlap, selectVersionNumber,
    insertVersion, List.nil_append, List.append_nil] at h
  cases hrange : requireValidRange policyId input.effectiveFrom input.effectiveUntil with
  | error e => simp [hrange, Except.map] at h
  | ok u =>
    simp only [hrange, Except.map, List.foldl_nil] at h
    cases hprior : priorOpenVersion? versions policyId input.effectiveFrom with
    | none =>
      simp only [hprior, List.append_nil, List.foldl_nil] at h
      dsimp only
      cases hoverlap : rejectOverlappingRange versions policyId input.effectiveFrom
          input.effectiveUntil with
      | error e => simp [hoverlap] at h
      | ok u =>
        simp only [hoverlap, List.append_nil, List.foldl_nil] at h
        cases h
        exact ⟨draftedVersion versionId policyId input (currentVersionNumber versions policyId),
          rfl, rfl⟩
    | some prior =>
      obtain ⟨hm, hp, _, _⟩ := priorOpenVersion?_mem hprior
      cases hlast : input.effectiveFrom.pred? with
      | none => simp [hprior, hlast] at h
      | some last =>
        have hclose := setEffectiveUntil_eq hm hp last
        simp only [hprior, hlast, List.nil_append, List.foldl_cons, List.foldl_nil, ← hclose] at h
        dsimp only
        cases hoverlap : rejectOverlappingRange (setEffectiveUntil versions prior.id last) policyId
            input.effectiveFrom input.effectiveUntil with
        | error e => simp [hoverlap] at h
        | ok u =>
          simp only [hoverlap, List.append_nil, List.foldl_cons, List.foldl_nil, ← hclose] at h
          cases h
          refine ⟨draftedVersion versionId policyId input
            (currentVersionNumber (setEffectiveUntil versions prior.id last) policyId), rfl, ?_⟩
          rw [List.cons_append, List.foldl_cons, ← hclose]
          rfl

end Warp
