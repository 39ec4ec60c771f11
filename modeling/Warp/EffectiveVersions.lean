import Warp.Errors
import Warp.Infra.Dict

/-!
# Effective policy versions

Which version of each active policy applies on a date. Both bounds of a version's range are
inclusive.
-/

namespace Warp

open Infra

def PolicyVersion.effectiveOn (v : PolicyVersion) (day : Date) : Bool :=
  v.effectiveFrom ≤ day && (match v.effectiveUntil with
    | none => true
    | some last => day ≤ last)

def Rules.policyActive (rules : Rules) (policyId : ℕ) : Bool :=
  match rules.policies.find? policyId with
  | none => false
  | some policy => policy.status = .active

/-- `policy_id IN (...)`, where no restriction means every policy. -/
def amongPolicies (policyIds : Option (List ℕ)) (policyId : ℕ) : Bool :=
  match policyIds with
  | none => true
  | some ids => ids.contains policyId

/-- The rows of the statement in `get_effective_policy_versions`. -/
def effectiveRows (rules : Rules) (policyIds : Option (List ℕ)) (effectiveOn : Date) :
    List PolicyVersion :=
  orderBy (fun v => toLex (v.policyId, v.versionNumber))
    (rules.policyVersions.select fun v =>
      rules.policyActive v.policyId && v.effectiveOn effectiveOn
        && amongPolicies policyIds v.policyId)

/-- Raises on the second effective version of a policy. -/
def collectEffective (effectiveOn : Date) :
    Dict ℕ PolicyVersion → List PolicyVersion → Except ServiceError (Dict ℕ PolicyVersion)
  | versions, [] => .ok versions
  | versions, v :: rest =>
    if h : v.policyId ∈ versions.keys then
      .error (.effectivePolicyVersionConflict v.policyId effectiveOn)
    else collectEffective effectiveOn (versions.append v.policyId v h) rest

def getEffectivePolicyVersions (rules : Rules) (policyIds : Option (List ℕ)) (effectiveOn : Date) :
    Except ServiceError (Dict ℕ PolicyVersion) :=
  if policyIds = some [] then .ok .empty
  else collectEffective effectiveOn .empty (effectiveRows rules policyIds effectiveOn)

/-- `get_effective_policy_version` -/
def getEffectivePolicyVersion (rules : Rules) (policyId : ℕ) (day : Date) :
    Except ServiceError (Option PolicyVersion) :=
  (getEffectivePolicyVersions rules (some [policyId]) day).map fun versions =>
    versions.get? policyId

/-! ## What the query returns -/

section

variable {rules : Rules} {ids : Option (List ℕ)} {day : Date} {v : PolicyVersion}

theorem effectiveOn_iff : v.effectiveOn day = true ↔
    v.effectiveFrom ≤ day ∧ ∀ last, v.effectiveUntil = some last → day ≤ last := by
  unfold PolicyVersion.effectiveOn
  cases v.effectiveUntil with
  | none => simp
  | some last => simp

theorem mem_effectiveRows : v ∈ effectiveRows rules ids day ↔
    v ∈ rules.policyVersions ∧ rules.policyActive v.policyId = true ∧ v.effectiveOn day = true ∧
      amongPolicies ids v.policyId = true := by
  simp [effectiveRows, and_assoc]

theorem effectiveRows_nodup : (effectiveRows rules ids day).Nodup :=
  orderBy_nodup (Table.select_nodup _ _)

/-- Collecting succeeds when no policy comes up twice, and then keeps the rows as they are. -/
theorem collectEffective_eq_ok : ∀ {rows : List PolicyVersion} {d e : Dict ℕ PolicyVersion},
    collectEffective day d rows = .ok e ↔
      (d.keys ++ rows.map (fun v => v.policyId)).Nodup ∧
        e.entries = d.entries ++ rows.map (fun v => (v.policyId, v))
  | [], d, e => by
    simp only [collectEffective, List.map_nil, List.append_nil, Except.ok.injEq]
    constructor
    · rintro rfl
      exact ⟨d.keys_nodup, rfl⟩
    · rintro ⟨_, he⟩
      cases d
      cases e
      cases he
      rfl
  | v :: rows, d, e => by
    rw [collectEffective]
    split
    · next h =>
      refine iff_of_false (by simp) ?_
      rintro ⟨hn, _⟩
      rw [List.map_cons, List.nodup_append] at hn
      exact hn.2.2 _ h _ List.mem_cons_self rfl
    · next h =>
      rw [collectEffective_eq_ok]
      simp [Dict.append, Dict.keys]

theorem getEffective_entries {vs : Dict ℕ PolicyVersion}
    (h : getEffectivePolicyVersions rules ids day = .ok vs) :
    vs.entries = (effectiveRows rules ids day).map (fun v => (v.policyId, v)) := by
  unfold getEffectivePolicyVersions at h
  split at h
  · next hempty =>
    cases h
    have hnil : effectiveRows rules ids day = [] := by
      refine List.eq_nil_iff_forall_not_mem.mpr fun v hv => ?_
      have := (mem_effectiveRows.mp hv).2.2.2
      rw [hempty] at this
      simp [amongPolicies] at this
    rw [hnil]
    rfl
  · simpa [Dict.empty] using (collectEffective_eq_ok.mp h).2

theorem mem_getEffective {vs : Dict ℕ PolicyVersion} {policyId : ℕ}
    (h : getEffectivePolicyVersions rules ids day = .ok vs) :
    (policyId, v) ∈ vs.entries ↔ v ∈ effectiveRows rules ids day ∧ v.policyId = policyId := by
  rw [getEffective_entries h, List.mem_map]
  constructor
  · rintro ⟨w, hw, he⟩
    cases he
    exact ⟨hw, rfl⟩
  · rintro ⟨hv, rfl⟩
    exact ⟨v, hv, rfl⟩

theorem values_getEffective {vs : Dict ℕ PolicyVersion}
    (h : getEffectivePolicyVersions rules ids day = .ok vs) :
    vs.values = effectiveRows rules ids day := by
  rw [Dict.values, getEffective_entries h, List.map_map]
  exact List.map_id _

/-- A policy has at most one effective version on the date. -/
def EffectiveUnique (rules : Rules) (day : Date) : Prop :=
  ∀ v ∈ rules.policyVersions, ∀ w ∈ rules.policyVersions, v.policyId = w.policyId →
    v.effectiveOn day = true → w.effectiveOn day = true → v = w

theorem getEffective_ok_of_unique (h : EffectiveUnique rules day) :
    ∃ vs, getEffectivePolicyVersions rules ids day = .ok vs := by
  unfold getEffectivePolicyVersions
  split
  · exact ⟨_, rfl⟩
  · have hn : ((effectiveRows rules ids day).map (fun v => v.policyId)).Nodup := by
      refine List.Nodup.map_on ?_ effectiveRows_nodup
      intro v hv w hw he
      obtain ⟨hv1, _, hv3, _⟩ := mem_effectiveRows.mp hv
      obtain ⟨hw1, _, hw3, _⟩ := mem_effectiveRows.mp hw
      exact h v hv1 w hw1 he hv3 hw3
    let e : Dict ℕ PolicyVersion :=
      { entries := (effectiveRows rules ids day).map (fun v => (v.policyId, v))
        nodup := by rw [List.map_map]; exact hn }
    exact ⟨e, collectEffective_eq_ok.mpr ⟨by simpa [Dict.keys, Dict.empty] using hn, by
      simp [Dict.empty, e]⟩⟩

/-- No policy comes up twice exactly when the policy determines the row. -/
theorem policyIds_nodup_iff :
    ((effectiveRows rules ids day).map (fun v => v.policyId)).Nodup ↔
      ∀ v ∈ effectiveRows rules ids day, ∀ w ∈ effectiveRows rules ids day,
        v.policyId = w.policyId → v = w := by
  constructor
  · intro hn v hv w hw he
    exact List.inj_on_of_nodup_map hn hv hw he
  · intro h
    exact List.Nodup.map_on (fun v hv w hw he => h v hv w hw he) effectiveRows_nodup

theorem getEffective_restrict {vs : Dict ℕ PolicyVersion} (policyIds : List ℕ)
    (h : getEffectivePolicyVersions rules none day = .ok vs) :
    ∃ ws, getEffectivePolicyVersions rules (some policyIds) day = .ok ws ∧
      ∀ v, v ∈ ws.values ↔ v ∈ vs.values ∧ v.policyId ∈ policyIds := by
  have hn : ((effectiveRows rules none day).map (fun v => v.policyId)).Nodup := by
    have hk := vs.keys_nodup
    rw [Dict.keys, getEffective_entries h, List.map_map] at hk
    exact hk
  have hsub : ∀ v, v ∈ effectiveRows rules (some policyIds) day ↔
      v ∈ effectiveRows rules none day ∧ v.policyId ∈ policyIds := by
    intro v
    rw [mem_effectiveRows, mem_effectiveRows]
    simp [amongPolicies, and_assoc]
  have hn' : ((effectiveRows rules (some policyIds) day).map (fun v => v.policyId)).Nodup := by
    rw [policyIds_nodup_iff] at hn ⊢
    exact fun v hv w hw he => hn v ((hsub v).mp hv).1 w ((hsub w).mp hw).1 he
  by_cases hnil : policyIds = []
  · refine ⟨.empty, by simp [getEffectivePolicyVersions, hnil], fun v => ?_⟩
    simp [Dict.values, Dict.empty, hnil]
  · let e : Dict ℕ PolicyVersion :=
      { entries := (effectiveRows rules (some policyIds) day).map (fun v => (v.policyId, v))
        nodup := by rw [List.map_map]; exact hn' }
    have he : getEffectivePolicyVersions rules (some policyIds) day = .ok e := by
      rw [getEffectivePolicyVersions, if_neg (by simpa using hnil)]
      exact collectEffective_eq_ok.mpr ⟨by simpa [Dict.keys, Dict.empty] using hn', by
        simp [Dict.empty, e]⟩
    refine ⟨e, he, fun v => ?_⟩
    rw [values_getEffective he, values_getEffective h]
    exact hsub v

end

end Warp
