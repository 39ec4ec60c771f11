import Warp.Properties.VersionWindows

/-!
# The effect of `create_policy_version`

When the call accepts a date range, what a refusal leaves behind before its rollback, and which
version applies on which date afterwards. Closing the open-ended predecessor before the overlap check
does no harm because the ranges of a policy are disjoint: where there is something to close, nothing
else can overlap the new range.
-/

namespace Warp

open Infra

/-! ## Ranges and dates -/

/-- A date of the requested range. -/
def Requested (effectiveFrom : Date) (effectiveUntil : Option Date) (day : Date) : Prop :=
  effectiveFrom ≤ day ∧ ∀ last, effectiveUntil = some last → day ≤ last

/-- An open-ended version that starts strictly before the requested range. -/
def PolicyVersion.Closable (v : PolicyVersion) (effectiveFrom : Date) : Prop :=
  v.effectiveUntil = none ∧ v.effectiveFrom < effectiveFrom

/-- The ranges of a policy, as the check constraint of the table and their disjointness have them. -/
structure DisjointRanges (versions : Table PolicyVersion) (policyId : ℕ) : Prop where
  inOrder : ∀ v ∈ versions, v.policyId = policyId → ∀ last, v.effectiveUntil = some last →
    v.effectiveFrom ≤ last
  disjoint : ∀ v ∈ versions, ∀ w ∈ versions, v.policyId = policyId → w.policyId = policyId →
    v ≠ w → ApartFrom v w

/-- The requested range is one, and only a closable version has a date in common with it. -/
def Admissible (versions : Table PolicyVersion) (policyId : ℕ) (effectiveFrom : Date)
    (effectiveUntil : Option Date) : Prop :=
  (∀ last, effectiveUntil = some last → effectiveFrom ≤ last) ∧
    ∀ v ∈ versions, v.policyId = policyId →
      (∃ day, v.effectiveOn day = true ∧ Requested effectiveFrom effectiveUntil day) →
        v.Closable effectiveFrom

/-- The version of the policy whose range contains the date. -/
def versionIdOn (versions : Table PolicyVersion) (policyId : ℕ) (day : Date) : Option ℕ :=
  ((versions.select fun v => v.policyId = policyId && v.effectiveOn day).head?).map fun v => v.id

section

variable {versions : Table PolicyVersion} {policyId : ℕ} {effectiveFrom : Date}
  {effectiveUntil : Option Date} {v w : PolicyVersion} {day : Date}

theorem effectiveOn_of_open (hopen : v.effectiveUntil = none) (h : v.effectiveFrom ≤ day) :
    v.effectiveOn day = true := by
  refine effectiveOn_iff.mpr ⟨h, fun last hl => ?_⟩
  rw [hopen] at hl
  exact absurd hl (by simp)

/-- Two versions of the policy with a common date are the same. -/
theorem DisjointRanges.unique (h : DisjointRanges versions policyId) (hv : v ∈ versions)
    (hw : w ∈ versions) (hvp : v.policyId = policyId) (hwp : w.policyId = policyId)
    (hvd : v.effectiveOn day = true) (hwd : w.effectiveOn day = true) : v = w := by
  by_contra hne
  exact h.disjoint v hv w hw hvp hwp hne day ⟨hvd, hwd⟩

/-- The overlap test of the query looks for a common date. -/
theorem overlaps_iff (hv : ∀ last, v.effectiveUntil = some last → v.effectiveFrom ≤ last)
    (hr : ∀ last, effectiveUntil = some last → effectiveFrom ≤ last) :
    v.overlaps effectiveFrom effectiveUntil = true ↔
      ∃ day, v.effectiveOn day = true ∧ Requested effectiveFrom effectiveUntil day := by
  unfold PolicyVersion.overlaps
  rw [Bool.and_eq_true, decide_eq_true_eq]
  constructor
  · rintro ⟨hstart, hstop⟩
    refine ⟨max v.effectiveFrom effectiveFrom, effectiveOn_iff.mpr ⟨le_max_left _ _, ?_⟩,
      le_max_right _ _, ?_⟩
    · intro last hl
      rw [hl] at hstop
      exact max_le (hv last hl) (of_decide_eq_true hstop)
    · intro last hl
      rw [hl] at hstart
      exact max_le hstart (hr last hl)
  · rintro ⟨day, hday, hfrom, huntil⟩
    obtain ⟨h1, h2⟩ := effectiveOn_iff.mp hday
    constructor
    · cases hu : effectiveUntil with
      | none => exact v.effectiveFrom.le_max
      | some last => exact h1.trans (huntil last hu)
    · cases hu : v.effectiveUntil with
      | none => rfl
      | some last => exact decide_eq_true (hfrom.trans (h2 last hu))

theorem versionIdOn_eq_some (h : ∀ v ∈ versions, ∀ w ∈ versions, v.policyId = policyId →
      w.policyId = policyId → v.effectiveOn day = true → w.effectiveOn day = true → v = w) {i : ℕ} :
    versionIdOn versions policyId day = some i ↔
      ∃ v ∈ versions, v.policyId = policyId ∧ v.effectiveOn day = true ∧ v.id = i := by
  have hmem : ∀ v, v ∈ versions.select (fun v => v.policyId = policyId && v.effectiveOn day) ↔
      v ∈ versions ∧ v.policyId = policyId ∧ v.effectiveOn day = true := by
    intro v
    rw [Table.mem_select, Bool.and_eq_true, decide_eq_true_eq]
  unfold versionIdOn
  rw [Option.map_eq_some_iff]
  constructor
  · rintro ⟨v, hv, rfl⟩
    obtain ⟨hm, hp, hd⟩ := (hmem v).mp (List.mem_of_head? hv)
    exact ⟨v, hm, hp, hd, rfl⟩
  · rintro ⟨v, hm, hp, hd, rfl⟩
    have hne := List.ne_nil_of_mem ((hmem v).mpr ⟨hm, hp, hd⟩)
    refine ⟨_, List.head?_eq_some_head hne, ?_⟩
    obtain ⟨hm', hp', hd'⟩ := (hmem _).mp (List.head_mem hne)
    rw [h _ hm' v hm hp' hp hd' hd]

/-- For an active policy `get_effective_policy_version` looks the date up, for the others it finds
nothing. -/
theorem getEffectivePolicyVersion_eq {rules : Rules}
    (h : ∀ v ∈ rules.policyVersions, ∀ w ∈ rules.policyVersions, v.policyId = policyId →
      w.policyId = policyId → v.effectiveOn day = true → w.effectiveOn day = true → v = w) :
    (getEffectivePolicyVersion rules policyId day).map (Option.map fun v => v.id) =
      .ok (if rules.policyActive policyId then versionIdOn rules.policyVersions policyId day
        else none) := by
  have hrows : ∀ v, v ∈ effectiveRows rules (some [policyId]) day ↔
      v ∈ rules.policyVersions ∧ rules.policyActive policyId = true ∧ v.effectiveOn day = true ∧
        v.policyId = policyId := by
    intro v
    rw [mem_effectiveRows]
    simp only [amongPolicies, List.contains_eq_mem, List.mem_singleton, decide_eq_true_eq]
    refine and_congr_right fun _ => ?_
    constructor
    · rintro ⟨ha, hd, rfl⟩
      exact ⟨ha, hd, rfl⟩
    · rintro ⟨ha, hd, rfl⟩
      exact ⟨ha, hd, rfl⟩
  have hn : ((effectiveRows rules (some [policyId]) day).map fun v => v.policyId).Nodup := by
    refine policyIds_nodup_iff.mpr fun v hv w hw _ => ?_
    obtain ⟨hvm, _, hvd, hvp⟩ := (hrows v).mp hv
    obtain ⟨hwm, _, hwd, hwp⟩ := (hrows w).mp hw
    exact h v hvm w hwm hvp hwp hvd hwd
  have hok : ∃ found, getEffectivePolicyVersions rules (some [policyId]) day = .ok found := by
    rw [getEffectivePolicyVersions, if_neg (by simp)]
    let found : Dict ℕ PolicyVersion :=
      { entries := (effectiveRows rules (some [policyId]) day).map fun v => (v.policyId, v)
        nodup := by rw [List.map_map]; exact hn }
    exact ⟨found, collectEffective_eq_ok.mpr ⟨by simpa [Dict.keys, Dict.empty] using hn, by
      simp [Dict.empty, found]⟩⟩
  obtain ⟨found, hfound⟩ := hok
  rw [getEffectivePolicyVersion, hfound]
  refine congrArg Except.ok (Option.ext fun i => ?_)
  have hget : ∀ v, found.get? policyId = some v ↔ v ∈ rules.policyVersions ∧
      rules.policyActive policyId = true ∧ v.effectiveOn day = true ∧ v.policyId = policyId := by
    intro v
    rw [Dict.get?_eq_some, mem_getEffective hfound, hrows]
    exact and_iff_left_of_imp fun hv => hv.2.2.2
  rw [Option.map_eq_some_iff]
  split
  · next hactive =>
    rw [versionIdOn_eq_some h]
    constructor
    · rintro ⟨v, hv, hid⟩
      obtain ⟨hm, _, hd, hp⟩ := (hget v).mp hv
      exact ⟨v, hm, hp, hd, hid⟩
    · rintro ⟨v, hm, hp, hd, hid⟩
      exact ⟨v, (hget v).mpr ⟨hm, hactive, hd, hp⟩, hid⟩
  · next hactive =>
    refine iff_of_false ?_ (by simp)
    rintro ⟨v, hv, _⟩
    exact hactive ((hget v).mp hv).2.1

end

/-! ## Closing the predecessor -/

/-- The rows after `_close_prior_open_ended_version`: the closable version of the policy ends on the
day before the requested range. -/
structure ClosedBefore (versions closed : Table PolicyVersion) (policyId : ℕ)
    (effectiveFrom : Date) : Prop where
  rows : ∀ w, w ∈ closed ↔
    (w ∈ versions ∧ ¬ (w.policyId = policyId ∧ w.Closable effectiveFrom)) ∨
    ∃ v ∈ versions, v.policyId = policyId ∧ v.Closable effectiveFrom ∧
      ∃ last, effectiveFrom.pred? = some last ∧ w = { v with effectiveUntil := some last }
  same : (∀ v ∈ versions, v.policyId = policyId → ¬ v.Closable effectiveFrom) → closed = versions

section

variable {versions closed : Table PolicyVersion} {policyId : ℕ} {effectiveFrom : Date}
  {effectiveUntil : Option Date} {v w : PolicyVersion} {day last : Date}

theorem priorOpenVersion?_eq_none : priorOpenVersion? versions policyId effectiveFrom = none ↔
    ∀ v ∈ versions, v.policyId = policyId → ¬ v.Closable effectiveFrom := by
  have hmem : ∀ v, v ∈ orderBy (fun v : PolicyVersion => OrderDual.toDual v.effectiveFrom)
      (versions.select fun v => v.policyId = policyId && v.effectiveUntil.isNone
        && v.effectiveFrom < effectiveFrom) ↔
      v ∈ versions ∧ v.policyId = policyId ∧ v.Closable effectiveFrom := by
    intro v
    simp [PolicyVersion.Closable, and_assoc]
  rw [priorOpenVersion?, List.head?_eq_none_iff, List.eq_nil_iff_forall_not_mem]
  constructor
  · exact fun h v hv hp hc => h v ((hmem v).mpr ⟨hv, hp, hc⟩)
  · intro h v hv
    obtain ⟨hm, hp, hc⟩ := (hmem v).mp hv
    exact h v hm hp hc

/-- Two closable versions have every later date in common. -/
theorem DisjointRanges.closable_unique (h : DisjointRanges versions policyId) (hv : v ∈ versions)
    (hw : w ∈ versions) (hvp : v.policyId = policyId) (hwp : w.policyId = policyId)
    (hvc : v.Closable effectiveFrom) (hwc : w.Closable effectiveFrom) : v = w :=
  h.unique hv hw hvp hwp (effectiveOn_of_open hvc.1 hvc.2.le) (effectiveOn_of_open hwc.1 hwc.2.le)

theorem closePrior_closed (h : DisjointRanges versions policyId) (effectiveFrom : Date) :
    ∃ closed, closePriorOpenEndedVersion versions policyId effectiveFrom = .ok closed ∧
      ClosedBefore versions closed policyId effectiveFrom := by
  unfold closePriorOpenEndedVersion
  cases hprior : priorOpenVersion? versions policyId effectiveFrom with
  | none =>
    have hnone := priorOpenVersion?_eq_none.mp hprior
    refine ⟨versions, rfl, fun w => ?_, fun _ => rfl⟩
    constructor
    · exact fun hw => Or.inl ⟨hw, fun hc => hnone w hw hc.1 hc.2⟩
    · rintro (⟨hw, _⟩ | ⟨v, hv, hp, hc, _⟩)
      · exact hw
      · exact absurd hc (hnone v hv hp)
  | some prior =>
    obtain ⟨hm, hp, hopen, hlt⟩ := priorOpenVersion?_mem hprior
    have hc : prior.Closable effectiveFrom := ⟨hopen, hlt⟩
    obtain ⟨last, hlast⟩ := Date.pred?_isSome hlt
    have hsame : ∀ v ∈ versions, v.id = prior.id ↔
        v.policyId = policyId ∧ v.Closable effectiveFrom := by
      intro v hv
      constructor
      · intro hid
        rw [Table.key_inj hv hm hid]
        exact ⟨hp, hc⟩
      · rintro ⟨hvp, hvc⟩
        rw [h.closable_unique hv hm hvp hp hvc hc]
    refine ⟨setEffectiveUntil versions prior.id last, by simp [hlast], fun w => ?_, fun hnone => ?_⟩
    · rw [setEffectiveUntil, Table.mem_modify]
      constructor
      · rintro ⟨v, hv, rfl⟩
        split
        · next hid =>
          obtain ⟨hvp, hvc⟩ := (hsame v hv).mp hid
          exact Or.inr ⟨v, hv, hvp, hvc, last, hlast, rfl⟩
        · next hid => exact Or.inl ⟨hv, fun hvc => hid ((hsame v hv).mpr hvc)⟩
      · rintro (⟨hw, hnot⟩ | ⟨v, hv, hvp, hvc, last', hlast', rfl⟩)
        · exact ⟨w, hw, if_neg fun hid => hnot ((hsame w hw).mp hid)⟩
        · cases hlast.symm.trans hlast'
          exact ⟨v, hv, if_pos ((hsame v hv).mpr ⟨hvp, hvc⟩)⟩
    · exact absurd hc (hnone prior hm hp)

theorem effectiveOn_truncated (hlast : effectiveFrom.pred? = some last) (hopen : v.Closable effectiveFrom) :
    PolicyVersion.effectiveOn { v with effectiveUntil := some last } day = true ↔
      v.effectiveOn day = true ∧ day < effectiveFrom := by
  rw [effectiveOn_iff, effectiveOn_iff]
  simp only [hopen.1, Option.some.injEq, reduceCtorEq, false_implies, implies_true, and_true,
    forall_eq', Date.le_pred hlast]

/-! ## The overlap check -/

theorem rejectOverlappingRange_cases :
    (rejectOverlappingRange closed policyId effectiveFrom effectiveUntil = .ok () ∧
      ∀ w ∈ closed, w.policyId = policyId → ¬ w.overlaps effectiveFrom effectiveUntil = true) ∨
    (∃ message overlap, rejectOverlappingRange closed policyId effectiveFrom effectiveUntil =
        .error (.policyVersionOverlap message policyId effectiveFrom effectiveUntil overlap)) ∧
      ∃ w ∈ closed, w.policyId = policyId ∧ w.overlaps effectiveFrom effectiveUntil = true := by
  have hmem : ∀ w, w ∈ closed.select (fun v =>
      v.policyId = policyId && v.overlaps effectiveFrom effectiveUntil) ↔
        w ∈ closed ∧ w.policyId = policyId ∧ w.overlaps effectiveFrom effectiveUntil = true := by
    intro w
    simp
  unfold rejectOverlappingRange
  cases hhead : (closed.select fun v =>
      v.policyId = policyId && v.overlaps effectiveFrom effectiveUntil).head? with
  | none =>
    have hnil := List.head?_eq_none_iff.mp hhead
    refine Or.inl ⟨rfl, fun w hw hp ho => ?_⟩
    have hin := (hmem w).mpr ⟨hw, hp, ho⟩
    rw [hnil] at hin
    exact absurd hin (by simp)
  | some w =>
    exact Or.inr ⟨⟨_, _, rfl⟩, w, (hmem w).mp (List.mem_of_head? hhead)⟩

/-- After the predecessor is closed, the overlap check accepts the admissible ranges. -/
theorem ClosedBefore.accepts (hc : ClosedBefore versions closed policyId effectiveFrom)
    (h : DisjointRanges versions policyId)
    (hr : ∀ last, effectiveUntil = some last → effectiveFrom ≤ last) :
    (∀ w ∈ closed, w.policyId = policyId → ¬ w.overlaps effectiveFrom effectiveUntil = true) ↔
      Admissible versions policyId effectiveFrom effectiveUntil := by
  constructor
  · intro hnone
    refine ⟨hr, fun v hv hp hday => ?_⟩
    by_contra hnot
    exact hnone v ((hc.rows v).mpr (Or.inl ⟨hv, fun hvc => hnot hvc.2⟩)) hp
      ((overlaps_iff (h.inOrder v hv hp) hr).mpr hday)
  · rintro ⟨_, hadm⟩ w hw hp hover
    rcases (hc.rows w).mp hw with ⟨hwv, hnot⟩ | ⟨v, hv, _, _, last, hlast, rfl⟩
    · exact hnot ⟨hp, hadm w hwv hp ((overlaps_iff (h.inOrder w hwv hp) hr).mp hover)⟩
    · -- the closed version ends before the range starts
      rw [PolicyVersion.overlaps, Bool.and_eq_true] at hover
      have hle : effectiveFrom ≤ last := of_decide_eq_true hover.2
      exact absurd ((Date.le_pred hlast).mp hle) (lt_irrefl _)

/-- Where the range is refused there was nothing to close. -/
theorem ClosedBefore.refused_same (hc : ClosedBefore versions closed policyId effectiveFrom)
    (h : DisjointRanges versions policyId)
    (hr : ∀ last, effectiveUntil = some last → effectiveFrom ≤ last)
    (hnot : ¬ Admissible versions policyId effectiveFrom effectiveUntil) : closed = versions := by
  refine hc.same fun prior hprior hpp hpc => hnot ⟨hr, fun v hv hp hday => ?_⟩
  obtain ⟨day, hvd, hfrom, _⟩ := hday
  -- the closable version also has the common date, so it is the version that overlaps
  rw [h.unique hv hprior hp hpp hvd (effectiveOn_of_open hpc.1 (hpc.2.le.trans hfrom))]
  exact hpc

end

/-! ## The rows afterwards -/

section

variable {versions closed : Table PolicyVersion} {policyId : ℕ} {effectiveFrom : Date}
  {effectiveUntil : Option Date} {version : PolicyVersion} {day : Date}

/-- A row of the policy that applies on a date is the new one, or one of before that keeps the date. -/
theorem ClosedBefore.mem_insert (hc : ClosedBefore versions closed policyId effectiveFrom)
    (hadm : Admissible versions policyId effectiveFrom effectiveUntil)
    (hids : ∀ v ∈ versions, v.id < version.id) (hp : version.policyId = policyId)
    (hfrom : version.effectiveFrom = effectiveFrom) (huntil : version.effectiveUntil = effectiveUntil)
    {i : ℕ} :
    (∃ w ∈ closed.insert version, w.policyId = policyId ∧ w.effectiveOn day = true ∧ w.id = i) ↔
      (Requested effectiveFrom effectiveUntil day ∧ version.id = i) ∨
      (¬ Requested effectiveFrom effectiveUntil day ∧ ∃ v ∈ versions, v.policyId = policyId ∧
        v.effectiveOn day = true ∧ ¬ (v.Closable effectiveFrom ∧ effectiveFrom ≤ day) ∧
          v.id = i) := by
  have hnew : version.effectiveOn day = true ↔ Requested effectiveFrom effectiveUntil day := by
    rw [effectiveOn_iff, hfrom, huntil]
    rfl
  have hfresh : ∀ w ∈ closed, Row.key w ≠ Row.key version := by
    intro w hw
    rcases (hc.rows w).mp hw with ⟨hwv, _⟩ | ⟨v, hv, _, _, _, _, rfl⟩
    · exact (hids w hwv).ne
    · exact (hids v hv).ne
  constructor
  · rintro ⟨w, hw, hwp, hwd, rfl⟩
    rcases (Table.mem_insert_fresh hfresh).mp hw with rfl | hw
    · exact Or.inl ⟨hnew.mp hwd, rfl⟩
    · have hold : ∃ v ∈ versions, v.policyId = policyId ∧ v.effectiveOn day = true ∧
          ¬ (v.Closable effectiveFrom ∧ effectiveFrom ≤ day) ∧ v.id = w.id := by
        rcases (hc.rows w).mp hw with ⟨hwv, hnot⟩ | ⟨v, hv, hvp, hvc, last, hlast, rfl⟩
        · exact ⟨w, hwv, hwp, hwd, fun h => hnot ⟨hwp, h.1⟩, rfl⟩
        · obtain ⟨hvd, hlt⟩ := (effectiveOn_truncated hlast hvc).mp hwd
          exact ⟨v, hv, hvp, hvd, fun h => absurd hlt (not_lt.mpr h.2), rfl⟩
      refine Or.inr ⟨fun hreq => ?_, hold⟩
      obtain ⟨v, hv, hvp, hvd, hnot, _⟩ := hold
      exact hnot ⟨hadm.2 v hv hvp ⟨day, hvd, hreq⟩, hreq.1⟩
  · rintro (⟨hreq, rfl⟩ | ⟨_, v, hv, hvp, hvd, hnot, rfl⟩)
    · exact ⟨version, Table.mem_insert_self, hp, hnew.mpr hreq, rfl⟩
    · by_cases hvc : v.Closable effectiveFrom
      · have hlt : day < effectiveFrom := not_le.mp fun hle => hnot ⟨hvc, hle⟩
        obtain ⟨last, hlast⟩ := Date.pred?_isSome hlt
        refine ⟨{ v with effectiveUntil := some last }, (Table.mem_insert_fresh hfresh).mpr
          (Or.inr ((hc.rows _).mpr (Or.inr ⟨v, hv, hvp, hvc, last, hlast, rfl⟩))), hvp, ?_, rfl⟩
        exact (effectiveOn_truncated hlast hvc).mpr ⟨hvd, hlt⟩
      · exact ⟨v, (Table.mem_insert_fresh hfresh).mpr
          (Or.inr ((hc.rows v).mpr (Or.inl ⟨hv, fun h => hvc h.2⟩))), hvp, hvd, rfl⟩

/-- Afterwards too a date has one version of the policy at most. -/
theorem ClosedBefore.insert_unique (hc : ClosedBefore versions closed policyId effectiveFrom)
    (h : DisjointRanges versions policyId)
    (hadm : Admissible versions policyId effectiveFrom effectiveUntil)
    (hids : ∀ v ∈ versions, v.id < version.id) (hp : version.policyId = policyId)
    (hfrom : version.effectiveFrom = effectiveFrom) (huntil : version.effectiveUntil = effectiveUntil) :
    ∀ v ∈ closed.insert version, ∀ w ∈ closed.insert version, v.policyId = policyId →
      w.policyId = policyId → v.effectiveOn day = true → w.effectiveOn day = true → v = w := by
  intro v hv w hw hvp hwp hvd hwd
  refine Table.key_inj hv hw ?_
  have hmem : ∀ x ∈ closed.insert version, x.policyId = policyId → x.effectiveOn day = true → _ :=
    fun x hx hxp hxd => (hc.mem_insert hadm hids hp hfrom huntil).mp ⟨x, hx, hxp, hxd, rfl⟩
  rcases hmem v hv hvp hvd with ⟨_, hvid⟩ | ⟨hnot, v0, hv0, hv0p, hv0d, _, hvid⟩
  · rcases hmem w hw hwp hwd with ⟨_, hwid⟩ | ⟨hnot, _⟩
    · exact hvid.symm.trans hwid
    · exact absurd ‹_› hnot
  · rcases hmem w hw hwp hwd with ⟨hreq, _⟩ | ⟨_, w0, hw0, hw0p, hw0d, _, hwid⟩
    · exact absurd hreq hnot
    · have he := h.unique hv0 hw0 hv0p hw0p hv0d hw0d
      show v.id = w.id
      rw [← hvid, ← hwid, he]

end

/-! ## The whole call -/

/-- What an accepted call does to the version that applies on a date. -/
structure DatesAfter (before after : Facts) (policyId : ℕ) (input : PolicyVersionInput)
    (versionId : ℕ) : Prop where
  earlier : ∀ day, day < input.effectiveFrom →
    versionIdOn after.policyVersions policyId day = versionIdOn before.policyVersions policyId day
  requested : ∀ day, Requested input.effectiveFrom input.effectiveUntil day →
    versionIdOn after.policyVersions policyId day = some versionId
  truncated : ∀ last day, input.effectiveUntil = some last → last < day →
    (∃ v ∈ before.policyVersions, v.policyId = policyId ∧ v.Closable input.effectiveFrom ∧
      v.effectiveOn day = true) → versionIdOn after.policyVersions policyId day = none
  later : ∀ last day, input.effectiveUntil = some last → last < day →
    (¬ ∃ v ∈ before.policyVersions, v.policyId = policyId ∧ v.Closable input.effectiveFrom ∧
      v.effectiveOn day = true) →
    versionIdOn after.policyVersions policyId day = versionIdOn before.policyVersions policyId day
  lookup : ∀ day, (getEffectivePolicyVersion after.toRules policyId day).map
      (Option.map fun v => v.id) =
    .ok (if after.policyActive policyId then versionIdOn after.policyVersions policyId day else none)

section

variable {db : Db} {policyId : ℕ} {input : PolicyVersionInput}

theorem requireValidRange_eq : requireValidRange policyId input.effectiveFrom input.effectiveUntil =
    if ∀ last, input.effectiveUntil = some last → input.effectiveFrom ≤ last then .ok ()
    else .error (.policyVersionOverlap "effective_until cannot be before effective_from" policyId
      input.effectiveFrom input.effectiveUntil none) := by
  unfold requireValidRange ensure
  cases input.effectiveUntil with
  | none => rw [if_pos (by simp)]
  | some last => simp

/-- How the flushed statements end. -/
theorem flushPolicyVersion_cases (h : DisjointRanges db.facts.policyVersions policyId) :
    (¬ Admissible db.facts.policyVersions policyId input.effectiveFrom input.effectiveUntil ∧
      ∃ message overlap, flushPolicyVersion db policyId input = (db.facts.policyVersions,
        .error (.policyVersionOverlap message policyId input.effectiveFrom input.effectiveUntil
          overlap))) ∨
    Admissible db.facts.policyVersions policyId input.effectiveFrom input.effectiveUntil ∧
      ∃ closed, ClosedBefore db.facts.policyVersions closed policyId input.effectiveFrom ∧
        ((¬ StorableRows db.facts.toRules input ∧ ∃ e, flushPolicyVersion db policyId input =
          (closed, .error e)) ∨
        StorableRows db.facts.toRules input ∧ ∃ version, version.id = db.sequences.policyVersion ∧
          version.policyId = policyId ∧ version.effectiveFrom = input.effectiveFrom ∧
          version.effectiveUntil = input.effectiveUntil ∧
          flushPolicyVersion db policyId input = (closed.insert version, .ok version)) := by
  obtain ⟨closed, hclose, hc⟩ := closePrior_closed h input.effectiveFrom
  unfold flushPolicyVersion
  rw [requireValidRange_eq]
  by_cases hr : ∀ last, input.effectiveUntil = some last → input.effectiveFrom ≤ last
  · rw [if_pos hr, hclose]
    dsimp only
    rcases rejectOverlappingRange_cases with ⟨hok, hnone⟩ | ⟨⟨message, overlap, herror⟩, hsome⟩
    · refine Or.inr ⟨(hc.accepts h hr).mp hnone, closed, hc, ?_⟩
      rw [hok]
      cases hrows : checkVersionRows db.facts.toRules input with
      | error e =>
        refine Or.inl ⟨fun hstorable => ?_, e, rfl⟩
        rw [checkVersionRows_eq_ok.mpr hstorable] at hrows
        cases hrows
      | ok u => exact Or.inr ⟨checkVersionRows_eq_ok.mp hrows, _, rfl, rfl, rfl, rfl, rfl⟩
    · have hnot : ¬ Admissible db.facts.policyVersions policyId input.effectiveFrom
          input.effectiveUntil := by
        intro hadm
        obtain ⟨w, hw, hp, hover⟩ := hsome
        exact (hc.accepts h hr).mpr hadm w hw hp hover
      refine Or.inl ⟨hnot, message, overlap, ?_⟩
      rw [herror]
      exact Prod.ext (hc.refused_same h hr hnot) rfl
  · rw [if_neg hr]
    exact Or.inl ⟨fun hadm => hr hadm.1, _, _, rfl⟩

theorem ClosedBefore.datesAfter {closed : Table PolicyVersion} {after : Facts}
    {version : PolicyVersion}
    (hc : ClosedBefore db.facts.policyVersions closed policyId input.effectiveFrom)
    (h : DisjointRanges db.facts.policyVersions policyId)
    (hadm : Admissible db.facts.policyVersions policyId input.effectiveFrom input.effectiveUntil)
    (hids : ∀ v ∈ db.facts.policyVersions, v.id < version.id) (hp : version.policyId = policyId)
    (hfrom : version.effectiveFrom = input.effectiveFrom)
    (huntil : version.effectiveUntil = input.effectiveUntil)
    (hafter : after.policyVersions = closed.insert version) :
    DatesAfter db.facts after policyId input version.id := by
  have hunique : ∀ day, ∀ v ∈ closed.insert version, ∀ w ∈ closed.insert version,
      v.policyId = policyId → w.policyId = policyId → v.effectiveOn day = true →
        w.effectiveOn day = true → v = w :=
    fun day => hc.insert_unique h hadm hids hp hfrom huntil
  have hnew := fun (day : Date) (i : ℕ) =>
    (versionIdOn_eq_some (i := i) (hunique day)).trans (hc.mem_insert hadm hids hp hfrom huntil)
  have hold := fun (day : Date) (i : ℕ) =>
    versionIdOn_eq_some (i := i) fun v hv w hw hvp hwp (hvd : v.effectiveOn day = true) hwd =>
      h.unique hv hw hvp hwp hvd hwd
  rw [← hafter] at hnew
  -- outside the requested range a date keeps its version unless that one was closed before it
  have hkeep : ∀ day, ¬ Requested input.effectiveFrom input.effectiveUntil day →
      (∀ v ∈ db.facts.policyVersions, v.policyId = policyId → v.effectiveOn day = true →
        ¬ (v.Closable input.effectiveFrom ∧ input.effectiveFrom ≤ day)) →
        versionIdOn after.policyVersions policyId day =
          versionIdOn db.facts.policyVersions policyId day := by
    intro day hout hkept
    refine Option.ext fun i => ?_
    rw [hnew, hold]
    constructor
    · rintro (⟨hreq, _⟩ | ⟨_, v, hv, hvp, hvd, _, hid⟩)
      · exact absurd hreq hout
      · exact ⟨v, hv, hvp, hvd, hid⟩
    · rintro ⟨v, hv, hvp, hvd, hid⟩
      exact Or.inr ⟨hout, v, hv, hvp, hvd, hkept v hv hvp hvd, hid⟩
  refine ⟨fun day hday => ?_, fun day hreq => ?_, fun last day hlast hday hex => ?_,
    fun last day hlast hday hnone => ?_, fun day => ?_⟩
  · exact hkeep day (fun hreq => absurd hreq.1 (not_le.mpr hday))
      fun _ _ _ _ hcl => absurd hcl.2 (not_le.mpr hday)
  · exact (hnew day _).mpr (Or.inl ⟨hreq, rfl⟩)
  · obtain ⟨v, hv, hvp, hvc, hvd⟩ := hex
    refine Option.eq_none_iff_forall_ne_some.mpr fun i hi => ?_
    have hle : input.effectiveFrom ≤ day := (hadm.1 last hlast).trans hday.le
    rcases (hnew day i).mp hi with ⟨hreq, _⟩ | ⟨_, w, hw, hwp, hwd, hnot, _⟩
    · exact absurd (hreq.2 last hlast) (not_le.mpr hday)
    · rw [h.unique hw hv hwp hvp hwd hvd] at hnot
      exact hnot ⟨hvc, hle⟩
  · refine hkeep day (fun hreq => absurd (hreq.2 last hlast) (not_le.mpr hday)) ?_
    exact fun v hv hvp hvd hcl => hnone ⟨v, hv, hvp, hcl.1, hvd⟩
  · refine getEffectivePolicyVersion_eq ?_
    rw [hafter]
    exact hunique day

/-- With rows that the database can store, `create_policy_version` succeeds exactly when the range is
admissible. A refusal leaves every row as it was, and a success gives the dates their versions as
described. -/
theorem create_policy_version_effect (h : DisjointRanges db.facts.policyVersions policyId)
    (hids : ∀ v ∈ db.facts.policyVersions, v.id < db.sequences.policyVersion)
    (hrows : StorableRows db.facts.toRules input) (actor : Actor) (now : DateTime) :
    ((∃ out, createPolicyVersion db policyId input actor now = .ok out) ↔
      Admissible db.facts.policyVersions policyId input.effectiveFrom input.effectiveUntil) ∧
    (∀ e, createPolicyVersion db policyId input actor now = .error e →
      (∃ message overlap, e = .policyVersionOverlap message policyId input.effectiveFrom
        input.effectiveUntil overlap) ∧
      (flushPolicyVersion db policyId input).1 = db.facts.policyVersions) ∧
    ∀ db' version, createPolicyVersion db policyId input actor now = .ok (db', version) →
      DatesAfter db.facts db'.facts policyId input version.id := by
  have hflush := createPolicyVersion_flush db policyId input actor now
  rcases @flushPolicyVersion_cases db policyId input h with
    ⟨hnot, message, overlap, he⟩ | ⟨hadm, closed, hc, ⟨hn, _⟩ | ⟨_, version, hid, hp, hfrom,
      huntil, he⟩⟩
  · rw [he] at hflush
    have herror := exceptMap_eq_error.mp hflush
    rw [herror, he]
    refine ⟨iff_of_false (by simp) hnot, fun e hout => ?_, by simp⟩
    cases hout
    exact ⟨⟨message, overlap, rfl⟩, rfl⟩
  · exact absurd hrows hn
  · rw [he] at hflush
    obtain ⟨out, hout, hrows⟩ := exceptMap_eq_ok.mp hflush
    rw [hout]
    refine ⟨iff_of_true ⟨out, rfl⟩ hadm, fun e herror => ?_, fun db' v hv => ?_⟩
    · cases herror
    · cases hv
      obtain ⟨hversions, hversion⟩ := Prod.ext_iff.mp hrows
      dsimp only at hversions hversion
      subst hversion
      exact hc.datesAfter h hadm (fun w hw => by rw [hid]; exact hids w hw) hp hfrom huntil hversions

end

/-! ## A successor of an open-ended version -/

/-- A field, and a policy with one open-ended version from January on. -/
def openVersionDb : Db :=
  { Db.empty with
    facts :=
      { Facts.empty with
        assignmentFieldDefinitions := .ofRows [⟨1, "laptop", .one, "priority", .text⟩]
        policies := .ofRows [⟨1, "laptops", .active, none⟩]
        policyVersions := .ofRows [⟨1, 1, 1, 10, .on 2026 1 1, none, none⟩] }
    sequences := { policyVersion := 2 } }

/-- March only, with the given outputs. -/
def marchInput (values : List (ℕ × String)) : PolicyVersionInput where
  priority := 10
  effectiveFrom := .on 2026 3 1
  effectiveUntil := some (.on 2026 3 31)
  createdBy := none
  values := values
  compiledClauses := []

theorem openVersionDb_row {v : PolicyVersion} (hv : v ∈ openVersionDb.facts.policyVersions) :
    v = ⟨1, 1, 1, 10, .on 2026 1 1, none, none⟩ := List.mem_singleton.mp hv

theorem openVersionDb_disjoint : DisjointRanges openVersionDb.facts.policyVersions 1 where
  inOrder v hv _ last hl := by
    rw [openVersionDb_row hv] at hl
    exact absurd hl (by simp)
  disjoint v hv w hw _ _ hne := absurd ((openVersionDb_row hv).trans (openVersionDb_row hw).symm) hne

theorem marchInput_admissible (values : List (ℕ × String)) :
    Admissible openVersionDb.facts.policyVersions 1 (marchInput values).effectiveFrom
      (marchInput values).effectiveUntil := by
  refine ⟨fun last hl => ?_, fun v hv _ _ => ?_⟩
  · cases hl
    show Date.on 2026 3 1 ≤ Date.on 2026 3 31
    decide +kernel
  · rw [openVersionDb_row hv]
    exact ⟨rfl, by show Date.on 2026 1 1 < Date.on 2026 3 1; decide +kernel⟩

/-- February keeps the first version, March gets the new one, and April has none. -/
theorem create_policy_version_effect_march :
    ∃ db version, createPolicyVersion openVersionDb 1 (marchInput [(1, "laptop")]) .system
        (startOfDay (.on 2026 2 1)) = .ok (db, version) ∧
      versionIdOn db.facts.policyVersions 1 (.on 2026 2 1) = some 1 ∧
      versionIdOn db.facts.policyVersions 1 (.on 2026 3 15) = some version.id ∧
      versionIdOn db.facts.policyVersions 1 (.on 2026 4 1) = none := by
  have hids : ∀ v ∈ openVersionDb.facts.policyVersions,
      v.id < openVersionDb.sequences.policyVersion := by
    intro v hv
    rw [openVersionDb_row hv]
    decide
  obtain ⟨hok, _, hdates⟩ := @create_policy_version_effect openVersionDb 1
    (marchInput [(1, "laptop")]) openVersionDb_disjoint hids
    (checkVersionRows_eq_ok.mp (by decide +kernel)) .system (startOfDay (.on 2026 2 1))
  obtain ⟨⟨db, version⟩, hrun⟩ := hok.mpr (marchInput_admissible _)
  have h := hdates db version hrun
  refine ⟨db, version, hrun, ?_, h.requested _ ⟨?_, ?_⟩, ?_⟩
  · rw [h.earlier _ (show Date.on 2026 2 1 < Date.on 2026 3 1 by decide +kernel)]
    decide +kernel
  · show Date.on 2026 3 1 ≤ Date.on 2026 3 15
    decide +kernel
  · rintro last hl
    cases hl
    show Date.on 2026 3 15 ≤ Date.on 2026 3 31
    decide +kernel
  · refine h.truncated (.on 2026 3 31) _ rfl
      (show Date.on 2026 3 31 < Date.on 2026 4 1 by decide +kernel) ?_
    exact ⟨⟨1, 1, 1, 10, .on 2026 1 1, none, none⟩, List.mem_singleton.mpr rfl, rfl,
      ⟨rfl, show Date.on 2026 1 1 < Date.on 2026 3 1 by decide +kernel⟩, by decide +kernel⟩

/-- An output value that is given twice: the range is admissible and the field exists, the call fails,
and the predecessor has been closed by then. -/
theorem create_policy_version_repeated_value :
    DisjointRanges openVersionDb.facts.policyVersions 1 ∧
      Admissible openVersionDb.facts.policyVersions 1
        (marchInput [(1, "laptop"), (1, "laptop")]).effectiveFrom
        (marchInput [(1, "laptop"), (1, "laptop")]).effectiveUntil ∧
      (¬ ∃ out, createPolicyVersion openVersionDb 1 (marchInput [(1, "laptop"), (1, "laptop")])
        .system (startOfDay (.on 2026 2 1)) = .ok out) ∧
      (flushPolicyVersion openVersionDb 1 (marchInput [(1, "laptop"), (1, "laptop")])).1 ≠
        openVersionDb.facts.policyVersions := by
  refine ⟨openVersionDb_disjoint, marchInput_admissible _, ?_, fun hsame => ?_⟩
  · have herror : (createPolicyVersion openVersionDb 1 (marchInput [(1, "laptop"), (1, "laptop")])
        .system (startOfDay (.on 2026 2 1))).toOption.map (fun out => out.2.id) = none := by
      decide +kernel
    rintro ⟨out, hout⟩
    rw [hout] at herror
    exact absurd herror (by simp [Except.toOption])
  · have hclosed : (flushPolicyVersion openVersionDb 1
        (marchInput [(1, "laptop"), (1, "laptop")])).1.rows.map (fun v => v.effectiveUntil) =
          [some (.on 2026 2 28)] := by
      decide +kernel
    rw [hsame] at hclosed
    exact absurd hclosed (by decide +kernel)

end Warp
