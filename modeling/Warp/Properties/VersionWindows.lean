import Warp.VersionTransactions

/-!
# Version windows

The versions of a policy have disjoint date ranges, at most one of them is open-ended, and their
numbers are 1 to n. One `create_policy_version` keeps this, and so does every interleaving of
transactions that hold the lock of their policy.
-/

namespace Warp

open Infra

def versionsOf (versions : Table PolicyVersion) (policyId : ℕ) : List PolicyVersion :=
  versions.select fun v => v.policyId = policyId

theorem mem_versionsOf {versions : Table PolicyVersion} {policyId : ℕ} {v : PolicyVersion} :
    v ∈ versionsOf versions policyId ↔ v ∈ versions ∧ v.policyId = policyId := by
  simp [versionsOf]

/-- No day lies in both ranges. -/
def ApartFrom (v w : PolicyVersion) : Prop :=
  ∀ day, ¬ (v.effectiveOn day = true ∧ w.effectiveOn day = true)

/-- Not both ranges are open-ended. -/
def NotBothOpen (v w : PolicyVersion) : Prop :=
  ¬ (v.effectiveUntil = none ∧ w.effectiveUntil = none)

/-- The windows of one policy. -/
structure Windows (rows : List PolicyVersion) : Prop where
  inOrder : ∀ v ∈ rows, ∀ last, v.effectiveUntil = some last → v.effectiveFrom ≤ last
  disjoint : rows.Pairwise ApartFrom
  oneOpen : rows.Pairwise NotBothOpen
  numbers : (rows.map fun v => v.versionNumber).Perm (List.range' 1 rows.length)

/-! ## Ranges -/

section

variable {v w : PolicyVersion} {effectiveFrom : Date} {effectiveUntil : Option Date}

theorem ApartFrom.symm (h : ApartFrom v w) : ApartFrom w v := fun day hd => h day hd.symm

instance : Std.Symm ApartFrom := ⟨fun _ _ => ApartFrom.symm⟩

theorem NotBothOpen.symm (h : NotBothOpen v w) : NotBothOpen w v := fun hd => h hd.symm

/-- A range that the overlap check lets pass has no day in common with the other. -/
theorem apart_of_not_overlaps (h : w.overlaps v.effectiveFrom v.effectiveUntil = false) :
    ApartFrom v w := by
  rintro day ⟨hv, hw⟩
  obtain ⟨hv1, hv2⟩ := effectiveOn_iff.mp hv
  obtain ⟨hw1, hw2⟩ := effectiveOn_iff.mp hw
  have hover : w.overlaps v.effectiveFrom v.effectiveUntil = true := by
    unfold PolicyVersion.overlaps
    rw [Bool.and_eq_true]
    constructor
    · rw [decide_eq_true_eq]
      cases hu : v.effectiveUntil with
      | none => exact w.effectiveFrom.le_max
      | some last => exact hw1.trans (hv2 last hu)
    · cases hu : w.effectiveUntil with
      | none => rfl
      | some last => exact decide_eq_true (hv1.trans (hw2 last hu))
  rw [h] at hover
  exact absurd hover (by simp)

/-- An open-ended request overlaps every open-ended version. -/
theorem notBothOpen_of_not_overlaps (h : w.overlaps v.effectiveFrom v.effectiveUntil = false) :
    NotBothOpen v w := by
  rintro ⟨hv, hw⟩
  rw [PolicyVersion.overlaps, hv, hw, Bool.and_true, decide_eq_false_iff_not] at h
  exact h w.effectiveFrom.le_max

/-! ## Closing a row -/

/-- Closing an open-ended version only takes days away. -/
theorem closeRow_effectiveOn {policyId versionId : ℕ} {last : Date}
    (hopen : v.id = versionId → v.effectiveUntil = none) {day : Date}
    (h : (closeRow policyId versionId last v).effectiveOn day = true) :
    v.effectiveOn day = true := by
  unfold closeRow at h
  split at h
  · next hc =>
    obtain ⟨h1, _⟩ := effectiveOn_iff.mp h
    refine effectiveOn_iff.mpr ⟨h1, fun last' hl => ?_⟩
    rw [hopen hc.1] at hl
    exact absurd hl (by simp)
  · exact h

theorem closeRow_open {policyId versionId : ℕ} {last : Date}
    (h : (closeRow policyId versionId last v).effectiveUntil = none) : v.effectiveUntil = none := by
  unfold closeRow at h
  split at h
  · exact absurd h (by simp)
  · exact h

theorem closeRow_versionNumber {policyId versionId : ℕ} {last : Date} :
    (closeRow policyId versionId last v).versionNumber = v.versionNumber := by
  unfold closeRow
  split <;> rfl

theorem Windows.close {rows : List PolicyVersion} (h : Windows rows) {policyId versionId : ℕ}
    {last : Date} (hopen : ∀ v ∈ rows, v.id = versionId → v.effectiveUntil = none)
    (hlast : ∀ v ∈ rows, v.id = versionId → v.effectiveFrom ≤ last) :
    Windows (rows.map (closeRow policyId versionId last)) := by
  refine ⟨?_, ?_, ?_, ?_⟩
  · intro v hv last' hl
    obtain ⟨u, hu, rfl⟩ := List.mem_map.mp hv
    unfold closeRow at hl ⊢
    split at hl
    · next hc =>
      cases hl
      rw [if_pos hc]
      exact hlast u hu hc.1
    · next hc =>
      rw [if_neg hc]
      exact h.inOrder u hu last' hl
  · refine List.Pairwise.map _ (fun _ _ h => h) ?_
    refine h.disjoint.imp_of_mem fun hv hw hvw day hd => hvw day ?_
    exact ⟨closeRow_effectiveOn (hopen _ hv) hd.1, closeRow_effectiveOn (hopen _ hw) hd.2⟩
  · refine List.Pairwise.map _ (fun _ _ h => h) (h.oneOpen.imp fun hvw hd => hvw ?_)
    exact ⟨closeRow_open hd.1, closeRow_open hd.2⟩
  · rw [List.map_map, List.length_map]
    have hnumber : ((fun v : PolicyVersion => v.versionNumber) ∘
        closeRow policyId versionId last) = fun v => v.versionNumber := by
      funext v
      exact closeRow_versionNumber
    rw [hnumber]
    exact h.numbers

/-! ## Inserting a row -/

theorem foldl_max_range' (n m : ℕ) :
    ((List.range' 1 n).foldl max m) = max m n := by
  induction n with
  | zero => simp
  | succ n ih =>
    rw [List.range'_1_concat, List.foldl_append, ih, List.foldl_cons, List.foldl_nil]
    omega

/-- The highest number of 1 to n is n. -/
theorem Windows.maxNumber {rows : List PolicyVersion} (h : Windows rows) :
    (rows.map fun v => v.versionNumber).foldl max 0 = rows.length := by
  have : RightCommutative (max : ℕ → ℕ → ℕ) := ⟨fun a b c => by omega⟩
  rw [h.numbers.foldl_eq 0, foldl_max_range']
  omega

theorem Windows.insert {rows : List PolicyVersion} (h : Windows rows)
    (hrange : ∀ last, v.effectiveUntil = some last → v.effectiveFrom ≤ last)
    (hover : ∀ w ∈ rows, w.overlaps v.effectiveFrom v.effectiveUntil = false)
    (hnumber : v.versionNumber = rows.length + 1) : Windows (v :: rows) := by
  refine ⟨?_, ?_, ?_, ?_⟩
  · intro w hw
    rcases List.mem_cons.mp hw with rfl | hw
    · exact hrange
    · exact h.inOrder w hw
  · exact List.pairwise_cons.mpr ⟨fun w hw => apart_of_not_overlaps (hover w hw), h.disjoint⟩
  · exact List.pairwise_cons.mpr ⟨fun w hw => notBothOpen_of_not_overlaps (hover w hw), h.oneOpen⟩
  · rw [List.map_cons, List.length_cons, List.range'_1_concat, hnumber, Nat.add_comm 1]
    exact (h.numbers.cons _).trans (List.perm_append_singleton _ _).symm

theorem Windows.perm {rows rows' : List PolicyVersion} (h : Windows rows) (hp : rows.Perm rows') :
    Windows rows' where
  inOrder v hv := h.inOrder v (hp.mem_iff.mpr hv)
  disjoint := (hp.pairwise_iff ApartFrom.symm).mp h.disjoint
  oneOpen := (hp.pairwise_iff NotBothOpen.symm).mp h.oneOpen
  numbers := by
    rw [← hp.length_eq]
    exact (hp.map _).symm.trans h.numbers

theorem windows_nil : Windows [] := ⟨by simp, List.Pairwise.nil, List.Pairwise.nil, by simp⟩

end

/-! ## One `create_policy_version` -/

section

variable {versions versions' : Table PolicyVersion} {policyId versionId : ℕ}

theorem versionsOf_close (last : Date) (j : ℕ) :
    versionsOf (applyVersionWrite versions (.closeAt policyId versionId last)) j =
      (versionsOf versions j).map (closeRow policyId versionId last) := by
  rw [versionsOf, versionsOf, applyVersionWrite, Table.select, Table.select, Table.modify,
    List.filter_map]
  congr 1
  refine List.filter_congr fun v _ => ?_
  simp [closeRow_policyId]

theorem versionsOf_close_other (last : Date) {j : ℕ} (hj : j ≠ policyId) :
    versionsOf (applyVersionWrite versions (.closeAt policyId versionId last)) j =
      versionsOf versions j := by
  rw [versionsOf_close]
  refine (List.map_congr_left fun v hv => ?_).trans (List.map_id _)
  rw [closeRow, if_neg, id]
  rintro ⟨_, hp⟩
  exact hj ((mem_versionsOf.mp hv).2.symm.trans hp)

theorem versionsOf_insert {v : PolicyVersion} (hfresh : ∀ w ∈ versions, w.id ≠ v.id) :
    (v :: versionsOf versions v.policyId).Perm
      (versionsOf (versions.insert v) v.policyId) := by
  refine (List.perm_ext_iff_of_nodup ?_ (Table.select_nodup _ _)).mpr fun w => ?_
  · refine List.nodup_cons.mpr ⟨fun hv => ?_, Table.select_nodup _ _⟩
    exact hfresh v (mem_versionsOf.mp hv).1 rfl
  · show w ∈ v :: versionsOf versions v.policyId ↔ w ∈ versionsOf (versions.insert v) v.policyId
    rw [List.mem_cons, mem_versionsOf, mem_versionsOf, Table.mem_insert_fresh hfresh]
    constructor
    · rintro (rfl | ⟨hw, hp⟩)
      · exact ⟨Or.inl rfl, rfl⟩
      · exact ⟨Or.inr hw, hp⟩
    · rintro ⟨rfl | hw, hp⟩
      · exact Or.inl rfl
      · exact Or.inr ⟨hw, hp⟩

theorem versionsOf_insert_other {v : PolicyVersion} (hfresh : ∀ w ∈ versions, w.id ≠ v.id) {j : ℕ}
    (hj : j ≠ v.policyId) : versionsOf (versions.insert v) j = versionsOf versions j := by
  refine Table.select_congr fun w => ?_
  rw [Table.mem_insert_fresh hfresh]
  simp only [decide_eq_true_eq]
  constructor
  · rintro ⟨rfl | hw, hp⟩
    · exact absurd hp.symm hj
    · exact ⟨hw, hp⟩
  · exact fun ⟨hw, hp⟩ => ⟨Or.inr hw, hp⟩

theorem closePrior_windows {next : Date} (h : ∀ j, Windows (versionsOf versions j))
    (hclose : closePriorOpenEndedVersion versions policyId next = .ok versions') :
    (∀ j, Windows (versionsOf versions' j)) ∧
      ∀ v' ∈ versions', ∃ v ∈ versions, v.id = v'.id ∧ v.policyId = v'.policyId := by
  unfold closePriorOpenEndedVersion at hclose
  split at hclose
  · cases hclose
    exact ⟨h, fun v hv => ⟨v, hv, rfl, rfl⟩⟩
  · next prior hprior =>
    split at hclose
    · exact absurd hclose (by simp)
    · next last hlast =>
      cases hclose
      obtain ⟨hm, hp, hopen, hlt⟩ := priorOpenVersion?_mem hprior
      rw [setEffectiveUntil_eq hm hp]
      have hrow : ∀ v ∈ versions, v.id = prior.id → v = prior := fun v hv hid =>
        Table.key_inj hv hm hid
      constructor
      · intro j
        rw [versionsOf_close]
        refine (h j).close (fun v hv hid => ?_) fun v hv hid => ?_
        · rw [hrow v (mem_versionsOf.mp hv).1 hid]
          exact hopen
        · rw [hrow v (mem_versionsOf.mp hv).1 hid]
          exact (Date.le_pred hlast).mpr hlt
      · intro v' hv'
        rw [applyVersionWrite, Table.mem_modify] at hv'
        obtain ⟨v, hv, rfl⟩ := hv'
        exact ⟨v, hv, (closeRow_id v).symm, (closeRow_policyId v).symm⟩

/-- `create_policy_version` keeps the windows of every policy. -/
theorem addPolicyVersion_windows {input : PolicyVersionInput} {version : PolicyVersion}
    (h : ∀ j, Windows (versionsOf versions j)) (hfresh : ∀ v ∈ versions, v.id ≠ versionId)
    (hadd : addPolicyVersion versions versionId policyId input = .ok (versions', version)) :
    (∀ j, Windows (versionsOf versions' j)) ∧
      ∀ v' ∈ versions', v'.id = versionId ∨ ∃ v ∈ versions, v.id = v'.id := by
  unfold addPolicyVersion at hadd
  split at hadd
  · exact absurd hadd (by simp)
  · next hrange =>
    split at hadd
    · exact absurd hadd (by simp)
    · next closed hclose =>
      split at hadd
      · exact absurd hadd (by simp)
      · next hover =>
        obtain ⟨hwindows, hrows⟩ := closePrior_windows h hclose
        cases hadd
        have hfresh' : ∀ v ∈ closed, v.id ≠ versionId := by
          intro v hv he
          obtain ⟨u, hu, hid, _⟩ := hrows v hv
          exact hfresh u hu (hid.trans he)
        constructor
        · intro j
          by_cases hj : j = policyId
          · subst hj
            refine Windows.perm ?_ (versionsOf_insert hfresh')
            refine (hwindows j).insert ?_ ?_ ?_
            -- the range check is made against the open version that was just closed
            · intro last hl
              unfold requireValidRange at hrange
              dsimp only at hl
              rw [hl] at hrange
              simpa using hrange
            · intro w hw
              unfold rejectOverlappingRange at hover
              split at hover
              · next hnone =>
                have hempty := List.head?_eq_none_iff.mp hnone
                by_contra hne
                have hmem : w ∈ closed.select fun v =>
                    v.policyId = j && v.overlaps input.effectiveFrom input.effectiveUntil := by
                  obtain ⟨hw1, hw2⟩ := mem_versionsOf.mp hw
                  exact Table.mem_select.mpr ⟨hw1, by simpa [hw2] using hne⟩
                rw [hempty] at hmem
                exact absurd hmem (by simp)
              · exact absurd hover (by simp)
            · show currentVersionNumber closed j + 1 = _
              rw [currentVersionNumber]
              exact congrArg (· + 1) (hwindows j).maxNumber
          · rw [versionsOf_insert_other hfresh' hj]
            exact hwindows j
        · intro v' hv'
          rcases Table.mem_insert.mp hv' with rfl | ⟨hv', _⟩
          · exact Or.inl rfl
          · obtain ⟨u, hu, hid, _⟩ := hrows v' hv'
            exact Or.inr ⟨u, hu, hid⟩

end

/-! ## Interleavings -/

section

variable {requests : ℕ → ℕ × PolicyVersionInput}

/-- Transaction `t` adds a version with the id `t` of the sequence. -/
def versionProgram (requests : ℕ → ℕ × PolicyVersionInput) (t : ℕ) :
    Program (Table PolicyVersion) VersionWrite VersionDraft ServiceError ℕ :=
  createPolicyVersionProgram t (requests t).1 (requests t).2

/-- A version belongs to the policy of the transaction that created it. -/
def CreatedFor (requests : ℕ → ℕ × PolicyVersionInput) (versions : Table PolicyVersion) : Prop :=
  ∀ v ∈ versions, v.policyId = (requests v.id).1

theorem versionsOf_eq_iff {versions versions' : Table PolicyVersion} {j : ℕ} :
    versionsOf versions j = versionsOf versions' j ↔
      ∀ v, v.policyId = j → (v ∈ versions ↔ v ∈ versions') := by
  constructor
  · intro h v hv
    have hmem : v ∈ versionsOf versions j ↔ v ∈ versionsOf versions' j := by rw [h]
    simpa [mem_versionsOf, hv] using hmem
  · intro h
    refine Table.select_congr fun v => ?_
    by_cases hv : v.policyId = j
    · simp [hv, h v hv]
    · simp [hv]

theorem closeAt_staysWithin (policyId versionId : ℕ) (last : Date) :
    StaysWithin applyVersionWrite versionsOf (CreatedFor requests) policyId
      (.closeAt policyId versionId last) where
  keeps versions h v hv := by
    rw [applyVersionWrite, Table.mem_modify] at hv
    obtain ⟨u, hu, rfl⟩ := hv
    rw [closeRow_policyId, closeRow_id]
    exact h u hu
  others versions j _ hj := versionsOf_close_other last hj
  own versions versions' _ _ h := by
    rw [versionsOf_close, versionsOf_close, h]

theorem insert_staysWithin {v : PolicyVersion} (hv : v.policyId = (requests v.id).1) :
    StaysWithin applyVersionWrite versionsOf (CreatedFor requests) v.policyId (.insert v) where
  keeps versions h w hw := by
    rcases Table.mem_insert.mp hw with rfl | ⟨hw, _⟩
    · exact hv
    · exact h w hw
  others versions j h hj := by
    refine versionsOf_eq_iff.mpr fun w hw => ?_
    -- a row with the id of the new one would belong to the same policy
    have hne : w ∈ versions → w.id ≠ v.id := by
      intro hmem hid
      have hpolicy := h w hmem
      rw [hid, ← hv, hw] at hpolicy
      exact hj hpolicy
    rw [applyVersionWrite, Table.mem_insert]
    constructor
    · rintro (rfl | ⟨hmem, _⟩)
      · exact absurd hw.symm hj
      · exact hmem
    · exact fun hmem => Or.inr ⟨hmem, hne hmem⟩
  own versions versions' _ _ h := by
    refine versionsOf_eq_iff.mpr fun w hw => ?_
    rw [applyVersionWrite, applyVersionWrite, Table.mem_insert, Table.mem_insert,
      versionsOf_eq_iff.mp h w hw]

/-- What a statement computes from the rows of one policy. -/
theorem select_of_versionsOf {versions versions' : Table PolicyVersion} {policyId : ℕ}
    (h : versionsOf versions policyId = versionsOf versions' policyId) (p : PolicyVersion → Bool) :
    versions.select (fun v => v.policyId = policyId && p v) =
      versions'.select (fun v => v.policyId = policyId && p v) := by
  refine Table.select_congr fun v => ?_
  by_cases hv : v.policyId = policyId
  · rw [versionsOf_eq_iff.mp h v hv]
  · simp [hv]

/-- A statement reads the versions of its policy only, and writes within them. -/
abbrev VersionStatement.Confined (requests : ℕ → ℕ × PolicyVersionInput) (policyId : ℕ)
    (stmt : VersionStatement) : Prop :=
  Statement.Confined applyVersionWrite versionsOf (CreatedFor requests) policyId stmt

theorem lockPolicy_confined (policyId : ℕ) (input : PolicyVersionInput) :
    VersionStatement.Confined requests policyId (lockPolicy policyId input) where
  reads _ _ _ _ _ _ := rfl
  writes s m m' ws h := by
    obtain ⟨_, _, he⟩ := exceptMap_eq_ok.mp h
    cases he
    simp

theorem selectPriorVersion_confined (policyId : ℕ) :
    VersionStatement.Confined requests policyId (selectPriorVersion policyId) where
  reads s s' m _ _ h := by
    have hrows : s.select (fun v => v.policyId = policyId) = s'.select _ := h
    simp only [selectPriorVersion, priorVersion?, hrows]
  writes s m m' ws h := by
    cases h
    simp

theorem selectPriorOpenVersion_confined (policyId : ℕ) (input : PolicyVersionInput) :
    VersionStatement.Confined requests policyId (selectPriorOpenVersion policyId input) where
  reads s s' m _ _ h := by
    have hrows := select_of_versionsOf h fun v =>
      v.effectiveUntil.isNone && v.effectiveFrom < input.effectiveFrom
    simp only [← Bool.and_assoc] at hrows
    simp only [selectPriorOpenVersion, priorOpenVersion?, hrows]
  writes s m m' ws h := by
    cases h
    simp

theorem updatePriorOpenVersion_confined (policyId : ℕ) (input : PolicyVersionInput) :
    VersionStatement.Confined requests policyId (updatePriorOpenVersion policyId input) where
  reads _ _ _ _ _ _ := rfl
  writes s m m' ws h := by
    simp only [updatePriorOpenVersion] at h
    split at h
    · cases h
      simp
    · split at h
      · exact absurd h (by simp)
      · cases h
        intro w hw
        rw [List.mem_singleton.mp hw]
        exact closeAt_staysWithin _ _ _

theorem selectOverlap_confined (policyId : ℕ) (input : PolicyVersionInput) :
    VersionStatement.Confined requests policyId (selectOverlap policyId input) where
  reads s s' m _ _ h := by
    have hrows := select_of_versionsOf h fun v =>
      v.overlaps input.effectiveFrom input.effectiveUntil
    simp only [selectOverlap, rejectOverlappingRange, hrows]
  writes s m m' ws h := by
    obtain ⟨_, _, he⟩ := exceptMap_eq_ok.mp h
    cases he
    simp

theorem selectVersionNumber_confined (policyId : ℕ) :
    VersionStatement.Confined requests policyId (selectVersionNumber policyId) where
  reads s s' m _ _ h := by
    have hrows : s.select (fun v => v.policyId = policyId) = s'.select _ := h
    simp only [selectVersionNumber, currentVersionNumber, hrows]
  writes s m m' ws h := by
    cases h
    simp

theorem insertVersion_confined (t : ℕ) :
    VersionStatement.Confined requests (requests t).1
      (insertVersion t (requests t).1 (requests t).2) where
  reads _ _ _ _ _ _ := rfl
  writes s m m' ws h := by
    cases h
    intro w hw
    rw [List.mem_singleton.mp hw]
    exact @insert_staysWithin requests (draftedVersion t _ _ _) rfl

theorem versionProgram_exclusive (t : ℕ) :
    (versionProgram requests t).Exclusive applyVersionWrite versionsOf (CreatedFor requests)
      (requests t).1 where
  nonempty := by simp [versionProgram, createPolicyVersionProgram]
  first stmt rest h s m := by
    simp only [versionProgram, createPolicyVersionProgram, List.cons.injEq] at h
    rw [← h.1]
    exact List.mem_singleton.mpr rfl
  confined stmt hstmt := by
    simp only [versionProgram, createPolicyVersionProgram, List.mem_cons, List.not_mem_nil,
      or_false] at hstmt
    rcases hstmt with rfl | rfl | rfl | rfl | rfl | rfl | rfl
    · exact lockPolicy_confined _ _
    · exact selectPriorVersion_confined _
    · exact selectPriorOpenVersion_confined _ _
    · exact updatePriorOpenVersion_confined _ _
    · exact selectOverlap_confined _ _
    · exact selectVersionNumber_confined _
    · exact insertVersion_confined t

/-- In every committed state the windows of every policy hold, and looking up the effective
versions never finds two of one policy. -/
theorem policy_version_windows
    {sys : System (Table PolicyVersion) VersionWrite VersionDraft ServiceError ℕ}
    {actions : List Action}
    (h : (System.init .empty (versionProgram requests)).run applyVersionWrite actions = some sys) :
    (∀ policyId, Windows (versionsOf sys.committed policyId)) ∧
      ∀ rules : Rules, rules.policyVersions = sys.committed → ∀ policyIds day,
        EffectiveUnique rules day ∧
          ∃ effective, getEffectivePolicyVersions rules policyIds day = .ok effective := by
  have hinv : (∀ v ∈ sys.committed, sys.done v.id) ∧
      ∀ policyId, Windows (versionsOf sys.committed policyId) := by
    refine committed_invariant
      (I := fun past versions => (∀ v ∈ versions, past v.id) ∧
        ∀ policyId, Windows (versionsOf versions policyId))
      versionProgram_exclusive (s := .empty) (fun v hv => absurd hv Table.not_mem_empty)
      ⟨fun v hv => absurd hv Table.not_mem_empty, fun _ => windows_nil⟩ ?_ h
    -- one more transaction, run alone on the committed versions
    rintro past versions t draft writes _ ⟨hids, hwindows⟩ hfresh hrun
    obtain ⟨version, _, hadd⟩ := runStatements_createPolicyVersion hrun
    have hunused : ∀ v ∈ versions, v.id ≠ t := by
      rintro v hv rfl
      exact hfresh (hids v hv)
    obtain ⟨hwindows', hrows⟩ := addPolicyVersion_windows hwindows hunused hadd
    refine ⟨fun v hv => ?_, hwindows'⟩
    rcases hrows v hv with he | ⟨u, hu, he⟩
    · exact Or.inl he
    · rw [← he]
      exact Or.inr (hids u hu)
  refine ⟨hinv.2, fun rules hrules policyIds day => ?_⟩
  have hunique : EffectiveUnique rules day := by
    intro v hv w hw hp hve hwe
    rw [hrules] at hv hw
    by_contra hne
    exact (hinv.2 v.policyId).disjoint.forall (mem_versionsOf.mpr ⟨hv, rfl⟩)
      (mem_versionsOf.mpr ⟨hw, hp.symm⟩) hne day ⟨hve, hwe⟩
  exact ⟨hunique, getEffective_ok_of_unique hunique⟩

end

/-- Two transactions add open-ended versions to policy 1, and a third one a version that overlaps. -/
def threeVersions (t : ℕ) : ℕ × PolicyVersionInput :=
  (1, { priority := 10
        effectiveFrom := if t = 2 then (.on 2027 3 1) else (.on 2026 1 1)
        effectiveUntil := none
        createdBy := none
        values := []
        compiledClauses := [] })

/-- The second transaction starts after the first has committed, the third is refused. -/
def threeVersionsRun : List Action :=
  List.replicate 7 (.exec 1) ++ [.commit 1, .exec 2, .exec 2] ++ List.replicate 5 (.exec 2)
    ++ [.commit 2] ++ List.replicate 5 (.exec 3)

theorem policy_version_windows_three :
    ∃ sys, (System.init .empty (versionProgram threeVersions)).run applyVersionWrite
        threeVersionsRun = some sys ∧
      sys.committed.rows.map (fun v => (v.versionNumber, v.effectiveUntil)) =
        [(1, some (.on 2027 2 28)), (2, none)] ∧
      ∀ policyId, Windows (versionsOf sys.committed policyId) := by
  have hrows : ((System.init .empty (versionProgram threeVersions)).run applyVersionWrite
      threeVersionsRun).map (fun sys => sys.committed.rows.map
        fun v => (v.versionNumber, v.effectiveUntil)) =
          some [(1, some (.on 2027 2 28)), (2, none)] := by
    decide +kernel
  obtain ⟨sys, hrun, hsys⟩ := Option.map_eq_some_iff.mp hrows
  exact ⟨sys, hrun, hsys, (policy_version_windows hrun).1⟩

end Warp
