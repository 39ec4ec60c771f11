import Warp.ChangePreviews
import Warp.Properties.Reconciled
import Warp.Properties.RecordedHistory

/-!
# Renewed rows

A reconciliation refreshes every employee of its batch once, so no open row makes way for another one
with the same key. Whoever compares the open rows before and after it by their keys sees every row that
is opened or ended.
-/

namespace Warp

open Infra

/-- An open row that is not in both databases has a key of its own. -/
structure Renewed (db db' : Db) (employeeId : ℕ) : Prop where
  ended : ∀ a ∈ openAssignments db employeeId, a ∉ openAssignments db' employeeId →
    a.assignmentKey ∉ (openAssignments db' employeeId).map EmployeeAssignment.assignmentKey
  created : ∀ a ∈ openAssignments db' employeeId, a ∉ openAssignments db employeeId →
    a.assignmentKey ∉ (openAssignments db employeeId).map EmployeeAssignment.assignmentKey

section

variable {db db₁ db' : Db} {employeeId : ℕ} {T : DateTime} {actor : Actor}

theorem Renewed.same (h : openAssignments db' employeeId = openAssignments db employeeId) :
    Renewed db db' employeeId := by
  constructor
  · intro a ha hnot
    exact absurd (h ▸ ha) hnot
  · intro a ha hnot
    exact absurd (h ▸ ha) hnot

theorem Renewed.congr (h : Renewed db₁ db' employeeId)
    (hsame : openAssignments db₁ employeeId = openAssignments db employeeId) :
    Renewed db db' employeeId := by
  obtain ⟨hended, hcreated⟩ := h
  rw [hsame] at hended hcreated
  exact ⟨hended, hcreated⟩

theorem Renewed.congr_right (h : Renewed db db₁ employeeId)
    (hsame : openAssignments db' employeeId = openAssignments db₁ employeeId) :
    Renewed db db' employeeId := by
  obtain ⟨hended, hcreated⟩ := h
  rw [← hsame] at hended hcreated
  exact ⟨hended, hcreated⟩

/-! ## Reconciliation -/

theorem Written.renewed {items : List FinalAssignment}
    (h : Written db db' employeeId T (syncAssignments db employeeId items)) (hs : SoundHistory db) :
    Renewed db db' employeeId where
  ended a ha hnot := by
    rw [h.open_keys, ← mem_keys_desiredByKey]
    rw [h.mem_open, not_or] at hnot
    exact ((mem_ended_of_nodup (hs.keys employeeId)).mp
      ((mem_syncRows.mp ha).resolve_left hnot.1)).2
  created a ha hnot := by
    rcases h.mem_open.mp ha with hkept | hnew
    · exact absurd (mem_syncRows.mpr (Or.inl hkept)) hnot
    · -- The key of a new row is one of the keys left over, which no row has had.
      have hkey : a.assignmentKey ∈ (syncAssignments db employeeId items).leftover.keys := by
        rw [← leftover_keys, ← newAssignments_keys]
        exact List.mem_map_of_mem hnew
      obtain ⟨item, hitem⟩ := Dict.mem_keys.mp hkey
      intro hmem
      obtain ⟨r, hr, hrkey⟩ := List.mem_map.mp hmem
      exact (mem_leftover.mp hitem).2 r hr hrkey

theorem runAll_renewed : ∀ {resolutions : List EmployeeAssignmentResolution}
    {state state' : Db × List (ℕ × List EmployeeAssignment)}, SoundHistory state.1 →
      (resolutions.map fun r => r.employeeId).Nodup →
      runAll (applyResolution T actor) state resolutions = .ok state' →
        ∀ e, Renewed state.1 state'.1 e ∧
          (e ∉ resolutions.map (fun r => r.employeeId) →
            openAssignments state'.1 e = openAssignments state.1 e)
  | [], state, _, _, _, h, e => by
    cases h
    exact ⟨.same rfl, fun _ => rfl⟩
  | r :: rest, state, state', hs, hn, h, e => by
    obtain ⟨mid, hstep, hrest⟩ := runAll_cons.mp h
    obtain ⟨hnot, hn⟩ := List.nodup_cons.mp hn
    obtain ⟨hstarts, hwritten⟩ := applyResolution_eq_ok hs.fresh hstep
    have hlinks : SoundHistory (replaceEmployeePolicies state.1 r.employeeId r.policyIds) :=
      hs.elsewhere rfl rfl
    have hmid := hwritten.sound hlinks hstarts
    obtain ⟨hrenewed, hothers⟩ := runAll_renewed hmid hn hrest e
    by_cases he : e = r.employeeId
    · subst he
      have hown : Renewed state.1 mid.1 r.employeeId := (hwritten.renewed hlinks).congr rfl
      exact ⟨hown.congr_right (hothers hnot), fun hmem => absurd List.mem_cons_self hmem⟩
    · have hsame : openAssignments mid.1 e = openAssignments state.1 e := hwritten.others_open he
      refine ⟨hrenewed.congr hsame, fun hmem => ?_⟩
      exact (hothers fun hin => hmem (List.mem_cons_of_mem _ hin)).trans hsame

theorem presentEmployees_nodup (facts : Facts) (employeeIds : List ℕ) :
    (presentEmployees facts employeeIds).Nodup := by
  refine List.Nodup.filter _ ?_
  obtain ⟨m, hm⟩ := employeeIds.toFinset
  induction m using Quot.induction_on with
  | h l => exact orderBy_nodup hm

theorem reconcile_renewed {employeeIds : List ℕ} {now : DateTime} (hs : SoundHistory db)
    (h : (reconcileEmployees db employeeIds (some T) actor now).map Prod.fst = .ok db') (e : ℕ) :
    Renewed db db' e := by
  obtain ⟨⟨_, rows⟩, hrun, rfl⟩ := exceptMap_eq_ok.mp h
  unfold reconcileEmployees at hrun
  split at hrun
  · exact absurd hrun (by simp)
  · next resolutions hresolutions =>
    have hids : resolutions.map (fun r => r.employeeId) = presentEmployees db.facts employeeIds := by
      rw [traverseAll_view hresolutions fun id _ r hr => resolve_employeeId hr, List.map_id']
    refine (runAll_renewed hs ?_ hrun e).1
    rw [hids]
    exact presentEmployees_nodup db.facts employeeIds

/-! ## Operations that are previewed -/

theorem syncAllTenure_eventsOnly
    (hrun : syncAllEmployeeTenureSchedules db T = .ok db') : EventsOnly db db' := by
  refine runAll_invariant (I := EventsOnly db) (fun _ _ u v hu hstep => hu.trans ?_) (.refl db) hrun
  unfold syncEmployeeTenureSchedules at hstep
  split at hstep
  · exact absurd hstep (by simp)
  · exact replaceEvents_eventsOnly hstep

theorem createVersion_rows {policyId : ℕ} {data : PolicyVersionCreate} {v : PolicyVersion}
    (hrun : createPolicyVersionFromInput db policyId data actor T = .ok (db', v)) :
    db'.employeeAssignments = db.employeeAssignments ∧
      db'.sequences.employeeAssignment = db.sequences.employeeAssignment := by
  simp only [createPolicyVersionFromInput, bind_eq_ok, pure_eq_ok] at hrun
  obtain ⟨input, _, ⟨db₂, version⟩, hcreate, db₃, hversions, db₄, htenure, hout⟩ := hrun
  cases hout
  have hcreated : db₂.employeeAssignments = db.employeeAssignments ∧
      db₂.sequences.employeeAssignment = db.sequences.employeeAssignment := by
    unfold createPolicyVersion at hcreate
    dsimp only at hcreate
    split at hcreate
    · exact absurd hcreate (by simp)
    · cases hcreate
      exact ⟨rfl, rfl⟩
  have honly := (replaceEvents_eventsOnly hversions).trans (syncAllTenure_eventsOnly htenure)
  refine ⟨honly.assignments.trans hcreated.1, ?_⟩
  rw [honly.sequences]
  exact hcreated.2

/-- What leaves the rows alone, followed by a reconciliation. -/
theorem Renewed.reconciled (hs : SoundHistory db)
    (hrows : db₁.employeeAssignments = db.employeeAssignments)
    (hsequence : db₁.sequences.employeeAssignment = db.sequences.employeeAssignment)
    {employeeIds : List ℕ} {now : DateTime}
    (h : (reconcileEmployees db₁ employeeIds (some T) actor now).map Prod.fst = .ok db') (e : ℕ) :
    Renewed db db' e := by
  refine (reconcile_renewed (hs.elsewhere hrows hsequence) h e).congr ?_
  rw [openAssignments, openAssignments, hrows]

theorem createPolicy_renewed {data : PolicyCreate} {p : Policy} (hs : SoundHistory db)
    (hrun : createPolicy db data actor T = .ok (db', p)) (e : ℕ) : Renewed db db' e := by
  simp only [createPolicy, bind_eq_ok, pure_eq_ok] at hrun
  obtain ⟨⟨db₁, v⟩, hversion, db₂, hrefresh, hout⟩ := hrun
  cases hout
  obtain ⟨hrows, hsequence⟩ := createVersion_rows hversion
  exact .reconciled hs hrows hsequence hrefresh e

theorem addVersion_renewed {policyId : ℕ} {data : PolicyVersionCreate} {v : PolicyVersion}
    (hs : SoundHistory db) (hrun : addVersion db policyId data actor T = .ok (db', v)) (e : ℕ) :
    Renewed db db' e := by
  simp only [addVersion, bind_eq_ok, pure_eq_ok] at hrun
  obtain ⟨policy, _, ⟨db₁, v'⟩, hversion, db₂, hrefresh, hout⟩ := hrun
  cases hout
  obtain ⟨hrows, hsequence⟩ := createVersion_rows hversion
  exact .reconciled hs hrows hsequence hrefresh e

theorem updatePolicy_renewed {policyId : ℕ} {data : PolicyUpdate} {p : Policy}
    (hs : SoundHistory db) (hrun : updatePolicy db policyId data actor T = .ok (db', p)) (e : ℕ) :
    Renewed db db' e := by
  simp only [updatePolicy, bind_eq_ok] at hrun
  obtain ⟨policy, _, hout⟩ := hrun
  split at hout
  · cases hout
    exact .same rfl
  · simp only [bind_eq_ok, pure_eq_ok] at hout
    obtain ⟨db₁, hfollow, hout⟩ := hout
    cases hout
    unfold followStatus at hfollow
    split at hfollow
    · cases hfollow
      exact .same rfl
    · simp only [bind_eq_ok] at hfollow
      obtain ⟨db₂, hversions, db₃, htenure, hrefresh⟩ := hfollow
      have honly := (replaceEvents_eventsOnly hversions).trans (syncAllTenure_eventsOnly htenure)
      refine .reconciled hs honly.assignments ?_ hrefresh e
      rw [honly.sequences]
      rfl

theorem addMember_renewed {groupId employeeId : ℕ} {employee : Employee} (hs : SoundHistory db)
    (hrun : addEmployeeToGroup db groupId employeeId actor T = .ok (db', employee)) (e : ℕ) :
    Renewed db db' e := by
  simp only [addEmployeeToGroup, bind_eq_ok] at hrun
  obtain ⟨_, _, _, _, hout⟩ := hrun
  split at hout
  · cases hout
    exact .same rfl
  · simp only [bind_eq_ok, pure_eq_ok] at hout
    obtain ⟨db₁, hreconcile, hout⟩ := hout
    cases hout
    refine .reconciled hs ?_ ?_ hreconcile e <;> rfl

theorem removeMember_renewed {groupId employeeId : ℕ} (hs : SoundHistory db)
    (hrun : removeEmployeeFromGroup db groupId employeeId actor T = .ok db') (e : ℕ) :
    Renewed db db' e := by
  simp only [removeEmployeeFromGroup, bind_eq_ok] at hrun
  obtain ⟨_, _, _, _, hout⟩ := hrun
  split at hout
  · cases hout
    exact .same rfl
  · refine .reconciled hs ?_ ?_ hout e <;> rfl

theorem createOverride_renewed {employeeId fieldId : ℕ} {value : String} {o : EmployeeOverride}
    (hs : SoundHistory db)
    (hrun : createEmployeeOverride db employeeId fieldId value actor T = .ok (db', o)) (e : ℕ) :
    Renewed db db' e := by
  simp only [createEmployeeOverride, bind_eq_ok, pure_eq_ok] at hrun
  obtain ⟨_, _, _, _, _, _, _, _, db₁, hreconcile, hout⟩ := hrun
  cases hout
  refine .reconciled hs ?_ ?_ hreconcile e <;> rfl

theorem updateOverride_renewed {employeeId overrideId : ℕ} {fieldId : Option ℕ}
    {value : Option String} {o : EmployeeOverride} (hs : SoundHistory db)
    (hrun : updateEmployeeOverride db employeeId overrideId fieldId value actor T = .ok (db', o))
    (e : ℕ) : Renewed db db' e := by
  simp only [updateEmployeeOverride, bind_eq_ok] at hrun
  obtain ⟨_, _, old, _, d, _, v, _, hout⟩ := hrun
  by_cases hsame : d.id = old.assignmentFieldDefinitionId ∧ v = old.value
  · rw [if_pos hsame] at hout
    cases hout
    exact .same rfl
  · rw [if_neg hsame] at hout
    simp only [bind_eq_ok, pure_eq_ok] at hout
    obtain ⟨_, _, db₁, hreconcile, hout⟩ := hout
    cases hout
    refine .reconciled hs ?_ ?_ hreconcile e <;> rfl

theorem deleteOverride_renewed {employeeId overrideId : ℕ} (hs : SoundHistory db)
    (hrun : deleteEmployeeOverride db employeeId overrideId actor T = .ok db') (e : ℕ) :
    Renewed db db' e := by
  simp only [deleteEmployeeOverride, bind_eq_ok] at hrun
  obtain ⟨_, _, _, _, hreconcile⟩ := hrun
  refine .reconciled hs ?_ ?_ hreconcile e <;> rfl

end

end Warp
