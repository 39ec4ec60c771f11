import Warp.Properties.Reconciled

/-!
# Settled employees

A reconciled employee has the links and the open rows of the resolution, and no row that starts
later. The steps of the batch for the other employees leave it so.
-/

namespace Warp

open Infra

structure Settled (db : Db) (T : DateTime) (r : EmployeeAssignmentResolution) : Prop where
  keys : ((openAssignments db r.employeeId).map EmployeeAssignment.assignmentKey).Perm
    (desiredByKey r.assignments).keys
  started : ∀ a ∈ db.employeeAssignments, a.employeeId = r.employeeId → a.effectiveFrom ≤ T
  links : ∀ p, ⟨r.employeeId, p⟩ ∈ db.employeePolicies ↔ p ∈ r.policyIds

section

variable {db db' : Db} {T : DateTime} {actor : Actor} {q r : EmployeeAssignmentResolution}
  {state state' : Db × List (ℕ × List EmployeeAssignment)}

/-- The key of a link is the whole link. -/
theorem mem_insert_link {links : Table EmployeePolicy} {l l' : EmployeePolicy} :
    l ∈ links.insert l' ↔ l = l' ∨ l ∈ links := by
  rw [Table.mem_insert]
  refine ⟨fun h => h.imp_right And.left, fun h => ?_⟩
  by_cases hl : l = l'
  · exact Or.inl hl
  · refine Or.inr ⟨h.resolve_left hl, fun hkey => hl ?_⟩
    obtain ⟨hemployee, hpolicy⟩ := Prod.mk.inj (toLex.injective hkey)
    cases l
    cases l'
    cases hemployee
    cases hpolicy
    rfl

theorem mem_foldl_insert {links : Table EmployeePolicy} {employeeId : ℕ} {policyIds : List ℕ}
    {l : EmployeePolicy} :
    l ∈ policyIds.foldl (fun links policyId => links.insert ⟨employeeId, policyId⟩) links ↔
      l ∈ links ∨ l.employeeId = employeeId ∧ l.policyId ∈ policyIds := by
  induction policyIds generalizing links with
  | nil => simp
  | cons p policyIds ih =>
    rw [List.foldl_cons, ih, mem_insert_link, List.mem_cons]
    cases l
    simp only [EmployeePolicy.mk.injEq]
    tauto

theorem mem_replaceEmployeePolicies {employeeId : ℕ} {policyIds : List ℕ} {l : EmployeePolicy} :
    l ∈ (replaceEmployeePolicies db employeeId policyIds).employeePolicies ↔
      (l ∈ db.employeePolicies ∧ l.employeeId ≠ employeeId) ∨
        l.employeeId = employeeId ∧ l.policyId ∈ policyIds := by
  rw [replaceEmployeePolicies, mem_foldl_insert, Table.mem_filter, decide_eq_true_eq]

theorem settled_applyResolution (hfresh : FreshAssignments state.1)
    (h : applyResolution T actor state r = .ok state') : Settled state'.1 T r := by
  obtain ⟨hstarts, hwritten⟩ := applyResolution_eq_ok hfresh h
  refine ⟨hwritten.open_perm, fun a ha hid => ?_, fun p => ?_⟩
  · rcases (hwritten.rows a).mp ha with ⟨hold, _⟩ | ⟨b, hb, _, rfl⟩ | hnew
    · exact hstarts a hold hid
    · exact hstarts b (mem_openAssignments.mp (mem_ended hb)).1 hid
    · exact (mem_newAssignments hnew).2.2.1.le
  · rw [hwritten.frame.employeePolicies, mem_replaceEmployeePolicies]
    simp

theorem Settled.step (hr : Settled state.1 T r) (hfresh : FreshAssignments state.1)
    (h : applyResolution T actor state q = .ok state') (hne : r.employeeId ≠ q.employeeId) :
    Settled state'.1 T r := by
  obtain ⟨_, hwritten⟩ := applyResolution_eq_ok hfresh h
  refine ⟨?_, fun a ha hid => ?_, fun p => ?_⟩
  · rw [hwritten.others_open hne]
    exact hr.keys
  · have hrow := mem_employeeRows.mpr ⟨ha, hid⟩
    rw [hwritten.other_rows hne] at hrow
    exact hr.started a (mem_employeeRows.mp hrow).1 hid
  · rw [hwritten.frame.employeePolicies, mem_replaceEmployeePolicies, ← hr.links p]
    simp [hne]

/-- The steps of a batch settle their employees, each of whom has one resolution. -/
theorem runAll_settled {resolutions : List EmployeeAssignmentResolution}
    (hone : ∀ q ∈ resolutions, q.employeeId = r.employeeId → q = r)
    (hfresh : FreshAssignments state.1) (hr : r ∈ resolutions ∨ Settled state.1 T r)
    (h : runAll (applyResolution T actor) state resolutions = .ok state') :
    Settled state'.1 T r := by
  induction resolutions generalizing state with
  | nil =>
    cases h
    exact hr.resolve_left List.not_mem_nil
  | cons q rest ih =>
    obtain ⟨u, hfirst, hrest⟩ := runAll_cons.mp h
    refine ih (fun p hp => hone p (List.mem_cons_of_mem _ hp))
      (applyResolution_eq_ok hfresh hfirst).2.fresh ?_ hrest
    by_cases he : q.employeeId = r.employeeId
    · rw [← hone q List.mem_cons_self he]
      exact Or.inr (settled_applyResolution hfresh hfirst)
    · rcases hr with hr | hr
      · refine Or.inl ((List.mem_cons.mp hr).resolve_left ?_)
        rintro rfl
        exact he rfl
      · exact Or.inr (hr.step hfresh hfirst (Ne.symm he))

/-- After a reconciliation every employee of the batch is settled. -/
theorem reconcile_settled {employeeIds : List ℕ} {now : DateTime}
    {rows : List (ℕ × List EmployeeAssignment)} (hfresh : FreshAssignments db)
    (h : reconcileEmployees db employeeIds (some T) actor now = .ok (db', rows)) {e : ℕ}
    (he : e ∈ presentEmployees db.facts employeeIds) :
    ∃ r, resolveEmployeeAssignmentsForDate db.facts e T.date = .ok r ∧ Settled db' T r := by
  unfold reconcileEmployees at h
  split at h
  · exact absurd h (by simp)
  · next resolutions hresolutions =>
    obtain ⟨r, hr, hresolve⟩ := traverseAll_mem hresolutions he
    refine ⟨r, hresolve, runAll_settled (fun q hq hid => ?_) hfresh (Or.inl hr) h⟩
    obtain ⟨d, _, hd⟩ := mem_of_traverseAll hresolutions hq
    rw [resolve_employeeId hresolve, resolve_employeeId hd] at hid
    rw [hid] at hd
    exact Except.ok.inj (hd.symm.trans hresolve)

theorem mem_presentEmployees {facts : Facts} {employeeIds : List ℕ} {e : ℕ} :
    e ∈ presentEmployees facts employeeIds ↔
      e ∈ employeeIds ∧ (facts.employees.find? e).isSome := by
  simp [presentEmployees]

end

end Warp
