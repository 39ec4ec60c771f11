import Warp.Properties.Refresh
import Warp.Properties.ScheduleCoverage

/-!
# What a reconciliation achieves

After a reconciliation the open rows of its employees say what a resolution at its time says. The
facts, the events and the rows of everybody else are as before.
-/

namespace Warp

open Infra

/-- The open rows of an employee, read as a set. -/
def openIdentities (db : Db) (employeeId : ℕ) : Finset AssignmentIdentity :=
  ((openAssignments db employeeId).map EmployeeAssignment.identity).toFinset

structure Reconciled (db db' : Db) (T : DateTime) (ids : Set ℕ) : Prop where
  facts : db'.facts = db.facts
  events : db'.scheduledReconciliations = db.scheduledReconciliations
  sequences : db'.sequences =
    { db.sequences with
      employeeAssignment := db'.sequences.employeeAssignment
      auditLog := db'.sequences.auditLog }
  fresh : FreshAssignments db'
  resolved : ∀ e ∈ ids, (db.facts.employees.find? e).isSome →
    resolvedIdentities db.facts e T.date = some (openIdentities db' e)
  others : ∀ e ∉ ids, openIdentities db' e = openIdentities db e

section

variable {db db' db'' : Db} {T : DateTime} {ids ids' : Set ℕ} {actor : Actor}

theorem Reconciled.refl (h : FreshAssignments db) : Reconciled db db T ∅ :=
  ⟨rfl, rfl, rfl, h, fun _ he => absurd he (Set.notMem_empty _), fun _ _ => rfl⟩

/-- Who is reconciled twice has what the second time gives, which is the same. -/
theorem Reconciled.trans (h : Reconciled db db' T ids) (h' : Reconciled db' db'' T ids') :
    Reconciled db db'' T (ids ∪ ids') where
  facts := h'.facts.trans h.facts
  events := h'.events.trans h.events
  sequences := by rw [h'.sequences, h.sequences]
  fresh := h'.fresh
  resolved := by
    intro e he hpresent
    by_cases he' : e ∈ ids'
    · have hsecond := h'.resolved e he'
      rw [h.facts] at hsecond
      exact hsecond hpresent
    · rw [h'.others e he']
      exact h.resolved e (he.resolve_right he') hpresent
  others := by
    intro e he
    rw [Set.mem_union, not_or] at he
    exact (h'.others e he.2).trans (h.others e he.1)

/-- Ids of nobody may be added. -/
theorem Reconciled.extend (h : Reconciled db db' T ids) (hsub : ids ⊆ ids')
    (hpresent : ∀ e ∈ ids', (db.facts.employees.find? e).isSome → e ∈ ids) :
    Reconciled db db' T ids' where
  facts := h.facts
  events := h.events
  sequences := h.sequences
  fresh := h.fresh
  resolved := fun e he hp => h.resolved e (hpresent e he hp) hp
  others := fun e he => h.others e fun hid => he (hsub hid)

/-- Steps that each reconcile some employees reconcile them all in a row. -/
theorem runAll_reconciled {γ α : Type} {f : γ → Db} {step : γ → α → Except ServiceError γ}
    {S : α → Set ℕ} : ∀ {l : List α} {s s' : γ},
    (∀ a ∈ l, ∀ u u', (f u).facts = (f s).facts → FreshAssignments (f u) → step u a = .ok u' →
      Reconciled (f u) (f u') T (S a)) →
    FreshAssignments (f s) → runAll step s l = .ok s' →
      Reconciled (f s) (f s') T {e | ∃ a ∈ l, e ∈ S a}
  | [], _, _, _, hfresh, h => by
    cases h
    exact (Reconciled.refl hfresh).extend (Set.empty_subset _) (by simp)
  | a :: rest, s, s', hstep, hfresh, h => by
    obtain ⟨u, hfirst, hrest⟩ := runAll_cons.mp h
    have hone := hstep a List.mem_cons_self s u rfl hfresh hfirst
    have hall := runAll_reconciled (fun b hb v v' hv => hstep b (List.mem_cons_of_mem _ hb) v v'
      (hv.trans hone.facts)) hone.fresh hrest
    refine (hone.trans hall).extend ?_ ?_
    · rintro e (he | ⟨b, hb, he⟩)
      · exact ⟨a, List.mem_cons_self, he⟩
      · exact ⟨b, List.mem_cons_of_mem _ hb, he⟩
    · rintro e ⟨b, hb, he⟩ _
      rcases List.mem_cons.mp hb with rfl | hb
      · exact Or.inl he
      · exact Or.inr ⟨b, hb, he⟩

/-! ## One employee -/

theorem Written.openIdentities {employeeId : ℕ} {items : List FinalAssignment}
    (h : Written db db' employeeId T (syncAssignments db employeeId items)) :
    openIdentities db' employeeId = (items.map FinalAssignment.identity).toFinset := by
  have hkeys : ∀ i, i ∈ (openAssignments db' employeeId).map EmployeeAssignment.identity ↔
      i ∈ items.map FinalAssignment.identity := by
    intro i
    constructor
    · intro hi
      obtain ⟨a, ha, rfl⟩ := List.mem_map.mp hi
      obtain ⟨item, hitem, hkey⟩ := List.mem_map.mp (h.open_keys.mp (List.mem_map_of_mem ha))
      exact List.mem_map.mpr ⟨item, hitem, congrArg Prod.fst hkey⟩
    · intro hi
      obtain ⟨item, hitem, rfl⟩ := List.mem_map.mp hi
      obtain ⟨a, ha, hkey⟩ := List.mem_map.mp (h.open_keys.mpr (List.mem_map_of_mem hitem))
      exact List.mem_map.mpr ⟨a, ha, congrArg Prod.fst hkey⟩
  ext i
  rw [Warp.openIdentities, List.mem_toFinset, List.mem_toFinset, hkeys]

theorem resolve_employeeId {facts : Facts} {employeeId : ℕ} {day : Date}
    {r : EmployeeAssignmentResolution}
    (h : resolveEmployeeAssignmentsForDate facts employeeId day = .ok r) :
    r.employeeId = employeeId := by
  unfold resolveEmployeeAssignmentsForDate at h
  split at h
  · exact absurd h (by simp)
  · split at h
    · exact absurd h (by simp)
    · cases h
      rfl

/-- A step of the batch replaces the links of its employee and refreshes the rows. -/
theorem applyResolution_eq_ok {state state' : Db × List (ℕ × List EmployeeAssignment)}
    {r : EmployeeAssignmentResolution} (hfresh : FreshAssignments state.1)
    (h : applyResolution T actor state r = .ok state') :
    (∀ a ∈ state.1.employeeAssignments, a.employeeId = r.employeeId → a.effectiveFrom ≤ T) ∧
      Written (replaceEmployeePolicies state.1 r.employeeId r.policyIds) state'.1 r.employeeId T
        (syncAssignments (replaceEmployeePolicies state.1 r.employeeId r.policyIds) r.employeeId
          r.assignments) := by
  unfold applyResolution refreshEmployeeAssignments at h
  cases horder : rejectOutOfOrderReconciliation
      (replaceEmployeePolicies state.1 r.employeeId r.policyIds) r.employeeId T with
  | error e =>
    simp only [reconciliationTimestamp, horder] at h
    cases h
  | ok u =>
    simp only [reconciliationTimestamp, horder, finalAssignments] at h
    cases h
    exact ⟨rejectOutOfOrder_eq_ok.mp horder, writeAssignments_written hfresh⟩

theorem applyResolution_reconciled {state state' : Db × List (ℕ × List EmployeeAssignment)}
    {r : EmployeeAssignmentResolution} (hfresh : FreshAssignments state.1)
    (hr : resolveEmployeeAssignmentsForDate state.1.facts r.employeeId T.date = .ok r)
    (h : applyResolution T actor state r = .ok state') :
    Reconciled state.1 state'.1 T {r.employeeId} := by
  have hwritten := (applyResolution_eq_ok hfresh h).2
  refine
    { facts := hwritten.frame.facts
      events := hwritten.frame.scheduledReconciliations
      sequences := hwritten.frame.sequences
      fresh := hwritten.fresh
      resolved := ?_
      others := ?_ }
  · rintro e rfl _
    exact resolvedIdentities_eq_some.mpr ⟨r, hr, hwritten.openIdentities.symm⟩
  · intro e he
    unfold openIdentities
    rw [hwritten.others_open he]
    rfl

/-! ## Batches -/

theorem reconcile_reconciled {employeeIds : List ℕ} {now : DateTime}
    {rows : List (ℕ × List EmployeeAssignment)} (hfresh : FreshAssignments db)
    (h : reconcileEmployees db employeeIds (some T) actor now = .ok (db', rows)) :
    Reconciled db db' T {e | e ∈ employeeIds} := by
  unfold reconcileEmployees at h
  split at h
  · exact absurd h (by simp)
  · next resolutions hresolutions =>
    have hone : ∀ r ∈ resolutions,
        resolveEmployeeAssignmentsForDate db.facts r.employeeId T.date = .ok r := by
      intro r hr
      obtain ⟨id, _, hid⟩ := mem_of_traverseAll hresolutions hr
      rw [resolve_employeeId hid]
      exact hid
    have hall := runAll_reconciled (T := T) (f := Prod.fst) (S := fun r => {r.employeeId})
      (fun r hr u u' hfacts hu hstep => applyResolution_reconciled hu
        (by rw [hfacts]; exact hone r hr) hstep) hfresh h
    have hmem : ∀ e, e ∈ presentEmployees db.facts employeeIds ↔
        e ∈ employeeIds ∧ (db.facts.employees.find? e).isSome := by
      intro e
      simp [presentEmployees]
    refine hall.extend ?_ ?_
    · rintro e ⟨r, hr, rfl⟩
      obtain ⟨id, hid, hresolve⟩ := mem_of_traverseAll hresolutions hr
      rw [resolve_employeeId hresolve]
      exact ((hmem id).mp hid).1
    · intro e he hpresent
      obtain ⟨r, hr, hresolve⟩ := traverseAll_mem hresolutions ((hmem e).mpr ⟨he, hpresent⟩)
      exact ⟨r, hr, (resolve_employeeId hresolve).symm⟩

theorem reconcileMap_reconciled {employeeIds : List ℕ} {now : DateTime}
    (hfresh : FreshAssignments db)
    (h : (reconcileEmployees db employeeIds (some T) actor now).map Prod.fst = .ok db') :
    Reconciled db db' T {e | e ∈ employeeIds} := by
  obtain ⟨⟨_, rows⟩, hrun, rfl⟩ := exceptMap_eq_ok.mp h
  exact reconcile_reconciled hfresh hrun

theorem refreshAll_reconciled (hfresh : FreshAssignments db)
    (h : refreshEmployeesAffectedByPolicy db T actor = .ok db') :
    Reconciled db db' T Set.univ := by
  refine (reconcileMap_reconciled hfresh h).extend (Set.subset_univ _) fun e _ hpresent => ?_
  obtain ⟨employee, hemployee, rfl⟩ := Table.isSome_find?.mp hpresent
  exact List.mem_map_of_mem hemployee

/-! ## The worker -/

/-- Everybody is due as soon as a policy is. -/
def DueEntities.reconciles (due : DueEntities) : Set ℕ :=
  {e | due.policies.Nonempty ∨ e ∈ due.employees}

theorem collectEntity_grows {facts : Facts} {due due' : DueEntities}
    {event : ScheduledReconciliation} (h : collectEntity facts due event = .ok due') :
    due.policies ⊆ due'.policies ∧ due.employees ⊆ due'.employees ∧
      (event.entityType = .policyVersion → due'.policies.Nonempty) ∧
      (event.entityType = .employee → event.entityId ∈ due'.employees) ∧
      (event.entityType ≠ .employeeOverride →
        due'.overrideEmployees = due.overrideEmployees) := by
  unfold collectEntity at h
  split at h
  · exact absurd h (by simp)
  · cases htype : event.entityType with
    | policyVersion =>
      rw [htype] at h
      dsimp only at h
      split at h
      · exact absurd h (by simp)
      · cases h
        exact ⟨Finset.subset_insert _ _, subset_rfl, fun _ => Finset.insert_nonempty _ _,
          fun he => absurd he (by decide), fun _ => rfl⟩
    | employee =>
      rw [htype] at h
      dsimp only at h
      split at h
      · exact absurd h (by simp)
      · next employee hfind =>
        cases h
        refine ⟨subset_rfl, Finset.subset_insert _ _, fun he => absurd he (by decide),
          fun _ => ?_, fun _ => rfl⟩
        rw [← (Table.find?_eq_some.mp hfind).2]
        exact Finset.mem_insert_self _ _
    | employeeOverride =>
      rw [htype] at h
      dsimp only at h
      split at h
      · exact absurd h (by simp)
      · cases h
        exact ⟨subset_rfl, subset_rfl, fun he => absurd he (by decide),
          fun he => absurd he (by decide), fun he => absurd rfl he⟩

/-- Every event of a batch puts what it concerns on the list, and nothing puts an override there. -/
theorem collectEntities : ∀ {events : List ScheduledReconciliation} {facts : Facts}
    {due due' : DueEntities}, (∀ event ∈ events, event.entityType ≠ .employeeOverride) →
    runAll (collectEntity facts) due events = .ok due' →
      due.policies ⊆ due'.policies ∧ due.employees ⊆ due'.employees ∧
        due'.overrideEmployees = due.overrideEmployees ∧
        ∀ event ∈ events, ∀ e, event.eventKey.Concerns e → e ∈ due'.reconciles
  | [], _, _, _, _, h => by
    cases h
    exact ⟨subset_rfl, subset_rfl, rfl, by simp⟩
  | event :: rest, facts, due, due', hsources, h => by
    obtain ⟨due₁, hstep, hrest⟩ := runAll_cons.mp h
    obtain ⟨hpolicies, hemployees, hversion, hemployee, hoverride⟩ := collectEntity_grows hstep
    obtain ⟨hpolicies', hemployees', hoverride', hall⟩ :=
      collectEntities (fun x hx => hsources x (List.mem_cons_of_mem _ hx)) hrest
    refine ⟨hpolicies.trans hpolicies', hemployees.trans hemployees',
      hoverride'.trans (hoverride (hsources event List.mem_cons_self)), fun x hx e hconcerns => ?_⟩
    rcases List.mem_cons.mp hx with rfl | hx
    · rcases hconcerns with htype | ⟨htype, hid⟩
      · exact Or.inl ((hversion htype).mono hpolicies')
      · refine Or.inr (hemployees' ?_)
        rw [← show x.entityId = e from hid]
        exact hemployee htype
    · exact hall x hx e hconcerns

theorem reconcileEntities_reconciled {due : DueEntities} (hfresh : FreshAssignments db)
    (hoverrides : due.overrideEmployees = ∅) (h : reconcileEntities db due T = .ok db') :
    Reconciled db db' T due.reconciles := by
  unfold reconcileEntities at h
  split at h
  · exact absurd h (by simp)
  · next db₁ hpolicies =>
    split at h
    · exact absurd h (by simp)
    · next db₂ hemployees =>
      have hnone : (sortedSet due.overrideEmployees).filter (· ∉ due.employees) = [] := by
        rw [hoverrides]
        refine List.filter_eq_nil_iff.mpr fun a ha => ?_
        exact absurd (mem_sortedSet.mp ha) (Finset.notMem_empty a)
      rw [hnone] at h
      cases h
      have h1 := runAll_reconciled (T := T) (f := id) (S := fun _ => Set.univ)
        (fun _ _ _ _ _ hfresh hstep => refreshAll_reconciled hfresh hstep) hfresh hpolicies
      have h2 := runAll_reconciled (T := T) (f := id) (S := fun e => {e})
        (fun e _ u u' _ hfresh hstep => by
          have hone := reconcileMap_reconciled hfresh hstep
          exact hone.extend (by simp) (by simp)) h1.fresh hemployees
      refine (h1.trans h2).extend ?_ ?_
      · rintro e (⟨p, hp, _⟩ | ⟨a, ha, he⟩)
        · exact Or.inl ⟨p, mem_sortedSet.mp hp⟩
        · rw [Set.mem_singleton_iff.mp he]
          exact Or.inr (mem_sortedSet.mp ha)
      · rintro e (⟨p, hp⟩ | he) _
        · exact Or.inl ⟨p, mem_sortedSet.mpr hp, Set.mem_univ e⟩
        · exact Or.inr ⟨e, mem_sortedSet.mpr he, rfl⟩

end

end Warp
