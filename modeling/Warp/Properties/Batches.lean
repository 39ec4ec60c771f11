import Warp.Properties.AuditJournal
import Warp.Properties.RecordedHistory

/-!
# Batches

A reconciliation of many employees resolves all of them before it writes, and a change of the policies
of a group reconciles its members once. Both come to the same as their parts one after the other.
-/

namespace Warp

open Infra

section

variable {db db' : Db} {T : DateTime} {actor : Actor} {now : DateTime}

/-! ## One employee after the other -/

/-- A batch of one employee, with the rows of the employees before it. -/
def reconcileOne (T : DateTime) (actor : Actor) (now : DateTime)
    (state : Db × List (ℕ × List EmployeeAssignment)) (employeeId : ℕ) :
    Except ServiceError (Db × List (ℕ × List EmployeeAssignment)) :=
  (reconcileEmployees state.1 [employeeId] (some T) actor now).map fun out =>
    (out.1, state.2 ++ out.2)

theorem presentEmployees_one (facts : Facts) (id : ℕ) : presentEmployees facts [id] =
    if (facts.employees.find? id).isSome then [id] else [] := by
  have hsorted : sortedSet [id].toFinset = [id] := by
    have hperm : (sortedSet [id].toFinset).Perm [id] := perm_orderBy (fun e => e) [id]
    exact List.perm_singleton.mp hperm
  rw [presentEmployees, hsorted, List.filter_cons, List.filter_nil]

/-- A step of the batch adds the rows of its employee at the end. -/
theorem applyResolution_append {state : Db × List (ℕ × List EmployeeAssignment)}
    {r : EmployeeAssignmentResolution} : applyResolution T actor state r =
      (applyResolution T actor (state.1, []) r).map fun out => (out.1, state.2 ++ out.2) := by
  unfold applyResolution
  dsimp only
  split <;> rfl

theorem reconcileOne_absent {state : Db × List (ℕ × List EmployeeAssignment)} {id : ℕ}
    (h : (state.1.facts.employees.find? id).isSome = false) :
    reconcileOne T actor now state id = .ok state := by
  rw [reconcileOne, reconcileEmployees, presentEmployees_one, h]
  exact congrArg (fun rows => Except.ok (state.1, rows)) (List.append_nil state.2)

theorem reconcileOne_present {state : Db × List (ℕ × List EmployeeAssignment)} {id : ℕ}
    (h : (state.1.facts.employees.find? id).isSome = true) :
    reconcileOne T actor now state id =
      match resolveEmployeeAssignmentsForDate state.1.facts id T.date with
      | .error e => .error e
      | .ok r => applyResolution T actor state r := by
  rw [reconcileOne, reconcileEmployees, presentEmployees_one, h, if_pos rfl, Option.getD_some,
    traverseAll_cons]
  cases resolveEmployeeAssignmentsForDate state.1.facts id T.date with
  | error e => rfl
  | ok r =>
    dsimp only
    rw [applyResolution_append, traverseAll_nil]
    dsimp only
    rw [runAll_step]
    cases applyResolution T actor (state.1, []) r <;> rfl

/-- What can be resolved before anything is written can be resolved when its turn comes. -/
theorem runAll_reconcileOne : ∀ {ids : List ℕ} {state out : Db × List (ℕ × List EmployeeAssignment)},
    state.1.facts = db.facts → (runAll (reconcileOne T actor now) state ids = .ok out ↔
      ∃ resolutions, traverseAll (fun id => resolveEmployeeAssignmentsForDate db.facts id T.date)
          (ids.filter fun id => (db.facts.employees.find? id).isSome) = .ok resolutions ∧
        runAll (applyResolution T actor) state resolutions = .ok out)
  | [], state, out, _ => by simp
  | id :: rest, state, out, hfacts => by
    rw [runAll_cons]
    by_cases hpresent : (db.facts.employees.find? id).isSome = true
    · rw [List.filter_cons, if_pos hpresent, reconcileOne_present (hfacts ▸ hpresent), hfacts]
      constructor
      · rintro ⟨mid, hfirst, hrest⟩
        split at hfirst
        · exact absurd hfirst (by simp)
        · next r hr =>
          have hkept := (derives_kept (derives_applyResolution hfirst)).facts.trans hfacts
          obtain ⟨resolutions, htraverse, hrun⟩ := (runAll_reconcileOne hkept).mp hrest
          refine ⟨r :: resolutions, ?_, runAll_cons.mpr ⟨mid, hfirst, hrun⟩⟩
          exact traverseAll_cons_eq_ok.mpr ⟨r, resolutions, hr, htraverse, rfl⟩
      · rintro ⟨resolutions, htraverse, hrun⟩
        obtain ⟨r, others, hr, hothers, rfl⟩ := traverseAll_cons_eq_ok.mp htraverse
        obtain ⟨mid, hfirst, hrest⟩ := runAll_cons.mp hrun
        have hkept := (derives_kept (derives_applyResolution hfirst)).facts.trans hfacts
        refine ⟨mid, ?_, (runAll_reconcileOne hkept).mpr ⟨others, hothers, hrest⟩⟩
        rw [hr]
        exact hfirst
    · rw [Bool.not_eq_true] at hpresent
      rw [List.filter_cons, hpresent, if_neg (by decide), ← runAll_reconcileOne hfacts,
        reconcileOne_absent (hfacts ▸ hpresent)]
      simp

/-! ## When a batch is accepted -/

/-- No row of the employee starts later. -/
def StartedBy (db : Db) (employeeId : ℕ) (T : DateTime) : Prop :=
  ∀ a ∈ db.employeeAssignments, a.employeeId = employeeId → a.effectiveFrom ≤ T

theorem startedBy_of_runAll : ∀ {resolutions : List EmployeeAssignmentResolution}
    {state out : Db × List (ℕ × List EmployeeAssignment)}, FreshAssignments state.1 →
      runAll (applyResolution T actor) state resolutions = .ok out →
        ∀ r ∈ resolutions, StartedBy state.1 r.employeeId T
  | [], _, _, _, _, r, hr => absurd hr List.not_mem_nil
  | first :: rest, state, out, hfresh, h, r, hr => by
    obtain ⟨mid, hstep, hrun⟩ := runAll_cons.mp h
    obtain ⟨hstarted, hwritten⟩ := applyResolution_eq_ok hfresh hstep
    by_cases hid : r.employeeId = first.employeeId
    · intro a ha hemployee
      exact hstarted a ha (hemployee.trans hid)
    · have hr : r ∈ rest := (List.mem_cons.mp hr).resolve_left fun he => hid (he ▸ rfl)
      intro a ha hemployee
      have hkept : a ∈ employeeRows mid.1 r.employeeId := by
        rw [hwritten.other_rows hid]
        exact mem_employeeRows.mpr ⟨ha, hemployee⟩
      exact startedBy_of_runAll hwritten.fresh hrun r hr a (mem_employeeRows.mp hkept).1 hemployee

theorem exists_applyResolution {state : Db × List (ℕ × List EmployeeAssignment)}
    {r : EmployeeAssignmentResolution} (h : StartedBy state.1 r.employeeId T) :
    ∃ out, applyResolution T actor state r = .ok out := by
  unfold applyResolution refreshEmployeeAssignments
  have horder : rejectOutOfOrderReconciliation
      (replaceEmployeePolicies state.1 r.employeeId r.policyIds) r.employeeId T = .ok () :=
    rejectOutOfOrder_eq_ok.mpr h
  simp only [reconciliationTimestamp, horder, finalAssignments]
  exact ⟨_, rfl⟩

theorem exists_runAll_applyResolution {resolutions : List EmployeeAssignmentResolution}
    {state : Db × List (ℕ × List EmployeeAssignment)} (hfresh : FreshAssignments state.1)
    (h : ∀ r ∈ resolutions, StartedBy state.1 r.employeeId T) :
    ∃ out, runAll (applyResolution T actor) state resolutions = .ok out := by
  refine exists_runAll_eq_ok (I := fun u => FreshAssignments u.1 ∧
    ∀ r ∈ resolutions, StartedBy u.1 r.employeeId T) (fun r hr u hu => ?_) ⟨hfresh, h⟩
  obtain ⟨out, hout⟩ := exists_applyResolution (hu.2 r hr)
  have hwritten := (applyResolution_eq_ok hu.1 hout).2
  refine ⟨out, hout, hwritten.fresh, fun other hother a ha hemployee => ?_⟩
  rcases (hwritten.rows a).mp ha with ⟨hold, _⟩ | ⟨b, hb, _, rfl⟩ | hnew
  · exact hu.2 other hother a hold hemployee
  · exact hu.2 other hother b (mem_openAssignments.mp (mem_ended hb)).1 hemployee
  · exact (mem_newAssignments hnew).2.2.1.le

/-- A batch is accepted when each of its employees can be resolved and has no later row. -/
theorem exists_reconcile_iff {employeeIds : List ℕ} (hfresh : FreshAssignments db) :
    (∃ out, reconcileEmployees db employeeIds (some T) actor now = .ok out) ↔
      ∀ e ∈ presentEmployees db.facts employeeIds,
        (∃ r, resolveEmployeeAssignmentsForDate db.facts e T.date = .ok r) ∧ StartedBy db e T := by
  rw [reconcileEmployees, Option.getD_some]
  constructor
  · rintro ⟨out, hout⟩
    split at hout
    · exact absurd hout (by simp)
    · next resolutions hresolutions =>
      intro e he
      obtain ⟨r, hr, hresolve⟩ := traverseAll_mem hresolutions he
      refine ⟨⟨r, hresolve⟩, ?_⟩
      rw [← resolve_employeeId hresolve]
      exact startedBy_of_runAll hfresh hout r hr
  · intro h
    obtain ⟨resolutions, hresolutions⟩ :=
      exists_traverseAll_eq_ok.mpr fun e he => (h e he).1
    rw [hresolutions]
    refine exists_runAll_applyResolution hfresh fun r hr => ?_
    obtain ⟨e, he, hresolve⟩ := mem_of_traverseAll hresolutions hr
    rw [resolve_employeeId hresolve]
    exact (h e he).2

end

/-- A batch is the reconciliation of its employees one after the other, in the order of their ids: it is
accepted exactly when each of them is, and it leaves the same rows, links, events and audit log. -/
theorem reconcile_batch_split (db : Db) (employeeIds : List ℕ) (T : DateTime) (actor : Actor)
    (now : DateTime) (out : Db × List (ℕ × List EmployeeAssignment)) :
    reconcileEmployees db employeeIds (some T) actor now = .ok out ↔
      runAll (reconcileOne T actor now) (db, []) (sortedSet employeeIds.toFinset) = .ok out := by
  rw [runAll_reconcileOne rfl, reconcileEmployees, ← presentEmployees, Option.getD_some]
  cases traverseAll (fun id => resolveEmployeeAssignmentsForDate db.facts id T.date)
    (presentEmployees db.facts employeeIds) <;> simp

/-! ## The policies of a group -/

/-- The changes of a batch as calls of their own: `remove_policy_from_group` for each policy to detach,
and then `add_policy_to_group` for each policy to attach. -/
def changePoliciesOneByOne (db : Db) (groupId : ℕ) (addPolicyIds removePolicyIds : List ℕ)
    (actor : Actor) (now : DateTime) : Except ServiceError Db := do
  let db ← runAll (fun db policyId => removePolicyFromGroup db groupId policyId actor now) db
    removePolicyIds
  runAll (fun db policyId => (addPolicyToGroup db groupId policyId actor now).map Prod.fst) db
    addPolicyIds

/-- A batch that has changed `batch` so far, against single calls that have come to `db'`. -/
structure InStep (db : Db) (groupId : ℕ) (T : DateTime) (batch : Db × Bool) (db' : Db) : Prop where
  facts : db'.facts = batch.1.facts
  rules : batch.1.facts.toRules = db.facts.toRules
  groups : batch.1.facts.groups = db.facts.groups
  members : listGroupEmployees batch.1.facts groupId = listGroupEmployees db.facts groupId
  rows : batch.1.employeeAssignments = db.employeeAssignments
  sequence : batch.1.sequences.employeeAssignment = db.sequences.employeeAssignment
  fresh : FreshAssignments db'
  unchanged : batch.2 = false → db'.employeeAssignments = db.employeeAssignments
  resolved : batch.2 = true → ∀ e ∈ listGroupEmployees db.facts groupId,
    resolvedIdentities batch.1.facts e T.date = some (openIdentities db' e) ∧ StartedBy db e T
  others : ∀ e ∉ listGroupEmployees db.facts groupId, openIdentities db' e = openIdentities db e

section

variable {db db' db'' : Db} {groupId policyId : ℕ} {T : DateTime} {actor : Actor}
  {batch : Db × Bool}

theorem InStep.refl (h : FreshAssignments db) : InStep db groupId T (db, false) db where
  facts := rfl
  rules := rfl
  groups := rfl
  members := rfl
  rows := rfl
  sequence := rfl
  fresh := h
  unchanged _ := rfl
  resolved h := absurd h (by simp)
  others _ _ := rfl

theorem isSome_find?_of_member {facts : Facts} {e : ℕ} (h : e ∈ listGroupEmployees facts groupId) :
    (facts.employees.find? e).isSome = true := by
  obtain ⟨employee, hemployee, rfl⟩ := List.mem_map.mp h
  exact Table.isSome_find?.mpr ⟨employee, (Table.mem_select.mp hemployee).1, rfl⟩

/-- Both change the policies of the group, and the single call reconciles the members. -/
theorem InStep.changed (h : InStep db groupId T batch db') {links : Table GroupPolicy}
    {n nextBatch : Db} (hnext : n.facts = (db'.withGroupPolicies links).facts)
    (hnextRows : n.employeeAssignments = db'.employeeAssignments)
    (hnextSequence : n.sequences.employeeAssignment = db'.sequences.employeeAssignment)
    (hbatch : nextBatch.facts = (batch.1.withGroupPolicies links).facts)
    (hbatchRows : nextBatch.employeeAssignments = batch.1.employeeAssignments)
    (hbatchSequence : nextBatch.sequences.employeeAssignment = batch.1.sequences.employeeAssignment)
    (hrefresh : refreshGroupMembers n groupId actor T = .ok db'') :
    InStep db groupId T (nextBatch, true) db'' := by
  simp only [refreshGroupMembers, bind_eq_ok] at hrefresh
  obtain ⟨_, _, hreconcile⟩ := hrefresh
  have hfresh : FreshAssignments n := by
    intro a ha
    rw [hnextRows] at ha
    rw [hnextSequence]
    exact h.fresh a ha
  have hrec := reconcileMap_reconciled hfresh hreconcile
  have hfacts : n.facts = nextBatch.facts := by
    rw [hnext, hbatch, Db.withGroupPolicies, Db.withGroupPolicies, h.facts]
  have hmembers : listGroupEmployees nextBatch.facts groupId =
      listGroupEmployees db.facts groupId := by
    rw [hbatch, ← h.members]
    rfl
  have hopen : ∀ e, openIdentities n e = openIdentities db' e := by
    intro e
    rw [openIdentities, openIdentities, openAssignments, openAssignments, hnextRows]
  exact
    { facts := hrec.facts.trans hfacts
      rules := by rw [hbatch, ← h.rules]; rfl
      groups := by rw [hbatch, ← h.groups]; rfl
      members := hmembers
      rows := hbatchRows.trans h.rows
      sequence := hbatchSequence.trans h.sequence
      fresh := hrec.fresh
      unchanged := fun hfalse => absurd hfalse (by simp)
      resolved := fun _ e he => by
        have hmember : e ∈ listGroupEmployees n.facts groupId := by
          rw [hfacts, hmembers]
          exact he
        have hpresent := isSome_find?_of_member hmember
        refine ⟨?_, ?_⟩
        · rw [← hfacts]
          exact hrec.resolved e hmember hpresent
        · cases hflag : batch.2 with
          | true => exact (h.resolved hflag e he).2
          | false =>
            obtain ⟨out, hout, _⟩ := exceptMap_eq_ok.mp hreconcile
            have hstarted := ((exists_reconcile_iff hfresh).mp ⟨out, hout⟩ e (by
              simp [presentEmployees, hmember, hpresent])).2
            intro a ha
            refine hstarted a ?_
            rw [hnextRows, h.unchanged hflag]
            exact ha
      others := fun e he => by
        have hnot : e ∉ {e | e ∈ listGroupEmployees n.facts groupId} := by
          intro hmem
          rw [← hmembers, ← hfacts] at he
          exact he hmem
        rw [hrec.others e hnot, hopen]
        exact h.others e he }

theorem InStep.attached (h : InStep db groupId T batch db') :
    attached batch.1 groupId policyId = attached db' groupId policyId := by
  rw [Warp.attached, Warp.attached, h.facts]

theorem InStep.detach (h : InStep db groupId T batch db')
    (hrun : removePolicyFromGroup db' groupId policyId actor T = .ok db'') :
    InStep db groupId T (detachStep groupId actor T batch policyId) db'' ∧
      ∃ p, getPolicy db.facts.toRules policyId = .ok p := by
  simp only [removePolicyFromGroup, bind_eq_ok] at hrun
  obtain ⟨_, _, p, hp, hout⟩ := hrun
  rw [h.facts, h.rules] at hp
  refine ⟨?_, p, hp⟩
  rw [detachStep, h.attached]
  split
  · next hattached =>
    rw [if_pos hattached] at hout
    have hlinks : batch.1.facts.groupPolicies = db'.facts.groupPolicies := by rw [h.facts]
    refine InStep.changed (n := detachPolicy db' ⟨groupId, policyId⟩ actor T) h rfl rfl rfl ?_ rfl rfl hout
    rw [← hlinks]
    rfl
  · next hattached =>
    rw [if_neg hattached] at hout
    cases hout
    exact h

theorem InStep.attach (h : InStep db groupId T batch db')
    (hrun : (addPolicyToGroup db' groupId policyId actor T).map Prod.fst = .ok db'') :
    InStep db groupId T (attachStep groupId actor T batch policyId) db'' ∧
      ∃ p, getPolicy db.facts.toRules policyId = .ok p := by
  obtain ⟨⟨_, added⟩, hcall, rfl⟩ := exceptMap_eq_ok.mp hrun
  simp only [addPolicyToGroup, bind_eq_ok] at hcall
  obtain ⟨_, _, p, hp, hout⟩ := hcall
  rw [h.facts, h.rules] at hp
  refine ⟨?_, p, hp⟩
  rw [attachStep, h.attached]
  split
  · next hattached =>
    rw [if_pos hattached] at hout
    cases hout
    exact h
  · next hattached =>
    rw [if_neg hattached] at hout
    simp only [bind_eq_ok, pure_eq_ok] at hout
    obtain ⟨_, hrefresh, hout⟩ := hout
    cases hout
    have hlinks : batch.1.facts.groupPolicies = db'.facts.groupPolicies := by rw [h.facts]
    refine InStep.changed (n := attachPolicy db' ⟨groupId, policyId⟩ actor T) h rfl rfl rfl ?_ rfl rfl
      hrefresh
    rw [← hlinks]
    rfl

/-- Single calls that go through keep in step with the folds of the batch. -/
theorem InStep.run {step : Db × Bool → ℕ → Db × Bool} {call : Db → ℕ → Except ServiceError Db}
    (hstep : ∀ batch db' db'' policyId, InStep db groupId T batch db' →
      call db' policyId = .ok db'' → InStep db groupId T (step batch policyId) db'' ∧
        ∃ p, getPolicy db.facts.toRules policyId = .ok p) :
    ∀ {policyIds : List ℕ} {batch : Db × Bool} {db' db'' : Db}, InStep db groupId T batch db' →
      runAll call db' policyIds = .ok db'' →
        InStep db groupId T (policyIds.foldl step batch) db'' ∧
          ∀ policyId ∈ policyIds, ∃ p, getPolicy db.facts.toRules policyId = .ok p
  | [], _, _, _, h, hrun => by
    cases hrun
    exact ⟨h, by simp⟩
  | policyId :: rest, batch, db', db'', h, hrun => by
    obtain ⟨mid, hfirst, hrest⟩ := runAll_cons.mp hrun
    obtain ⟨hnext, hpolicy⟩ := hstep batch db' mid policyId h hfirst
    obtain ⟨hlast, hpolicies⟩ := InStep.run hstep hnext hrest
    exact ⟨hlast, List.forall_mem_cons.mpr ⟨hpolicy, hpolicies⟩⟩

/-- The batch is accepted at its end, and its members have what they have after the single calls. -/
theorem InStep.finish (h : InStep db groupId T batch db') {g : Group} (hfresh : FreshAssignments db)
    (hgroup : getGroup db.facts groupId = .ok g) :
    ∃ out, (if batch.2 then refreshGroupMembers batch.1 groupId actor T else pure batch.1) =
        .ok out ∧
      out.facts = db'.facts ∧ ∀ e, openIdentities out e = openIdentities db' e := by
  have hopen : ∀ e, openIdentities batch.1 e = openIdentities db e := by
    intro e
    rw [openIdentities, openIdentities, openAssignments, openAssignments, h.rows]
  cases hflag : batch.2 with
  | false =>
    refine ⟨batch.1, rfl, h.facts.symm, fun e => ?_⟩
    rw [hopen, openIdentities, openIdentities, openAssignments, openAssignments, h.unchanged hflag]
  | true =>
    have hbatchFresh : FreshAssignments batch.1 := by
      intro a ha
      rw [h.rows] at ha
      rw [h.sequence]
      exact hfresh a ha
    have hmember : ∀ e, e ∈ presentEmployees batch.1.facts
        (listGroupEmployees batch.1.facts groupId) → e ∈ listGroupEmployees db.facts groupId := by
      intro e he
      rw [← h.members]
      simpa [presentEmployees] using (List.mem_filter.mp he).1
    obtain ⟨out, hout⟩ := (exists_reconcile_iff hbatchFresh).mpr
      fun e he => by
        obtain ⟨hresolved, hstarted⟩ := h.resolved hflag e (hmember e he)
        obtain ⟨r, hr, _⟩ := resolvedIdentities_eq_some.mp hresolved
        refine ⟨⟨r, hr⟩, fun a ha => hstarted a ?_⟩
        rw [← h.rows]
        exact ha
    have hbatchGroup : getGroup batch.1.facts groupId = .ok g := by
      rw [getGroup, h.groups]
      exact hgroup
    have hrec := reconcile_reconciled hbatchFresh hout
    refine ⟨out.1, ?_, hrec.facts.trans h.facts.symm, fun e => ?_⟩
    · rw [if_pos rfl, refreshGroupMembers, hbatchGroup]
      exact exceptMap_eq_ok.mpr ⟨out, hout, rfl⟩
    · by_cases he : e ∈ listGroupEmployees db.facts groupId
      · have hmem : e ∈ listGroupEmployees batch.1.facts groupId := h.members ▸ he
        have hresolved := hrec.resolved e hmem (isSome_find?_of_member hmem)
        rw [(h.resolved hflag e he).1] at hresolved
        exact (Option.some.inj hresolved).symm
      · have hnot : e ∉ {e | e ∈ listGroupEmployees batch.1.facts groupId} := by
          intro hmem
          rw [← h.members] at he
          exact he hmem
        rw [hrec.others e hnot, hopen, h.others e he]

end

/-- Whatever has happened: where the policies of a group can be changed by single calls, they can be
changed by one, with the same facts and the same open assignments of every employee. -/
theorem group_policies_split (facts : Facts) (sequences : Sequences) (calls : List OperationCall)
    (groupId : ℕ) (addPolicyIds removePolicyIds : List ℕ) (actor : Actor) (now : DateTime) (g : Group)
    (hgroup : getGroup (runOperations (.unreconciled facts sequences) calls).facts groupId = .ok g) :
    let db := runOperations (.unreconciled facts sequences) calls
    ∀ single, changePoliciesOneByOne db groupId addPolicyIds removePolicyIds actor now = .ok single →
      ∃ out, updateGroupPolicies db groupId addPolicyIds removePolicyIds actor now = .ok out ∧
        out.facts = single.facts ∧ ∀ e, openIdentities out e = openIdentities single e := by
  intro db single hsingle
  have hs : SoundHistory db := SoundHistory.run calls
    (AssignmentHistory.start rfl : AssignmentHistory (.unreconciled facts sequences)).sound
  simp only [changePoliciesOneByOne, bind_eq_ok] at hsingle
  obtain ⟨detached, hdetached, hattached⟩ := hsingle
  obtain ⟨hfirst, hremoved⟩ := InStep.run (fun _ _ _ _ h hrun => h.detach hrun)
    (InStep.refl hs.fresh) hdetached
  obtain ⟨hlast, hadded⟩ := InStep.run (fun _ _ _ _ h hrun => h.attach hrun) hfirst hattached
  obtain ⟨out, hout, hfacts, hopen⟩ := hlast.finish hs.fresh hgroup
  refine ⟨out, ?_, hfacts, hopen⟩
  obtain ⟨policies, hpolicies⟩ : ∃ policies, traverseAll (getPolicy db.facts.toRules)
      (sortedSet (addPolicyIds ++ removePolicyIds).toFinset) = .ok policies := by
    refine exists_traverseAll_eq_ok.mpr fun policyId hmem => ?_
    rw [mem_sortedSet, List.mem_toFinset, List.mem_append] at hmem
    exact hmem.elim (hadded policyId) (hremoved policyId)
  rw [updateGroupPolicies, hgroup, hpolicies]
  exact hout

/-- Ada is in a group that has no policy yet. -/
def groupDb : Db :=
  runOperations (.unreconciled (seededDb (.ofRows [⟨1, "laptop", .one, "priority", .text⟩])).facts
      (seededDb (.ofRows [⟨1, "laptop", .one, "priority", .text⟩])).sequences)
    (tenureCalls.take 2 ++ [⟨.system, startOfDay (.on 2026 2 1), .createGroup "engineers"⟩,
      ⟨.system, startOfDay (.on 2026 2 1), .addEmployeeToGroup 1 1⟩])

theorem group_policies_split_engineers : ∃ single out,
    changePoliciesOneByOne groupDb 1 [1] [] .system (startOfDay (.on 2026 2 2)) = .ok single ∧
      updateGroupPolicies groupDb 1 [1] [] .system (startOfDay (.on 2026 2 2)) = .ok out ∧
      out.facts = single.facts ∧ ∀ e, openIdentities out e = openIdentities single e := by
  have hok : (changePoliciesOneByOne groupDb 1 [1] [] .system
      (startOfDay (.on 2026 2 2))).toBool = true := by decide +kernel
  have hgroup : getGroup groupDb.facts 1 = .ok ⟨1, "engineers"⟩ := by decide +kernel
  cases hsingle : changePoliciesOneByOne groupDb 1 [1] [] .system (startOfDay (.on 2026 2 2)) with
  | error e =>
    rw [hsingle] at hok
    cases hok
  | ok single =>
    obtain ⟨out, hout⟩ := group_policies_split _ _ _ 1 [1] [] .system (startOfDay (.on 2026 2 2))
      ⟨1, "engineers"⟩ hgroup single hsingle
    exact ⟨single, out, rfl, hout⟩

end Warp
