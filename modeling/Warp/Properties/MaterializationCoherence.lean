import Warp.Operations
import Warp.Properties.Coherent

/-!
# Materialization coherence

Every operation reconciles the employees whose resolution it changes, or leaves an event for the day
on which the calendar will. So the open assignment rows stay what a resolution would give, until the
next pending event.
-/

namespace Warp

open Infra

section

variable {db db' : Db} {actor : Actor} {now : DateTime}

theorem reconcileEmployee_reconciled {employeeId : ℕ} (hfresh : FreshAssignments db)
    (h : reconcileEmployee db employeeId actor now = .ok db') :
    Reconciled db db' now {employeeId} :=
  (reconcileMap_reconciled hfresh h).extend (by simp) (by simp)

/-! ## Overrides -/

/-- The overrides of one employee do not depend on the rows of the others. -/
theorem activeOverrides_congr {facts facts' : Facts} {employeeId : ℕ}
    (h : ∀ o : EmployeeOverride, o.employeeId = employeeId →
      (o ∈ facts'.employeeOverrides ↔ o ∈ facts.employeeOverrides)) :
    activeOverrides facts' employeeId = activeOverrides facts employeeId := by
  unfold activeOverrides
  refine congrArg _ (Table.select_congr fun o => and_congr_left fun ho => h o ?_)
  simp only [Bool.and_eq_true, decide_eq_true_eq] at ho
  exact ho.1

/-- Retiring one override leaves the rows of the other employees. -/
theorem mem_retireOverride_other {overrides : Table EmployeeOverride} {old x : EmployeeOverride}
    (hold : old ∈ overrides) (hne : x.employeeId ≠ old.employeeId) :
    x ∈ retireOverride overrides old.id now ↔ x ∈ overrides := by
  rw [mem_retireOverride]
  constructor
  · rintro (⟨hx, _⟩ | ⟨o, ho, hid, rfl⟩)
    · exact hx
    · exact absurd (congrArg EmployeeOverride.employeeId (Table.key_inj ho hold hid)) hne
  · refine fun hx => Or.inl ⟨hx, fun hid => hne ?_⟩
    exact congrArg EmployeeOverride.employeeId (Table.key_inj hx hold hid)

theorem mem_addOverride_other {overrides : Table EmployeeOverride} {new x : EmployeeOverride}
    (hfresh : ∀ o ∈ overrides, o.id < new.id) (hne : x.employeeId ≠ new.employeeId) :
    x ∈ overrides.insert new ↔ x ∈ overrides := by
  rw [Table.mem_insert_fresh fun o ho => (hfresh o ho).ne]
  exact or_iff_right fun he => hne (congrArg EmployeeOverride.employeeId he)

/-- A change of the overrides of one employee who is then reconciled. -/
theorem Coherent.overridden (h : Coherent db now) {db₁ : Db} {employeeId : ℕ}
    (hrun : reconcileEmployee db₁ employeeId actor now = .ok db') (hframe : FactsOnly db db₁)
    (hfacts : db₁.facts =
      { db.facts with employeeOverrides := db₁.facts.employeeOverrides })
    (hsequence : db₁.sequences.employee = db.sequences.employee)
    (hids : ∀ o ∈ db₁.facts.employeeOverrides, o.id < db₁.sequences.employeeOverride)
    (hothers : ∀ o : EmployeeOverride, o.employeeId ≠ employeeId →
      (o ∈ db₁.facts.employeeOverrides ↔ o ∈ db.facts.employeeOverrides)) : Coherent db' now := by
  have hrec := reconcileEmployee_reconciled (hframe.fresh h.constraints.assignments) hrun
  refine h.reconcile hframe (by rw [hfacts]) (by rw [hfacts]) hsequence hids ?_ (fun e _ he => ?_)
    hrec
  · rw [hfacts]
    exact h.constraints.memberships
  · refine ⟨fun p => by rw [hfacts]; rfl, activeOverrides_congr fun o ho => hothers o ?_⟩
    rw [ho]
    exact he

theorem Coherent.createOverride (h : Coherent db now) {employeeId fieldId : ℕ} {value : String}
    {o : EmployeeOverride}
    (hrun : createEmployeeOverride db employeeId fieldId value actor now = .ok (db', o)) :
    Coherent db' now := by
  simp only [createEmployeeOverride, bind_eq_ok, pure_eq_ok] at hrun
  obtain ⟨e, _, definition, _, v, _, _, _, db₂, hreconcile, hout⟩ := hrun
  cases hout
  have hfresh := h.constraints.overrides
  refine h.overridden hreconcile ⟨rfl, rfl, rfl, rfl⟩ rfl rfl ?_ fun x hx => ?_
  · intro x hx
    rcases Table.mem_insert.mp hx with rfl | ⟨hx, _⟩
    · exact Nat.lt_succ_self _
    · exact (hfresh x hx).trans (Nat.lt_succ_self _)
  · exact mem_addOverride_other hfresh hx

theorem getOverride_eq_ok {overrides : Table EmployeeOverride} {employeeId overrideId : ℕ}
    {o : EmployeeOverride} (h : getOverride overrides employeeId overrideId = .ok o) :
    o ∈ overrides ∧ o.employeeId = employeeId := by
  obtain ⟨hfind, hactive⟩ := Option.filter_eq_some_iff.mp (orRaise_eq_ok.mp h)
  rw [Bool.and_eq_true, decide_eq_true_eq] at hactive
  exact ⟨(Table.find?_eq_some.mp hfind).1, hactive.1⟩

theorem Coherent.updateOverride (h : Coherent db now) {employeeId overrideId : ℕ}
    {fieldId : Option ℕ} {value : Option String} {o : EmployeeOverride}
    (hrun : updateEmployeeOverride db employeeId overrideId fieldId value actor now =
      .ok (db', o)) : Coherent db' now := by
  simp only [updateEmployeeOverride, bind_eq_ok] at hrun
  obtain ⟨e, he, old, hold, definition, _, v, _, hout⟩ := hrun
  obtain ⟨hold, howner⟩ := getOverride_eq_ok hold
  have hid := (getEmployee_eq_ok he).2
  split at hout
  · cases hout
    exact h
  · simp only [bind_eq_ok, pure_eq_ok] at hout
    obtain ⟨_, _, db₂, hreconcile, hout⟩ := hout
    cases hout
    have hfresh : ∀ x ∈ retireOverride db.facts.employeeOverrides old.id now,
        x.id < db.sequences.employeeOverride := by
      intro x hx
      rcases mem_retireOverride.mp hx with ⟨ho, _⟩ | ⟨o, ho, _, rfl⟩
      · exact h.constraints.overrides _ ho
      · exact h.constraints.overrides o ho
    refine h.overridden hreconcile ⟨rfl, rfl, rfl, rfl⟩ rfl rfl ?_ fun x hx => ?_
    · intro x hx
      rcases Table.mem_insert.mp hx with rfl | ⟨hx, _⟩
      · exact Nat.lt_succ_self _
      · exact (hfresh x hx).trans (Nat.lt_succ_self _)
    · refine (mem_addOverride_other hfresh hx).trans (mem_retireOverride_other hold ?_)
      rw [howner, ← hid]
      exact hx

theorem Coherent.deleteOverride (h : Coherent db now) {employeeId overrideId : ℕ}
    (hrun : deleteEmployeeOverride db employeeId overrideId actor now = .ok db') :
    Coherent db' now := by
  simp only [deleteEmployeeOverride, bind_eq_ok] at hrun
  obtain ⟨e, he, old, hold, hreconcile⟩ := hrun
  obtain ⟨hold, howner⟩ := getOverride_eq_ok hold
  refine h.overridden hreconcile ⟨rfl, rfl, rfl, rfl⟩ rfl rfl ?_ fun x hx => ?_
  · intro x hx
    rcases mem_retireOverride.mp hx with ⟨ho, _⟩ | ⟨o, ho, _, rfl⟩
    · exact h.constraints.overrides _ ho
    · exact h.constraints.overrides o ho
  · refine mem_retireOverride_other hold ?_
    rw [howner, ← (getEmployee_eq_ok he).2]
    exact hx

/-! ## Groups -/

/-- An employee has a policy through a membership in an existing group with the policy. -/
theorem hasGroupPolicy_iff {facts : Facts} {employeeId policyId : ℕ} :
    HasGroupPolicy facts employeeId policyId ↔ ∃ m ∈ facts.employeeGroupMemberships,
      m.employeeId = employeeId ∧ (facts.groups.find? m.groupId).isSome ∧
        ⟨m.groupId, policyId⟩ ∈ facts.groupPolicies := by
  unfold HasGroupPolicy groupRows
  simp only [mem_orderBy, List.mem_flatMap, Table.mem_select, decide_eq_true_eq]
  constructor
  · rintro ⟨r, ⟨m, ⟨hm, hemployee⟩, hr⟩, rfl⟩
    cases hg : facts.groups.find? m.groupId with
    | none =>
      rw [hg] at hr
      exact absurd hr List.not_mem_nil
    | some group =>
      rw [hg] at hr
      obtain ⟨gp, hgp, rfl⟩ := List.mem_map.mp hr
      obtain ⟨hgp, hgroup⟩ := Table.mem_select.mp hgp
      refine ⟨m, hm, hemployee, by rw [hg]; rfl, ?_⟩
      rw [← (Table.find?_eq_some.mp hg).2]
      rw [← show gp.groupId = Row.key group from of_decide_eq_true hgroup]
      exact hgp
  · rintro ⟨m, hm, hemployee, hsome, hgp⟩
    obtain ⟨group, hg⟩ := Option.isSome_iff_exists.mp hsome
    have hid : group.id = m.groupId := (Table.find?_eq_some.mp hg).2
    refine ⟨(group.id, group.name, policyId), ⟨m, ⟨hm, hemployee⟩, ?_⟩, rfl⟩
    rw [hg]
    refine List.mem_map.mpr ⟨⟨m.groupId, policyId⟩, Table.mem_select.mpr ⟨hgp, ?_⟩, rfl⟩
    exact decide_eq_true hid.symm

/-- A new or a renamed group. No membership refers to a group that does not exist, so nobody's
policies change. -/
theorem Coherent.regrouped (h : Coherent db now) (group : Group) (hframe : FactsOnly db db')
    (hfacts : db'.facts = { db.facts with groups := db.facts.groups.insert group })
    (hemployees : db'.sequences.employee = db.sequences.employee)
    (hoverrides : db'.sequences.employeeOverride = db.sequences.employeeOverride) :
    Coherent db' now := by
  have hfound : ∀ m ∈ db.facts.employeeGroupMemberships,
      ((db.facts.groups.insert group).find? m.groupId).isSome :=
    fun m hm => Table.isSome_find?_insert (h.constraints.memberships m hm)
  refine h.reconcile hframe (by rw [hfacts]) (by rw [hfacts]) hemployees ?_ ?_ (fun e _ _ => ?_)
    (Reconciled.refl (hframe.fresh h.constraints.assignments))
  · rw [hfacts, hoverrides]
    exact h.constraints.overrides
  · rw [hfacts]
    exact hfound
  · refine ⟨fun p => ?_, by rw [hfacts]; rfl⟩
    rw [hasGroupPolicy_iff, hasGroupPolicy_iff, hfacts]
    refine exists_congr fun m => and_congr_right fun hm => and_congr_right fun _ => ?_
    exact and_congr_left fun _ => iff_of_true (hfound m hm) (h.constraints.memberships m hm)

theorem Coherent.createGroup (h : Coherent db now) (name : String) :
    Coherent (Warp.createGroup db name actor now).1 now :=
  h.regrouped ⟨db.sequences.group, name⟩ ⟨rfl, rfl, rfl, rfl⟩ rfl rfl rfl

theorem Coherent.updateGroup (h : Coherent db now) {groupId : ℕ} {name : Option String} {g : Group}
    (hrun : Warp.updateGroup db groupId name actor now = .ok (db', g)) : Coherent db' now := by
  simp only [Warp.updateGroup, bind_eq_ok] at hrun
  obtain ⟨group, _, hout⟩ := hrun
  cases name with
  | none =>
    cases hout
    exact h
  | some name =>
    dsimp only at hout
    split at hout
    · cases hout
      exact h
    · cases hout
      exact h.regrouped ⟨group.id, name⟩ ⟨rfl, rfl, rfl, rfl⟩ rfl rfl rfl

/-- A change of the memberships of one employee who is then reconciled. -/
theorem Coherent.moved (h : Coherent db now) {db₁ : Db} {employeeId : ℕ}
    (hrun : reconcileEmployee db₁ employeeId actor now = .ok db') (hframe : FactsOnly db db₁)
    (hfacts : db₁.facts =
      { db.facts with employeeGroupMemberships := db₁.facts.employeeGroupMemberships })
    (hemployees : db₁.sequences.employee = db.sequences.employee)
    (hoverrides : db₁.sequences.employeeOverride = db.sequences.employeeOverride)
    (hreferences : ∀ m ∈ db₁.facts.employeeGroupMemberships,
      (db.facts.groups.find? m.groupId).isSome)
    (hothers : ∀ m : EmployeeGroupMembership, m.employeeId ≠ employeeId →
      (m ∈ db₁.facts.employeeGroupMemberships ↔ m ∈ db.facts.employeeGroupMemberships)) :
    Coherent db' now := by
  have hrec := reconcileEmployee_reconciled (hframe.fresh h.constraints.assignments) hrun
  refine h.reconcile hframe (by rw [hfacts]) (by rw [hfacts]) hemployees ?_ ?_ (fun e _ he => ?_)
    hrec
  · rw [hfacts, hoverrides]
    exact h.constraints.overrides
  · rw [hfacts]
    exact hreferences
  · refine ⟨fun p => ?_, by rw [hfacts]; rfl⟩
    rw [hasGroupPolicy_iff, hasGroupPolicy_iff, hfacts]
    refine exists_congr fun m => ?_
    constructor
    · rintro ⟨hm, hid, hrest⟩
      refine ⟨(hothers m ?_).mp hm, hid, hrest⟩
      rw [hid]
      exact he
    · rintro ⟨hm, hid, hrest⟩
      refine ⟨(hothers m ?_).mpr hm, hid, hrest⟩
      rw [hid]
      exact he

theorem Coherent.addMember (h : Coherent db now) {groupId employeeId : ℕ} {e : Employee}
    (hrun : addEmployeeToGroup db groupId employeeId actor now = .ok (db', e)) :
    Coherent db' now := by
  simp only [addEmployeeToGroup, bind_eq_ok] at hrun
  obtain ⟨group, hgroup, employee, hemployee, hout⟩ := hrun
  have hid := (getEmployee_eq_ok hemployee).2
  split at hout
  · cases hout
    exact h
  · simp only [bind_eq_ok, pure_eq_ok] at hout
    obtain ⟨db₁, hreconcile, hout⟩ := hout
    cases hout
    refine h.moved hreconcile ⟨rfl, rfl, rfl, rfl⟩ rfl rfl rfl (fun m hm => ?_) fun m hm => ?_
    · rcases Table.mem_insert.mp hm with rfl | ⟨hm, _⟩
      · rw [show db.facts.groups.find? groupId = some group from orRaise_eq_ok.mp hgroup]
        rfl
      · exact h.constraints.memberships m hm
    · rw [hid] at hm
      show m ∈ db.facts.employeeGroupMemberships.insert ⟨employeeId, groupId⟩ ↔ _
      rw [Table.mem_insert]
      constructor
      · rintro (rfl | ⟨hm', _⟩)
        · exact absurd rfl hm
        · exact hm'
      · refine fun hm' => Or.inr ⟨hm', fun hkey => hm ?_⟩
        exact congrArg (fun k => (ofLex k).1) hkey

theorem Coherent.removeMember (h : Coherent db now) {groupId employeeId : ℕ}
    (hrun : removeEmployeeFromGroup db groupId employeeId actor now = .ok db') :
    Coherent db' now := by
  simp only [removeEmployeeFromGroup, bind_eq_ok] at hrun
  obtain ⟨_, _, employee, hemployee, hout⟩ := hrun
  have hid := (getEmployee_eq_ok hemployee).2
  split at hout
  · cases hout
    exact h
  · next membership hfind =>
    have howner : membership.employeeId = employeeId :=
      congrArg (fun k => (ofLex k).1) (Table.find?_eq_some.mp hfind).2
    refine h.moved hout ⟨rfl, rfl, rfl, rfl⟩ rfl rfl rfl (fun m hm => ?_) fun m hm => ?_
    · exact h.constraints.memberships m (Table.mem_filter.mp hm).1
    · rw [hid] at hm
      refine ⟨fun hm' => (Table.mem_filter.mp hm').1, fun hm' => Table.mem_filter.mpr ⟨hm', ?_⟩⟩
      refine decide_eq_true fun hsame => hm ?_
      rw [hsame]
      exact howner

/-- A change of the policies of one group. -/
structure GroupPoliciesOnly (groupId : ℕ) (db db' : Db) : Prop where
  frame : FactsOnly db db'
  facts : db'.facts = { db.facts with groupPolicies := db'.facts.groupPolicies }
  employees : db'.sequences.employee = db.sequences.employee
  overrides : db'.sequences.employeeOverride = db.sequences.employeeOverride
  others : ∀ gp : GroupPolicy, gp.groupId ≠ groupId →
    (gp ∈ db'.facts.groupPolicies ↔ gp ∈ db.facts.groupPolicies)

theorem GroupPoliciesOnly.refl (groupId : ℕ) (db : Db) : GroupPoliciesOnly groupId db db :=
  ⟨⟨rfl, rfl, rfl, rfl⟩, rfl, rfl, rfl, fun _ _ => Iff.rfl⟩

theorem GroupPoliciesOnly.trans {groupId : ℕ} {db₁ : Db} (h : GroupPoliciesOnly groupId db db₁)
    (h' : GroupPoliciesOnly groupId db₁ db') : GroupPoliciesOnly groupId db db' where
  frame := ⟨h'.frame.assignments.trans h.frame.assignments, h'.frame.events.trans h.frame.events,
    h'.frame.assignmentSequence.trans h.frame.assignmentSequence,
    h'.frame.eventSequence.trans h.frame.eventSequence⟩
  facts := by rw [h'.facts, h.facts]
  employees := h'.employees.trans h.employees
  overrides := h'.overrides.trans h.overrides
  others := fun gp hgp => (h'.others gp hgp).trans (h.others gp hgp)

theorem attachPolicy_only (db : Db) (key : GroupPolicy) :
    GroupPoliciesOnly key.groupId db (attachPolicy db key actor now) := by
  refine ⟨⟨rfl, rfl, rfl, rfl⟩, rfl, rfl, rfl, fun gp hgp => ?_⟩
  show gp ∈ db.facts.groupPolicies.insert key ↔ _
  rw [Table.mem_insert]
  constructor
  · rintro (rfl | ⟨hm, _⟩)
    · exact absurd rfl hgp
    · exact hm
  · exact fun hm => Or.inr ⟨hm, fun hkey => hgp (congrArg (fun k => (ofLex k).1) hkey)⟩

theorem detachPolicy_only (db : Db) (key : GroupPolicy) :
    GroupPoliciesOnly key.groupId db (detachPolicy db key actor now) := by
  refine ⟨⟨rfl, rfl, rfl, rfl⟩, rfl, rfl, rfl, fun gp hgp => ?_⟩
  refine ⟨fun hm => (Table.mem_filter.mp hm).1, fun hm => Table.mem_filter.mpr ⟨hm, ?_⟩⟩
  exact decide_eq_true fun hsame => hgp (congrArg GroupPolicy.groupId hsame)

/-- The members of the group are reconciled, and only they have its policies. -/
theorem Coherent.refreshGroup (h : Coherent db now) {groupId : ℕ} {db₁ : Db}
    (honly : GroupPoliciesOnly groupId db db₁)
    (hrun : refreshGroupMembers db₁ groupId actor now = .ok db') : Coherent db' now := by
  simp only [refreshGroupMembers, bind_eq_ok] at hrun
  obtain ⟨_, _, hreconcile⟩ := hrun
  have hrec := reconcileMap_reconciled (honly.frame.fresh h.constraints.assignments) hreconcile
  refine h.reconcile honly.frame (by rw [honly.facts]) (by rw [honly.facts]) honly.employees ?_ ?_
    (fun e he hnot => ?_) hrec
  · rw [honly.facts, honly.overrides]
    exact h.constraints.overrides
  · rw [honly.facts]
    exact h.constraints.memberships
  · refine ⟨fun p => ?_, by rw [honly.facts]; rfl⟩
    have hgroup : ∀ m ∈ db.facts.employeeGroupMemberships, m.employeeId = e.id →
        m.groupId ≠ groupId := by
      intro m hm hid hsame
      refine hnot (List.mem_map.mpr ⟨e, Table.mem_select.mpr ⟨?_, ?_⟩, rfl⟩)
      · rw [honly.facts]
        exact he
      · rw [honly.facts, ← hid, ← hsame]
        exact Table.isSome_find?.mpr ⟨m, hm, rfl⟩
    rw [hasGroupPolicy_iff, hasGroupPolicy_iff, honly.facts]
    refine exists_congr fun m => and_congr_right fun hm => and_congr_right fun hid => ?_
    exact and_congr_right fun _ => honly.others _ (hgroup m hm hid)

theorem Coherent.addPolicy (h : Coherent db now) {groupId policyId : ℕ} {p : Policy}
    (hrun : addPolicyToGroup db groupId policyId actor now = .ok (db', p)) : Coherent db' now := by
  simp only [addPolicyToGroup, bind_eq_ok] at hrun
  obtain ⟨_, _, policy, _, hout⟩ := hrun
  split at hout
  · cases hout
    exact h
  · simp only [bind_eq_ok, pure_eq_ok] at hout
    obtain ⟨db₁, hrefresh, hout⟩ := hout
    cases hout
    exact h.refreshGroup (attachPolicy_only db ⟨groupId, policyId⟩) hrefresh

theorem Coherent.removePolicy (h : Coherent db now) {groupId policyId : ℕ}
    (hrun : removePolicyFromGroup db groupId policyId actor now = .ok db') : Coherent db' now := by
  simp only [removePolicyFromGroup, bind_eq_ok] at hrun
  obtain ⟨_, _, _, _, hout⟩ := hrun
  split at hout
  · exact h.refreshGroup (detachPolicy_only db ⟨groupId, policyId⟩) hout
  · cases hout
    exact h

/-- Steps over the policies of one group, and the database as it was while nothing has changed. -/
theorem foldl_groupPolicies {groupId : ℕ} {step : Db × Bool → ℕ → Db × Bool}
    (hstep : ∀ state policyId, step state policyId = state ∨
      ((step state policyId).2 = true ∧ GroupPoliciesOnly groupId state.1 (step state policyId).1)) :
    ∀ (policyIds : List ℕ) (state : Db × Bool),
      GroupPoliciesOnly groupId state.1 (policyIds.foldl step state).1 ∧
        ((policyIds.foldl step state).2 = false →
          (policyIds.foldl step state).1 = state.1 ∧ state.2 = false)
  | [], state => ⟨.refl groupId state.1, fun h => ⟨rfl, h⟩⟩
  | policyId :: rest, state => by
    rw [List.foldl_cons]
    obtain ⟨honly, hsame⟩ := foldl_groupPolicies hstep rest (step state policyId)
    rcases hstep state policyId with hnone | ⟨hchanged, hone⟩
    · rw [hnone] at honly hsame ⊢
      exact ⟨honly, hsame⟩
    · refine ⟨hone.trans honly, fun h => ?_⟩
      rw [(hsame h).2] at hchanged
      exact absurd hchanged (by decide)

theorem Coherent.updateGroupPolicies (h : Coherent db now) {groupId : ℕ}
    {addPolicyIds removePolicyIds : List ℕ}
    (hrun : Warp.updateGroupPolicies db groupId addPolicyIds removePolicyIds actor now = .ok db') :
    Coherent db' now := by
  simp only [Warp.updateGroupPolicies, bind_eq_ok] at hrun
  obtain ⟨_, _, _, _, hout⟩ := hrun
  have hdetach := @foldl_groupPolicies groupId (detachStep groupId actor now) (fun state policyId => by
    unfold detachStep
    split
    · exact Or.inr ⟨rfl, detachPolicy_only state.1 ⟨groupId, policyId⟩⟩
    · exact Or.inl rfl) removePolicyIds (db, false)
  have hattach := @foldl_groupPolicies groupId (attachStep groupId actor now) (fun state policyId => by
    unfold attachStep
    split
    · exact Or.inl rfl
    · exact Or.inr ⟨rfl, attachPolicy_only state.1 ⟨groupId, policyId⟩⟩) addPolicyIds
    (removePolicyIds.foldl (detachStep groupId actor now) (db, false))
  split at hout
  · exact h.refreshGroup (hdetach.1.trans hattach.1) hout
  · next hunchanged =>
    cases hout
    obtain ⟨hsame, hnone⟩ := hattach.2 (Bool.eq_false_iff.mpr hunchanged)
    rw [hsame, (hdetach.2 hnone).1]
    exact h

/-! ## Employees -/

/-- The tenure events of an employee were brought in line, and no other pending event was lost. -/
structure TenureSynced (db db' : Db) (now : DateTime) (e : Employee) : Prop where
  only : EventsOnly db db'
  events : EventsSound db' now
  covered : TenureCovered db' now e
  kept : ∀ key, Pending db key → ¬ (key.entityType = .employee ∧ key.entityId = e.id) →
    Pending db' key

theorem syncTenure_synced {e : Employee} (hevents : EventsSound db now)
    (h : syncEmployeeTenureSchedules db e now = .ok db') : TenureSynced db db' now e := by
  obtain ⟨hs, hcovered, honly, hkept⟩ := syncTenure_covered hevents h
  exact ⟨honly, hs, hcovered, hkept⟩

/-- A new or changed employee row: the reconciliation includes the employee, and whom it does not
include looks at the same reports and ancestors. -/
theorem Coherent.employeeSaved (h : Coherent db now) {db₁ db₂ : Db} {x : Employee} {ids : Set ℕ}
    (hrec : Reconciled db₁ db₂ now ids) (hframe : FactsOnly db db₁)
    (hfacts : db₁.facts = { db.facts with employees := db.facts.employees.insert x })
    (hoverrides : db₁.sequences.employeeOverride = db.sequences.employeeOverride)
    (hsound : EmployeesSound db₁) (hx : x.id ∈ ids)
    (hothers : ∀ e ∈ db.facts.employees, e.id ∉ ids →
      SameReporting db.facts.employees (db.facts.employees.insert x) e.id)
    (hsync : TenureSynced db₂ db' now x) : Coherent db' now := by
  have hfacts' : db'.facts = db₁.facts := hsync.only.facts.trans hrec.facts
  have hconstraints : Constrained db₁ :=
    { employees := hsound
      assignments := hframe.fresh h.constraints.assignments
      catalog := by
        rw [hfacts]
        exact h.constraints.catalog
      overrides := by
        rw [hfacts, hoverrides]
        exact h.constraints.overrides
      memberships := by
        rw [hfacts]
        exact h.constraints.memberships }
  have hpending : ∀ key, Pending db key →
      ¬ (key.entityType = .employee ∧ key.entityId = x.id) → Pending db' key := by
    intro key hkey hother
    refine hsync.kept key ((pending_congr hrec.events).mpr ?_) hother
    exact (pending_congr hframe.events).mpr hkey
  have hold : ∀ e ∈ db'.facts.employees, e = x ∨ (e ∈ db.facts.employees ∧ e.id ≠ x.id) := by
    intro e he
    rw [hfacts', hfacts] at he
    exact Table.mem_insert.mp he
  -- the version events and the tenure events of the others are untouched
  refine h.step ((hconstraints.reconciled hrec).eventsOnly hsync.only)
    { events := hsync.events, versions := ?_, tenures := fun e he => ?_ } fun e he => ?_
  · refine h.schedule.versions.kept (by rw [hfacts', hfacts]) (fun p => by rw [hfacts', hfacts])
      fun key hkey htype _ => hpending key hkey fun hgiven => ?_
    rw [htype] at hgiven
    exact absurd hgiven.1 (by decide)
  · rcases hold e he with rfl | ⟨he₀, hne⟩
    · exact hsync.covered
    · refine (h.schedule.tenures e he₀).kept (by rw [hfacts', hfacts]) fun key hkey _ hid _ =>
        hpending key hkey fun hgiven => hne ?_
      exact hid.symm.trans hgiven.2
  -- who is not reconciled reads the new row nowhere
  · by_cases hid : e.id ∈ ids
    · refine Or.inr ?_
      rw [hsync.only.facts, hsync.only.openIdentities]
      rw [hfacts'] at he
      exact hrec.find he hid
    · rcases hold e he with rfl | ⟨he₀, hne⟩
      · exact absurd hx hid
      · refine Or.inl ⟨he₀, fun day => ?_, ?_, fun key hkey hconcerns => hpending key hkey ?_⟩
        · have hsame := hothers e he₀ hid
          rw [hfacts', hfacts] at he ⊢
          exact SameMeaning.identities (SameReporting.meaning rfl hsame (fun _ => Iff.rfl) rfl) he₀ he
        · rw [hsync.only.openIdentities, hrec.others e.id hid, hframe.openIdentities]
        · rintro ⟨htype, hkeyId⟩
          rcases hconcerns with hversion | ⟨_, hmine⟩
          · rw [htype] at hversion
            exact absurd hversion (by decide)
          · exact hne (hmine.symm.trans hkeyId)

/-- The reconciliation of a change of an employee row includes whom the catalog's resolvers name. -/
theorem reconcileImpacted_reconciled {mutation : EmployeeMutation}
    (h : reconcileImpacted db mutation actor now = .ok db') (hfresh : FreshAssignments db) :
    ∃ ids, findImpactedEmployeeIds db.facts mutation = .ok ids ∧
      Reconciled db db' now {e | e ∈ ids} := by
  simp only [reconcileImpacted, bind_eq_ok] at h
  obtain ⟨ids, hids, hrun⟩ := h
  exact ⟨ids, hids, reconcileMap_reconciled hfresh hrun⟩

theorem Coherent.createEmployee (h : Coherent db now) {data : EmployeeCreate} {e : Employee}
    (hrun : Warp.createEmployee db data actor now = .ok (db', e)) : Coherent db' now := by
  obtain ⟨hvalid, hrow, hrows, hseq⟩ := createEmployee_rows hrun
  have hsound : EmployeesSound (db.addEmployee e) := by
    refine h.constraints.employees.insert_new (by rw [hrow]; rfl) (fun m hm => ?_) rfl rfl
    rw [hrow] at hm
    rw [show data.managerId = some m from hm] at hvalid
    exact validateManagerAssignment_found hvalid
  have hfresh : ∀ r ∈ db.facts.employees, r.id ≠ e.id := by
    intro r hr
    rw [hrow]
    exact (h.constraints.employees.fresh r hr).ne
  simp only [Warp.createEmployee, bind_eq_ok, pure_eq_ok] at hrun
  obtain ⟨_, _, db₂, hreconcile, db₃, htenure, hout⟩ := hrun
  cases hout
  obtain ⟨ids, hids, hrec⟩ := reconcileImpacted_reconciled hreconcile h.constraints.assignments
  have hcatalog := h.constraints.catalog
  have hname : "name" ∈ employeeColumns := by decide
  -- the new row concerns itself by every column, and its manager by the column of managers
  refine h.employeeSaved hrec ⟨rfl, rfl, rfl, rfl⟩ rfl rfl ⟨hsound.fresh, hsound.managers⟩ ?_
    (fun x hx hnot => ?_) (syncTenure_synced ?_ htenure)
  · refine mem_findImpacted hids ((hcatalog.changed "name" hname).resolverKeys hname) rfl
      (Finset.mem_singleton_self _) ?_
    exact Table.isSome_find?.mpr ⟨_, Table.mem_insert_self, rfl⟩
  · exact sameReporting_created hfresh h.constraints.employees.managers hcatalog hids hx hnot
  · exact h.schedule.events.congr hrec.events (by rw [hrec.sequences]; rfl)

theorem changedColumns_subset (e e' : Employee) : ∀ column ∈ changedColumns e e',
    column ∈ employeeColumns := by
  intro column hcolumn
  simp only [changedColumns, List.mem_append, List.mem_ite_nil_right, List.mem_singleton] at hcolumn
  simp only [employeeColumns, List.mem_cons, List.not_mem_nil, or_false]
  tauto

theorem mem_changedColumns_start {e e' : Employee} :
    "start_date" ∈ changedColumns e e' ↔ e.startDate ≠ e'.startDate := by
  simp [changedColumns]

/-- After a change of the start date the events are brought in line, else they are in line still. -/
theorem syncChanged_synced {e e' : Employee} (hevents : EventsSound db now)
    (hid : e'.id = e.id) (hcovered : TenureCovered db now e)
    (h : syncChangedTenure db e' (changedColumns e e') now = .ok db') :
    TenureSynced db db' now e' := by
  unfold syncChangedTenure at h
  split at h
  · exact syncTenure_synced hevents h
  · next hsame =>
    cases h
    rw [List.contains_iff_mem, mem_changedColumns_start, not_not] at hsame
    exact ⟨.refl _, hevents, hcovered.row hid hsame.symm, fun _ hkey _ => hkey⟩

theorem Coherent.updateEmployee (h : Coherent db now) {e e' : Employee} {data : EmployeeUpdate}
    (he : e ∈ db.facts.employees)
    (hrun : Warp.updateEmployee db e data actor now = .ok (db', e')) : Coherent db' now := by
  obtain ⟨hchecked, hid, hmanager, _, _⟩ := updateEmployee_rows he hrun
  simp only [Warp.updateEmployee, bind_eq_ok] at hrun
  obtain ⟨_, _, updated, _, hout⟩ := hrun
  split at hout
  · cases hout
    exact h
  · next hchanged =>
    simp only [bind_eq_ok, pure_eq_ok] at hout
    obtain ⟨db₂, hreconcile, db₃, htenure, hout⟩ := hout
    cases hout
    obtain ⟨ids, hids, hrec⟩ := reconcileImpacted_reconciled hreconcile h.constraints.assignments
    have hcatalog := h.constraints.catalog
    have hsound : EmployeesSound (db.saveEmployee e') := by
      refine h.constraints.employees.insert_same he hid (fun m hm => ?_) rfl rfl
      rw [hmanager] at hm
      exact checkedManager_found h.constraints.employees he hchecked hm
    have hpresent : ∀ x, (∃ r ∈ db.facts.employees, r.id = x) →
        ((db.facts.employees.insert e').find? x).isSome :=
      fun x hx => Table.isSome_find?_insert (Table.isSome_find?.mpr hx)
    have hself : e'.id ∈ ids := by
      obtain ⟨column, hcolumn⟩ := List.exists_mem_of_ne_nil _ hchanged
      have hlisted := changedColumns_subset e e' column hcolumn
      exact mem_findImpacted hids ((hcatalog.changed column hlisted).resolverKeys hcolumn) rfl
        (Finset.mem_singleton_self _) (hpresent _ ⟨e, he, hid.symm⟩)
    have hevents : EventsSound db₂ now :=
      h.schedule.events.congr hrec.events (by rw [hrec.sequences]; rfl)
    have hcovered : TenureCovered db₂ now e :=
      (h.schedule.tenures e he).kept (by rw [hrec.facts]; rfl)
        fun key hkey _ _ _ => (pending_congr hrec.events).mpr hkey
    refine h.employeeSaved hrec ⟨rfl, rfl, rfl, rfl⟩ rfl rfl ⟨hsound.fresh, hsound.managers⟩ hself
      (fun x hx hnot => ?_) (syncChanged_synced hevents hid hcovered htenure)
    have hne : x.id ≠ e.id := by
      intro hsame
      rw [← hid] at hsame
      rw [hsame] at hnot
      exact hnot hself
    exact sameReporting_updated he hid hcatalog hids hx hne hnot

/-- The events of a deleted employee concern nobody else. -/
theorem cancelDeleted_pending {e : Employee} {key : EventKey} (hkey : Pending db key)
    (hother : ¬ (key.entityType = .employee ∧ key.entityId = e.id)) :
    Pending (cancelPendingReconciliations db .employee [e.id] []) key := by
  refine hkey.setStatus (Or.inr fun event hevent hsame _ hid => hother ?_)
  obtain ⟨event', hevent', hids⟩ := List.mem_map.mp hid
  obtain ⟨hmem, hobsolete⟩ := Table.mem_select.mp hevent'
  have heq : event' = event := Table.key_inj hmem hevent hids
  rw [heq] at hobsolete
  simp only [Bool.and_eq_true, decide_eq_true_eq, List.contains_iff_mem, List.mem_singleton]
    at hobsolete
  rw [← hsame]
  exact hobsolete.1.1

/-- The database without the rows that belonged to one employee, whose events are cancelled. -/
structure EmployeeGone (db db₁ : Db) (employeeId : ℕ) : Prop where
  rules : db₁.facts.toRules = db.facts.toRules
  groups : db₁.facts.groups = db.facts.groups
  groupPolicies : db₁.facts.groupPolicies = db.facts.groupPolicies
  employeeIds : db₁.sequences.employee = db.sequences.employee
  overrideIds : db₁.sequences.employeeOverride = db.sequences.employeeOverride
  assignmentIds : db₁.sequences.employeeAssignment = db.sequences.employeeAssignment
  employees : db₁.facts.employees = withoutEmployee db.facts.employees employeeId
  members : ∀ m : EmployeeGroupMembership, m ∈ db₁.facts.employeeGroupMemberships ↔
    m ∈ db.facts.employeeGroupMemberships ∧ m.employeeId ≠ employeeId
  overrides : ∀ o : EmployeeOverride, o ∈ db₁.facts.employeeOverrides ↔
    o ∈ db.facts.employeeOverrides ∧ o.employeeId ≠ employeeId
  assignments : ∀ a : EmployeeAssignment, a ∈ db₁.employeeAssignments ↔
    a ∈ db.employeeAssignments ∧ a.employeeId ≠ employeeId
  pending : ∀ key, Pending db key → ¬ (key.entityType = .employee ∧ key.entityId = employeeId) →
    Pending db₁ key

theorem employeeGone_removed (e : Employee) (log : Option Snapshot) :
    EmployeeGone db (recordAuditLog
      ((cancelPendingReconciliations db .employee [e.id] []).removeEmployee e.id)
      actor "Employee" e.id "deleted" log none now) e.id where
  rules := rfl
  groups := rfl
  groupPolicies := rfl
  employeeIds := rfl
  overrideIds := rfl
  assignmentIds := rfl
  employees := rfl
  members := fun _ => Table.mem_filter.trans (and_congr_right fun _ => decide_eq_true_iff)
  overrides := fun _ => Table.mem_filter.trans (and_congr_right fun _ => decide_eq_true_iff)
  assignments := fun _ => Table.mem_filter.trans (and_congr_right fun _ => decide_eq_true_iff)
  pending := fun _ hkey hother => cancelDeleted_pending hkey hother

namespace EmployeeGone

variable {db₁ : Db} {e : Employee}

theorem constrained (hgone : EmployeeGone db db₁ e.id) (h : Constrained db) : Constrained db₁ where
  employees := h.employees.without hgone.employees (by rw [hgone.employeeIds])
  assignments := by
    intro a ha
    rw [hgone.assignmentIds]
    exact h.assignments a ((hgone.assignments a).mp ha).1
  catalog := by
    rw [hgone.rules]
    exact h.catalog
  overrides := by
    intro o ho
    rw [hgone.overrideIds]
    exact h.overrides o ((hgone.overrides o).mp ho).1
  memberships := by
    intro m hm
    rw [hgone.groups]
    exact h.memberships m ((hgone.members m).mp hm).1

theorem scheduled (hgone : EmployeeGone db db₁ e.id) (hevents : EventsSound db₁ now)
    (h : Scheduled db now) : Scheduled db₁ now where
  events := hevents
  versions := by
    refine h.versions.kept (by rw [hgone.rules]) (fun p => by rw [hgone.rules])
      fun key hkey htype _ => hgone.pending key hkey fun hgiven => ?_
    rw [htype] at hgiven
    exact absurd hgiven.1 (by decide)
  tenures := by
    intro x hx
    rw [hgone.employees] at hx
    obtain ⟨r, hr, hne, hrow⟩ := mem_withoutEmployee.mp hx
    have hcovered : TenureCovered db₁ now r :=
      (h.tenures r hr).kept (by rw [hgone.rules]) fun key hkey _ hid _ =>
        hgone.pending key hkey fun hgiven => hne (hid.symm.trans hgiven.2)
    refine hcovered.row ?_ ?_
    · rw [hrow]
      split <;> rfl
    · rw [hrow]
      split <;> rfl

/-- Whoever did not report to the employee, directly or not, has the old row. -/
theorem row_kept (hgone : EmployeeGone db db₁ e.id) {x : Employee} (hx : x ∈ db₁.facts.employees)
    (hbelow : x.id ∉ getDescendantIds db.facts.employees e.id) :
    x ∈ db.facts.employees ∧ x.id ≠ e.id := by
  rw [hgone.employees] at hx
  obtain ⟨r, hr, hne, hrow⟩ := mem_withoutEmployee.mp hx
  by_cases hreport : r.managerId = some e.id
  · rw [if_pos hreport] at hrow
    have hdescendant : r.id ∈ getDescendantIds db.facts.employees e.id :=
      mem_getDescendantIds.mpr (.single (mem_directReportIds.mpr ⟨r, hr, rfl, hreport⟩))
    rw [hrow] at hbelow
    exact absurd hdescendant hbelow
  · rw [if_neg hreport] at hrow
    rw [hrow]
    exact ⟨hr, hne⟩

theorem hasGroupPolicy (hgone : EmployeeGone db db₁ e.id) {x : Employee} (hne : x.id ≠ e.id) (p : ℕ) :
    HasGroupPolicy db₁.facts x.id p ↔ HasGroupPolicy db.facts x.id p := by
  rw [hasGroupPolicy_iff, hasGroupPolicy_iff, hgone.groups, hgone.groupPolicies]
  refine exists_congr fun m => ?_
  rw [hgone.members, and_assoc]
  refine and_congr_right fun _ => ⟨fun hm => hm.2, fun hm => ⟨?_, hm⟩⟩
  rw [hm.1]
  exact hne

theorem activeOverrides (hgone : EmployeeGone db db₁ e.id) {x : Employee} (hne : x.id ≠ e.id) :
    Warp.activeOverrides db₁.facts x.id = Warp.activeOverrides db.facts x.id := by
  refine activeOverrides_congr fun o ho => ?_
  rw [hgone.overrides, ho]
  exact and_iff_left hne

theorem openIdentities (hgone : EmployeeGone db db₁ e.id) {x : Employee} (hne : x.id ≠ e.id) :
    Warp.openIdentities db₁ x.id = Warp.openIdentities db x.id := by
  unfold Warp.openIdentities openAssignments
  rw [Table.select_congr fun a => ?_]
  simp only [Bool.and_eq_true, decide_eq_true_eq]
  refine and_congr_left fun ha => ?_
  rw [hgone.assignments, ha.1]
  exact and_iff_left hne

end EmployeeGone

theorem Coherent.deleteEmployee (h : Coherent db now) {e : Employee} (he : e ∈ db.facts.employees)
    (hrun : Warp.deleteEmployee db e actor now = .ok db') : Coherent db' now := by
  unfold Warp.deleteEmployee at hrun
  have hgone := @employeeGone_removed db actor now e (some (.employee e))
  have hcancelled : EventsSound (cancelPendingReconciliations db .employee [e.id] []) now :=
    h.schedule.events.setStatus fun t ht => absurd ht (by simp)
  have hconstraints := hgone.constrained h.constraints
  have hschedule := hgone.scheduled ⟨hcancelled.fresh, hcancelled.processed, hcancelled.sources⟩
    h.schedule
  have hrec := reconcileMap_reconciled hconstraints.assignments hrun
  refine h.step (hconstraints.reconciled hrec) (hschedule.reconciled hrec) fun x hx => ?_
  rw [hrec.facts] at hx
  by_cases hid : x.id ∈ {id | id ∈ sortedSet
      (getDescendantIds db.facts.employees e.id ∪ e.managerId.toFinset)}
  · exact Or.inr (hrec.find hx hid)
  -- everybody else keeps the row, the facts around it, the open assignments and the events
  · have hnot : x.id ∉ getDescendantIds db.facts.employees e.id ∧ e.managerId ≠ some x.id := by
      simpa [not_or] using hid
    obtain ⟨hr, hne⟩ := hgone.row_kept hx hnot.1
    have hsame := (sameReporting_deleted he hr hne hnot.2 hnot.1).2
    refine Or.inl ⟨hr, fun day => ?_, ?_, fun key hkey hconcerns => ?_⟩
    · rw [hrec.facts]
      rw [← hgone.employees] at hsame
      exact (hsame.meaning hgone.rules (hgone.hasGroupPolicy hne) (hgone.activeOverrides hne)).identities
        hr hx
    · rw [hrec.others x.id hid]
      exact hgone.openIdentities hne
    · refine (pending_congr hrec.events).mpr (hgone.pending key hkey ?_)
      rintro ⟨htype, hkeyId⟩
      rcases hconcerns with hversion | ⟨_, hmine⟩
      · rw [htype] at hversion
        exact absurd hversion (by decide)
      · exact hne (hmine.symm.trans hkeyId)

/-! ## Policies -/

/-- Only policies and their versions, outputs and clauses change. -/
structure PoliciesOnly (db db' : Db) : Prop where
  frame : FactsOnly db db'
  definitions : db'.facts.conditionFieldDefinitions = db.facts.conditionFieldDefinitions
  dependencies : db'.facts.conditionFieldDependencies = db.facts.conditionFieldDependencies
  facts : db'.facts = { db.facts with toRules := db'.facts.toRules }
  employees : db'.sequences.employee = db.sequences.employee
  overrides : db'.sequences.employeeOverride = db.sequences.employeeOverride

theorem Constrained.policiesOnly (h : Constrained db) (honly : PoliciesOnly db db') :
    Constrained db' where
  employees := ⟨by rw [honly.facts, honly.employees]; exact h.employees.fresh,
    by rw [honly.facts]; exact h.employees.managers⟩
  assignments := honly.frame.fresh h.assignments
  catalog := by
    rw [honly.definitions, honly.dependencies]
    exact h.catalog
  overrides := by
    rw [honly.facts, honly.overrides]
    exact h.overrides
  memberships := by
    rw [honly.facts]
    exact h.memberships

theorem storeClauses_frame (versionId : ℕ) : ∀ {clauses : List CompiledClause}
    {clauseId conditionId : ℕ} {rules : Rules},
    (storeClauses versionId clauseId conditionId rules clauses).policies = rules.policies ∧
      (storeClauses versionId clauseId conditionId rules clauses).conditionFieldDefinitions =
        rules.conditionFieldDefinitions ∧
      (storeClauses versionId clauseId conditionId rules clauses).conditionFieldDependencies =
        rules.conditionFieldDependencies
  | [], _, _, _ => ⟨rfl, rfl, rfl⟩
  | _ :: rest, _, _, _ => by
    rw [storeClauses]
    exact @storeClauses_frame versionId rest _ _ _

/-- A new version touches no version of another policy. -/
theorem addPolicyVersion_others {versions versions' : Table PolicyVersion} {versionId policyId : ℕ}
    {input : PolicyVersionInput} {version : PolicyVersion}
    (h : addPolicyVersion versions versionId policyId input = .ok (versions', version)) :
    ∀ v ∈ versions', v.policyId ≠ policyId → v ∈ versions := by
  intro v hv hne
  unfold addPolicyVersion at h
  split at h
  · exact absurd h (by simp)
  · split at h
    · exact absurd h (by simp)
    · next closed hclose =>
      split at h
      · exact absurd h (by simp)
      · cases h
        rcases Table.mem_insert.mp hv with rfl | ⟨hv, _⟩
        · exact absurd rfl hne
        -- the version that is closed belongs to the same policy
        · unfold closePriorOpenEndedVersion at hclose
          split at hclose
          · cases hclose
            exact hv
          · next prior hprior =>
            split at hclose
            · exact absurd hclose (by simp)
            · cases hclose
              rw [setEffectiveUntil, Table.mem_modify] at hv
              obtain ⟨w, hw, rfl⟩ := hv
              by_cases hid : w.id = prior.id
              · rw [if_pos hid] at hne
                have hmem := mem_orderBy.mp (List.mem_of_mem_head? hprior)
                obtain ⟨hmem, hselected⟩ := Table.mem_select.mp hmem
                rw [Table.key_inj hw hmem hid] at hne
                simp only [Bool.and_eq_true, decide_eq_true_eq] at hselected
                exact absurd hselected.1.1 hne
              · rw [if_neg hid]
                exact hw

theorem createPolicyVersion_only {policyId : ℕ} {input : PolicyVersionInput}
    {version : PolicyVersion}
    (h : createPolicyVersion db policyId input actor now = .ok (db', version)) :
    PoliciesOnly db db' ∧ db'.facts.policies = db.facts.policies ∧
      ∀ v ∈ db'.facts.policyVersions, v.policyId ≠ policyId → v ∈ db.facts.policyVersions := by
  unfold createPolicyVersion storePolicyVersion at h
  dsimp only at h
  split at h
  · exact absurd h (by simp)
  · next rules' version' hstore =>
    cases h
    split at hstore
    · exact absurd hstore (by simp)
    · next versions added hadd =>
      split at hstore
      · exact absurd hstore (by simp)
      · cases hstore
        obtain ⟨hpolicies, hdefinitions, hdependencies⟩ :=
          @storeClauses_frame version.id input.compiledClauses db.sequences.compiledPolicyClause
            db.sequences.compiledPolicyCondition (storeValues version.id input.values
              { db.facts.toRules with policyVersions := versions })
        refine ⟨⟨⟨rfl, rfl, rfl, rfl⟩, hdefinitions, hdependencies, rfl, rfl, rfl⟩, hpolicies, ?_⟩
        intro v hv
        refine addPolicyVersion_others hadd v ?_
        have hstored : v ∈ (storeClauses version.id _ _ _ input.compiledClauses).policyVersions := hv
        rw [storeClauses_policyVersions] at hstored
        exact hstored

/-- With the versions of a policy and all tenures brought in line everything is scheduled. -/
theorem synced_scheduled {db₁ : Db} {policyId : ℕ}
    (hversions : syncPolicyVersionSchedules db policyId now = .ok db₁)
    (htenure : syncAllEmployeeTenureSchedules db₁ now = .ok db') (hevents : EventsSound db now)
    (hothers : ∀ v ∈ db.facts.policyVersions, v.policyId ≠ policyId →
      db.facts.policyActive v.policyId = true → ∀ key ∈ versionEvents now v, Pending db key) :
    Scheduled db' now ∧ EventsOnly db db' := by
  obtain ⟨hs₁, hcovered, honly₁⟩ := syncVersions_covered hevents hothers hversions
  obtain ⟨hs', honly, hkept, htenures⟩ := syncAllTenure_covered hs₁ htenure
  refine ⟨⟨hs', ?_, fun e he => htenures e ?_⟩, honly₁.trans honly⟩
  · refine hcovered.kept (by rw [honly.facts]) (fun p => by rw [honly.facts])
      fun key hkey htype _ => hkept key hkey ?_
    rw [htype]
    decide
  · rw [← honly.facts]
    exact he

/-- Everything is scheduled and everybody is reconciled. -/
theorem Coherent.refreshedAll (h : Coherent db now) {db₁ : Db} (hconstraints : Constrained db₁)
    (hschedule : Scheduled db₁ now)
    (hrun : refreshEmployeesAffectedByPolicy db₁ now actor = .ok db') : Coherent db' now := by
  have hrec := refreshAll_reconciled hconstraints.assignments hrun
  refine h.step (hconstraints.reconciled hrec) (hschedule.reconciled hrec) fun e he => Or.inr ?_
  rw [hrec.facts] at he
  exact hrec.find he (Set.mem_univ _)

/-- A version of a policy whose other versions, if it has any, need not be covered. -/
theorem Coherent.versioned (h : Coherent db now) {db₀ db₁ : Db} {policyId : ℕ}
    {data : PolicyVersionCreate} {v : PolicyVersion}
    (hcreate : createPolicyVersionFromInput db₀ policyId data actor now = .ok (db₁, v))
    (honly : PoliciesOnly db db₀)
    (hversions : db₀.facts.policyVersions = db.facts.policyVersions)
    (hactive : ∀ p, p ≠ policyId → db₀.facts.policyActive p = db.facts.policyActive p)
    (hrun : refreshEmployeesAffectedByPolicy db₁ now actor = .ok db') : Coherent db' now := by
  simp only [createPolicyVersionFromInput, bind_eq_ok, pure_eq_ok] at hcreate
  obtain ⟨input, _, ⟨db₂, version⟩, hstore, db₃, hsyncVersions, db₄, hsyncTenure, hout⟩ := hcreate
  cases hout
  obtain ⟨honly₂, hpolicies, hkept⟩ := createPolicyVersion_only hstore
  have hpending : ∀ key, Pending db key → Pending db₂ key := by
    intro key hkey
    refine (pending_congr honly₂.frame.events).mpr ?_
    exact (pending_congr honly.frame.events).mpr hkey
  have hsame : ∀ p, db₂.facts.policyActive p = db₀.facts.policyActive p := by
    intro p
    unfold Rules.policyActive
    rw [hpolicies]
  have hsynced := synced_scheduled hsyncVersions hsyncTenure
    ((h.schedule.events.congr honly.frame.events honly.frame.eventSequence).congr
      honly₂.frame.events honly₂.frame.eventSequence)
    (fun w hw hne hwactive key hkey => by
      rw [hsame, hactive _ hne] at hwactive
      have hold := hkept w hw hne
      rw [hversions] at hold
      exact hpending key (h.schedule.versions w hold hwactive key hkey))
  exact h.refreshedAll (((h.constraints.policiesOnly honly).policiesOnly honly₂).eventsOnly
    hsynced.2) hsynced.1 hrun

theorem policyActive_insert_ne {rules rules' : Rules} {changed : Policy} {p : ℕ}
    (h : rules'.policies = rules.policies.insert changed) (hne : p ≠ changed.id) :
    rules'.policyActive p = rules.policyActive p := by
  unfold Rules.policyActive
  rw [h, show (rules.policies.insert changed).find? p = _ from Table.find?_insert_ne hne]

/-- A policy that keeps its status stays as active as it was. -/
theorem policyActive_insert_same {rules rules' : Rules} {policy changed : Policy}
    (h : rules'.policies = rules.policies.insert changed) (hmem : policy ∈ rules.policies)
    (hid : changed.id = policy.id) (hstatus : policy.status = changed.status) (p : ℕ) :
    rules'.policyActive p = rules.policyActive p := by
  by_cases hp : p = changed.id
  · have hnew : (rules.policies.insert changed).find? changed.id = some changed :=
      Table.find?_insert_self _ _
    have hold : rules.policies.find? changed.id = some policy := by
      rw [hid]
      exact Table.find?_key hmem
    unfold Rules.policyActive
    rw [h, hp, hnew, hold]
    dsimp only
    rw [hstatus]
  · exact policyActive_insert_ne h hp

theorem Coherent.createPolicy (h : Coherent db now) {data : PolicyCreate} {p : Policy}
    (hrun : Warp.createPolicy db data actor now = .ok (db', p)) : Coherent db' now := by
  simp only [Warp.createPolicy, bind_eq_ok, pure_eq_ok] at hrun
  obtain ⟨⟨db₁, v⟩, hversion, db₂, hrefresh, hout⟩ := hrun
  cases hout
  refine h.versioned hversion ⟨⟨rfl, rfl, rfl, rfl⟩, rfl, rfl, rfl, rfl, rfl⟩ rfl
    (fun p hne => policyActive_insert_ne rfl hne) hrefresh

theorem Coherent.addVersion (h : Coherent db now) {policyId : ℕ} {data : PolicyVersionCreate}
    {v : PolicyVersion} (hrun : Warp.addVersion db policyId data actor now = .ok (db', v)) :
    Coherent db' now := by
  simp only [Warp.addVersion, bind_eq_ok, pure_eq_ok] at hrun
  obtain ⟨policy, _, ⟨db₁, v'⟩, hversion, db₂, hrefresh, hout⟩ := hrun
  cases hout
  exact h.versioned hversion ⟨⟨rfl, rfl, rfl, rfl⟩, rfl, rfl, rfl, rfl, rfl⟩ rfl (fun _ _ => rfl)
    hrefresh

/-- The tenure conditions depend on which policies are active, not on the policies otherwise. -/
theorem tenureConditions_congr {rules : Rules} {policies : Table Policy}
    (hactive : ∀ p, { rules with policies := policies }.policyActive p = rules.policyActive p) :
    tenureConditions { rules with policies := policies } = tenureConditions rules := by
  have hversion : ∀ c, tenureVersion? { rules with policies := policies } c =
      tenureVersion? rules c := by
    intro c
    unfold tenureVersion?
    simp only [hactive]
  unfold tenureConditions
  simp only [hversion]

/-- A policy that keeps its status can be saved without anything to follow. -/
theorem Coherent.renamed (h : Coherent db now) (honly : PoliciesOnly db db') {policies : Table Policy}
    (hfacts : db'.facts.toRules = { db.facts.toRules with policies := policies })
    (hactive : ∀ p, db'.facts.policyActive p = db.facts.policyActive p) : Coherent db' now := by
  have hconditions : tenureConditions db'.facts.toRules = tenureConditions db.facts.toRules := by
    rw [hfacts] at hactive ⊢
    exact tenureConditions_congr hactive
  have hpending : ∀ key, Pending db key → Pending db' key :=
    fun key hkey => (pending_congr honly.frame.events).mpr hkey
  refine h.step (h.constraints.policiesOnly honly)
    { events := h.schedule.events.congr honly.frame.events honly.frame.eventSequence
      versions := h.schedule.versions.kept (by rw [hfacts]) hactive fun key hkey _ _ =>
        hpending key hkey
      tenures := ?_ } fun e he => Or.inl ?_
  · intro e he
    rw [honly.facts] at he
    exact (h.schedule.tenures e he).kept hconditions fun key hkey _ _ _ => hpending key hkey
  · have he₀ := he
    rw [honly.facts] at he₀
    refine ⟨he₀, fun day => ?_, honly.frame.openIdentities e.id, fun key hkey _ => hpending key hkey⟩
    -- a resolution reads which policies are active, never a name
    have hmeaning : SameMeaning db.facts db'.facts e day day :=
      { values := by rw [hfacts]
        fields := by rw [hfacts]
        clauses := by rw [hfacts]
        conditions := by rw [hfacts]
        effective := fun v => by
          rw [mem_effectiveRows, mem_effectiveRows, hactive, hfacts]
        results := fun c _ => by
          rw [hfacts, honly.facts]
          rfl
        groups := fun p => by
          rw [hasGroupPolicy_iff, hasGroupPolicy_iff, honly.facts]
        overrides := by
          rw [honly.facts]
          rfl }
    exact hmeaning.identities he₀ he

theorem Coherent.updatePolicy (h : Coherent db now) {policyId : ℕ} {data : PolicyUpdate} {p : Policy}
    (hrun : Warp.updatePolicy db policyId data actor now = .ok (db', p)) : Coherent db' now := by
  simp only [Warp.updatePolicy, bind_eq_ok] at hrun
  obtain ⟨policy, hpolicy, hout⟩ := hrun
  obtain ⟨hmem, _⟩ := Table.find?_eq_some.mp (orRaise_eq_ok.mp hpolicy)
  split at hout
  · cases hout
    exact h
  · simp only [bind_eq_ok, pure_eq_ok] at hout
    obtain ⟨db₁, hfollow, hout⟩ := hout
    cases hout
    unfold followStatus at hfollow
    split at hfollow
    · next hstatus =>
      cases hfollow
      exact h.renamed ⟨⟨rfl, rfl, rfl, rfl⟩, rfl, rfl, rfl, rfl, rfl⟩ rfl
        (policyActive_insert_same rfl hmem rfl hstatus)
    · simp only [bind_eq_ok] at hfollow
      obtain ⟨db₂, hversions, db₃, htenure, hrefresh⟩ := hfollow
      have hsynced := synced_scheduled hversions htenure (h.schedule.events.congr rfl rfl)
        fun w hw hne hactive key hkey => by
          have hbefore : db.facts.policyActive w.policyId = true := by
            refine Eq.trans (policyActive_insert_ne rfl ?_).symm hactive
            exact hne
          exact (pending_congr rfl).mpr (h.schedule.versions w hw hbefore key hkey)
      refine h.refreshedAll (Constrained.eventsOnly ?_ hsynced.2) hsynced.1 hrefresh
      exact h.constraints.policiesOnly ⟨⟨rfl, rfl, rfl, rfl⟩, rfl, rfl, rfl, rfl, rfl⟩

/-! ## The worker -/

theorem getDue_mem {events : Table ScheduledReconciliation} {limit : ℕ}
    {due : List ScheduledReconciliation} (h : getDueReconciliations events now limit = .ok due)
    {e : ScheduledReconciliation} (he : e ∈ due) : e ∈ events ∧ e.scheduledAt ≤ now := by
  unfold getDueReconciliations at h
  split at h
  · exact absurd h (by simp)
  · cases h
    obtain ⟨hmem, hdue⟩ := Table.mem_select.mp (mem_orderBy.mp (List.mem_of_mem_take he))
    rw [Bool.and_eq_true, decide_eq_true_eq, decide_eq_true_eq] at hdue
    exact ⟨hmem, hdue.2⟩

/-- The batch is due, and whoever one of its events concerns is reconciled before it is processed. -/
theorem Coherent.reconcileDue (h : Coherent db now) {limit : ℕ}
    {events : List ScheduledReconciliation}
    (hrun : reconcileDueEvents db now limit = .ok (db', events)) : Coherent db' now := by
  unfold reconcileDueEvents at hrun
  split at hrun
  · exact absurd hrun (by simp)
  · next due hdue =>
    split at hrun
    · exact absurd hrun (by simp)
    · next entities hentities =>
      split at hrun
      · exact absurd hrun (by simp)
      · next db₁ hreconcile =>
        cases hrun
        obtain ⟨_, _, hoverrides, hconcerned⟩ := collectEntities
          (fun e he => h.schedule.events.sources e (getDue_mem hdue he).1) hentities
        have hrec := reconcileEntities_reconciled h.constraints.assignments hoverrides hreconcile
        have hbatch : ∀ e ∈ db₁.scheduledReconciliations, e.id ∈ events.map (fun x => x.id) →
            e ∈ events := by
          intro e he hid
          rw [hrec.events] at he
          obtain ⟨x, hx, hsame⟩ := List.mem_map.mp hid
          rw [← Table.key_inj (getDue_mem hdue hx).1 he hsame]
          exact hx
        -- an event stays that is not due, or that concerns somebody outside the batch
        have hpending : ∀ key, Pending db key →
            (now < key.scheduledAt ∨ ∃ e, key.Concerns e ∧ e ∉ entities.reconciles) →
              Pending
                { db₁ with
                  scheduledReconciliations := setEventStatus db₁.scheduledReconciliations
                    (events.map fun e => e.id) (.processed now) } key := by
          intro key hkey hspared
          refine Pending.setStatus ((pending_congr hrec.events).mpr hkey)
            (Or.inr fun event hevent hsame _ hid => ?_)
          have hdueEvent := hbatch event hevent hid
          rw [← hsame] at hspared
          rcases hspared with hfuture | ⟨e, hconcerns, hnot⟩
          · exact absurd (getDue_mem hdue hdueEvent).2 (not_le.mpr hfuture)
          · exact hnot (hconcerned event hdueEvent e hconcerns)
        have honly : EventsOnly db₁
            { db₁ with
              scheduledReconciliations := setEventStatus db₁.scheduledReconciliations
                (events.map fun e => e.id) (.processed now) } := ⟨rfl, rfl, rfl⟩
        refine h.step ((h.constraints.reconciled hrec).eventsOnly honly)
          { events := ?_, versions := ?_, tenures := fun e he => ?_ } fun e he => ?_
        · refine (h.schedule.reconciled hrec).events.setStatus fun t ht e he hid => ?_
          exact (getDue_mem hdue (hbatch e he hid)).2
        · exact h.schedule.versions.kept (by rw [honly.facts, hrec.facts])
            (fun p => by rw [honly.facts, hrec.facts])
            fun key hkey _ hfuture => hpending key hkey (Or.inl hfuture)
        · rw [honly.facts, hrec.facts] at he
          exact (h.schedule.tenures e he).kept (by rw [honly.facts, hrec.facts])
            fun key hkey _ _ hfuture => hpending key hkey (Or.inl hfuture)
        · rw [honly.facts, hrec.facts] at he
          by_cases hid : e.id ∈ entities.reconciles
          · refine Or.inr ?_
            rw [honly.facts, honly.openIdentities]
            exact hrec.find he hid
          · refine Or.inl ⟨he, fun day => by rw [honly.facts, hrec.facts], ?_, ?_⟩
            · rw [honly.openIdentities]
              exact hrec.others e.id hid
            · exact fun key hkey hconcerns => hpending key hkey (Or.inr ⟨e.id, hconcerns, hid⟩)

/-! ## Runs -/

theorem Coherent.refreshEmployee (h : Coherent db now) {employeeId : ℕ}
    (hrun : reconcileEmployee db employeeId actor now = .ok db') : Coherent db' now :=
  h.reconcile ⟨rfl, rfl, rfl, rfl⟩ rfl rfl rfl h.constraints.overrides h.constraints.memberships
    (fun _ _ _ => ⟨fun _ => Iff.rfl, rfl⟩)
    (reconcileEmployee_reconciled h.constraints.assignments hrun)

theorem Coherent.operation (h : Coherent db now) {operation : Operation}
    (hrun : runOperation db actor now operation = .ok db') : Coherent db' now := by
  cases operation with
  | createEmployee data =>
    obtain ⟨⟨_, e⟩, hcall, rfl⟩ := exceptMap_eq_ok.mp hrun
    exact h.createEmployee hcall
  | updateEmployee employeeId data =>
    simp only [runOperation, bind_eq_ok, exceptMap_eq_ok] at hrun
    obtain ⟨e, he, ⟨_, e'⟩, hcall, rfl⟩ := hrun
    exact h.updateEmployee (getEmployee_eq_ok he).1 hcall
  | deleteEmployee employeeId =>
    simp only [runOperation, bind_eq_ok] at hrun
    obtain ⟨e, he, hcall⟩ := hrun
    exact h.deleteEmployee (getEmployee_eq_ok he).1 hcall
  | refreshEmployee employeeId =>
    simp only [runOperation, bind_eq_ok] at hrun
    obtain ⟨e, _, hcall⟩ := hrun
    exact h.refreshEmployee hcall
  | createPolicy data =>
    obtain ⟨⟨_, p⟩, hcall, rfl⟩ := exceptMap_eq_ok.mp hrun
    exact h.createPolicy hcall
  | addVersion policyId data =>
    obtain ⟨⟨_, v⟩, hcall, rfl⟩ := exceptMap_eq_ok.mp hrun
    exact h.addVersion hcall
  | updatePolicy policyId data =>
    obtain ⟨⟨_, p⟩, hcall, rfl⟩ := exceptMap_eq_ok.mp hrun
    exact h.updatePolicy hcall
  | createGroup name =>
    cases hrun
    exact h.createGroup name
  | updateGroup groupId name =>
    obtain ⟨⟨_, g⟩, hcall, rfl⟩ := exceptMap_eq_ok.mp hrun
    exact h.updateGroup hcall
  | addEmployeeToGroup groupId employeeId =>
    obtain ⟨⟨_, e⟩, hcall, rfl⟩ := exceptMap_eq_ok.mp hrun
    exact h.addMember hcall
  | removeEmployeeFromGroup groupId employeeId => exact h.removeMember hrun
  | addPolicyToGroup groupId policyId =>
    obtain ⟨⟨_, p⟩, hcall, rfl⟩ := exceptMap_eq_ok.mp hrun
    exact h.addPolicy hcall
  | removePolicyFromGroup groupId policyId => exact h.removePolicy hrun
  | updateGroupPolicies groupId addPolicyIds removePolicyIds => exact h.updateGroupPolicies hrun
  | createOverride employeeId fieldId value =>
    obtain ⟨⟨_, o⟩, hcall, rfl⟩ := exceptMap_eq_ok.mp hrun
    exact h.createOverride hcall
  | updateOverride employeeId overrideId fieldId value =>
    obtain ⟨⟨_, o⟩, hcall, rfl⟩ := exceptMap_eq_ok.mp hrun
    exact h.updateOverride hcall
  | deleteOverride employeeId overrideId => exact h.deleteOverride hrun
  | reconcileDue limit =>
    obtain ⟨⟨_, events⟩, hcall, rfl⟩ := exceptMap_eq_ok.mp hrun
    exact h.reconcileDue hcall

/-- A call at a later time, or one that fails. -/
theorem Coherent.call (h : Coherent db now) {call : OperationCall} (hle : now ≤ call.now) :
    Coherent (operationStep db call) call.now := by
  unfold operationStep
  cases hrun : runOperation db call.actor call.now call.operation with
  | error e => exact h.later hle
  | ok db' => exact (h.later hle).operation hrun

/-- Calls in the order of their times keep the rows coherent up to the time of the last one. -/
theorem Coherent.run (calls : List OperationCall) {db : Db} {now t : DateTime}
    (h : Coherent db now) (htimes : ∀ call ∈ calls, now ≤ call.now ∧ call.now ≤ t)
    (horder : (calls.map fun call => call.now).Pairwise (· ≤ ·)) (hle : now ≤ t) :
    Coherent (runOperations db calls) t := by
  induction calls generalizing db now with
  | nil => exact h.later hle
  | cons call rest ih =>
    obtain ⟨hfirst, horder⟩ := List.pairwise_cons.mp horder
    obtain ⟨hnow, hlast⟩ := htimes call List.mem_cons_self
    refine ih (h.call hnow) (fun later hlater => ⟨?_, ?_⟩) horder hlast
    · exact hfirst _ (List.mem_map_of_mem hlater)
    · exact (htimes later (List.mem_cons_of_mem _ hlater)).2

/-- A store with assignment fields and the synchronised condition catalog, and nothing else. -/
def seededDb (fields : Table AssignmentFieldDefinition) : Db :=
  syncConditionFieldDefinitions
    { Db.empty with facts := { Facts.empty with assignmentFieldDefinitions := fields } }

theorem coherent_withConditionCatalog (fields : Table AssignmentFieldDefinition)
    {catalog : ConditionCatalog}
    (hsynced : CatalogSynced catalog.definitions catalog.dependencies) (now : DateTime) :
    Coherent
      (Db.withConditionCatalog
        { Db.empty with facts := { Facts.empty with assignmentFieldDefinitions := fields } } catalog)
      now where
  constraints :=
    { employees := ⟨fun _ he => absurd he Table.not_mem_empty,
        fun _ he => absurd he Table.not_mem_empty⟩
      assignments := fun _ ha => absurd ha Table.not_mem_empty
      catalog := hsynced
      overrides := fun _ ho => absurd ho Table.not_mem_empty
      memberships := fun _ hm => absurd hm Table.not_mem_empty }
  schedule :=
    { events := ⟨fun _ he => absurd he Table.not_mem_empty,
        fun _ he => absurd he Table.not_mem_empty, fun _ he => absurd he Table.not_mem_empty⟩
      versions := fun _ hv => absurd hv Table.not_mem_empty
      tenures := fun _ he => absurd he Table.not_mem_empty }
  current := fun _ he => absurd he Table.not_mem_empty

theorem coherent_seeded (fields : Table AssignmentFieldDefinition) (now : DateTime) :
    Coherent (seededDb fields) now :=
  coherent_withConditionCatalog fields catalogSynced_empty now

theorem coherent_runOperations (fields : Table AssignmentFieldDefinition)
    {calls : List OperationCall} {t : DateTime}
    (horder : (calls.map fun call => call.now).Pairwise (· ≤ ·))
    (hlast : ∀ call ∈ calls, call.now ≤ t) :
    Coherent (runOperations (seededDb fields) calls) t := by
  cases calls with
  | nil => exact coherent_seeded fields t
  | cons call rest =>
    refine Coherent.run _ (coherent_seeded fields call.now) (fun later hlater => ?_) horder
      (hlast call List.mem_cons_self)
    refine ⟨?_, hlast later hlater⟩
    rcases List.mem_cons.mp hlater with rfl | hlater
    · exact le_rfl
    · exact (List.pairwise_cons.mp horder).1 _ (List.mem_map_of_mem hlater)

/-- After any run of operations at non-decreasing times, whenever no pending event has come by a time
that no operation lies after, the open rows of every employee are what a resolution for the day
gives. -/
theorem materialization_coherence (fields : Table AssignmentFieldDefinition)
    (calls : List OperationCall) (t : DateTime)
    (horder : (calls.map fun call => call.now).Pairwise (· ≤ ·))
    (hlast : ∀ call ∈ calls, call.now ≤ t)
    (hpending : ∀ event ∈ (runOperations (seededDb fields) calls).scheduledReconciliations,
      event.status = .pending → t < event.scheduledAt) :
    ∀ e ∈ (runOperations (seededDb fields) calls).facts.employees, ∃ resolution,
      resolveEmployeeAssignmentsForDate (runOperations (seededDb fields) calls).facts e.id t.date =
        .ok resolution ∧
      ∀ identity,
        identity ∈ (openAssignments (runOperations (seededDb fields) calls) e.id).map
            EmployeeAssignment.identity ↔
          identity ∈ resolution.assignments.map FinalAssignment.identity := by
  intro e he
  have hcoherent := coherent_runOperations fields horder hlast
  have hquiet : Materialized.Quiet (runOperations (seededDb fields) calls).materialized e.id t := by
    rintro _ ⟨_, ⟨event, hevent, rfl, hstatus⟩, _, rfl⟩
    exact hpending event hevent hstatus
  obtain ⟨resolution, hresolve, hsame⟩ :=
    resolvedIdentities_eq_some.mp (hcoherent.current e he t le_rfl hquiet)
  refine ⟨resolution, hresolve, fun identity => ?_⟩
  have hmem := Finset.ext_iff.mp hsame identity
  rw [List.mem_toFinset] at hmem
  rw [hmem]
  exact List.mem_toFinset.symm

/-- A laptop for those who have been there for two years: Ada gets hers from the worker, Ben has not
come that far. -/
def tenureCalls : List OperationCall :=
  [⟨.system, startOfDay (.on 2026 1 1), .createPolicy
      { name := "laptops"
        priority := 1
        effectiveFrom := .on 2026 1 1
        conditionGroup := .mk .and [⟨"tenure", .ge, "P2Y"⟩] []
        values := [(1, "large")] }⟩,
    ⟨.system, startOfDay (.on 2026 1 10), .createEmployee
      { name := "Ada", state := "CA", department := "Engineering", employeeType := "full_time"
        startDate := .on 2026 1 10 }⟩,
    ⟨.system, startOfDay (.on 2028 1 10), .reconcileDue 100⟩,
    ⟨.system, startOfDay (.on 2028 2 1), .createEmployee
      { name := "Ben", state := "CA", department := "Engineering", employeeType := "full_time"
        startDate := .on 2028 2 1 }⟩]

def tenureDb : Db :=
  runOperations (seededDb (.ofRows [⟨1, "laptop", .one, "priority", .text⟩])) tenureCalls

theorem materialization_coherence_tenure :
    (tenureDb.scheduledReconciliations.select fun e => e.status = .pending).length = 1 ∧
    ((openAssignments tenureDb 1).length = 1 ∧ (openAssignments tenureDb 2).length = 0) ∧
    ∀ e ∈ tenureDb.facts.employees, ∃ resolution,
      resolveEmployeeAssignmentsForDate tenureDb.facts e.id (.on 2029 1 1) = .ok resolution ∧
      ∀ identity,
        identity ∈ (openAssignments tenureDb e.id).map EmployeeAssignment.identity ↔
          identity ∈ resolution.assignments.map FinalAssignment.identity := by
  refine ⟨by decide +kernel, ⟨by decide +kernel, by decide +kernel⟩, ?_⟩
  refine materialization_coherence (.ofRows [⟨1, "laptop", .one, "priority", .text⟩]) tenureCalls
    (startOfDay (.on 2029 1 1)) (by decide +kernel) (by decide +kernel) ?_
  have hpending : ∀ event ∈ tenureDb.scheduledReconciliations.rows, event.status = .pending →
      startOfDay (.on 2029 1 1) < event.scheduledAt := by
    decide +kernel
  exact hpending

end

end Warp
