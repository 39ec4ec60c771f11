import Warp.Properties.QuietReconciliation

/-!
# Resolving from the stored policy links

A refresh that is given no desired assignments resolves the policy links of the last reconciliation.
It comes to the same values from the same sources. But the links do not keep why a policy matched, so
the explanations name the stored link instead, and the rows that come from policies are replaced.
-/

namespace Warp

open Infra

/-! ## The resolution -/

def linkedOrigins : OriginsMap := fun _ => [.persistedPolicyLink]

/-- The assignment as it is resolved from the stored links. -/
def FinalAssignment.throughLinks (a : FinalAssignment) : FinalAssignment :=
  { a with explanation := ⟨none, a.explanation.reason.mapOrigins linkedOrigins⟩ }

@[simp] theorem FinalAssignment.throughLinks_identity (a : FinalAssignment) :
    a.throughLinks.identity = a.identity := rfl

theorem resolveCandidates_links (m : PolicyMatches) (candidates : List Candidate) :
    resolveCandidates none candidates =
      (resolveCandidates m candidates).map (List.map (ResolvedAssignment.mapOrigins linkedOrigins)) := by
  have hid : ∀ x : Except ServiceError (List ResolvedAssignment),
      x.map (List.map (ResolvedAssignment.mapOrigins id)) = x := by
    intro x
    rw [mapOrigins_id]
    cases x <;> simp [Except.map]
  refine (hid _).symm.trans ?_
  exact resolveCandidates_mapOrigins fun c _ => rfl

section

variable {db : Db} {T : DateTime} {day : Date} {r : EmployeeAssignmentResolution}
  {employee : Employee} {employeeId : ℕ}

/-- A dated assignment without its date is the assignment before. -/
theorem throughLinks_dated {rules : Rules} {resolved : List ResolvedAssignment}
    {overrides : List EmployeeOverride} {a : FinalAssignment}
    (ha : a ∈ applyEmployeeOverrides rules resolved overrides) :
    (a.dated day).throughLinks = a.mapOrigins linkedOrigins := by
  rcases mem_applyEmployeeOverrides.mp ha with ⟨_, _, _, rfl⟩ | ⟨_, _, rfl⟩
  · rfl
  · rfl

/-- What is in the stored links is what was matched. -/
theorem Settled.links_iff (hr : Settled db T r) {policyId : ℕ} :
    policyId ∈ (db.employeePolicies.select fun l => l.employeeId = r.employeeId).map
      (fun l => l.policyId) ↔ policyId ∈ r.policyIds := by
  rw [← hr.links, List.mem_map]
  constructor
  · rintro ⟨l, hl, rfl⟩
    obtain ⟨hl, he⟩ := Table.mem_select.mp hl
    rw [show (⟨r.employeeId, l.policyId⟩ : EmployeePolicy) = l from by rw [← of_decide_eq_true he]]
    exact hl
  · exact fun hl => ⟨_, Table.mem_select.mpr ⟨hl, by simp⟩, rfl⟩

/-- From the stored links the same values and sources are resolved, without the evidence. -/
theorem Settled.finalAssignments (hr : Settled db T r) (hemployee : employee ∈ db.facts.employees)
    (hresolve : resolveEmployeeAssignmentsForDate db.facts employee.id day = .ok r) :
    Warp.finalAssignments db employee.id day none =
      .ok (r.assignments.map FinalAssignment.throughLinks) := by
  cases hfound : findPolicyMatches db.facts employee.id day with
  | error e =>
    rw [resolveEmployeeAssignmentsForDate, hfound] at hresolve
    cases hresolve
  | ok found =>
    obtain ⟨restricted, hrestricted⟩ := getEffective_of_found hfound
    obtain ⟨effective, _, heff, _⟩ := (findPolicyMatches_eq_ok hemployee).mp hfound
    rw [resolveEmployee_eq hfound, resolvePolicyAssignments_eq hrestricted] at hresolve
    obtain ⟨resolved, hresolved, rfl⟩ := exceptMap_eq_ok.mp hresolve
    obtain ⟨linked, hlinked, _⟩ := getEffective_restrict
      ((db.employeePolicies.select fun l => l.employeeId = employee.id).map fun l => l.policyId) heff
    have hrows : effectiveRows db.facts.toRules (some ((db.employeePolicies.select
        fun l => l.employeeId = employee.id).map fun l => l.policyId)) day =
          effectiveRows db.facts.toRules (some found.keys) day := by
      refine effectiveRows_congr fun v => ?_
      rw [mem_effectiveRows, mem_effectiveRows]
      simp only [amongPolicies, List.contains_iff_mem]
      rw [hr.links_iff]
    show (resolvePolicyAssignments db.facts.toRules _ day none).map _ = _
    rw [resolvePolicyAssignments_eq hlinked, hrows, resolveCandidates_links (some found), hresolved]
    refine congrArg Except.ok ?_
    dsimp only
    rw [applyEmployeeOverrides_mapOrigins, List.map_map]
    exact List.map_congr_left fun a ha => (throughLinks_dated ha).symm

/-! ## The keys -/

/-- Neither two policy values nor two overrides have the same identity. -/
theorem applyEmployeeOverrides_identities {facts : Facts}
    {resolved : List ResolvedAssignment} (h : DistinctValues resolved) :
    ((applyEmployeeOverrides facts.toRules resolved (activeOverrides facts employeeId)).map
      FinalAssignment.identity).Nodup := by
  unfold applyEmployeeOverrides
  refine ((perm_orderBy _ _).map _).nodup_iff.mpr ?_
  rw [List.map_append, List.map_map, List.map_map, List.nodup_append]
  refine ⟨?_, ?_, ?_⟩
  · refine List.pairwise_map.mpr ((List.Pairwise.filter _ h).imp fun {p q} hpq he => hpq ?_)
    exact congrArg (fun i : AssignmentIdentity => (i.assignmentFieldDefinitionId, i.value)) he
  · refine List.Nodup.map_on (fun o ho p hp he => ?_) activeOverrides_nodup
    refine Table.key_inj (Table.mem_select.mp (mem_orderBy.mp ho)).1
      (Table.mem_select.mp (mem_orderBy.mp hp)).1 ?_
    exact Option.some.inj (congrArg AssignmentIdentity.sourceOverrideId he)
  · intro i hi j hj he
    obtain ⟨item, _, rfl⟩ := List.mem_map.mp hi
    obtain ⟨o, _, rfl⟩ := List.mem_map.mp hj
    exact absurd (congrArg AssignmentIdentity.sourceOverrideId he) (Option.some_ne_none _).symm

theorem distinct_identities
    (hresolve : resolveEmployeeAssignmentsForDate db.facts employeeId day = .ok r) :
    (r.assignments.map FinalAssignment.identity).Nodup := by
  cases hfound : findPolicyMatches db.facts employeeId day with
  | error e =>
    rw [resolveEmployeeAssignmentsForDate, hfound] at hresolve
    cases hresolve
  | ok found =>
    obtain ⟨restricted, hrestricted⟩ := getEffective_of_found hfound
    rw [resolveEmployee_eq hfound] at hresolve
    obtain ⟨resolved, hresolved, rfl⟩ := exceptMap_eq_ok.mp hresolve
    have hdistinct := (resolvePolicyAssignments_eq_ok hrestricted hresolved).1
    rw [List.map_map]
    exact applyEmployeeOverrides_identities hdistinct

theorem link_mem_undatedOrigins {origins : List ExplanationOrigin} :
    .persistedPolicyLink ∈ undatedOrigins origins ↔ .persistedPolicyLink ∈ origins := by
  unfold undatedOrigins
  rw [List.mem_map]
  constructor
  · rintro ⟨o, ho, he⟩
    rcases o with _ | (_ | _)
    · exact ho
    · cases he
    · cases he
  · exact fun ho => ⟨_, ho, rfl⟩

/-- The explanation of a matched version does not name a stored link. -/
theorem link_notMem_explanation {rules : Rules} {found : Dict ℕ PolicyMatch} {c : Candidate}
    (hc : c ∈ policyCandidates rules
      ((effectiveRows rules (some found.keys) day).map fun v => v.id)) :
    .persistedPolicyLink ∉ explanationOrigins (matchFor (some found) c.version.policyId) := by
  have hkey : c.version.policyId ∈ found.keys :=
    List.contains_iff_mem.mp (mem_effectiveRows.mp (version_of_candidate hc)).2.2.2
  obtain ⟨m, hm⟩ := Dict.mem_keys.mp hkey
  have hmatch : matchFor (some found) c.version.policyId = some m := Dict.get?_eq_some.mpr hm
  rw [hmatch]
  simp [explanationOrigins]

/-- An assignment is explained by its override, or by policies and without a stored link. -/
theorem explained_by (hresolve : resolveEmployeeAssignmentsForDate db.facts employeeId day = .ok r)
    {a : FinalAssignment} (ha : a ∈ r.assignments) :
    (a.sourceOverrideId = none ∧ ∃ e, a.explanation.reason = .policy e ∧
      .persistedPolicyLink ∉ e.origins) ∨
    (a.sourceOverrideId ≠ none ∧ ∃ e, a.explanation.reason = .manualOverride e) := by
  cases hfound : findPolicyMatches db.facts employeeId day with
  | error e =>
    rw [resolveEmployeeAssignmentsForDate, hfound] at hresolve
    cases hresolve
  | ok found =>
    obtain ⟨restricted, hrestricted⟩ := getEffective_of_found hfound
    rw [resolveEmployee_eq hfound, resolvePolicyAssignments_eq hrestricted] at hresolve
    obtain ⟨resolved, hresolved, rfl⟩ := exceptMap_eq_ok.mp hresolve
    obtain ⟨b, hb, rfl⟩ := List.mem_map.mp ha
    rcases mem_applyEmployeeOverrides.mp hb with ⟨item, hitem, _, rfl⟩ | ⟨o, _, rfl⟩
    · obtain ⟨field, winner, explained, hwinner, he⟩ := resolveCandidates_explained hresolved hitem
      refine Or.inl ⟨rfl, item.explanation, rfl, ?_⟩
      rw [he]
      exact link_notMem_explanation hwinner
    · exact Or.inr ⟨Option.some_ne_none _, _, rfl⟩

/-- An assignment of a policy says something else when it is resolved from the stored links. -/
theorem throughLinks_essence
    (hresolve : resolveEmployeeAssignmentsForDate db.facts employeeId day = .ok r)
    {a b : FinalAssignment} (ha : a ∈ r.assignments) (hb : b ∈ r.assignments) :
    a.throughLinks.essence = b.essence ↔ a = b ∧ a.sourceOverrideId ≠ none := by
  constructor
  · intro he
    have hid : a.identity = b.identity := congrArg Prod.fst he
    have hab : a = b := List.inj_on_of_nodup_map (distinct_identities hresolve) ha hb hid
    refine ⟨hab, fun hpolicy => ?_⟩
    subst hab
    rcases explained_by hresolve ha with ⟨_, e, hreason, hlink⟩ | ⟨hoverride, _⟩
    · have hundated := congrArg (fun p => p.2.reason) he
      simp only [FinalAssignment.essence, FinalAssignment.throughLinks, Explanation.undated, hreason,
        ExplanationReason.mapOrigins, ExplanationReason.policy.injEq] at hundated
      refine hlink (link_mem_undatedOrigins.mp ?_)
      rw [← show undatedOrigins (linkedOrigins e.origins) = undatedOrigins e.origins from
        congrArg PolicyExplanation.origins hundated]
      exact List.mem_singleton_self _
    · exact hoverride hpolicy
  · rintro ⟨rfl, hoverride⟩
    rcases explained_by hresolve ha with ⟨hpolicy, _⟩ | ⟨_, e, hreason⟩
    · exact absurd hpolicy hoverride
    · simp only [FinalAssignment.essence, FinalAssignment.throughLinks, Explanation.undated, hreason,
        ExplanationReason.mapOrigins]
      rfl

/-! ## The rows -/

def FinalAssignment.fromPolicy (a : FinalAssignment) : Bool := a.sourceOverrideId.isNone

def EmployeeAssignment.fromPolicy (a : EmployeeAssignment) : Bool := a.sourceOverrideId.isNone

theorem syncAssignments_values {items : List FinalAssignment}
    (hn : (items.map FinalAssignment.identity).Nodup) :
    (syncAssignments db employeeId items).leftover.values = items.filter fun a =>
      a.assignmentKey ∉ (openAssignments db employeeId).map EmployeeAssignment.assignmentKey := by
  have hkeys : ((items.map fun a => (a.assignmentKey, a)).map Prod.fst).Nodup := by
    refine List.Nodup.of_map Prod.fst ?_
    rw [List.map_map, List.map_map]
    exact hn
  rw [Dict.values, syncAssignments, leftover_entries, desiredByKey, Dict.entries_ofList hkeys,
    List.filter_map, List.map_map]
  have hid : (Prod.snd ∘ fun a : FinalAssignment => (a.assignmentKey, a)) = id := rfl
  rw [hid, List.map_id]
  exact List.filter_congr fun _ _ => decide_eq_decide.mpr Iff.rfl

/-- The open rows are the resolved assignments. -/
theorem Settled.open_keys (hr : Settled db T r) {k : AssignmentKey} :
    k ∈ (openAssignments db r.employeeId).map EmployeeAssignment.assignmentKey ↔
      ∃ a ∈ r.assignments, a.assignmentKey = k := by
  rw [hr.keys.mem_iff, mem_keys_desiredByKey, List.mem_map]

theorem throughLinks_undated
    (hresolve : resolveEmployeeAssignmentsForDate db.facts employeeId day = .ok r)
    {a : FinalAssignment} (ha : a ∈ r.assignments) :
    a.throughLinks.explanation.undated = a.explanation.undated ↔ a.fromPolicy = false := by
  have hessence := throughLinks_essence hresolve ha ha
  rw [FinalAssignment.fromPolicy, Option.isNone_eq_false_iff, ← Option.ne_none_iff_isSome]
  constructor
  · exact fun he => (hessence.mp (Prod.ext rfl he)).2
  · exact fun hoverride => congrArg Prod.snd (hessence.mpr ⟨rfl, hoverride⟩)

theorem throughLinks_open (hr : Settled db T r)
    (hresolve : resolveEmployeeAssignmentsForDate db.facts r.employeeId day = .ok r)
    {a : FinalAssignment} (ha : a ∈ r.assignments) :
    a.throughLinks.assignmentKey ∈
        (openAssignments db r.employeeId).map EmployeeAssignment.assignmentKey ↔
      a.fromPolicy = false := by
  rw [hr.open_keys]
  constructor
  · rintro ⟨b, hb, hk⟩
    obtain ⟨_, hoverride⟩ :=
      (throughLinks_essence hresolve ha hb).mp (FinalAssignment.assignmentKey_iff.mp hk.symm)
    exact Option.isNone_eq_false_iff.mpr (Option.ne_none_iff_isSome.mp hoverride)
  · intro hpolicy
    have hoverride : a.sourceOverrideId ≠ none :=
      Option.ne_none_iff_isSome.mpr (Option.isNone_eq_false_iff.mp hpolicy)
    exact ⟨a, ha, FinalAssignment.assignmentKey_iff.mpr
      ((throughLinks_essence hresolve ha ha).mpr ⟨rfl, hoverride⟩).symm⟩

/-- The items that no open row has are those of the policies. -/
theorem Settled.leftover_links (hr : Settled db T r)
    (hresolve : resolveEmployeeAssignmentsForDate db.facts r.employeeId day = .ok r) :
    (syncAssignments db r.employeeId
        (r.assignments.map FinalAssignment.throughLinks)).leftover.values =
      (r.assignments.filter FinalAssignment.fromPolicy).map FinalAssignment.throughLinks := by
  rw [syncAssignments_values, List.filter_map]
  · refine congrArg _ (List.filter_congr fun a ha => ?_)
    have hopen := throughLinks_open hr hresolve ha
    cases hpolicy : a.fromPolicy with
    | false => exact decide_eq_false (not_not.mpr (hopen.mpr hpolicy))
    | true => exact decide_eq_true fun hk => absurd (hopen.mp hk) (by simp [hpolicy])
  · rw [List.map_map]
    exact distinct_identities hresolve

/-- The rows that end are those of the policies. -/
theorem Settled.ended_links (hr : Settled db T r)
    (hresolve : resolveEmployeeAssignmentsForDate db.facts r.employeeId day = .ok r)
    {a : EmployeeAssignment} :
    a ∈ (syncAssignments db r.employeeId
        (r.assignments.map FinalAssignment.throughLinks)).ended ↔
      a ∈ openAssignments db r.employeeId ∧ a.fromPolicy = true := by
  have hn : ((openAssignments db r.employeeId).map EmployeeAssignment.assignmentKey).Nodup :=
    hr.keys.nodup_iff.mpr (Dict.keys_nodup _)
  rw [syncAssignments, mem_ended_of_nodup hn, mem_keys_desiredByKey, List.map_map]
  refine and_congr_right fun hrow => ?_
  obtain ⟨b, hb, hkey⟩ := hr.open_keys.mp (List.mem_map_of_mem hrow)
  have hsource : a.fromPolicy = b.fromPolicy :=
    congrArg (fun k : AssignmentKey => k.1.sourceOverrideId.isNone) hkey.symm
  rw [hsource, List.mem_map]
  constructor
  · intro hmissing
    by_contra hoverride
    rw [Bool.not_eq_true] at hoverride
    have hb' : b.sourceOverrideId ≠ none :=
      Option.ne_none_iff_isSome.mpr (Option.isNone_eq_false_iff.mp hoverride)
    refine hmissing ⟨b, hb, Eq.trans (FinalAssignment.assignmentKey_iff.mpr ?_) hkey⟩
    exact (throughLinks_essence hresolve hb hb).mpr ⟨rfl, hb'⟩
  · rintro hpolicy ⟨c, hc, hk⟩
    have hessence := FinalAssignment.assignmentKey_iff.mp (hk.trans hkey.symm)
    obtain ⟨rfl, hoverride⟩ := (throughLinks_essence hresolve hc hb).mp hessence
    exact hoverride (Option.isNone_iff_eq_none.mp hpolicy)

/-- The open rows and the resolution have the same policy values with the same sources. -/
theorem Settled.policy_identities (hr : Settled db T r)
    (hresolve : resolveEmployeeAssignmentsForDate db.facts r.employeeId day = .ok r) :
    (((openAssignments db r.employeeId).filter EmployeeAssignment.fromPolicy).map
        EmployeeAssignment.identity).Perm
      ((r.assignments.filter FinalAssignment.fromPolicy).map FinalAssignment.identity) := by
  have hn := distinct_identities hresolve
  have hkeys : (desiredByKey r.assignments).keys =
      r.assignments.map FinalAssignment.assignmentKey := by
    rw [Dict.keys, desiredByKey, Dict.entries_ofList, List.map_map]
    · rfl
    · refine List.Nodup.of_map Prod.fst ?_
      rw [List.map_map, List.map_map]
      exact hn
  have hperm := hr.keys
  rw [hkeys] at hperm
  have hpolicy := (hperm.map Prod.fst).filter fun i => i.sourceOverrideId.isNone
  rw [List.map_map, List.map_map, List.filter_map, List.filter_map] at hpolicy
  exact hpolicy

end

/-- The open policy rows of an employee end, and the items become rows with the same values. -/
structure PolicyRowsReplaced (db db' : Db) (employeeId : ℕ) (T : DateTime)
    (items : List FinalAssignment) : Prop where
  frame : AssignmentsOnly db db'
  same : (((openAssignments db employeeId).filter EmployeeAssignment.fromPolicy).map
    EmployeeAssignment.identity).Perm (items.map FinalAssignment.identity)
  rows : ∀ x, x ∈ db'.employeeAssignments ↔
    (x ∈ db.employeeAssignments ∧
      ¬(x ∈ openAssignments db employeeId ∧ x.fromPolicy = true)) ∨
    (∃ a ∈ openAssignments db employeeId, a.fromPolicy = true ∧ a.effectiveFrom ≠ T ∧
      x = { a with effectiveUntil := some T }) ∨
    x ∈ newAssignments employeeId T db.sequences.employeeAssignment items

/-- A refresh from the stored links, right after a reconciliation: the overrides stay as they are,
and every row of a policy gives way to a row that says the same on the ground of its stored link. -/
theorem refresh_from_links {db db₁ : Db} {employeeIds : List ℕ} {T T' now now' : DateTime}
    {actor actor' : Actor} {rows : List (ℕ × List EmployeeAssignment)} (hfresh : FreshAssignments db)
    (hfirst : reconcileEmployees db employeeIds (some T) actor now = .ok (db₁, rows)) {e : ℕ}
    (he : e ∈ presentEmployees db.facts employeeIds) (hT : T ≤ T') :
    ∃ r db₂ rows', resolveEmployeeAssignmentsForDate db.facts e T.date = .ok r ∧
      finalAssignments db₁ e T.date none = .ok (r.assignments.map FinalAssignment.throughLinks) ∧
      refreshEmployeeAssignments db₁ e (some T.date) (some T') actor' none now' =
        .ok (db₂, rows') ∧
      PolicyRowsReplaced db₁ db₂ e T'
        ((r.assignments.filter FinalAssignment.fromPolicy).map FinalAssignment.throughLinks) ∧
      ∀ a ∈ r.assignments, a.throughLinks.explanation.undated = a.explanation.undated ↔
        a.fromPolicy = false := by
  have hreconciled := reconcile_reconciled hfresh hfirst
  obtain ⟨r, hresolve, hr⟩ := reconcile_settled hfresh hfirst he
  obtain ⟨employee, hemployee, hkey⟩ := Table.isSome_find?.mp (mem_presentEmployees.mp he).2
  replace hkey : employee.id = e := hkey
  have hid : r.employeeId = e := resolve_employeeId hresolve
  subst hid
  rw [← hreconciled.facts] at hemployee hresolve ⊢
  have hitems := hr.finalAssignments hemployee (hkey ▸ hresolve)
  rw [hkey] at hitems
  have horder : rejectOutOfOrderReconciliation db₁ r.employeeId T' = .ok () :=
    rejectOutOfOrder_eq_ok.mpr fun a ha hemployee => (hr.started a ha hemployee).trans hT
  have hwritten := @writeAssignments_written db₁ r.employeeId T' actor'
    (r.assignments.map FinalAssignment.throughLinks) hreconciled.fresh
  have hrefresh : ∃ rows', refreshEmployeeAssignments db₁ r.employeeId (some T.date) (some T') actor'
      none now' = .ok (writeAssignments db₁ r.employeeId T' actor' (syncAssignments db₁ r.employeeId
        (r.assignments.map FinalAssignment.throughLinks)), rows') := by
    unfold refreshEmployeeAssignments
    simp only [reconciliationTimestamp, horder, Option.getD_some, hitems]
    exact ⟨_, rfl⟩
  obtain ⟨rows', hrefresh⟩ := hrefresh
  refine ⟨r, _, rows', hresolve, hitems, hrefresh, ⟨hwritten.frame, ?_, fun x => ?_⟩, fun a ha => ?_⟩
  · rw [List.map_map]
    exact hr.policy_identities hresolve
  · rw [hwritten.rows x, hr.leftover_links hresolve]
    simp only [hr.ended_links hresolve, and_assoc]
  · exact throughLinks_undated hresolve ha

def serviceDay : Date := .on 2027 3 1

def serviceNoon : DateTime := ⟨serviceDay, ⟨43200000000, Nat.le_of_ble_eq_true rfl⟩⟩

/-- Id, value and end of the assignment rows. -/
def assignmentEnds (db : Db) : List (ℕ × String × Option DateTime) :=
  db.employeeAssignments.rows.map fun a => (a.id, a.value, a.effectiveUntil)

/-- The badge that Ada has by override stays. The laptop of the policy ends at noon, and is given
again from then on. -/
theorem refresh_from_links_noon : ∃ db₁ rows db₂ rows',
    reconcileEmployees serviceDb [1] (some (startOfDay serviceDay)) .system
      (startOfDay serviceDay) = .ok (db₁, rows) ∧
    refreshEmployeeAssignments db₁ 1 (some serviceDay) (some serviceNoon) .system
      none serviceNoon = .ok (db₂, rows') ∧
    assignmentEnds db₁ = [(1, "large", none), (2, "silver", none)] ∧
    assignmentEnds db₂ =
      [(1, "large", some serviceNoon), (2, "silver", none), (3, "large", none)] := by
  have hrun : ((reconcileEmployees serviceDb [1] (some (startOfDay serviceDay)) .system
      (startOfDay serviceDay)).toOption.bind fun p =>
        (refreshEmployeeAssignments p.1 1 (some serviceDay) (some serviceNoon)
          .system none serviceNoon).toOption.map fun q =>
            [assignmentEnds p.1, assignmentEnds q.1]) =
      some [[(1, "large", none), (2, "silver", none)],
        [(1, "large", some serviceNoon), (2, "silver", none), (3, "large", none)]] := by
    decide +kernel
  cases hfirst : reconcileEmployees serviceDb [1] (some (startOfDay serviceDay)) .system
      (startOfDay serviceDay) with
  | error e =>
    rw [hfirst] at hrun
    cases hrun
  | ok out =>
    rw [hfirst] at hrun
    obtain ⟨q, hq, hrows⟩ := Option.map_eq_some_iff.mp hrun
    cases hsecond : refreshEmployeeAssignments out.1 1 (some serviceDay)
        (some serviceNoon) .system none serviceNoon with
    | error e =>
      rw [hsecond] at hq
      cases hq
    | ok second =>
      rw [hsecond] at hq
      cases hq
      obtain ⟨hbefore, hafter⟩ := List.cons.inj hrows
      exact ⟨out.1, out.2, q.1, q.2, rfl, hsecond, hbefore, List.head_eq_of_cons_eq hafter⟩

theorem refresh_from_links_service : ∃ db₁ rows r db₂ rows',
    reconcileEmployees serviceDb [1] (some (startOfDay serviceDay)) .system
      (startOfDay serviceDay) = .ok (db₁, rows) ∧
    refreshEmployeeAssignments db₁ 1 (some serviceDay) (some serviceNoon) .system
      none serviceNoon = .ok (db₂, rows') ∧
    PolicyRowsReplaced db₁ db₂ 1 serviceNoon
      ((List.filter FinalAssignment.fromPolicy r).map FinalAssignment.throughLinks) := by
  have hsuccess : (reconcileEmployees serviceDb [1] (some (startOfDay serviceDay)) .system
      (startOfDay serviceDay)).toOption.isSome = true := by decide +kernel
  cases hfirst : reconcileEmployees serviceDb [1] (some (startOfDay serviceDay)) .system
      (startOfDay serviceDay) with
  | error e =>
    rw [hfirst] at hsuccess
    cases hsuccess
  | ok out =>
    have hfresh : FreshAssignments serviceDb := by
      intro a ha
      cases ha
    obtain ⟨r, db₂, rows', _, _, hsecond, hreplaced, _⟩ :=
      @refresh_from_links serviceDb out.1 [1] (startOfDay serviceDay)
        serviceNoon (startOfDay serviceDay) serviceNoon .system
        .system out.2 hfresh hfirst 1 (by decide +kernel) (by decide +kernel)
    exact ⟨out.1, out.2, r.assignments, db₂, rows', rfl, hsecond, hreplaced⟩

end Warp
