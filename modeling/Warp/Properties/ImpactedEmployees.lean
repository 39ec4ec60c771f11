import Warp.ConditionCatalog
import Warp.Properties.EmployeeRows
import Warp.Properties.ResolutionMeaning

/-!
# Whom a change of an employee concerns

A condition looks at the employee's own row, at the direct reports and at the ancestors. An employee
that the impact resolvers of the synchronised catalog do not name has all three as before, and so has
every resolution.
-/

namespace Warp

open Infra

/-! ## The catalog names the resolvers -/

/-- An active field that depends on the column names the resolver. -/
def Covers (definitions : Table ConditionFieldDefinition)
    (dependencies : Table ConditionFieldDependency) (column key : String) : Prop :=
  ∃ d ∈ dependencies.rows,
    ((definitions.find? d.conditionFieldDefinitionId).any fun f => f.active) = true ∧
      d.sourceTable = some "employees" ∧ d.sourceColumn = some column ∧ d.impactResolverKey = key

/-- What the impact of a change of an employee row relies on. -/
structure CatalogSynced (definitions : Table ConditionFieldDefinition)
    (dependencies : Table ConditionFieldDependency) : Prop where
  changed : ∀ column ∈ employeeColumns, Covers definitions dependencies column "changed_employee"
  managers : Covers definitions dependencies "manager_id" "old_and_new_managers"
  subtree : Covers definitions dependencies "manager_id" "moved_subtree"

/-- The specs of the code, synchronised into an empty catalog. -/
theorem catalogSynced_empty :
    CatalogSynced ConditionCatalog.empty.sync.definitions
      ConditionCatalog.empty.sync.dependencies := by
  constructor <;> unfold Covers <;> decide +kernel

section

variable {facts : Facts} {mutation : EmployeeMutation} {key : String}

theorem Covers.resolverKeys {column : String}
    (h : Covers facts.conditionFieldDefinitions facts.conditionFieldDependencies column key)
    (hcolumn : column ∈ mutation.changedColumns) : key ∈ resolverKeys facts mutation := by
  obtain ⟨d, hd, hactive, htable, hsource, rfl⟩ := h
  refine List.mem_toFinset.mpr (List.mem_map.mpr ⟨d, Table.mem_select.mpr ⟨hd, ?_⟩, rfl⟩)
  simp [dependsOnChange, hactive, htable, hsource, hcolumn]

theorem mem_findImpacted {ids : List ℕ} (h : findImpactedEmployeeIds facts mutation = .ok ids)
    (hkey : key ∈ resolverKeys facts mutation) {resolver : ImpactResolver}
    (hresolver : impactResolvers.lookup key = some resolver) {e : ℕ}
    (he : e ∈ resolver facts.employees mutation)
    (hpresent : (facts.employees.find? e).isSome) : e ∈ ids := by
  have hfold : ∀ (sets : List (Finset ℕ)) (acc : Finset ℕ), (e ∈ acc ∨ ∃ s ∈ sets, e ∈ s) →
      e ∈ sets.foldl (· ∪ ·) acc := by
    intro sets
    induction sets with
    | nil => exact fun acc hmem => hmem.resolve_right (by simp)
    | cons s rest ih =>
      rintro acc (hacc | ⟨s', hs', hes'⟩)
      · exact ih _ (Or.inl (Finset.mem_union_left _ hacc))
      · rcases List.mem_cons.mp hs' with rfl | hs'
        · exact ih _ (Or.inl (Finset.mem_union_right _ hes'))
        · exact ih _ (Or.inr ⟨s', hs', hes'⟩)
  unfold findImpactedEmployeeIds at h
  split at h
  · next hnil =>
    obtain ⟨d, hd, _⟩ := List.mem_map.mp (List.mem_toFinset.mp hkey)
    have hdepends := (Table.mem_select.mp hd).2
    simp [dependsOnChange, hnil] at hdepends
  · simp only [bind_eq_ok, pure_eq_ok] at h
    obtain ⟨impacted, himpacted, rfl⟩ := h
    obtain ⟨s, hs, hresolve⟩ := traverseAll_mem himpacted (mem_sortedSet.mpr hkey)
    rw [resolveImpact, hresolver] at hresolve
    cases hresolve
    refine List.mem_filter.mpr ⟨mem_sortedSet.mpr (hfold impacted ∅ (Or.inr ⟨_, hs, he⟩)), hpresent⟩

end

/-! ## Who is looked at the same way -/

/-- The reports and the ancestors of an employee are the same in both tables. -/
structure SameReporting (employees employees' : Table Employee) (employeeId : ℕ) : Prop where
  reports : directReportIds employees' employeeId = directReportIds employees employeeId
  ancestors : getAncestorIds employees' employeeId = getAncestorIds employees employeeId

section

variable {employees employees' : Table Employee} {employee : Employee} {day : Date}

theorem directReportCount_eq_card (employees : Table Employee) (employeeId : ℕ) :
    employeeDirectReportCount employees employeeId =
      (directReportIds employees employeeId).card := by
  have hnodup : ((directReports employees employeeId).map fun e => e.id).Nodup :=
    (Table.keys_nodup employees).sublist (List.filter_sublist.map _)
  rw [employeeDirectReportCount, directReportIds, List.toFinset_card_of_nodup hnodup,
    List.length_map]

theorem isManager_eq (employees : Table Employee) (employeeId : ℕ) :
    employeeIsManager employees employeeId =
      decide (directReportIds employees employeeId ≠ ∅) := by
  rw [employeeIsManager, Bool.eq_iff_iff]
  simp [directReportIds]

theorem SameReporting.resolve (h : SameReporting employees employees' employee.id)
    (resolver : Resolver) :
    resolver.resolve ⟨employees', employee, day⟩ = resolver.resolve ⟨employees, employee, day⟩ := by
  cases resolver with
  | isManager =>
    simp only [Resolver.resolve]
    rw [isManager_eq, isManager_eq, h.reports]
  | directReportCount =>
    simp only [Resolver.resolve]
    rw [directReportCount_eq_card, directReportCount_eq_card, h.reports]
  | reportsUnder =>
    simp only [Resolver.resolve]
    rw [h.ancestors]
  | managementLevel =>
    simp only [Resolver.resolve, employeeManagementLevel]
    rw [h.ancestors]
  | _ => rfl

/-- With the same rules, groups and overrides a resolution looks at nothing else. -/
theorem SameReporting.meaning {facts facts' : Facts} (hrules : facts'.toRules = facts.toRules)
    (h : SameReporting facts.employees facts'.employees employee.id)
    (hgroups : ∀ policyId, HasGroupPolicy facts' employee.id policyId ↔
      HasGroupPolicy facts employee.id policyId)
    (hoverrides : activeOverrides facts' employee.id = activeOverrides facts employee.id) :
    SameMeaning facts facts' employee day day where
  values := congrArg Rules.policyFieldValues hrules
  fields := congrArg Rules.assignmentFieldDefinitions hrules
  clauses := congrArg Rules.compiledPolicyClauses hrules
  conditions := congrArg Rules.compiledPolicyConditions hrules
  effective := fun v => by rw [hrules]
  results := fun c _ => by
    rw [hrules]
    exact conditionResult_congr (fun resolver _ => h.resolve resolver) fun _ _ _ _ => rfl
  groups := hgroups
  overrides := hoverrides

end

/-! ## Three changes of the employees -/

section

variable {employees : Table Employee} {e e' x : Employee}

theorem managerIds_congr {employees' : Table Employee} {a : ℕ}
    (h : ∀ b, (∃ r ∈ employees', r.id = a ∧ r.managerId = some b) ↔
      ∃ r ∈ employees, r.id = a ∧ r.managerId = some b) :
    managerIds employees' a = managerIds employees a := by
  ext b
  rw [mem_managerIds, mem_managerIds]
  exact h b

theorem managerIds_insert {a : ℕ} (hne : a ≠ e.id) :
    managerIds (employees.insert e) a = managerIds employees a := by
  refine managerIds_congr fun b => exists_congr fun r => ?_
  rw [Table.mem_insert]
  constructor
  · rintro ⟨rfl | ⟨hr, _⟩, hid, hm⟩
    · exact absurd hid.symm hne
    · exact ⟨hr, hid, hm⟩
  · rintro ⟨hr, hid, hm⟩
    refine ⟨Or.inr ⟨hr, fun hkey => hne ?_⟩, hid, hm⟩
    exact hid.symm.trans hkey

theorem ancestor_exists (hmanagers : ∀ e ∈ employees, ∀ m, e.managerId = some m →
      ∃ manager ∈ employees, manager.id = m) {a id : ℕ} (h : a ∈ getAncestorIds employees id) :
    ∃ manager ∈ employees, manager.id = a := by
  have hlink : ∀ c, Succ (managerIds employees) c a → ∃ manager ∈ employees, manager.id = a := by
    intro c hc
    obtain ⟨r, hr, _, hm⟩ := mem_managerIds.mp hc
    exact hmanagers r hr a hm
  cases mem_getAncestorIds.mp h with
  | single hc => exact hlink _ hc
  | tail _ hc => exact hlink _ hc

/-- A new employee changes the reports of the manager, and nobody's ancestors. -/
theorem sameReporting_new (hfresh : ∀ r ∈ employees, r.id ≠ e.id)
    (hmanagers : ∀ r ∈ employees, ∀ m, r.managerId = some m →
      ∃ manager ∈ employees, manager.id = m)
    (hx : x ∈ employees) (hmanager : e.managerId ≠ some x.id) :
    SameReporting employees (employees.insert e) x.id where
  reports := by
    ext b
    rw [mem_directReportIds, mem_directReportIds]
    refine exists_congr fun r => ?_
    rw [Table.mem_insert_fresh hfresh]
    constructor
    · rintro ⟨rfl | hr, hid, hm⟩
      · exact absurd hm hmanager
      · exact ⟨hr, hid, hm⟩
    · rintro ⟨hr, hrest⟩
      exact ⟨Or.inr hr, hrest⟩
  ancestors := by
    refine (getAncestorIds_congr (managerIds_insert (hfresh x hx)).symm fun a ha => ?_).symm
    obtain ⟨manager, hmem, rfl⟩ := ancestor_exists hmanagers ha
    exact (managerIds_insert (hfresh manager hmem)).symm

/-- A changed row changes the reports of the old and the new manager, and the ancestors of the
employee's subtree. -/
theorem sameReporting_changed (he : e ∈ employees) (hid : e'.id = e.id) (hx : x.id ≠ e.id)
    (hreports : e'.managerId = some x.id ↔ e.managerId = some x.id)
    (hsubtree : e'.managerId = e.managerId ∨
      x.id ∉ getDescendantIds (employees.insert e') e.id) :
    SameReporting employees (employees.insert e') x.id where
  reports := by
    ext b
    rw [mem_directReportIds, mem_directReportIds]
    constructor
    · rintro ⟨r, hr, hb, hm⟩
      rcases Table.mem_insert.mp hr with rfl | ⟨hr, _⟩
      · exact ⟨e, he, hid.symm.trans hb, hreports.mp hm⟩
      · exact ⟨r, hr, hb, hm⟩
    · rintro ⟨r, hr, hb, hm⟩
      by_cases hsame : r.id = e'.id
      · have hre : r = e := Table.key_inj hr he (hsame.trans hid)
        rw [hre] at hb hm
        exact ⟨e', Table.mem_insert_self, hid.trans hb, hreports.mpr hm⟩
      · exact ⟨r, Table.mem_insert.mpr (Or.inr ⟨hr, hsame⟩), hb, hm⟩
  ancestors := by
    have hother : ∀ a, a ≠ e.id →
        managerIds (employees.insert e') a = managerIds employees a := by
      intro a ha
      refine managerIds_insert ?_
      rw [hid]
      exact ha
    rcases hsubtree with hsame | hnot
    · -- the links are the same everywhere
      have hall : ∀ a, managerIds (employees.insert e') a = managerIds employees a := by
        intro a
        by_cases ha : a = e.id
        · refine managerIds_congr fun b => ?_
          rw [ha]
          constructor
          · rintro ⟨r, hr, hrid, hm⟩
            rcases Table.mem_insert.mp hr with rfl | ⟨_, hne⟩
            · exact ⟨e, he, rfl, hsame.symm.trans hm⟩
            · exact absurd (hrid.trans hid.symm) hne
          · rintro ⟨r, hr, hrid, hm⟩
            have hre : r = e := Table.key_inj hr he hrid
            rw [hre] at hm
            exact ⟨e', Table.mem_insert_self, hid, hsame.trans hm⟩
        · exact hother a ha
      exact getAncestorIds_congr (hall _) fun a _ => hall a
    · refine getAncestorIds_congr (hother _ hx) fun a ha => hother a fun hae => hnot ?_
      rw [hae] at ha
      exact mem_getAncestorIds_iff_getDescendantIds.mp ha

/-- Who is neither below nor the manager of a deleted employee keeps row, reports and ancestors. -/
theorem sameReporting_deleted (he : e ∈ employees) (hx : x ∈ employees) (hne : x.id ≠ e.id)
    (hmanager : e.managerId ≠ some x.id) (hbelow : x.id ∉ getDescendantIds employees e.id) :
    x ∈ withoutEmployee employees e.id ∧
      SameReporting employees (withoutEmployee employees e.id) x.id := by
  have hnotAbove : e.id ∉ getAncestorIds employees x.id :=
    fun h => hbelow (mem_getAncestorIds_iff_getDescendantIds.mp h)
  have hreport : ∀ {a b : ℕ}, (a = x.id ∨ a ∈ getAncestorIds employees x.id) →
      b ∈ managerIds employees a → b ∈ getAncestorIds employees x.id := by
    rintro a b (rfl | ha) hb
    · exact mem_getAncestorIds.mpr (.single hb)
    · exact mem_getAncestorIds.mpr (.tail (mem_getAncestorIds.mp ha) hb)
  have hkept : ∀ r ∈ employees, r.id ≠ e.id → r.managerId ≠ some e.id →
      r ∈ withoutEmployee employees e.id :=
    fun r hr hid hm => mem_withoutEmployee.mpr ⟨r, hr, hid, by rw [if_neg hm]⟩
  have hlinks : ∀ a, (a = x.id ∨ a ∈ getAncestorIds employees x.id) →
      managerIds (withoutEmployee employees e.id) a = managerIds employees a := by
    intro a ha
    refine managerIds_congr fun b => ⟨?_, ?_⟩
    · rintro ⟨r, hr, hid, hm⟩
      exact ⟨r, (withoutEmployee_manager hr hm).2, hid, hm⟩
    · rintro ⟨r, hr, hid, hm⟩
      have habove := hreport ha (mem_managerIds.mpr ⟨r, hr, hid, hm⟩)
      refine ⟨r, hkept r hr (fun hre => ?_) (fun hme => ?_), hid, hm⟩
      · rcases ha with rfl | ha
        · exact hne (hid.symm.trans hre)
        · rw [← hid, hre] at ha
          exact hnotAbove ha
      · rw [hm] at hme
        rw [Option.some.inj hme] at habove
        exact hnotAbove habove
  refine ⟨hkept x hx hne fun hm => ?_, ?_, ?_⟩
  · exact hnotAbove (hreport (Or.inl rfl) (mem_managerIds.mpr ⟨x, hx, rfl, hm⟩))
  · ext b
    rw [mem_directReportIds, mem_directReportIds]
    constructor
    · rintro ⟨r, hr, hid, hm⟩
      exact ⟨r, (withoutEmployee_manager hr hm).2, hid, hm⟩
    · rintro ⟨r, hr, hid, hm⟩
      refine ⟨r, hkept r hr (fun hre => hmanager ?_) (fun hme => hne ?_), hid, hm⟩
      · rw [← Table.key_inj hr he hre]
        exact hm
      · exact Option.some.inj (hm.symm.trans hme)
  · exact (getAncestorIds_congr (hlinks _ (Or.inl rfl)).symm
      fun a ha => (hlinks a (Or.inr ha)).symm).symm

end

/-! ## Whom the changes of an employee leave out -/

section

variable {facts : Facts} {e e' x : Employee} {ids : List ℕ}

/-- A new employee concerns the manager only. -/
theorem sameReporting_created (hfresh : ∀ r ∈ facts.employees, r.id ≠ e.id)
    (hmanagers : ∀ r ∈ facts.employees, ∀ m, r.managerId = some m →
      ∃ manager ∈ facts.employees, manager.id = m)
    (hcatalog : CatalogSynced facts.conditionFieldDefinitions facts.conditionFieldDependencies)
    (hids : findImpactedEmployeeIds { facts with employees := facts.employees.insert e }
      ⟨e.id, employeeColumns, none, some e⟩ = .ok ids)
    (hx : x ∈ facts.employees) (hnot : x.id ∉ ids) :
    SameReporting facts.employees (facts.employees.insert e) x.id := by
  have hcolumn : "manager_id" ∈ employeeColumns := by decide
  refine sameReporting_new hfresh hmanagers hx fun hm => hnot ?_
  refine mem_findImpacted hids (hcatalog.managers.resolverKeys hcolumn) rfl
    (Finset.mem_union_right _ (Option.mem_toFinset.mpr hm)) ?_
  exact Table.isSome_find?_insert (Table.isSome_find?.mpr ⟨x, hx, rfl⟩)

/-- A changed employee concerns the old and the new manager and the subtree that moves. -/
theorem sameReporting_updated (he : e ∈ facts.employees) (hid : e'.id = e.id)
    (hcatalog : CatalogSynced facts.conditionFieldDefinitions facts.conditionFieldDependencies)
    (hids : findImpactedEmployeeIds { facts with employees := facts.employees.insert e' }
      ⟨e'.id, changedColumns e e', some e, some e'⟩ = .ok ids)
    (hx : x ∈ facts.employees) (hne : x.id ≠ e.id) (hnot : x.id ∉ ids) :
    SameReporting facts.employees (facts.employees.insert e') x.id := by
  have hpresent : ((facts.employees.insert e').find? x.id).isSome :=
    Table.isSome_find?_insert (Table.isSome_find?.mpr ⟨x, hx, rfl⟩)
  by_cases hmoved : e.managerId = e'.managerId
  · exact sameReporting_changed he hid hne (by rw [hmoved]) (Or.inl hmoved.symm)
  · have hcolumn : "manager_id" ∈ changedColumns e e' := by simp [changedColumns, hmoved]
    have hmanagers : ∀ m, (e.managerId = some m ∨ e'.managerId = some m) → x.id ≠ m := by
      rintro m hm rfl
      refine hnot (mem_findImpacted hids (hcatalog.managers.resolverKeys hcolumn) rfl ?_ hpresent)
      rcases hm with hm | hm
      · exact Finset.mem_union_left _ (Option.mem_toFinset.mpr hm)
      · exact Finset.mem_union_right _ (Option.mem_toFinset.mpr hm)
    refine sameReporting_changed he hid hne ?_ (Or.inr fun hbelow => hnot ?_)
    · exact iff_of_false (fun hm => hmanagers _ (Or.inr hm) rfl)
        fun hm => hmanagers _ (Or.inl hm) rfl
    · -- below the new row means in the subtree that moves
      refine mem_findImpacted hids (hcatalog.subtree.resolverKeys hcolumn) rfl ?_ hpresent
      have hfind : (facts.employees.insert e').find? e'.id = some e' := Table.find?_insert_self _ _
      show x.id ∈ movedSubtree (facts.employees.insert e') _
      simp only [movedSubtree, hfind]
      rw [hid]
      exact Finset.mem_insert_of_mem hbelow

end

end Warp
