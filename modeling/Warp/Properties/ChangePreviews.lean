import Warp.Properties.AuditJournal
import Warp.Properties.PreviewIds
import Warp.Properties.VersionOutputs
import Warp.Properties.RowRenewal

/-!
# What a preview announces

A preview compares what the caller sees before and after a change by texts. The comparison misses
nothing: the employees that it lists are those of whom the operation itself, at the same time, opens or
ends a row that the caller sees.
-/

namespace Warp

open Infra Auth

/-! ## What the caller sees of an employee -/

def shownRows (db : Db) (scope : PreviewScope) (employeeId : ℕ) : List EmployeeAssignment :=
  (visibleOpenRows db scope).filter fun a => a.employeeId = employeeId

/-- A row that the caller sees is opened or ended. -/
def Affected (db db' : Db) (scope : PreviewScope) (employeeId : ℕ) : Prop :=
  ∃ a, scope.employees.canAccess employeeId = true ∧
    scope.fields.canAccess a.assignmentFieldDefinitionId = true ∧
      ¬ (a ∈ openAssignments db employeeId ↔ a ∈ openAssignments db' employeeId)

section

variable {db db' : Db} {scope : PreviewScope} {employeeId : ℕ}

theorem mem_visibleOpenRows {a : EmployeeAssignment} : a ∈ visibleOpenRows db scope ↔
    a ∈ openAssignments db a.employeeId ∧ scope.employees.canAccess a.employeeId = true ∧
      scope.fields.canAccess a.assignmentFieldDefinitionId = true := by
  rw [visibleOpenRows, mem_orderBy, Table.mem_select, mem_openAssignments, Bool.and_eq_true,
    Bool.and_eq_true, Option.isNone_iff_eq_none]
  tauto

theorem mem_shownRows {a : EmployeeAssignment} : a ∈ shownRows db scope employeeId ↔
    a ∈ openAssignments db employeeId ∧ scope.employees.canAccess employeeId = true ∧
      scope.fields.canAccess a.assignmentFieldDefinitionId = true := by
  rw [shownRows, List.mem_filter, mem_visibleOpenRows, decide_eq_true_eq]
  constructor
  · rintro ⟨h, rfl⟩
    exact h
  · intro h
    have hid := (mem_openAssignments.mp h.1).2.1
    subst hid
    exact ⟨h, rfl⟩

/-- The rows are sorted, so they are told by their members. -/
theorem shownRows_congr
    (h : ∀ a, a ∈ shownRows db scope employeeId ↔ a ∈ shownRows db' scope employeeId) :
    shownRows db scope employeeId = shownRows db' scope employeeId := by
  unfold shownRows visibleOpenRows at h ⊢
  rw [← orderBy_filter, ← orderBy_filter] at h ⊢
  simp only [mem_orderBy] at h
  congr 1
  have hsorted : ∀ d : Db, ((d.employeeAssignments.select fun a => a.effectiveUntil.isNone &&
      scope.employees.canAccess a.employeeId &&
        scope.fields.canAccess a.assignmentFieldDefinitionId).filter
          fun a => decide (a.employeeId = employeeId)).Pairwise fun a b => a.id < b.id :=
    fun d => List.Pairwise.filter _ (List.Pairwise.filter _ d.employeeAssignments.sorted)
  exact eq_of_strictly_sorted (hsorted db) (hsorted db') h

theorem affected_iff : Affected db db' scope employeeId ↔
    ∃ a, ¬ (a ∈ shownRows db scope employeeId ↔ a ∈ shownRows db' scope employeeId) := by
  refine exists_congr fun a => ?_
  rw [mem_shownRows, mem_shownRows]
  tauto

/-- The list of an employee, however a row is shown. -/
theorem shown_get? {β : Type} (show? : EmployeeAssignment → β) :
    ((Dict.collect ((visibleOpenRows db scope).map fun a =>
        (a.employeeId, show? a))).get? employeeId).getD [] =
      (shownRows db scope employeeId).map show? := by
  rw [Dict.get?_collect, List.filter_map, List.map_map]
  rfl

/-- What is shown of a row tells its assignment key, and a row that stays is shown as it was. -/
structure Tells {β : Type} (db db' : Db) (scope : PreviewScope) (employeeId : ℕ)
    (f g : EmployeeAssignment → β) : Prop where
  key : ∀ a ∈ shownRows db scope employeeId, ∀ b ∈ shownRows db' scope employeeId, f a = g b →
    a.assignmentKey = b.assignmentKey
  same : ∀ a ∈ shownRows db scope employeeId, a ∈ shownRows db' scope employeeId → f a = g a

variable {β : Type} {f g : EmployeeAssignment → β} {a : EmployeeAssignment}

theorem Tells.stays_iff (ht : Tells db db' scope employeeId f g) (h : Renewed db db' employeeId)
    (ha : a ∈ shownRows db scope employeeId) :
    f a ∈ (shownRows db' scope employeeId).map g ↔ a ∈ openAssignments db' employeeId := by
  have hopen := mem_shownRows.mp ha
  constructor
  · intro hmem
    obtain ⟨b, hb, hba⟩ := List.mem_map.mp hmem
    by_contra hnot
    refine h.ended a hopen.1 hnot ?_
    rw [ht.key a ha b hb hba.symm]
    exact List.mem_map_of_mem (mem_shownRows.mp hb).1
  · intro hstays
    have hshown : a ∈ shownRows db' scope employeeId := mem_shownRows.mpr ⟨hstays, hopen.2⟩
    rw [ht.same a ha hshown]
    exact List.mem_map_of_mem hshown

theorem Tells.existed_iff (ht : Tells db db' scope employeeId f g) (h : Renewed db db' employeeId)
    (ha : a ∈ shownRows db' scope employeeId) :
    g a ∈ (shownRows db scope employeeId).map f ↔ a ∈ openAssignments db employeeId := by
  have hopen := mem_shownRows.mp ha
  constructor
  · intro hmem
    obtain ⟨b, hb, hba⟩ := List.mem_map.mp hmem
    by_contra hnot
    refine h.created a hopen.1 hnot ?_
    rw [← ht.key b hb a ha hba]
    exact List.mem_map_of_mem (mem_shownRows.mp hb).1
  · intro hexisted
    have hshown : a ∈ shownRows db scope employeeId := mem_shownRows.mpr ⟨hexisted, hopen.2⟩
    rw [← ht.same a hshown ha]
    exact List.mem_map_of_mem hshown

theorem Tells.map_eq (ht : Tells db db' scope employeeId f g)
    (hnot : ¬ Affected db db' scope employeeId) :
    shownRows db scope employeeId = shownRows db' scope employeeId ∧
      (shownRows db scope employeeId).map f = (shownRows db' scope employeeId).map g := by
  rw [affected_iff, not_exists] at hnot
  have hmem := fun a => not_not.mp (hnot a)
  have hrows := shownRows_congr hmem
  refine ⟨hrows, ?_⟩
  rw [← hrows]
  exact List.map_congr_left fun a ha => ht.same a ha ((hmem a).mp ha)

theorem Tells.affected_iff (ht : Tells db db' scope employeeId f g)
    (h : Renewed db db' employeeId) : Affected db db' scope employeeId ↔
      (shownRows db scope employeeId).map f ≠ (shownRows db' scope employeeId).map g := by
  refine ⟨fun haffected hmap => ?_, fun hne => by_contra fun hnot => hne (ht.map_eq hnot).2⟩
  obtain ⟨a, hdiffers⟩ := Warp.affected_iff.mp haffected
  refine hdiffers ⟨fun ha => ?_, fun ha => ?_⟩
  · have hstays := (ht.stays_iff h ha).mp (hmap ▸ List.mem_map_of_mem ha)
    exact mem_shownRows.mpr ⟨hstays, (mem_shownRows.mp ha).2⟩
  · have hexisted := (ht.existed_iff h ha).mp (hmap.symm ▸ List.mem_map_of_mem ha)
    exact mem_shownRows.mpr ⟨hexisted, (mem_shownRows.mp ha).2⟩

end

/-! ## Previews of policies -/

/-- The operation that the preview is about -/
def PolicyChange.operation : PolicyChange → Operation
  | .policyCreate data => .createPolicy data
  | .policyVersionCreate policyId data => .addVersion policyId data

section

variable {db db' : Db} {actor : Actor} {now : DateTime}

theorem applyPolicyChange_eq (data : PolicyChange) :
    applyPolicyChange db data actor now = runOperation db actor now data.operation := by
  cases data with
  | policyCreate data =>
    simp only [applyPolicyChange, PolicyChange.operation, runOperation, createPolicy]
    cases createPolicyVersionFromInput _ _ _ _ _ with
    | error e => rfl
    | ok created =>
      simp only [bind, Except.bind]
      cases refreshEmployeesAffectedByPolicy created.1 now actor <;> rfl
  | policyVersionCreate policyId data =>
    simp only [applyPolicyChange, PolicyChange.operation, runOperation, addVersion]
    cases policyById db.facts.toRules policyId with
    | error e => rfl
    | ok policy =>
      simp only [bind, Except.bind]
      cases createPolicyVersionFromInput db policy.id data actor now with
      | error e => rfl
      | ok created =>
        dsimp only
        cases refreshEmployeesAffectedByPolicy created.1 now actor <;> rfl

theorem policyChange_renewed {data : PolicyChange} (hs : SoundHistory db)
    (h : runOperation db actor now data.operation = .ok db') (e : ℕ) : Renewed db db' e := by
  cases data with
  | policyCreate data =>
    obtain ⟨⟨_, p⟩, hrun, rfl⟩ := exceptMap_eq_ok.mp h
    exact createPolicy_renewed hs hrun e
  | policyVersionCreate policyId data =>
    obtain ⟨⟨_, v⟩, hrun, rfl⟩ := exceptMap_eq_ok.mp h
    exact addVersion_renewed hs hrun e

theorem mem_affectedEmployees {scope : PreviewScope} {e : ℕ} (h : Renewed db db' e) :
    e ∈ affectedEmployees (currentAssignmentKeys db scope) (currentAssignmentKeys db' scope) ↔
      Affected db db' scope e := by
  have htells : Tells db db' scope e EmployeeAssignment.previewKey EmployeeAssignment.previewKey :=
    ⟨fun _ _ _ _ => EmployeeAssignment.assignmentKey_of_previewKey, fun _ _ _ => rfl⟩
  rw [htells.affected_iff h]
  rw [affectedEmployees, List.mem_filter, mem_sortedSet, List.mem_toFinset, decide_eq_true_eq,
    List.mem_append, currentAssignmentKeys, currentAssignmentKeys, shown_get?, shown_get?]
  refine and_iff_right_of_imp fun hne => ?_
  -- an employee without a list has the empty list on both sides
  by_contra hnone
  rw [not_or, ← Dict.get?_eq_none, ← Dict.get?_eq_none] at hnone
  rw [← shown_get?, ← shown_get?, hnone.1, hnone.2] at hne
  exact hne rfl

theorem policyAssignmentPreview_ids (data : PolicyChange) (affected : List ℕ)
    (conflict : Option ServiceError) :
    (policyAssignmentPreview db data affected conflict).affectedEmployees.map
      (fun e => e.employeeId) = affected := by
  rw [policyAssignmentPreview, List.map_map]
  exact List.map_id affected

/-- The error of a value is no conflict. -/
theorem normalizedValues_error {rules : Rules} {values : List (ℕ × String)} {e : ServiceError}
    (h : normalizedValues rules values = .error e) : e.isPolicyPreviewConflict = false := by
  rw [normalizedValues, bind_eq_error] at h
  rcases h with hmissing | ⟨_, _, hitems⟩
  · rw [ensure_eq_error hmissing]
    rfl
  · obtain ⟨item, _, hitem⟩ := traverseAll_eq_error hitems
    simp only [bind_eq_error] at hitem
    rcases hitem with hfield | ⟨definition, _, hvalue | ⟨_, _, hout⟩⟩
    · rw [orRaise_eq_error hfield]
      rfl
    · unfold normalizeAssignmentValue at hvalue
      dsimp only at hvalue
      split at hvalue
      · cases hvalue
        rfl
      · split at hvalue
        · cases hvalue
        · split at hvalue <;> cases hvalue
          rfl
    · cases hout

/-- Normal forms are read off the fields alone. -/
theorem normalizedValues_congr {rules rules' : Rules} (values : List (ℕ × String))
    (h : rules'.assignmentFieldDefinitions = rules.assignmentFieldDefinitions) :
    normalizedValues rules' values = normalizedValues rules values := by
  simp only [normalizedValues, getAssignmentFieldDefinition, h]

theorem createPolicyVersionFromInput_error {policyId : ℕ} {data : PolicyVersionCreate} {e : ServiceError}
    (h : normalizedValues db.facts.toRules data.values = .error e)
    (hfields : db'.facts.assignmentFieldDefinitions = db.facts.assignmentFieldDefinitions) :
    createPolicyVersionFromInput db' policyId data actor now = .error e := by
  rw [createPolicyVersionFromInput, policyVersionInput, normalizedValues_congr _ hfields, h]
  rfl

/-- Whenever a preview answers, the values have been brought into normal form. -/
theorem applyPolicyChange_normalized {data : PolicyChange}
    (h : ∀ e, applyPolicyChange db data actor now = .error e → e.isPolicyPreviewConflict = true) :
    ∃ values, normalizedValues db.facts.toRules data.version.values = .ok values := by
  cases hvalues : normalizedValues db.facts.toRules data.version.values with
  | ok values => exact ⟨values, rfl⟩
  | error e =>
    have hno := normalizedValues_error hvalues
    obtain ⟨e', happly, hno'⟩ : ∃ e', applyPolicyChange db data actor now = .error e' ∧
        e'.isPolicyPreviewConflict = false := by
      cases data with
      | policyCreate data =>
        refine ⟨e, ?_, hno⟩
        rw [applyPolicyChange, bind_eq_error]
        exact Or.inl (createPolicyVersionFromInput_error hvalues rfl)
      | policyVersionCreate policyId data =>
        cases hpolicy : policyById db.facts.toRules policyId with
        | error e' =>
          refine ⟨e', by rw [applyPolicyChange, hpolicy]; rfl, ?_⟩
          rw [orRaise_eq_error hpolicy]
          rfl
        | ok policy =>
          refine ⟨e, ?_, hno⟩
          rw [applyPolicyChange, hpolicy]
          have hcreate := @createPolicyVersionFromInput_error db db actor now policy.id data e hvalues rfl
          exact bind_eq_error.mpr (Or.inr ⟨policy, rfl, bind_eq_error.mpr (Or.inl hcreate)⟩)
    rw [h e' happly] at hno'
    cases hno'

/-- The outputs of the version, as an answer shows them -/
def PolicyAssignmentPreview.outputs (answer : PolicyAssignmentPreview) : List (ℕ × String) :=
  answer.assignmentsPerMatch.map fun item => (item.assignmentFieldDefinitionId, item.value)

/-- The answer shows the values without the blanks around them. -/
theorem policyAssignmentPreview_outputs {rules : Rules} {data : PolicyChange} {affected : List ℕ}
    {conflict : Option ServiceError} {values : List (ℕ × String)}
    (h : normalizedValues rules data.version.values = .ok values) :
    (policyAssignmentPreview db (data.normalized rules) affected conflict).outputs =
      data.version.values.map fun item => (item.1, Text.strip item.2) := by
  have hversion : (data.normalized rules).version.values = values := by
    unfold PolicyChange.normalized
    rw [h]
    cases data <;> rfl
  rw [← normalizedValues_ok h, PolicyAssignmentPreview.outputs, policyAssignmentPreview, hversion,
    List.map_map]
  exact List.map_id values

theorem sortedSet_sorted (s : Finset ℕ) : (sortedSet s).Pairwise (· < ·) := by
  obtain ⟨m, hm⟩ := s
  induction m using Quot.induction_on with
  | h l =>
    have hle : (orderBy id l).Pairwise (· ≤ ·) := orderBy_sorted id l
    exact hle.imp₂ (fun a b hab hne => lt_of_le_of_ne hab hne) (orderBy_nodup hm)

end

/-- Whatever has happened: the preview of a policy lists exactly the employees of whom the operation
opens or ends a row that the caller sees, with the outputs in normal form, it tells a conflict that the
operation meets, and it fails where the operation fails otherwise. -/
theorem preview_policy_exact (facts : Facts) (sequences : Sequences) (calls : List OperationCall)
    (data : PolicyChange) (actor : Actor) (scope : PreviewScope) (now : DateTime) :
    let db := runOperations (.unreconciled facts sequences) calls
    (∀ db', runOperation db actor now data.operation = .ok db' →
      ∃ answer, previewPolicy db data actor scope now = .ok answer ∧ answer.conflict = none ∧
        answer.outputs = (data.version.values.map fun item => (item.1, Text.strip item.2)) ∧
        (answer.affectedEmployees.map fun e => e.employeeId).Pairwise (· < ·) ∧
        ∀ id, id ∈ answer.affectedEmployees.map (fun e => e.employeeId) ↔
          Affected db db' scope id) ∧
    ∀ err, runOperation db actor now data.operation = .error err →
      if err.isPolicyPreviewConflict then
        ∃ answer, previewPolicy db data actor scope now = .ok answer ∧ answer.conflict = some err ∧
          answer.outputs = (data.version.values.map fun item => (item.1, Text.strip item.2)) ∧
          answer.affectedEmployees = []
      else previewPolicy db data actor scope now = .error err := by
  intro db
  have hs : SoundHistory db := SoundHistory.run calls
    (AssignmentHistory.start rfl : AssignmentHistory (.unreconciled facts sequences)).sound
  refine ⟨fun db' hrun => ?_, fun err hrun => ?_⟩
  · rw [← applyPolicyChange_eq] at hrun
    obtain ⟨values, hvalues⟩ := applyPolicyChange_normalized fun e herror => by
      rw [hrun] at herror
      cases herror
    unfold previewPolicy
    rw [hrun]
    refine ⟨_, rfl, rfl, policyAssignmentPreview_outputs hvalues, ?_, fun id => ?_⟩
    · rw [policyAssignmentPreview_ids]
      exact (sortedSet_sorted _).filter _
    · rw [applyPolicyChange_eq] at hrun
      rw [policyAssignmentPreview_ids]
      exact mem_affectedEmployees (policyChange_renewed hs hrun id)
  · rw [← applyPolicyChange_eq] at hrun
    split
    · next h =>
      obtain ⟨values, hvalues⟩ := applyPolicyChange_normalized fun e herror => by
        rw [hrun] at herror
        cases herror
        exact h
      unfold previewPolicy
      rw [hrun]
      simp only [h, if_true]
      exact ⟨_, rfl, rfl, policyAssignmentPreview_outputs hvalues, rfl⟩
    · next h =>
      unfold previewPolicy
      rw [hrun]
      simp [h]

/-! ## The change of an employee -/

/-- What a change proposes: the ids of overrides that it draws. -/
structure Proposes (db db' : Db) (proposed : Finset ℕ) : Prop where
  fresh : ∀ id ∈ proposed, db.sequences.employeeOverride ≤ id
  drawn : ∀ id < db'.sequences.employeeOverride, id < db.sequences.employeeOverride ∨ id ∈ proposed

section

variable {db db' : Db} {scope : PreviewScope} {employeeId : ℕ} {included proposed : Finset ℕ}

/-- How the rows are shown before a change -/
def shownBefore (db : Db) : EmployeeAssignment → AssignmentPreview :=
  previewRow db.facts.toRules (overridesContext ∅ ∅)

/-- How the rows are shown after a change that proposes overrides -/
def shownAfter (db' : Db) (included proposed : Finset ℕ) : EmployeeAssignment → AssignmentPreview :=
  previewRow db'.facts.toRules (overridesContext included proposed)

theorem currentAssignments_get? : ((currentAssignments db scope
      (overridesContext included proposed)).get? employeeId).getD [] =
    (shownRows db scope employeeId).map
      (previewRow db.facts.toRules (overridesContext included proposed)) := by
  rw [← shown_get?, currentAssignments]
  simp only [overridesContext, Finset.union_empty]

theorem listDifference_map {rows : List EmployeeAssignment} {f : EmployeeAssignment → AssignmentPreview}
    {right : List AssignmentPreview} {p : EmployeeAssignment → Prop} [DecidablePred p]
    (h : ∀ a ∈ rows, (f a).key ∈ right.map AssignmentPreview.key ↔ p a) :
    listDifference (rows.map f) right = (rows.filter fun a => ¬ p a).map f := by
  rw [listDifference, List.filter_map]
  congr 1
  refine List.filter_congr fun a ha => ?_
  simp [← h a ha]

theorem listDifference_self (l : List AssignmentPreview) : listDifference l l = [] := by
  refine List.filter_eq_nil_iff.mpr fun x hx => ?_
  simpa using ⟨x, hx, rfl⟩

theorem changedFields_self (l : List AssignmentPreview) : changedFields l l = [] := by
  refine List.filterMap_eq_nil_iff.mpr fun fieldId _ => ?_
  rw [if_pos rfl]

/-- What is shown before and after is told apart by the keys of the items. -/
theorem tells_keys (hs : SourcedRows db) (hs' : SourcedRows db')
    (hfields : db'.facts.assignmentFieldDefinitions = db.facts.assignmentFieldDefinitions)
    (hnew : Proposes db db' proposed) :
    Tells db db' scope employeeId (fun a => (shownBefore db a).key)
      (fun a => (shownAfter db' included proposed a).key) where
  key a ha b hb h := by
    have hsource := hs.rows a (mem_openAssignments.mp (mem_shownRows.mp ha).1).1
    have hsource' := hs'.rows b (mem_openAssignments.mp (mem_shownRows.mp hb).1).1
    exact previewRow_key hsource hsource' h
  same a ha _ := by
    have hsource := hs.rows a (mem_openAssignments.mp (mem_shownRows.mp ha).1).1
    exact congrArg AssignmentPreview.key (previewRow_same hsource hfields hnew.fresh).symm

/-- The rows that the caller sees end. -/
def endedRows (db db' : Db) (scope : PreviewScope) (employeeId : ℕ) : List EmployeeAssignment :=
  (shownRows db scope employeeId).filter fun a => a ∉ openAssignments db' employeeId

/-- The employees before and after, as `_assignment_changes` receives them -/
def shownChange (db db' : Db) (scope : PreviewScope) (included proposed : Finset ℕ)
    (employeeId : ℕ) : EmployeePreviewChange :=
  employeeChange db' (currentAssignments db scope (overridesContext ∅ ∅))
    (currentAssignments db' scope (overridesContext included proposed))
    (overridesContext included proposed) employeeId

theorem shownChange_lists (h : Renewed db db' employeeId)
    (ht : Tells db db' scope employeeId (fun a => (shownBefore db a).key)
      (fun a => (shownAfter db' included proposed a).key)) :
    (shownChange db db' scope included proposed employeeId).removed =
        (endedRows db db' scope employeeId).map (shownBefore db) ∧
      (shownChange db db' scope included proposed employeeId).added =
        (endedRows db' db scope employeeId).map (shownAfter db' included proposed) := by
  simp only [shownChange, employeeChange, currentAssignments_get?]
  refine ⟨listDifference_map fun a ha => ?_, listDifference_map fun a ha => ?_⟩
  · rw [List.map_map]
    exact ht.stays_iff h ha
  · rw [List.map_map]
    exact ht.existed_iff h ha

theorem tells_items (hs : SourcedRows db) (hs' : SourcedRows db')
    (hfields : db'.facts.assignmentFieldDefinitions = db.facts.assignmentFieldDefinitions)
    (hnew : Proposes db db' proposed) :
    Tells db db' scope employeeId (shownBefore db) (shownAfter db' included proposed) where
  key a ha b hb h := (tells_keys hs hs' hfields hnew).key a ha b hb (congrArg _ h)
  same a ha _ := by
    have hsource := hs.rows a (mem_openAssignments.mp (mem_shownRows.mp ha).1).1
    exact (previewRow_same hsource hfields hnew.fresh).symm

/-- A change is listed with something in it exactly for the employees that are affected. -/
theorem shownChange_any (h : Renewed db db' employeeId)
    (ht : Tells db db' scope employeeId (fun a => (shownBefore db a).key)
      (fun a => (shownAfter db' included proposed a).key))
    (hitems : Tells db db' scope employeeId (shownBefore db) (shownAfter db' included proposed)) :
    (shownChange db db' scope included proposed employeeId).any = true ↔
      Affected db db' scope employeeId := by
  obtain ⟨hremoved, hadded⟩ := shownChange_lists h ht
  constructor
  · contrapose
    intro hnot
    have hsame : ((currentAssignments db scope (overridesContext ∅ ∅)).get? employeeId).getD [] =
        ((currentAssignments db' scope (overridesContext included proposed)).get?
          employeeId).getD [] := by
      rw [currentAssignments_get?, currentAssignments_get?]
      exact (hitems.map_eq hnot).2
    simp [EmployeePreviewChange.any, shownChange, employeeChange, hsame, listDifference_self,
      changedFields_self]
  · intro haffected
    obtain ⟨a, hdiffers⟩ := affected_iff.mp haffected
    rw [EmployeePreviewChange.any, hremoved, hadded]
    by_cases ha : a ∈ shownRows db scope employeeId
    · have hended : a ∈ endedRows db db' scope employeeId := by
        refine List.mem_filter.mpr ⟨ha, decide_eq_true fun hopen => hdiffers ?_⟩
        exact iff_of_true ha (mem_shownRows.mpr ⟨hopen, (mem_shownRows.mp ha).2⟩)
      have hne := List.ne_nil_of_mem hended
      simp [hne]
    · have ha' : a ∈ shownRows db' scope employeeId := by
        by_contra hnot
        exact hdiffers (iff_of_false ha hnot)
      have hended : a ∈ endedRows db' db scope employeeId := by
        refine List.mem_filter.mpr ⟨ha', decide_eq_true fun hopen => ha ?_⟩
        exact mem_shownRows.mpr ⟨hopen, (mem_shownRows.mp ha').2⟩
      have hne := List.ne_nil_of_mem hended
      simp [hne]

theorem filter_filterMap {α γ : Type} {p q : α → Bool} {c : α → γ} {any : γ → Bool}
    (hany : ∀ x, any (c x) = p x) (l : List α) :
    (l.filterMap fun x => if p x || q x then some (c x) else none).filter any =
      (l.filter p).map c := by
  induction l with
  | nil => rfl
  | cons x l ih =>
    rw [List.filterMap_cons]
    by_cases hp : p x = true
    · rw [if_pos (by simp [hp]), List.filter_cons_of_pos (by simpa [hany] using hp), ih,
        List.filter_cons_of_pos hp, List.map_cons]
    · rw [List.filter_cons_of_neg hp]
      split
      · exact ih
      · next hx =>
        split at hx
        · cases hx
          rw [List.filter_cons_of_neg (by simpa [hany] using hp), ih]
        · exact absurd hx (by simp)

/-- The employees of whom something is listed -/
def listedEmployees (db db' : Db) (scope : PreviewScope) (included proposed : Finset ℕ) : List ℕ :=
  (sortedSet (((currentAssignments db scope (overridesContext ∅ ∅)).keys ++
    (currentAssignments db' scope (overridesContext included proposed)).keys).toFinset ∪
      included)).filter fun id => (shownChange db db' scope included proposed id).any

theorem assignmentChanges_any :
    (assignmentChanges db' (currentAssignments db scope (overridesContext ∅ ∅))
      (currentAssignments db' scope (overridesContext included proposed))
      (overridesContext included proposed)).filter EmployeePreviewChange.any =
    (listedEmployees db db' scope included proposed).map
      (shownChange db db' scope included proposed) := by
  rw [assignmentChanges, listedEmployees]
  exact filter_filterMap (fun _ => rfl) _

theorem mem_listedEmployees : employeeId ∈ listedEmployees db db' scope included proposed ↔
    (shownChange db db' scope included proposed employeeId).any = true := by
  rw [listedEmployees, List.mem_filter, mem_sortedSet, Finset.mem_union, List.mem_toFinset,
    List.mem_append]
  refine and_iff_right_of_imp fun hany => Or.inl ?_
  -- without a list on either side nothing is listed
  by_contra hnone
  rw [not_or, ← Dict.get?_eq_none, ← Dict.get?_eq_none] at hnone
  simp [EmployeePreviewChange.any, shownChange, employeeChange, hnone.1, hnone.2,
    listDifference_self, changedFields_self] at hany

end

/-! ## Previews of other changes -/

/-- The operation that the preview is about -/
def NonPolicyChange.operation : NonPolicyChange → Operation
  | .policyStatus policyId status => .updatePolicy policyId { status := some status }
  | .groupMembership .add groupId employeeId => .addEmployeeToGroup groupId employeeId
  | .groupMembership .remove groupId employeeId => .removeEmployeeFromGroup groupId employeeId
  | .employeeOverride employeeId (.create fieldId value) => .createOverride employeeId fieldId value
  | .employeeOverride employeeId (.update overrideId fieldId value) =>
    .updateOverride employeeId overrideId fieldId value
  | .employeeOverride employeeId (.delete overrideId) => .deleteOverride employeeId overrideId

/-- The caller sees the employee that the change is about. -/
def NonPolicyChange.SeenIn (data : NonPolicyChange) (db : Db) (scope : PreviewScope) : Prop :=
  match data with
  | .policyStatus .. => True
  | .groupMembership _ _ employeeId | .employeeOverride employeeId _ =>
    ∃ employee, visibleEmployeeOr404 db.facts.employees scope.employees employeeId = .ok employee

section

variable {db db' : Db} {data : NonPolicyChange} {actor : Actor} {scope : PreviewScope}
  {now : DateTime}

theorem applyStatusChange_eq (policyId : ℕ) (status : PolicyStatus) :
    applyStatusChange db policyId status actor now =
      runOperation db actor now (.updatePolicy policyId { status := some status }) := by
  simp only [applyStatusChange, runOperation, updatePolicy]
  cases policyById db.facts.toRules policyId with
  | error e => rfl
  | ok policy =>
    simp only [bind, Except.bind, Option.getD_none, Option.getD_some]
    by_cases hsame : ({ policy with status := status } : Policy) = policy
    · rw [if_pos hsame.symm, if_pos hsame]
      rfl
    · rw [if_neg fun h => hsame h.symm, if_neg hsame]
      have hstatus : policy.status ≠ status := by
        rintro rfl
        exact hsame rfl
      have haction : (policy.status ≠ .archived ∧ status = .archived) ↔ status = .archived := by
        refine and_iff_right_of_imp ?_
        rintro rfl
        exact hstatus
      simp only [haction, followStatus, if_neg hstatus, bind, Except.bind]
      cases syncPolicyVersionSchedules _ policy.id now with
      | error e => rfl
      | ok versions =>
        dsimp only
        cases syncAllEmployeeTenureSchedules versions now with
        | error e => rfl
        | ok tenures =>
          dsimp only
          cases refreshEmployeesAffectedByPolicy tenures now actor <;> rfl

theorem reconcile_overrideSequence {employeeIds : List ℕ} {reconciliationAt : Option DateTime}
    (h : (reconcileEmployees db employeeIds reconciliationAt actor now).map Prod.fst = .ok db') :
    db'.sequences.employeeOverride = db.sequences.employeeOverride := by
  rw [(derives_kept (derives_reconcileMap h)).sequences]

theorem updatePolicy_overrideSequence {policyId : ℕ} {data : PolicyUpdate} {p : Policy}
    (h : updatePolicy db policyId data actor now = .ok (db', p)) :
    db'.sequences.employeeOverride = db.sequences.employeeOverride := by
  simp only [updatePolicy, bind_eq_ok] at h
  obtain ⟨policy, _, hout⟩ := h
  split at hout
  · cases hout
    rfl
  · simp only [bind_eq_ok, pure_eq_ok] at hout
    obtain ⟨db₁, hfollow, hout⟩ := hout
    cases hout
    unfold followStatus at hfollow
    split at hfollow
    · cases hfollow
      rfl
    · simp only [bind_eq_ok] at hfollow
      obtain ⟨db₂, hversions, db₃, htenure, hrefresh⟩ := hfollow
      have honly := (replaceEvents_eventsOnly hversions).trans (syncAllTenure_eventsOnly htenure)
      rw [reconcile_overrideSequence hrefresh, honly.sequences]
      rfl

theorem membership_overrideSequence {action : MembershipAction} {groupId employeeId : ℕ}
    (h : applyMembershipChange db action groupId employeeId actor now = .ok db') :
    db'.sequences.employeeOverride = db.sequences.employeeOverride := by
  cases action with
  | add =>
    obtain ⟨⟨_, employee⟩, hrun, rfl⟩ := exceptMap_eq_ok.mp h
    simp only [addEmployeeToGroup, bind_eq_ok] at hrun
    obtain ⟨_, _, _, _, hout⟩ := hrun
    split at hout
    · cases hout
      rfl
    · simp only [bind_eq_ok, pure_eq_ok] at hout
      obtain ⟨db₁, hreconcile, hout⟩ := hout
      cases hout
      rw [reconcile_overrideSequence hreconcile]
      rfl
  | remove =>
    rw [applyMembershipChange] at h
    simp only [removeEmployeeFromGroup, bind_eq_ok] at h
    obtain ⟨_, _, _, _, hout⟩ := h
    split at hout
    · cases hout
      rfl
    · rw [reconcile_overrideSequence hout]
      rfl

theorem createOverride_id {employeeId fieldId : ℕ} {value : String} {o : EmployeeOverride}
    (h : createEmployeeOverride db employeeId fieldId value actor now = .ok (db', o)) :
    o.id = db.sequences.employeeOverride ∧
      db'.sequences.employeeOverride = db.sequences.employeeOverride + 1 := by
  simp only [createEmployeeOverride, bind_eq_ok, pure_eq_ok] at h
  obtain ⟨_, _, _, _, _, _, _, _, db₁, hreconcile, hout⟩ := h
  cases hout
  refine ⟨rfl, ?_⟩
  rw [reconcile_overrideSequence hreconcile]
  rfl

theorem updateOverride_id {employeeId overrideId : ℕ} {fieldId : Option ℕ} {value : Option String}
    {o : EmployeeOverride}
    (h : updateEmployeeOverride db employeeId overrideId fieldId value actor now = .ok (db', o)) :
    ∃ old ∈ db.facts.employeeOverrides, old.id = overrideId ∧
      (o.id = overrideId ∧ db'.sequences.employeeOverride = db.sequences.employeeOverride ∨
        o.id = db.sequences.employeeOverride ∧
          db'.sequences.employeeOverride = db.sequences.employeeOverride + 1) := by
  simp only [updateEmployeeOverride, bind_eq_ok] at h
  obtain ⟨_, _, old, hold, d, _, v, _, hout⟩ := h
  have hfound := (Option.filter_eq_some_iff.mp (orRaise_eq_ok.mp hold)).1
  obtain ⟨hmem, hid⟩ := Table.find?_eq_some.mp hfound
  refine ⟨old, hmem, hid, ?_⟩
  by_cases hsame : d.id = old.assignmentFieldDefinitionId ∧ v = old.value
  · rw [if_pos hsame] at hout
    cases hout
    exact Or.inl ⟨hid, rfl⟩
  · rw [if_neg hsame] at hout
    simp only [bind_eq_ok, pure_eq_ok] at hout
    obtain ⟨_, _, db₁, hreconcile, hout⟩ := hout
    cases hout
    refine Or.inr ⟨rfl, ?_⟩
    rw [reconcile_overrideSequence hreconcile]
    rfl

theorem Proposes.nothing
    (h : db'.sequences.employeeOverride = db.sequences.employeeOverride) : Proposes db db' ∅ :=
  ⟨fun id hid => absurd hid (Finset.notMem_empty id), fun _ hid => Or.inl (h ▸ hid)⟩

theorem Proposes.one (h : db'.sequences.employeeOverride = db.sequences.employeeOverride + 1) :
    Proposes db db' {db.sequences.employeeOverride} where
  fresh id hid := (Finset.mem_singleton.mp hid).ge
  drawn id hid := by
    rw [Finset.mem_singleton]
    omega

theorem applyOverrideChange_ok (hs : SourcedRows db) {employeeId : ℕ} {change : OverrideChange}
    (h : runOperation db actor now (NonPolicyChange.employeeOverride employeeId change).operation =
      .ok db') :
    ∃ proposed, Proposes db db' proposed ∧
      applyOverrideChange db employeeId change actor now = .ok (db', proposed) := by
  cases change with
  | create fieldId value =>
    obtain ⟨⟨_, o⟩, hrun, rfl⟩ := exceptMap_eq_ok.mp h
    obtain ⟨hid, hnext⟩ := createOverride_id hrun
    refine ⟨{o.id}, hid ▸ .one hnext, ?_⟩
    rw [applyOverrideChange, hrun]
    rfl
  | update overrideId fieldId value =>
    obtain ⟨⟨_, o⟩, hrun, rfl⟩ := exceptMap_eq_ok.mp h
    refine ⟨if o.id = overrideId then ∅ else {o.id}, ?_, by rw [applyOverrideChange, hrun]; rfl⟩
    obtain ⟨old, hold, rfl, ⟨hid, hnext⟩ | ⟨hid, hnext⟩⟩ := updateOverride_id hrun
    · rw [if_pos hid]
      exact .nothing hnext
    · have hne : o.id ≠ old.id := by
        rw [hid]
        exact (hs.overrides old hold).ne'
      rw [if_neg hne, hid]
      exact .one hnext
  | delete overrideId =>
    rw [NonPolicyChange.operation, runOperation] at h
    have hdelete := h
    simp only [deleteEmployeeOverride, bind_eq_ok] at hdelete
    obtain ⟨_, _, _, _, hreconcile⟩ := hdelete
    refine ⟨∅, .nothing ?_, by rw [applyOverrideChange, h]; rfl⟩
    rw [reconcile_overrideSequence hreconcile]
    rfl

theorem applyOverrideChange_error {employeeId : ℕ} {change : OverrideChange} {e : ServiceError}
    (h : runOperation db actor now (NonPolicyChange.employeeOverride employeeId change).operation =
      .error e) : applyOverrideChange db employeeId change actor now = .error e := by
  cases change with
  | create fieldId value =>
    rw [applyOverrideChange, exceptMap_eq_error.mp h]
    rfl
  | update overrideId fieldId value =>
    rw [applyOverrideChange, exceptMap_eq_error.mp h]
    rfl
  | delete overrideId =>
    rw [NonPolicyChange.operation, runOperation] at h
    rw [applyOverrideChange, h]
    rfl

/-- The change is the operation, and what it proposes is new. -/
theorem applyChange_ok (hs : SourcedRows db) (hseen : data.SeenIn db scope)
    (h : runOperation db actor now data.operation = .ok db') :
    ∃ included proposed, Proposes db db' proposed ∧
      applyChange db data actor scope now = .ok (db', overridesContext included proposed) := by
  cases data with
  | policyStatus policyId status =>
    rw [NonPolicyChange.operation] at h
    obtain ⟨⟨_, p⟩, hrun, hdb⟩ := exceptMap_eq_ok.mp h
    refine ⟨∅, ∅, .nothing (hdb ▸ updatePolicy_overrideSequence hrun), ?_⟩
    rw [applyChange, applyStatusChange_eq, h]
    rfl
  | groupMembership action groupId employeeId =>
    obtain ⟨employee, hemployee⟩ := hseen
    have happly : applyMembershipChange db action groupId employeeId actor now = .ok db' := by
      cases action <;> exact h
    refine ⟨{employeeId}, ∅, .nothing (membership_overrideSequence happly), ?_⟩
    rw [applyChange, hemployee, happly]
    rfl
  | employeeOverride employeeId change =>
    obtain ⟨employee, hemployee⟩ := hseen
    obtain ⟨proposed, hnew, happly⟩ := applyOverrideChange_ok hs h
    refine ⟨{employeeId}, proposed, hnew, ?_⟩
    rw [applyChange, hemployee, happly]
    rfl

/-- A change fails where the operation fails. -/
theorem applyChange_error {e : ServiceError} (hseen : data.SeenIn db scope)
    (h : runOperation db actor now data.operation = .error e) :
    applyChange db data actor scope now = .error (.service e) := by
  cases data with
  | policyStatus policyId status =>
    rw [NonPolicyChange.operation] at h
    rw [applyChange, applyStatusChange_eq, h]
    rfl
  | groupMembership action groupId employeeId =>
    obtain ⟨employee, hemployee⟩ := hseen
    have happly : applyMembershipChange db action groupId employeeId actor now = .error e := by
      cases action <;> exact h
    rw [applyChange, hemployee, happly]
    rfl
  | employeeOverride employeeId change =>
    obtain ⟨employee, hemployee⟩ := hseen
    rw [applyChange, hemployee, applyOverrideChange_error h]
    rfl

theorem nonPolicyChange_renewed (hs : SoundHistory db)
    (h : runOperation db actor now data.operation = .ok db') (e : ℕ) : Renewed db db' e := by
  cases data with
  | policyStatus policyId status =>
    obtain ⟨⟨_, p⟩, hrun, rfl⟩ := exceptMap_eq_ok.mp h
    exact updatePolicy_renewed hs hrun e
  | groupMembership action groupId employeeId =>
    cases action with
    | add =>
      obtain ⟨⟨_, employee⟩, hrun, rfl⟩ := exceptMap_eq_ok.mp h
      exact addMember_renewed hs hrun e
    | remove => exact removeMember_renewed hs h e
  | employeeOverride employeeId change =>
    cases change with
    | create fieldId value =>
      obtain ⟨⟨_, o⟩, hrun, rfl⟩ := exceptMap_eq_ok.mp h
      exact createOverride_renewed hs hrun e
    | update overrideId fieldId value =>
      obtain ⟨⟨_, o⟩, hrun, rfl⟩ := exceptMap_eq_ok.mp h
      exact updateOverride_renewed hs hrun e
    | delete overrideId => exact deleteOverride_renewed hs h e

end

/-- What a caller reads of a row and of an item -/
def EmployeeAssignment.entry (a : EmployeeAssignment) : ℕ × String :=
  (a.assignmentFieldDefinitionId, a.value)

def AssignmentPreview.entry (item : AssignmentPreview) : ℕ × String :=
  (item.assignmentFieldDefinitionId, item.value)

/-- Whatever has happened: the preview of a change of a status, a membership or an override counts
exactly the employees of whom the operation opens or ends a row that the caller sees, its lists say
which rows these are, and no item names an override that only the preview has made. It tells a conflict
that the operation meets, and it fails where the operation fails otherwise. -/
theorem preview_exact (fields : Table AssignmentFieldDefinition) (calls : List OperationCall)
    (data : NonPolicyChange) (actor : Actor) (scope : PreviewScope) (now : DateTime)
    (hseen : data.SeenIn (runOperations (seededDb fields) calls) scope) :
    let db := runOperations (seededDb fields) calls
    (∀ db', runOperation db actor now data.operation = .ok db' →
      ∃ answer, preview db data actor scope now = .ok answer ∧ answer.valid = true ∧
        answer.conflicts = [] ∧
        (∃ ids : List ℕ, ids.Pairwise (· < ·) ∧ (∀ id, id ∈ ids ↔ Affected db db' scope id) ∧
          answer.affectedEmployeeCount = ids.length ∧
          (answer.changes.filter EmployeePreviewChange.any).map (fun c => c.employeeId) =
            ids.map some) ∧
        ∀ change ∈ answer.changes, ∃ id, change.employeeId = some id ∧
          change.removed.map AssignmentPreview.entry =
            (endedRows db db' scope id).map EmployeeAssignment.entry ∧
          change.added.map AssignmentPreview.entry =
            (endedRows db' db scope id).map EmployeeAssignment.entry ∧
          ∀ item ∈ change.items, ∀ overrideId, item.NamesOverride overrideId →
            overrideId < db.sequences.employeeOverride) ∧
    ∀ err, runOperation db actor now data.operation = .error err →
      if err.isPreviewConflict then
        ∃ answer, preview db data actor scope now = .ok answer ∧ answer.valid = false ∧
          answer.conflicts = [err] ∧ answer.changes = [] ∧ answer.affectedEmployeeCount = 0
      else preview db data actor scope now = .error (.service err) := by
  intro db
  have hs : SoundHistory db := SoundHistory.run calls (soundHistory_seeded fields)
  have hsourced : SourcedRows db :=
    SourcedRows.run calls (soundHistory_seeded fields) (sourcedRows_seeded fields)
  refine ⟨fun db' hrun => ?_, fun err hrun => ?_⟩
  · obtain ⟨included, proposed, hnew, happly⟩ := applyChange_ok hsourced hseen hrun
    have hsteps := runOperation_rowSteps hrun
    have hsourced' := hsteps.sourced hs hsourced
    have hrenewed := nonPolicyChange_renewed hs hrun
    have htells : ∀ id, Tells db db' scope id (fun a => (shownBefore db a).key)
        (fun a => (shownAfter db' included proposed a).key) :=
      fun id => tells_keys hsourced hsourced' (hsteps.fields hs) hnew
    have hany : ∀ id, (shownChange db db' scope included proposed id).any = true ↔
        Affected db db' scope id := fun id =>
      shownChange_any (hrenewed id) (htells id)
        (tells_items hsourced hsourced' (hsteps.fields hs) hnew)
    have hid : ∀ id, (shownChange db db' scope included proposed id).employeeId = some id :=
      fun id => if_neg (t := none) (Finset.notMem_empty id)
    unfold preview
    rw [happly]
    refine ⟨_, rfl, rfl, rfl, ⟨listedEmployees db db' scope included proposed, ?_, fun id => ?_, ?_,
      ?_⟩, fun change hchange => ?_⟩
    · exact (sortedSet_sorted _).filter _
    · rw [mem_listedEmployees, hany]
    · exact (congrArg List.length assignmentChanges_any).trans (List.length_map _)
    · refine (congrArg (List.map _) assignmentChanges_any).trans ?_
      rw [List.map_map]
      exact List.map_congr_left fun id _ => hid id
    · obtain ⟨id, _, hlisted⟩ := List.mem_filterMap.mp hchange
      have hitem : shownChange db db' scope included proposed id = change := by
        dsimp only at hlisted
        split at hlisted
        · exact Option.some.inj hlisted
        · exact absurd hlisted (by simp)
      obtain ⟨hremoved, hadded⟩ := shownChange_lists (hrenewed id) (htells id)
      refine ⟨id, hitem ▸ hid id, ?_, ?_, fun item hmem overrideId hnames => ?_⟩
      · rw [← hitem, hremoved, List.map_map]
        rfl
      · rw [← hitem, hadded, List.map_map]
        rfl
      · rw [← hitem] at hmem
        have hshown := mem_items hmem
        rw [currentAssignments_get?, currentAssignments_get?] at hshown
        rcases hshown with hbefore | hafter
        · obtain ⟨a, ha, rfl⟩ := List.mem_map.mp hbefore
          have hsource := hsourced.rows a (mem_openAssignments.mp (mem_shownRows.mp ha).1).1
          exact (previewRow_names hsource hnames).1
        · obtain ⟨a, ha, rfl⟩ := List.mem_map.mp hafter
          have hsource := hsourced'.rows a (mem_openAssignments.mp (mem_shownRows.mp ha).1).1
          obtain ⟨hlt, hnot⟩ := previewRow_names hsource hnames
          exact (hnew.drawn overrideId hlt).resolve_right hnot
  · unfold preview
    rw [applyChange_error hseen hrun]
    dsimp only
    split
    · exact ⟨_, rfl, rfl, rfl, rfl, rfl⟩
    · rfl

/-- Ada is to have a small laptop. -/
def smallLaptop : NonPolicyChange := .employeeOverride 1 (.create 1 "small")

def everything : PreviewScope := ⟨{ unrestricted := true }, { unrestricted := true }⟩

def smallLaptopDb : Db :=
  operationStep tenureDb ⟨.system, startOfDay (.on 2028 3 1), smallLaptop.operation⟩

/-- Ada's large laptop goes, and the preview counts her. -/
theorem preview_exact_smallLaptop : ∃ answer,
    preview tenureDb smallLaptop .system everything (startOfDay (.on 2028 3 1)) = .ok answer ∧
      answer.valid = true ∧ 0 < answer.affectedEmployeeCount := by
  have hada : ∃ e ∈ tenureDb.facts.employees.rows, e.id = 1 := by decide +kernel
  obtain ⟨ada, hmem, hid⟩ := hada
  have hseen : smallLaptop.SeenIn tenureDb everything := by
    refine ⟨ada, ?_⟩
    rw [visibleEmployeeOr404, Table.find?_eq_some.mpr ⟨hmem, hid⟩]
    rfl
  have hrun : runOperation tenureDb .system (startOfDay (.on 2028 3 1)) smallLaptop.operation =
      .ok smallLaptopDb := by
    have hok : (runOperation tenureDb .system (startOfDay (.on 2028 3 1))
        smallLaptop.operation).toBool = true := by decide +kernel
    unfold smallLaptopDb operationStep
    revert hok
    cases runOperation tenureDb .system (startOfDay (.on 2028 3 1)) smallLaptop.operation with
    | ok db' => exact fun _ => rfl
    | error e => exact fun h => absurd h (by simp [Except.toBool])
  have hended : ∃ a ∈ openAssignments tenureDb 1, a ∉ openAssignments smallLaptopDb 1 := by
    decide +kernel
  obtain ⟨a, ha, hnot⟩ := hended
  obtain ⟨answer, hpreview, hvalid, _, ⟨ids, _, hids, hcount, _⟩, _⟩ :=
    (preview_exact (.ofRows [⟨1, "laptop", .one, "priority", .text⟩]) tenureCalls smallLaptop .system
      everything (startOfDay (.on 2028 3 1)) hseen).1 smallLaptopDb hrun
  refine ⟨answer, hpreview, hvalid, ?_⟩
  have haffected : Affected tenureDb smallLaptopDb everything 1 :=
    ⟨a, rfl, rfl, fun hiff => hnot (hiff.mp ha)⟩
  rw [hcount]
  exact List.length_pos_of_mem ((hids 1).mpr haffected)

end Warp
