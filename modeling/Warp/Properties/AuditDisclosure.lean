import Warp.AuditLogs
import Warp.Properties.StoredFacts

/-!
# What the audit log discloses

Whatever has happened, the list of audit entries shows a caller an entry exactly if the caller sees the
employees that it tells of, the fields of its latest snapshot and every output of its policies. A value
of a hidden field is told in one case only: in the snapshot before an override moved to another field.
-/

namespace Warp

open Infra Auth

/-! ## What an entry tells -/

def AuditLog.snapshots (entry : AuditLog) : List Snapshot := entry.before.toList ++ entry.after.toList

/-- The later snapshot. -/
def AuditLog.latest (entry : AuditLog) : Option Snapshot := entry.after.or entry.before

/-- The fields with the values that a snapshot tells. -/
def Snapshot.outputs : Snapshot → List (ℕ × String)
  | .override o => [(o.assignmentFieldDefinitionId, o.value)]
  | .assignment a _ => [(a.assignmentFieldDefinitionId, a.value)]
  | .policyVersion _ values _ => values.map fun r => (r.assignmentFieldDefinitionId, r.value)
  | .employee _ | .group _ | .policy _ | .membership _ | .groupPolicy _ => []

def AuditLog.outputs (entry : AuditLog) : List (ℕ × String) := entry.snapshots.flatMap Snapshot.outputs

def AuditLog.latestOutputs (entry : AuditLog) : List (ℕ × String) :=
  entry.latest.toList.flatMap Snapshot.outputs

def AuditLog.employeesTold (entry : AuditLog) : List ℕ :=
  (if entry.entityType = "Employee" then [entry.entityId] else []) ++
    entry.snapshots.filterMap Snapshot.employeeId?

def AuditLog.policiesTold (entry : AuditLog) : List ℕ :=
  (if entry.entityType = "Policy" then [entry.entityId] else []) ++
    entry.snapshots.filterMap Snapshot.policyId?

/-- The caller sees what the entry is about. -/
structure MayRead (rules : Rules) (visibility : EmployeeVisibility)
    (fieldVisibility : AssignmentFieldVisibility) (entry : AuditLog) : Prop where
  employees : ∀ id ∈ entry.employeesTold, visibility.canAccess id = true
  outputs : ∀ o ∈ entry.latestOutputs, fieldVisibility.canAccess o.1 = true
  policies : ∀ id ∈ entry.policiesTold, ∀ fieldId ∈ policyFieldIds rules id,
    fieldVisibility.canAccess fieldId = true

/-- The entry records that an override has moved, and the output is where it was before. -/
def AuditLog.MovedFrom (entry : AuditLog) (output : ℕ × String) : Prop :=
  entry.entityType = "EmployeeOverride" ∧ entry.action = "changed" ∧
    ∃ old, entry.before = some (.override old) ∧
      output = (old.assignmentFieldDefinitionId, old.value)

/-! ## What is in the log -/

/-- A snapshot of a version whose outputs are outputs of its policy. -/
def VersionSnapshot (rules : Rules) (policyId : ℕ) (s : Snapshot) : Prop :=
  ∃ v values clauses, s = .policyVersion v values clauses ∧ v.policyId = policyId ∧
    ∀ r ∈ values, r.assignmentFieldDefinitionId ∈ policyFieldIds rules policyId

/-- The entries that the operations write. -/
inductive Told (rules : Rules) (entry : AuditLog) : Prop where
  | employee (type : entry.entityType = "Employee")
      (snapshots : ∀ s ∈ entry.snapshots, ∃ e, s = .employee e) : Told rules entry
  | overrideOne (type : entry.entityType = "EmployeeOverride") (o : EmployeeOverride)
      (only : entry.snapshots = [.override o]) : Told rules entry
  | overrideChanged (type : entry.entityType = "EmployeeOverride") (action : entry.action = "changed")
      (old o : EmployeeOverride) (same : o.employeeId = old.employeeId)
      (before : entry.before = some (.override old)) (after : entry.after = some (.override o)) :
      Told rules entry
  | assignment (type : entry.entityType = "EmployeeAssignment") (a : EmployeeAssignment)
      (field : Option String) (only : entry.snapshots = [.assignment a field]) : Told rules entry
  | group (type : entry.entityType = "Group")
      (action : entry.action = "created" ∨ entry.action = "changed")
      (snapshots : ∀ s ∈ entry.snapshots, ∃ g, s = .group g) : Told rules entry
  | member (type : entry.entityType = "Group")
      (action : entry.action = "employee_added" ∨ entry.action = "employee_removed")
      (m : EmployeeGroupMembership) (only : entry.snapshots = [.membership m]) : Told rules entry
  | groupPolicy (type : entry.entityType = "Group")
      (action : entry.action = "policy_attached" ∨ entry.action = "policy_detached")
      (key : GroupPolicy) (only : entry.snapshots = [.groupPolicy key])
      (present : ∃ p ∈ rules.policies, p.id = key.policyId) : Told rules entry
  | policy (type : entry.entityType = "Policy") (present : ∃ p ∈ rules.policies, p.id = entry.entityId)
      (snapshots : ∀ s ∈ entry.snapshots, ∃ p, s = .policy p) : Told rules entry
  | version (type : entry.entityType = "PolicyVersion") (policyId : ℕ)
      (present : ∃ p ∈ rules.policies, p.id = policyId)
      (snapshots : ∀ s ∈ entry.snapshots, VersionSnapshot rules policyId s)
      (after : entry.after.isSome = true) : Told rules entry

section

variable {rules rules' : Rules} {entry : AuditLog} {policyId fieldId : ℕ}

theorem mem_policyFieldIds : fieldId ∈ policyFieldIds rules policyId ↔
    ∃ r ∈ rules.policyFieldValues, r.assignmentFieldDefinitionId = fieldId ∧
      ∃ v ∈ rules.policyVersions, v.id = r.policyVersionId ∧ v.policyId = policyId := by
  simp only [policyFieldIds, List.mem_map, Table.mem_select]
  constructor
  · rintro ⟨r, ⟨hr, hfound⟩, rfl⟩
    obtain ⟨v, hv, hpolicy⟩ := (Option.any_eq_true _ _).mp hfound
    obtain ⟨hmem, hid⟩ := Table.find?_eq_some.mp hv
    exact ⟨r, hr, rfl, v, hmem, hid, of_decide_eq_true hpolicy⟩
  · rintro ⟨r, hr, rfl, v, hv, hid, hpolicy⟩
    refine ⟨r, ⟨hr, (Option.any_eq_true _ _).mpr ⟨v, ?_, decide_eq_true hpolicy⟩⟩, rfl⟩
    exact Table.find?_eq_some.mpr ⟨hv, hid⟩

theorem RulesKept.policyFieldIds (h : RulesKept rules rules')
    (hmem : fieldId ∈ Warp.policyFieldIds rules policyId) :
    fieldId ∈ Warp.policyFieldIds rules' policyId := by
  obtain ⟨r, hr, hfield, v, hv, hid, hpolicy⟩ := mem_policyFieldIds.mp hmem
  obtain ⟨v', hv', hid', hpolicy'⟩ := h.versions v hv
  exact mem_policyFieldIds.mpr
    ⟨r, h.outputs r hr, hfield, v', hv', hid'.trans hid, hpolicy'.trans hpolicy⟩

theorem RulesKept.present (h : RulesKept rules rules') (hp : ∃ p ∈ rules.policies, p.id = policyId) :
    ∃ p ∈ rules'.policies, p.id = policyId := by
  obtain ⟨p, hp, hid⟩ := hp
  obtain ⟨p', hp', hid'⟩ := h.policies p hp
  exact ⟨p', hp', hid'.trans hid⟩

theorem Told.later (h : Told rules entry) (hkept : RulesKept rules rules') : Told rules' entry := by
  cases h with
  | employee type snapshots => exact .employee type snapshots
  | overrideOne type o only => exact .overrideOne type o only
  | overrideChanged type action old o same before after =>
    exact .overrideChanged type action old o same before after
  | assignment type a field only => exact .assignment type a field only
  | group type action snapshots => exact .group type action snapshots
  | member type action m only => exact .member type action m only
  | groupPolicy type action key only present =>
    exact .groupPolicy type action key only (hkept.present present)
  | policy type present snapshots => exact .policy type (hkept.present present) snapshots
  | version type policyId present snapshots after =>
    refine .version type policyId (hkept.present present) (fun s hs => ?_) after
    obtain ⟨v, values, clauses, rfl, hpolicy, hvalues⟩ := snapshots s hs
    exact ⟨v, values, clauses, rfl, hpolicy, fun r hr => hkept.policyFieldIds (hvalues r hr)⟩

/-- A snapshot of a stored version. -/
theorem versionSnapshot_stored {v : PolicyVersion} (hv : v ∈ rules.policyVersions)
    (hkept : RulesKept rules rules') :
    VersionSnapshot rules' v.policyId (snapshotPolicyVersion rules v) := by
  refine ⟨v, _, _, rfl, rfl, fun r hr => hkept.policyFieldIds ?_⟩
  obtain ⟨hr, hid⟩ := Table.mem_select.mp hr
  exact mem_policyFieldIds.mpr ⟨r, hr, rfl, v, hv, (of_decide_eq_true hid).symm, rfl⟩

end

section

variable {db db' : Db} {T : DateTime} {gone : Set ℕ}

/-- The entry of a change of the facts. -/
theorem FactWrite.told {entityType action : String} {entityId : ℕ} {before after : Option Snapshot}
    (h : FactWrite T gone db db' entityType entityId action before after) (hids : IdsDrawn db)
    (id : ℕ) (actor : String) (t : DateTime) :
    Told db'.facts.toRules ⟨id, actor, entityType, entityId, action, before, after, t⟩ := by
  have hkept := (h.keeps hids).rules
  cases h with
  | employeeCreated e _ => exact .employee rfl (by simp [AuditLog.snapshots])
  | employeeChanged e changed _ _ _ => exact .employee rfl (by simp [AuditLog.snapshots])
  | employeeDeleted e _ => exact .employee rfl (by simp [AuditLog.snapshots])
  | overrideCreated o _ => exact .overrideOne rfl o rfl
  | overrideChanged old o _ same => exact .overrideChanged rfl rfl old o same rfl rfl
  | overrideRemoved old => exact .overrideOne rfl old rfl
  | groupCreated g _ => exact .group rfl (Or.inl rfl) (by simp [AuditLog.snapshots])
  | groupChanged g changed _ _ => exact .group rfl (Or.inr rfl) (by simp [AuditLog.snapshots])
  | memberAdded m => exact .member rfl (Or.inl rfl) m rfl
  | memberRemoved m => exact .member rfl (Or.inr rfl) m rfl
  | policyAttached key policy => exact .groupPolicy rfl (Or.inl rfl) key rfl policy
  | policyDetached key policy => exact .groupPolicy rfl (Or.inr rfl) key rfl policy
  | policyCreated p _ =>
    exact .policy rfl ⟨p, Table.mem_insert_self, rfl⟩ (by simp [AuditLog.snapshots])
  | policyChanged p changed _ _ same =>
    exact .policy rfl ⟨changed, Table.mem_insert_self, same⟩ (by simp [AuditLog.snapshots])
  | versionCreated policyId input rules v policy stored =>
    obtain ⟨_, hv, hpolicy, _, _⟩ := storePolicyVersion_kept stored hids.versions
    refine .version rfl policyId (hkept.present policy) (fun s hs => ?_) rfl
    rcases List.mem_append.mp hs with hs | hs
    · -- the version before is a version of the same policy
      obtain ⟨prior, hprior, rfl⟩ := Option.map_eq_some_iff.mp (Option.mem_toList.mp hs)
      have hmem := List.mem_of_mem_head? hprior
      rw [mem_orderBy, Table.mem_select, decide_eq_true_eq] at hmem
      exact hmem.2 ▸ versionSnapshot_stored hmem.1 hkept
    · cases Option.mem_toList.mp hs
      exact hpolicy ▸ versionSnapshot_stored hv (.refl rules)

/-- Every entry is one of those. -/
def LogTold (db : Db) : Prop := ∀ entry ∈ db.auditLogs, Told db.facts.toRules entry

theorem LogTold.record (h : LogTold db) {actor : Actor} {entityType action : String} {entityId : ℕ}
    {before after : Option Snapshot} {t : DateTime}
    (hnew : ∀ id, Told db.facts.toRules
      ⟨id, actor.name, entityType, entityId, action, before, after, t⟩) :
    LogTold (recordAuditLog db actor entityType entityId action before after t) := by
  intro entry hentry
  rcases Table.mem_insert.mp hentry with rfl | ⟨hentry, _⟩
  · exact hnew _
  · exact h entry hentry

theorem LogTold.derives (h : LogTold db) (hd : Derives db db') : LogTold db' := by
  induction hd with
  | refl => exact h
  | tail _ hstep ih =>
    cases hstep with
    | links links => exact ih
    | events events next => exact ih
    | ended a t actor _ _ => exact LogTold.record ih fun _ => .assignment rfl a _ rfl
    | created a actor _ _ => exact LogTold.record ih fun _ => .assignment rfl a _ rfl

theorem FactWrite.auditLogs {entityType action : String} {entityId : ℕ}
    {before after : Option Snapshot}
    (h : FactWrite T gone db db' entityType entityId action before after) :
    db'.auditLogs = db.auditLogs := by
  cases h <;> rfl

theorem OperationStep.logTold (hids : IdsDrawn db) (h : OperationStep T gone db db')
    (htold : LogTold db) : LogTold db' := by
  cases h with
  | recorded actor written =>
    refine LogTold.record (fun entry hentry => ?_) fun id => written.told hids id actor.name T
    rw [written.auditLogs] at hentry
    exact (htold entry hentry).later (written.keeps hids).rules
  | refreshed employeeId evaluationDate actor desired now sourced ok =>
    exact htold.derives (derives_refresh ok)
  | links links => exact htold
  | events events next => exact htold

end

/-! ## Who sees an entry -/

section

variable {rules : Rules} {visibility : EmployeeVisibility}
  {fieldVisibility : AssignmentFieldVisibility} {entry : AuditLog}

theorem snapshots_one {s : Snapshot} (h : entry.snapshots = [s]) :
    entry.latest = some s ∧ ∀ {α : Type} (key : Snapshot → Option α), entry.lookup key = key s := by
  unfold AuditLog.snapshots at h
  unfold AuditLog.latest AuditLog.lookup
  cases hbefore : entry.before with
  | none =>
    rw [hbefore] at h
    obtain hafter : entry.after = some s := by simpa [Option.toList_eq_singleton_iff] using h
    simp [hafter]
  | some b =>
    rw [hbefore] at h
    simp only [Option.toList_some, List.cons_append, List.nil_append, List.cons.injEq,
      Option.toList_eq_nil_iff] at h
    simp [h.1, h.2]

theorem visibleEmployeeEvent_empty : entry.visibleEmployeeEvent ∅ = false := by
  have hidIn : ∀ id, idIn ∅ id = false := by
    intro id
    cases id <;> simp [idIn]
  cases hb : entry.before.bind Snapshot.employeeId? <;>
    cases ha : entry.after.bind Snapshot.employeeId? <;>
      simp [AuditLog.visibleEmployeeEvent, AuditLog.linkedUserEvent, AuditLog.lookup, hidIn, ha, hb]

theorem applyAuditVisibility_eq_true : applyAuditVisibility visibility entry = true ↔
    visibility.unrestricted = true ∨ entry.employeeRelated = false ∨
      entry.visibleEmployeeEvent visibility.employeeIds = true := by
  unfold applyAuditVisibility
  by_cases hall : visibility.unrestricted = true
  · simp [hall]
  · by_cases hempty : visibility.employeeIds = ∅
    · simp [hall, hempty, visibleEmployeeEvent_empty]
    · simp [hall, hempty]

/-- No entry tells of a user or of a field definition. -/
theorem Told.type (h : Told rules entry) :
    entry.entityType ≠ "User" ∧ entry.entityType ≠ "AssignmentFieldDefinition" := by
  cases h with
  | _ => simp [*]

theorem employeeFilter_iff {ids : Finset ℕ} (hnot : entry.entityType ≠ "User") :
    entry.employeeRelated = false ∨ entry.visibleEmployeeEvent ids = true ↔
      (entry.entityType = "Employee" → entry.entityId ∈ ids) ∧
        (entry.employeeSnapshot = true ∨ entry.groupMembershipEvent = true →
          idIn ids (entry.lookup Snapshot.employeeId?) = true) := by
  have huser : entry.linkedUserEvent = false := by simp [AuditLog.linkedUserEvent, hnot]
  unfold AuditLog.employeeRelated AuditLog.visibleEmployeeEvent
  rw [huser]
  by_cases hemployee : entry.entityType = "Employee"
  · simp [AuditLog.employeeSnapshot, AuditLog.groupMembershipEvent, hemployee]
  · cases entry.employeeSnapshot <;> cases entry.groupMembershipEvent <;> simp [hemployee]

/-- The filter by employees lets an entry through if the caller sees all employees that it tells of. -/
theorem Told.employees_iff (h : Told rules entry) : applyAuditVisibility visibility entry = true ↔
    ∀ id ∈ entry.employeesTold, visibility.canAccess id = true := by
  rw [applyAuditVisibility_eq_true]
  by_cases hall : visibility.unrestricted = true
  · simp [hall, EmployeeVisibility.canAccess]
  rw [or_iff_right hall, employeeFilter_iff h.type.1]
  simp only [EmployeeVisibility.canAccess, hall, AuditLog.employeesTold, AuditLog.employeeSnapshot,
    AuditLog.groupMembershipEvent]
  cases h with
  | employee type snapshots =>
    have hnone : entry.snapshots.filterMap Snapshot.employeeId? = [] := by
      refine List.filterMap_eq_nil_iff.mpr fun s hs => ?_
      obtain ⟨e, rfl⟩ := snapshots s hs
      rfl
    simp [type, hnone]
  | overrideOne type o only => simp [type, only, (snapshots_one only).2, idIn, Snapshot.employeeId?]
  | overrideChanged type action old o same before after =>
    simp [type, AuditLog.snapshots, AuditLog.lookup, before, after, idIn, Snapshot.employeeId?, same]
  | assignment type a field only =>
    simp [type, only, (snapshots_one only).2, idIn, Snapshot.employeeId?]
  | group type action snapshots =>
    have hnone : entry.snapshots.filterMap Snapshot.employeeId? = [] := by
      refine List.filterMap_eq_nil_iff.mpr fun s hs => ?_
      obtain ⟨g, rfl⟩ := snapshots s hs
      rfl
    rcases action with action | action <;> simp [type, action, hnone]
  | member type action m only =>
    rcases action with action | action <;>
      simp [type, action, only, (snapshots_one only).2, idIn, Snapshot.employeeId?]
  | groupPolicy type action key only present =>
    rcases action with action | action <;> simp [type, action, only, Snapshot.employeeId?]
  | policy type present snapshots =>
    have hnone : entry.snapshots.filterMap Snapshot.employeeId? = [] := by
      refine List.filterMap_eq_nil_iff.mpr fun s hs => ?_
      obtain ⟨p, rfl⟩ := snapshots s hs
      rfl
    simp [type, hnone]
  | version type policyId present snapshots after =>
    have hnone : entry.snapshots.filterMap Snapshot.employeeId? = [] := by
      refine List.filterMap_eq_nil_iff.mpr fun s hs => ?_
      obtain ⟨v, values, clauses, rfl, _, _⟩ := snapshots s hs
      rfl
    simp [type, hnone]

theorem mem_visiblePolicyIds (hall : ¬fieldVisibility.unrestricted = true) {policyId : ℕ} :
    policyId ∈ (visiblePolicyIds rules fieldVisibility).getD ∅ ↔
      (∃ p ∈ rules.policies, p.id = policyId) ∧
        ∀ fieldId ∈ policyFieldIds rules policyId, fieldVisibility.canAccess fieldId = true := by
  simp only [visiblePolicyIds, hall, visiblePolicyCondition, AssignmentFieldVisibility.canAccess]
  simp only [Bool.false_eq_true, if_false, Option.getD_some, List.mem_toFinset, List.mem_map,
    Table.mem_select, Bool.false_or, List.all_eq_true, decide_eq_true_eq]
  constructor
  · rintro ⟨p, ⟨hp, hfields⟩, rfl⟩
    exact ⟨⟨p, hp, rfl⟩, hfields⟩
  · rintro ⟨⟨p, hp, rfl⟩, hfields⟩
    exact ⟨p, ⟨hp, hfields⟩, rfl⟩

theorem domainFilter_iff {fieldIds policyIds : Finset ℕ}
    (hnot : entry.entityType ≠ "AssignmentFieldDefinition") :
    entry.domainRelated = false ∨ entry.visibleDomainEvent fieldIds policyIds = true ↔
      (entry.employeeSnapshot = true → idIn fieldIds (entry.lookup Snapshot.fieldId?) = true) ∧
        (entry.entityType = "Policy" → entry.entityId ∈ policyIds) ∧
          (entry.entityType = "PolicyVersion" ∨ entry.groupPolicyEvent = true →
            idIn policyIds (entry.lookup Snapshot.policyId?) = true) := by
  unfold AuditLog.domainRelated AuditLog.visibleDomainEvent
  by_cases hpolicy : entry.entityType = "Policy"
  · simp [AuditLog.employeeSnapshot, AuditLog.groupPolicyEvent, hpolicy]
  by_cases hversion : entry.entityType = "PolicyVersion"
  · simp [AuditLog.employeeSnapshot, AuditLog.groupPolicyEvent, hversion]
  by_cases hgroup : entry.groupPolicyEvent = true
  · have htype : entry.entityType = "Group" := by
      rw [AuditLog.groupPolicyEvent, Bool.and_eq_true, decide_eq_true_eq] at hgroup
      exact hgroup.1
    simp [AuditLog.employeeSnapshot, hgroup, htype]
  · cases entry.employeeSnapshot <;> simp [hnot, hpolicy, hversion, hgroup]

theorem latestOutputs_silent
    (h : ∀ s ∈ entry.snapshots, s.outputs = [] ∧ s.policyId? = none) :
    entry.latest.toList.flatMap Snapshot.outputs = [] := by
  refine List.flatMap_eq_nil_iff.mpr fun s hs => (h s ?_).1
  unfold AuditLog.latest at hs
  cases hafter : entry.after with
  | none => simpa [AuditLog.snapshots, hafter] using hs
  | some a => simpa [AuditLog.snapshots, hafter] using Or.inr hs

theorem policiesTold_silent (h : ∀ s ∈ entry.snapshots, s.outputs = [] ∧ s.policyId? = none) :
    entry.snapshots.filterMap Snapshot.policyId? = [] :=
  List.filterMap_eq_nil_iff.mpr fun s hs => (h s hs).2

/-- The filter by fields lets an entry through if the caller sees the fields of its latest snapshot and
all outputs of the policies that it tells of. -/
theorem Told.fields_iff (h : Told rules entry) :
    applyAssignmentFieldAuditVisibility rules fieldVisibility entry = true ↔
      (∀ o ∈ entry.latestOutputs, fieldVisibility.canAccess o.1 = true) ∧
        ∀ id ∈ entry.policiesTold, ∀ fieldId ∈ policyFieldIds rules id,
          fieldVisibility.canAccess fieldId = true := by
  unfold applyAssignmentFieldAuditVisibility
  by_cases hall : fieldVisibility.unrestricted = true
  · simp [hall, AssignmentFieldVisibility.canAccess]
  rw [if_neg hall, Bool.or_eq_true, Bool.not_eq_true', domainFilter_iff h.type.2]
  have hfield : ∀ id, fieldVisibility.canAccess id = true ↔ id ∈ fieldVisibility.assignmentFieldIds := by
    simp [AssignmentFieldVisibility.canAccess, hall]
  simp only [AuditLog.latestOutputs, AuditLog.policiesTold, AuditLog.employeeSnapshot,
    AuditLog.groupPolicyEvent]
  cases h with
  | employee type snapshots =>
    have hsilent : ∀ s ∈ entry.snapshots, s.outputs = [] ∧ s.policyId? = none := by
      intro s hs
      obtain ⟨e, rfl⟩ := snapshots s hs
      exact ⟨rfl, rfl⟩
    simp [type, latestOutputs_silent hsilent, policiesTold_silent hsilent]
  | overrideOne type o only =>
    simp [type, only, snapshots_one only, idIn, Snapshot.fieldId?, Snapshot.policyId?, Snapshot.outputs,
      hfield]
  | overrideChanged type action old o same before after =>
    simp [type, AuditLog.snapshots, AuditLog.latest, AuditLog.lookup, before, after, idIn,
      Snapshot.fieldId?, Snapshot.policyId?, Snapshot.outputs, hfield]
  | assignment type a field only =>
    simp [type, only, snapshots_one only, idIn, Snapshot.fieldId?, Snapshot.policyId?, Snapshot.outputs,
      hfield]
  | group type action snapshots =>
    have hsilent : ∀ s ∈ entry.snapshots, s.outputs = [] ∧ s.policyId? = none := by
      intro s hs
      obtain ⟨g, rfl⟩ := snapshots s hs
      exact ⟨rfl, rfl⟩
    rcases action with action | action <;>
      simp [type, action, latestOutputs_silent hsilent, policiesTold_silent hsilent]
  | member type action m only =>
    rcases action with action | action <;>
      simp [type, action, only, snapshots_one only, Snapshot.policyId?, Snapshot.outputs]
  | groupPolicy type action key only present =>
    rcases action with action | action <;>
      simp [type, action, only, snapshots_one only, idIn, Snapshot.policyId?, Snapshot.outputs,
        mem_visiblePolicyIds hall, present]
  | policy type present snapshots =>
    have hsilent : ∀ s ∈ entry.snapshots, s.outputs = [] ∧ s.policyId? = none := by
      intro s hs
      obtain ⟨p, rfl⟩ := snapshots s hs
      exact ⟨rfl, rfl⟩
    simp [type, latestOutputs_silent hsilent, policiesTold_silent hsilent, mem_visiblePolicyIds hall,
      present]
  | version type policyId present snapshots after =>
    obtain ⟨s, hafter⟩ := Option.isSome_iff_exists.mp after
    have hmem : s ∈ entry.snapshots := by simp [AuditLog.snapshots, hafter]
    have htold : ∀ id, id ∈ entry.snapshots.filterMap Snapshot.policyId? ↔ id = policyId := by
      intro id
      rw [List.mem_filterMap]
      constructor
      · rintro ⟨s, hs, hid⟩
        obtain ⟨v, values, clauses, rfl, hpolicy, _⟩ := snapshots s hs
        exact (Option.some.inj hid).symm.trans hpolicy
      · rintro rfl
        obtain ⟨v, values, clauses, rfl, hpolicy, _⟩ := snapshots s hmem
        exact ⟨_, hmem, congrArg some hpolicy⟩
    obtain ⟨v, values, clauses, rfl, hpolicy, hvalues⟩ := snapshots s hmem
    have hlookup : entry.lookup Snapshot.policyId? = some policyId := by
      simp [AuditLog.lookup, hafter, Snapshot.policyId?, hpolicy]
    have houtputs : (∀ fieldId ∈ policyFieldIds rules policyId, fieldVisibility.canAccess fieldId = true) →
        ∀ r ∈ values, fieldVisibility.canAccess r.assignmentFieldDefinitionId = true :=
      fun hfields r hr => hfields _ (hvalues r hr)
    simp only [type, AuditLog.latest, hafter, Option.some_or, Option.toList_some,
      List.flatMap_singleton, Snapshot.outputs, List.forall_mem_map, hlookup]
    simpa [idIn, mem_visiblePolicyIds hall, present, htold] using houtputs

/-- An output of an entry that the caller may read is of a field that the caller sees, unless an override
has moved from there. -/
theorem Told.output (h : Told rules entry) (hread : MayRead rules visibility fieldVisibility entry)
    {o : ℕ × String} (ho : o ∈ entry.outputs) :
    fieldVisibility.canAccess o.1 = true ∨ entry.MovedFrom o := by
  have hone : ∀ s, entry.snapshots = [s] → fieldVisibility.canAccess o.1 = true := by
    intro s only
    refine hread.outputs o ?_
    rw [AuditLog.latestOutputs, (snapshots_one only).1]
    simpa [AuditLog.outputs, only] using ho
  have hsilent : (∀ s ∈ entry.snapshots, s.outputs = []) → False := by
    intro hnone
    obtain ⟨s, hs, hos⟩ := List.mem_flatMap.mp ho
    rw [hnone s hs] at hos
    exact absurd hos (by simp)
  cases h with
  | overrideOne type old only => exact Or.inl (hone _ only)
  | assignment type a field only => exact Or.inl (hone _ only)
  | member type action m only => exact Or.inl (hone _ only)
  | groupPolicy type action key only present => exact Or.inl (hone _ only)
  | overrideChanged type action old changed same before after =>
    simp only [AuditLog.outputs, AuditLog.snapshots, before, after, Snapshot.outputs,
      Option.toList_some, List.cons_append, List.nil_append, List.flatMap_cons, List.flatMap_nil,
      List.mem_cons, List.not_mem_nil, or_false] at ho
    rcases ho with rfl | rfl
    · exact Or.inr ⟨type, action, old, before, rfl⟩
    · exact Or.inl (hread.outputs _ (by simp [AuditLog.latestOutputs, AuditLog.latest, after,
        Snapshot.outputs]))
  | employee type snapshots =>
    refine (hsilent fun s hs => ?_).elim
    obtain ⟨e, rfl⟩ := snapshots s hs
    rfl
  | group type action snapshots =>
    refine (hsilent fun s hs => ?_).elim
    obtain ⟨g, rfl⟩ := snapshots s hs
    rfl
  | policy type present snapshots =>
    refine (hsilent fun s hs => ?_).elim
    obtain ⟨p, rfl⟩ := snapshots s hs
    rfl
  | version type policyId present snapshots after =>
    obtain ⟨s, hs, hos⟩ := List.mem_flatMap.mp ho
    obtain ⟨v, values, clauses, rfl, hpolicy, hvalues⟩ := snapshots s hs
    obtain ⟨r, hr, rfl⟩ := List.mem_map.mp hos
    refine Or.inl (hread.policies policyId ?_ _ (hvalues r hr))
    exact List.mem_append_right _ (List.mem_filterMap.mpr ⟨_, hs, congrArg some hpolicy⟩)

theorem Told.mayRead_iff (h : Told rules entry) :
    MayRead rules visibility fieldVisibility entry ↔
      applyAuditVisibility visibility entry = true ∧
        applyAssignmentFieldAuditVisibility rules fieldVisibility entry = true := by
  rw [h.employees_iff, h.fields_iff]
  exact ⟨fun hread => ⟨hread.employees, hread.outputs, hread.policies⟩,
    fun ⟨hemployees, houtputs, hpolicies⟩ => ⟨hemployees, houtputs, hpolicies⟩⟩

end

/-! ## The list -/

theorem logTold_operations (fields : Table AssignmentFieldDefinition) (calls : List OperationCall) :
    LogTold (runOperations (seededDb fields) calls) :=
  (operations_invariant (fun hids hstep htold => hstep.logTold hids htold) calls
    (idsDrawn_seeded fields) fun _ hentry => absurd hentry Table.not_mem_empty).2

section

variable {db : Db} {ilike : Ilike} {visibility : EmployeeVisibility}
  {fieldVisibility : AssignmentFieldVisibility} {q : AuditLogQuery} {entry : AuditLog}

theorem mem_visibleAuditLogs (htold : LogTold db) :
    entry ∈ visibleAuditLogs db visibility fieldVisibility ↔
      entry ∈ db.auditLogs ∧ MayRead db.facts.toRules visibility fieldVisibility entry := by
  rw [visibleAuditLogs, Table.mem_select, Bool.and_eq_true]
  exact and_congr_right fun hentry => (htold entry hentry).mayRead_iff.symm

theorem AuditLogQuery.mem_ordered {entries : List AuditLog} :
    entry ∈ q.ordered entries ↔ entry ∈ entries := by
  unfold AuditLogQuery.ordered
  split <;> exact mem_orderBy

/-- Some page of the list has the entry. -/
def ShownIn (db : Db) (ilike : Ilike) (visibility : EmployeeVisibility)
    (fieldVisibility : AssignmentFieldVisibility) (q : AuditLogQuery) (pagination : PageParameters)
    (entry : AuditLog) : Prop :=
  ∃ offset, ∃ read ∈ (listAuditLogs db ilike visibility fieldVisibility q
    { pagination with offset := offset }).items, read.event = entry

theorem shownIn_iff {pagination : PageParameters} :
    ShownIn db ilike visibility fieldVisibility q pagination entry ↔
      entry ∈ visibleAuditLogs db visibility fieldVisibility ∧ q.selects ilike entry = true := by
  have hitems : ∀ offset, (∃ read ∈ (listAuditLogs db ilike visibility fieldVisibility q
      { pagination with offset := offset }).items, read.event = entry) ↔
        entry ∈ page pagination.limit offset (q.ordered ((visibleAuditLogs db visibility
          fieldVisibility).filter fun entry => q.selects ilike entry)) := by
    intro offset
    simp only [listAuditLogs, Page.map, paginate, List.mem_map]
    constructor
    · rintro ⟨read, ⟨e, he, rfl⟩, rfl⟩
      exact he
    · intro he
      exact ⟨_, ⟨entry, he, rfl⟩, rfl⟩
  simp only [ShownIn, hitems, exists_mem_page pagination.limit_bounds.1, AuditLogQuery.mem_ordered,
    List.mem_filter]

end

/-- Whatever has happened, some page of the list has an entry that the query selects exactly if the caller
may read it. An output on a page is of a field that the caller sees, or an override has moved from there
to one. -/
theorem audit_log_disclosure (fields : Table AssignmentFieldDefinition) (calls : List OperationCall)
    (ilike : Ilike) (visibility : EmployeeVisibility) (fieldVisibility : AssignmentFieldVisibility)
    (q : AuditLogQuery) (pagination : PageParameters) :
    let db := runOperations (seededDb fields) calls
    ∀ entry,
      (ShownIn db ilike visibility fieldVisibility q pagination entry ↔
        entry ∈ db.auditLogs ∧ q.selects ilike entry = true ∧
          MayRead db.facts.toRules visibility fieldVisibility entry) ∧
      (ShownIn db ilike visibility fieldVisibility q pagination entry → ∀ o ∈ entry.outputs,
        fieldVisibility.canAccess o.1 = true ∨ entry.MovedFrom o) := by
  intro db entry
  have htold : LogTold db := logTold_operations fields calls
  have hshown : ShownIn db ilike visibility fieldVisibility q pagination entry ↔
      entry ∈ db.auditLogs ∧ q.selects ilike entry = true ∧
        MayRead db.facts.toRules visibility fieldVisibility entry := by
    rw [and_comm (a := q.selects ilike entry = true), ← and_assoc, ← mem_visibleAuditLogs htold]
    exact shownIn_iff
  refine ⟨hshown, fun hentry o ho => ?_⟩
  obtain ⟨hlogged, _, hread⟩ := hshown.mp hentry
  exact (htold entry hlogged).output hread ho

/-- An override moves from the laptops to the phones. Who does not see the laptops reads that Ada had a
large one. -/
example :
    let calls : List OperationCall :=
      tenureCalls.take 2 ++ [⟨.system, startOfDay (.on 2026 2 1), .createOverride 1 1 "large"⟩,
        ⟨.system, startOfDay (.on 2026 2 2), .updateOverride 1 1 (some 2) (some "new")⟩]
    let db := runOperations
      (seededDb (.ofRows [⟨1, "laptop", .one, "priority", .text⟩, ⟨2, "phone", .one, "priority", .text⟩]))
      calls
    (listAuditLogs db (fun _ _ => true) ⟨true, ∅, false⟩ ⟨false, {2}⟩
      { search_bound := by simp } { limit_bounds := by decide }).items.flatMap
        (fun read => read.event.outputs) = [(1, "large"), (2, "new"), (2, "new")] := by
  decide +kernel

end Warp
