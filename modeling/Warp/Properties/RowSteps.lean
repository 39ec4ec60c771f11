import Warp.Properties.OperationSteps
import Warp.Properties.VersionOutputs

/-!
# What operations do to assignment rows

Whatever an operation does, it touches assignment rows in two ways only: it refreshes employees at its
own time, and it removes all rows of an employee that it deletes.
-/

namespace Warp

open Infra

/-- The fields stay, and new overrides have ids from the sequence, which never goes back. -/
structure FactsDrawn (db db' : Db) : Prop where
  fields : db'.facts.assignmentFieldDefinitions = db.facts.assignmentFieldDefinitions
  sequence : db.sequences.employeeOverride ≤ db'.sequences.employeeOverride
  overrides : ∀ o ∈ db'.facts.employeeOverrides, o.id < db'.sequences.employeeOverride ∨
    ∃ r ∈ db.facts.employeeOverrides, r.id = o.id

theorem FactsDrawn.same {db db' : Db}
    (overrides : db'.facts.employeeOverrides = db.facts.employeeOverrides)
    (sequence : db'.sequences.employeeOverride = db.sequences.employeeOverride)
    (fields : db'.facts.assignmentFieldDefinitions = db.facts.assignmentFieldDefinitions) :
    FactsDrawn db db' :=
  ⟨fields, sequence.ge, fun o ho => Or.inr ⟨o, overrides ▸ ho, rfl⟩⟩

/-- One step of an operation at time `T` that deletes the employees `gone`. -/
inductive RowStep (T : DateTime) (gone : Set ℕ) (db : Db) : Db → Prop where
  | refreshed {db' : Db} {rows : List EmployeeAssignment} (employeeId : ℕ)
      (evaluationDate : Option Date) (actor : Actor) (desired : Option (List FinalAssignment))
      (now : DateTime) (sourced : ∀ items, desired = some items → ∀ item ∈ items, item.Sourced db.facts)
      (ok : refreshEmployeeAssignments db employeeId evaluationDate (some T) actor desired now =
        .ok (db', rows)) : RowStep T gone db db'
  | removed {db' : Db} (employeeId : ℕ) (deleted : employeeId ∈ gone)
      (rows : db'.employeeAssignments =
        db.employeeAssignments.filter fun a => a.employeeId ≠ employeeId)
      (sequence : db'.sequences.employeeAssignment = db.sequences.employeeAssignment)
      (drawn : FactsDrawn db db') : RowStep T gone db db'
  | elsewhere {db' : Db} (rows : db'.employeeAssignments = db.employeeAssignments)
      (sequence : db'.sequences.employeeAssignment = db.sequences.employeeAssignment)
      (drawn : FactsDrawn db db') : RowStep T gone db db'

abbrev RowSteps (T : DateTime) (gone : Set ℕ) : Db → Db → Prop :=
  Relation.ReflTransGen (RowStep T gone)

section

variable {db db₁ db' : Db} {T : DateTime} {gone : Set ℕ} {actor : Actor}

/-! ## Facts -/

theorem storeVersion_fields {rules rules' : Rules} {sequences : Sequences} {policyId : ℕ}
    {input : PolicyVersionInput} {v : PolicyVersion}
    (h : storePolicyVersion rules sequences policyId input = .ok (rules', v)) :
    rules'.assignmentFieldDefinitions = rules.assignmentFieldDefinitions := by
  unfold storePolicyVersion at h
  split at h
  · exact absurd h (by simp)
  · split at h
    · exact absurd h (by simp)
    · cases h
      exact (storeClauses_outputs input.compiledClauses).2

theorem FactsDrawn.retired (overrideId : ℕ) :
    FactsDrawn db (db.withOverrides (retireOverride db.facts.employeeOverrides overrideId T)) := by
  refine ⟨rfl, le_rfl, fun o ho => ?_⟩
  rcases mem_retireOverride.mp ho with ⟨ho, _⟩ | ⟨r, hr, _, rfl⟩
  · exact Or.inr ⟨o, ho, rfl⟩
  · exact Or.inr ⟨r, hr, rfl⟩

theorem FactsDrawn.recorded (h : FactsDrawn db db₁) {entityType action : String}
    {entityId : ℕ} {before after : Option Snapshot} :
    FactsDrawn db (recordAuditLog db₁ actor entityType entityId action before after T) :=
  ⟨h.fields, h.sequence, h.overrides⟩

theorem FactsDrawn.added (h : FactsDrawn db db₁) {o : EmployeeOverride}
    (hid : o.id = db₁.sequences.employeeOverride) : FactsDrawn db (db₁.addOverride o) := by
  refine ⟨h.fields, h.sequence.trans (Nat.le_succ _), fun r hr => ?_⟩
  rcases Table.mem_insert.mp hr with rfl | ⟨hr, _⟩
  · exact Or.inl (hid.trans_lt (Nat.lt_succ_self _))
  · exact (h.overrides r hr).imp_left fun hlt => hlt.trans (Nat.lt_succ_self _)

theorem FactWrite.rowStep {entityType action : String} {entityId : ℕ} {before after : Option Snapshot}
    (h : FactWrite T gone db db' entityType entityId action before after) (actor : Actor) :
    RowStep T gone db (recordAuditLog db' actor entityType entityId action before after T) := by
  cases h with
  | employeeCreated e _ => exact .elsewhere rfl rfl (.same rfl rfl rfl)
  | employeeChanged e changed _ _ _ => exact .elsewhere rfl rfl (.same rfl rfl rfl)
  | employeeDeleted e deleted =>
    refine .removed e.id deleted rfl rfl ⟨rfl, le_rfl, fun o ho => ?_⟩
    exact Or.inr ⟨o, (Table.mem_filter.mp ho).1, rfl⟩
  | overrideCreated o drawn =>
    exact .elsewhere rfl rfl (.recorded (.added (.same rfl rfl rfl) drawn))
  | overrideChanged old o drawn _ =>
    exact .elsewhere rfl rfl (.recorded (.added (.retired old.id) drawn))
  | overrideRemoved old => exact .elsewhere rfl rfl (.recorded (.retired old.id))
  | groupCreated g _ => exact .elsewhere rfl rfl (.same rfl rfl rfl)
  | groupChanged g changed _ _ => exact .elsewhere rfl rfl (.same rfl rfl rfl)
  | memberAdded m => exact .elsewhere rfl rfl (.same rfl rfl rfl)
  | memberRemoved m => exact .elsewhere rfl rfl (.same rfl rfl rfl)
  | policyAttached key _ => exact .elsewhere rfl rfl (.same rfl rfl rfl)
  | policyDetached key _ => exact .elsewhere rfl rfl (.same rfl rfl rfl)
  | policyCreated p _ => exact .elsewhere rfl rfl (.same rfl rfl rfl)
  | policyChanged p changed _ _ _ => exact .elsewhere rfl rfl (.same rfl rfl rfl)
  | versionCreated policyId input rules v _ stored =>
    exact .elsewhere rfl rfl (.same rfl rfl (storeVersion_fields stored))

theorem OperationStep.rowStep (h : OperationStep T gone db db') : RowStep T gone db db' := by
  cases h with
  | recorded actor written => exact written.rowStep actor
  | refreshed employeeId evaluationDate actor desired now sourced ok =>
    exact .refreshed employeeId evaluationDate actor desired now sourced ok
  | links links => exact .elsewhere rfl rfl (.same rfl rfl rfl)
  | events events next => exact .elsewhere rfl rfl (.same rfl rfl rfl)

theorem runOperation_rowSteps {operation : Operation}
    (hrun : runOperation db actor T operation = .ok db') :
    RowSteps T operation.deletes db db' :=
  (runOperation_steps hrun).lift id fun _ _ h => h.rowStep

end

end Warp
