import Warp.Database

/-!
# Policy versions

A new version of a policy closes an open-ended predecessor, must not overlap any other version, and
takes the next version number. Its condition tree is stored as flat clauses.
-/

namespace Warp

open Infra

structure PolicyVersionInput where
  priority : ℤ
  effectiveFrom : Date
  effectiveUntil : Option Date
  createdBy : Option String
  values : List (ℕ × String)
  compiledClauses : List CompiledClause

/-! ## Date ranges -/

/-- The open-ended version of the policy that starts last before a date. -/
def priorOpenVersion? (versions : Table PolicyVersion) (policyId : ℕ) (nextEffectiveFrom : Date) :
    Option PolicyVersion :=
  (orderBy (fun v : PolicyVersion => OrderDual.toDual v.effectiveFrom)
    (versions.select fun v => v.policyId = policyId && v.effectiveUntil.isNone
      && v.effectiveFrom < nextEffectiveFrom)).head?

def setEffectiveUntil (versions : Table PolicyVersion) (versionId : ℕ) (last : Date) :
    Table PolicyVersion :=
  versions.modify (fun v => if v.id = versionId then { v with effectiveUntil := some last } else v)
    fun v => by split <;> rfl

def closePriorOpenEndedVersion (versions : Table PolicyVersion) (policyId : ℕ)
    (nextEffectiveFrom : Date) : Except ServiceError (Table PolicyVersion) :=
  match priorOpenVersion? versions policyId nextEffectiveFrom with
  | none => .ok versions
  | some prior =>
    match nextEffectiveFrom.pred? with
    | none => .error .dateOutOfRange
    | some last => .ok (setEffectiveUntil versions prior.id last)

/-- The inclusive ranges of a version and of a request have a common day. -/
def PolicyVersion.overlaps (v : PolicyVersion) (effectiveFrom : Date)
    (effectiveUntil : Option Date) : Bool :=
  v.effectiveFrom ≤ effectiveUntil.getD Date.max && (match v.effectiveUntil with
    | none => true
    | some last => effectiveFrom ≤ last)

def rejectOverlappingRange (versions : Table PolicyVersion) (policyId : ℕ) (effectiveFrom : Date)
    (effectiveUntil : Option Date) : Except ServiceError Unit :=
  match (versions.select fun v =>
      v.policyId = policyId && v.overlaps effectiveFrom effectiveUntil).head? with
  | none => .ok ()
  | some overlap =>
    .error (.policyVersionOverlap
      ("Policy " ++ toString policyId ++ " already has a version overlapping "
        ++ effectiveFrom.isoformat ++ " through "
        ++ (effectiveUntil.map Date.isoformat).getD "open-ended")
      policyId effectiveFrom effectiveUntil (some overlap.id))

def currentVersionNumber (versions : Table PolicyVersion) (policyId : ℕ) : ℕ :=
  ((versions.select fun v => v.policyId = policyId).map fun v => v.versionNumber).foldl max 0

/-- The range check before anything is read. -/
def requireValidRange (policyId : ℕ) (effectiveFrom : Date) (effectiveUntil : Option Date) :
    Except ServiceError Unit :=
  match effectiveUntil with
  | none => .ok ()
  | some last =>
    ensure (effectiveFrom ≤ last)
      (.policyVersionOverlap "effective_until cannot be before effective_from" policyId
        effectiveFrom effectiveUntil none)

/-- The version rows after `create_policy_version`, and the new row. -/
def addPolicyVersion (versions : Table PolicyVersion) (versionId policyId : ℕ)
    (input : PolicyVersionInput) : Except ServiceError (Table PolicyVersion × PolicyVersion) :=
  match requireValidRange policyId input.effectiveFrom input.effectiveUntil with
  | .error e => .error e
  | .ok () =>
    match closePriorOpenEndedVersion versions policyId input.effectiveFrom with
    | .error e => .error e
    | .ok closed =>
      match rejectOverlappingRange closed policyId input.effectiveFrom input.effectiveUntil with
      | .error e => .error e
      | .ok () =>
        let version : PolicyVersion :=
          { id := versionId
            policyId := policyId
            versionNumber := currentVersionNumber closed policyId + 1
            priority := input.priority
            effectiveFrom := input.effectiveFrom
            effectiveUntil := input.effectiveUntil
            createdBy := input.createdBy }
        .ok (closed.insert version, version)

/-! ## Outputs and clauses -/

/-- The rows of one clause, numbered from `conditionId`. -/
def conditionRows (conditionId clauseId : ℕ) : CompiledClause → List CompiledPolicyCondition
  | [] => []
  | c :: rest =>
    { id := conditionId
      clauseId := clauseId
      conditionFieldDefinitionId := c.conditionFieldDefinition.id
      operator := c.operator
      value := c.value } :: conditionRows (conditionId + 1) clauseId rest

def storeClauses (versionId : ℕ) : ℕ → ℕ → Rules → List CompiledClause → Rules
  | _, _, rules, [] => rules
  | clauseId, conditionId, rules, clause :: rest =>
    storeClauses versionId (clauseId + 1) (conditionId + clause.length)
      { rules with
        compiledPolicyClauses := rules.compiledPolicyClauses.insert ⟨clauseId, versionId⟩
        compiledPolicyConditions :=
          (conditionRows conditionId clauseId clause).foldl Table.insert
            rules.compiledPolicyConditions } rest

def storeValues (versionId : ℕ) (values : List (ℕ × String)) (rules : Rules) : Rules :=
  { rules with
    policyFieldValues := values.foldl
      (fun table v => table.insert ⟨versionId, v.1, v.2⟩) rules.policyFieldValues }

def snapshotPolicyVersion (rules : Rules) (version : PolicyVersion) : Snapshot :=
  .policyVersion version
    (rules.policyFieldValues.select fun v => v.policyVersionId = version.id)
    ((versionClauses rules [version.id]).map fun clause =>
      (clauseConditions rules clause).map fun c =>
        (((rules.conditionFieldDefinitions.find? c.conditionFieldDefinitionId).map
          fun d => d.key).getD "", c.operator, c.value))

/-- The version with the highest number. -/
def priorVersion? (versions : Table PolicyVersion) (policyId : ℕ) : Option PolicyVersion :=
  (orderBy (fun v : PolicyVersion => OrderDual.toDual v.versionNumber)
    (versions.select fun v => v.policyId = policyId)).head?

/-! ## The whole change -/

/-- An `INTEGER` column holds the number. -/
def fitsInteger (n : ℤ) : Bool := -2 ^ 31 ≤ n && n < 2 ^ 31

/-- What the columns of a version, its outputs and its conditions can hold. -/
structure FitsColumns (input : PolicyVersionInput) : Prop where
  priority : fitsInteger input.priority
  createdBy : ∀ name ∈ input.createdBy, name.length ≤ 200
  values : ∀ v ∈ input.values, v.2.length ≤ 500
  conditions : ∀ clause ∈ input.compiledClauses, ∀ c ∈ clause, c.value.length ≤ 500

/-- What the database demands of the row of a version and of the rows that come with it. -/
structure StorableRows (rules : Rules) (input : PolicyVersionInput) : Prop extends
    FitsColumns input where
  known : ∀ v ∈ input.values, (rules.assignmentFieldDefinitions.find? v.1).isSome
  distinct : input.values.Nodup

/-- The checks of the database at the flush. -/
def checkVersionRows (rules : Rules) (input : PolicyVersionInput) : Except ServiceError Unit := do
  ensure (fitsInteger input.priority) (.data "policy_versions")
  ensure (input.createdBy.all fun name => name.length ≤ 200) (.data "policy_versions")
  ensure (input.values.all fun v => v.2.length ≤ 500) (.data "policy_field_values")
  ensure (input.values.all fun v => (rules.assignmentFieldDefinitions.find? v.1).isSome)
    (.integrity "policy_field_values")
  ensure (decide input.values.Nodup) (.integrity "policy_field_values")
  ensure (input.compiledClauses.all fun clause => clause.all fun c => c.value.length ≤ 500)
    (.data "compiled_policy_conditions")

theorem checkVersionRows_eq_ok {rules : Rules} {input : PolicyVersionInput} :
    checkVersionRows rules input = .ok () ↔ StorableRows rules input := by
  simp only [checkVersionRows, bind_eq_ok, ensure_eq_ok, exists_const, List.all_eq_true,
    Option.all_eq_true, decide_eq_true_eq]
  constructor
  · rintro ⟨hpriority, hcreatedBy, hvalues, hknown, hdistinct, hconditions⟩
    exact ⟨⟨hpriority, hcreatedBy, hvalues, hconditions⟩, hknown, hdistinct⟩
  · intro h
    exact ⟨h.priority, h.createdBy, h.values, h.known, h.distinct, h.conditions⟩

/-- The rules after the version, its outputs and its clauses are stored. -/
def storePolicyVersion (rules : Rules) (sequences : Sequences) (policyId : ℕ)
    (input : PolicyVersionInput) : Except ServiceError (Rules × PolicyVersion) :=
  match addPolicyVersion rules.policyVersions sequences.policyVersion policyId input with
  | .error e => .error e
  | .ok (versions, version) =>
    match checkVersionRows rules input with
    | .error e => .error e
    | .ok () =>
      .ok (storeClauses version.id sequences.compiledPolicyClause
        sequences.compiledPolicyCondition
        (storeValues version.id input.values { rules with policyVersions := versions })
        input.compiledClauses, version)

def conditionCount (clauses : List CompiledClause) : ℕ :=
  clauses.foldl (fun count clause => count + clause.length) 0

def Sequences.afterVersion (s : Sequences) (clauses : List CompiledClause) : Sequences :=
  { s with
    policyVersion := s.policyVersion + 1
    compiledPolicyClause := s.compiledPolicyClause + clauses.length
    compiledPolicyCondition := s.compiledPolicyCondition + conditionCount clauses }

def createPolicyVersion (db : Db) (policyId : ℕ) (input : PolicyVersionInput) (actor : Actor)
    (now : DateTime) : Except ServiceError (Db × PolicyVersion) :=
  let before := (priorVersion? db.facts.policyVersions policyId).map
    (snapshotPolicyVersion db.facts.toRules)
  match storePolicyVersion db.facts.toRules db.sequences policyId input with
  | .error e => .error e
  | .ok (rules, version) =>
    .ok (recordAuditLog
      { db with
        facts := { db.facts with toRules := rules }
        sequences := db.sequences.afterVersion input.compiledClauses }
      actor "PolicyVersion" version.id "created" before
      (some (snapshotPolicyVersion rules version)) now, version)

/-! ## Before the rollback -/

/-- The version rows that the call has flushed when it ends, and how it ends. The rows are those that
its transaction sees until it is rolled back. -/
def flushPolicyVersion (db : Db) (policyId : ℕ) (input : PolicyVersionInput) :
    Table PolicyVersion × Except ServiceError PolicyVersion :=
  match requireValidRange policyId input.effectiveFrom input.effectiveUntil with
  | .error e => (db.facts.policyVersions, .error e)
  | .ok () =>
    match closePriorOpenEndedVersion db.facts.policyVersions policyId input.effectiveFrom with
    | .error e => (db.facts.policyVersions, .error e)
    | .ok closed =>
      match rejectOverlappingRange closed policyId input.effectiveFrom input.effectiveUntil with
      | .error e => (closed, .error e)
      | .ok () =>
        match checkVersionRows db.facts.toRules input with
        | .error e => (closed, .error e)
        | .ok () =>
          let version : PolicyVersion :=
            { id := db.sequences.policyVersion
              policyId := policyId
              versionNumber := currentVersionNumber closed policyId + 1
              priority := input.priority
              effectiveFrom := input.effectiveFrom
              effectiveUntil := input.effectiveUntil
              createdBy := input.createdBy }
          (closed.insert version, .ok version)

theorem storeClauses_policyVersions (versionId : ℕ) : ∀ {clauses : List CompiledClause}
    {clauseId conditionId : ℕ} {rules : Rules},
    (storeClauses versionId clauseId conditionId rules clauses).policyVersions =
      rules.policyVersions
  | [], _, _, _ => rfl
  | _ :: rest, _, _, _ => by
    have ih := @storeClauses_policyVersions versionId rest
    rw [storeClauses, ih]

/-- The call ends as the flushed statements end, and commits their rows. -/
theorem createPolicyVersion_flush (db : Db) (policyId : ℕ) (input : PolicyVersionInput)
    (actor : Actor) (now : DateTime) :
    (createPolicyVersion db policyId input actor now).map
        (fun out => (out.1.facts.policyVersions, out.2)) =
      (flushPolicyVersion db policyId input).2.map
        fun version => ((flushPolicyVersion db policyId input).1, version) := by
  unfold createPolicyVersion storePolicyVersion addPolicyVersion flushPolicyVersion
  cases requireValidRange policyId input.effectiveFrom input.effectiveUntil with
  | error e => rfl
  | ok u =>
    dsimp only
    cases closePriorOpenEndedVersion db.facts.policyVersions policyId input.effectiveFrom with
    | error e => rfl
    | ok closed =>
      dsimp only
      cases rejectOverlappingRange closed policyId input.effectiveFrom input.effectiveUntil with
      | error e => rfl
      | ok u =>
        dsimp only
        cases checkVersionRows db.facts.toRules input with
        | error e => rfl
        | ok u =>
          show Except.ok _ = Except.ok _
          refine congrArg Except.ok (Prod.ext ?_ rfl)
          exact storeClauses_policyVersions _

end Warp
