import Warp.Database

/-!
# The condition catalog

The rows of `condition_field_definitions` and their dependencies, brought in line with the specs of
the code.
-/

namespace Warp

open Infra

/-- The two tables of the catalog and the next ids. -/
structure ConditionCatalog where
  definitions : Table ConditionFieldDefinition
  dependencies : Table ConditionFieldDependency
  nextDefinition : ℕ
  nextDependency : ℕ

/-! ## Definitions -/

def specDefinition (id : ℕ) (spec : ConditionFieldSpec) : ConditionFieldDefinition where
  id := id
  key := spec.key
  fieldType := spec.fieldType
  dataType := spec.dataType
  resolverKey := some spec.resolverKey
  sourceTable := spec.sourceTable
  sourceColumn := spec.sourceColumn
  active := true

/-- A field that the code does not know any more is switched off. -/
def deactivateUnknown (definitions : Table ConditionFieldDefinition) :
    Table ConditionFieldDefinition :=
  definitions.modify
    (fun d => if (findSpec? d.key).isNone then { d with active := false } else d)
    fun d => by split <;> rfl

/-- `existing.get(spec.key)` -/
def existingDefinition? (definitions : Table ConditionFieldDefinition) (key : String) :
    Option ConditionFieldDefinition :=
  (definitions.select fun d => d.key = key).getLast?

/-! ## Dependencies -/

def specDependency (id definitionId : ℕ) (item : ConditionFieldDependencySpec) :
    ConditionFieldDependency where
  id := id
  conditionFieldDefinitionId := definitionId
  dependencyType := item.dependencyType
  dependencyKey := item.dependencyKey
  sourceTable := item.sourceTable
  sourceColumn := item.sourceColumn
  role := item.role
  impactResolverKey := item.impactResolverKey

/-- `existing_dependencies.get((item.dependency_key, item.role))` -/
def existingDependency? (dependencies : Table ConditionFieldDependency) (definitionId : ℕ)
    (item : ConditionFieldDependencySpec) : Option ConditionFieldDependency :=
  (dependencies.select fun d => d.conditionFieldDefinitionId = definitionId
    && d.dependencyKey = item.dependencyKey && d.role = item.role).getLast?

/-- An existing row keeps its id. -/
def syncDependency (definitionId : ℕ) (catalog : ConditionCatalog)
    (item : ConditionFieldDependencySpec) : ConditionCatalog :=
  match existingDependency? catalog.dependencies definitionId item with
  | some d =>
    { catalog with
      dependencies := catalog.dependencies.insert (specDependency d.id definitionId item) }
  | none =>
    { catalog with
      dependencies :=
        catalog.dependencies.insert (specDependency catalog.nextDependency definitionId item)
      nextDependency := catalog.nextDependency + 1 }

/-- Drops the rows of a definition that its spec does not list. -/
def dropDependencies (definitionId : ℕ) (items : List ConditionFieldDependencySpec)
    (dependencies : Table ConditionFieldDependency) : Table ConditionFieldDependency :=
  dependencies.filter fun d => d.conditionFieldDefinitionId ≠ definitionId
    || (items.map fun item => (item.dependencyKey, item.role)).contains (d.dependencyKey, d.role)

def syncDependencies (definitionId : ℕ) (spec : ConditionFieldSpec) (catalog : ConditionCatalog) :
    ConditionCatalog :=
  let synced := spec.dependencies.foldl (syncDependency definitionId) catalog
  { synced with dependencies := dropDependencies definitionId spec.dependencies synced.dependencies }

/-! ## The whole catalog -/

def syncDefinition (catalog : ConditionCatalog) (spec : ConditionFieldSpec) : ConditionCatalog :=
  match existingDefinition? catalog.definitions spec.key with
  | some d =>
    syncDependencies d.id spec
      { catalog with definitions := catalog.definitions.insert (specDefinition d.id spec) }
  | none =>
    syncDependencies catalog.nextDefinition spec
      { catalog with
        definitions := catalog.definitions.insert (specDefinition catalog.nextDefinition spec)
        nextDefinition := catalog.nextDefinition + 1 }

def ConditionCatalog.sync (catalog : ConditionCatalog) : ConditionCatalog :=
  conditionFieldSpecs.foldl syncDefinition
    { catalog with definitions := deactivateUnknown catalog.definitions }

def ConditionCatalog.empty : ConditionCatalog where
  definitions := .empty
  dependencies := .empty
  nextDefinition := 1
  nextDependency := 1

def Db.conditionCatalog (db : Db) : ConditionCatalog where
  definitions := db.facts.conditionFieldDefinitions
  dependencies := db.facts.conditionFieldDependencies
  nextDefinition := db.sequences.conditionFieldDefinition
  nextDependency := db.sequences.conditionFieldDependency

def Db.withConditionCatalog (db : Db) (catalog : ConditionCatalog) : Db :=
  { db with
    facts := { db.facts with
      conditionFieldDefinitions := catalog.definitions
      conditionFieldDependencies := catalog.dependencies }
    sequences := { db.sequences with
      conditionFieldDefinition := catalog.nextDefinition
      conditionFieldDependency := catalog.nextDependency } }

/-- `sync_condition_field_definitions` -/
def syncConditionFieldDefinitions (db : Db) : Db :=
  db.withConditionCatalog db.conditionCatalog.sync

end Warp
