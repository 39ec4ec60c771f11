import Warp.PolicyBuilder

/-!
# The editor of condition groups

The controls of the policy builder: a row edits one condition, a group editor its own rows and groups
and, through their editors, the groups below. Every control hands a whole new tree upwards; new rows and
groups take their identifiers from two counters.
-/

namespace Warp.PolicyBuilder

/-! ## Condition rows -/

structure ConditionField where
  key : String
  allowedOperators : List Operator
deriving DecidableEq, Repr

def authorableConditionFields (fields : List ConditionField) : List ConditionField :=
  let authorable := fields.filter fun field => field.key ≠ "name"
  match authorable.find? fun field => field.key = "employee_id" with
  | some employee => employee :: authorable.erase employee
  | none => authorable

def fieldOf? (conditionFields : List ConditionField) (key : String) : Option ConditionField :=
  conditionFields.find? fun field => field.key = key

/-- The fields that the row of a condition offers. -/
def displayedFields (conditionFields : List ConditionField) (condition : BuilderCondition) :
    List ConditionField :=
  let selectableFields := authorableConditionFields conditionFields
  match fieldOf? conditionFields condition.field with
  | some definition =>
    if selectableFields.any fun field => field.key = definition.key then selectableFields
    else definition :: selectableFields
  | none => selectableFields

/-- `Partial<BuilderCondition>`, as far as the rows fill it. -/
structure ConditionPatch where
  field : Option String := none
  operator : Option Operator := none
  value : Option String := none
deriving DecidableEq, Repr

inductive RowEdit where
  | field (key : String)
  | operator (operator : Operator)
  | value (value : String)
deriving DecidableEq, Repr

/-- What a row asks to change; nothing where the control is disabled or does not offer the choice. -/
def rowPatch (conditionFields : List ConditionField) (condition : BuilderCondition) :
    RowEdit → Option ConditionPatch
  | .field key =>
    if (displayedFields conditionFields condition).any fun field => field.key = key then
      let allowed := ((fieldOf? conditionFields key).map (·.allowedOperators)).getD []
      some { field := some key, operator := some (allowed.head?.getD .eq), value := some "" }
    else none
  | .operator operator =>
    match fieldOf? conditionFields condition.field with
    | some definition =>
      if operator ∈ definition.allowedOperators then some { operator := some operator } else none
    | none => none
  | .value value =>
    match fieldOf? conditionFields condition.field with
    | some _ => some { value := some value }
    | none => none

/-- `{ ...item, ...patch }` -/
def BuilderCondition.patched (item : BuilderCondition) (patch : ConditionPatch) : BuilderCondition :=
  { item with
    field := patch.field.getD item.field
    operator := patch.operator.getD item.operator
    value := patch.value.getD item.value }

/-! ## Group editors -/

def createCondition (ids : BuilderIds) : BuilderCondition × BuilderIds :=
  (⟨defaultCondition, ids.condition⟩, { ids with condition := ids.condition + 1 })

def createGroup (ids : BuilderIds) : BuilderConditionGroup × BuilderIds :=
  let (condition, last) := createCondition { ids with group := ids.group + 1 }
  (.mk ids.group .or [condition] [], last)

/-- A use of one control. Rows and groups are chosen by their place on the page. -/
inductive GroupEdit where
  | logicalOperator (logicalOperator : LogicalOperator)
  | changeCondition (row : ℕ) (edit : RowEdit)
  | removeCondition (row : ℕ)
  | addCondition
  | addGroup
  | removeGroup (child : ℕ)
  | inGroup (child : ℕ) (edit : GroupEdit)

/-- The group that the editor at some depth hands to `onChange`, and the counters afterwards; nothing
where the control is disabled or absent. -/
def editGroup (conditionFields : List ConditionField) (stats : ConditionTreeStats) (depth : ℕ) :
    GroupEdit → BuilderConditionGroup → BuilderIds → Option (BuilderConditionGroup × BuilderIds)
  | .logicalOperator logicalOperator, .mk groupId _ conditions childGroups, ids =>
    some (.mk groupId logicalOperator conditions childGroups, ids)
  | .changeCondition row edit, .mk groupId logicalOperator conditions childGroups, ids =>
    conditions[row]?.bind fun condition =>
      (rowPatch conditionFields condition edit).map fun patch =>
        (.mk groupId logicalOperator
          (conditions.map fun item =>
            if item.rowId = condition.rowId then item.patched patch else item) childGroups, ids)
  | .removeCondition row, .mk groupId logicalOperator conditions childGroups, ids =>
    conditions[row]?.bind fun condition =>
      if conditions.length = 1 ∧ childGroups.length = 0 then none
      else
        some (.mk groupId logicalOperator
          (conditions.filter fun item => item.rowId ≠ condition.rowId) childGroups, ids)
  | .addCondition, .mk groupId logicalOperator conditions childGroups, ids =>
    if stats.conditions < maxPolicyConditions then
      let (condition, last) := createCondition ids
      some (.mk groupId logicalOperator (conditions ++ [condition]) childGroups, last)
    else none
  | .addGroup, .mk groupId logicalOperator conditions childGroups, ids =>
    if depth < maxConditionGroupDepth ∧ stats.groups < maxConditionGroups ∧
        stats.conditions < maxPolicyConditions then
      let (group, last) := createGroup ids
      some (.mk groupId logicalOperator conditions (childGroups ++ [group]), last)
    else none
  | .removeGroup index, .mk groupId logicalOperator conditions childGroups, ids =>
    childGroups[index]?.bind fun child =>
      if conditions.length = 0 ∧ childGroups.length = 1 then none
      else
        some (.mk groupId logicalOperator conditions
          (childGroups.filter fun item => item.groupId ≠ child.groupId), ids)
  | .inGroup index edit, .mk groupId logicalOperator conditions childGroups, ids =>
    childGroups[index]?.bind fun child =>
      (editGroup conditionFields stats (depth + 1) edit child ids).map fun (nextChild, last) =>
        (.mk groupId logicalOperator conditions
          (childGroups.map fun item => if item.groupId = child.groupId then nextChild else item),
          last)

/-! ## The page -/

structure PolicyBuilderState where
  conditionTree : BuilderConditionGroup
  nextBuilderIds : BuilderIds

/-- The page when it is opened, for a new policy or on the conditions of the latest version. -/
def openPolicyBuilder (source : Option ConditionGroup) (conditionFields : List ConditionField) :
    PolicyBuilderState :=
  let conditionTree := initializeConditionTree source (0 < conditionFields.length)
  let maximumIds := maximumBuilderIds conditionTree
  ⟨conditionTree, ⟨maximumIds.group + 1, maximumIds.condition + 1⟩⟩

/-- One use of a control of the root's editor or of an editor below. -/
def changeConditionTree (conditionFields : List ConditionField) (page : PolicyBuilderState)
    (edit : GroupEdit) : PolicyBuilderState :=
  match editGroup conditionFields (conditionTreeStats page.conditionTree) 1 edit
      page.conditionTree page.nextBuilderIds with
  | some (nextTree, ids) => ⟨nextTree, ids⟩
  | none => page

def runEdits (conditionFields : List ConditionField) (page : PolicyBuilderState)
    (edits : List GroupEdit) : PolicyBuilderState :=
  edits.foldl (changeConditionTree conditionFields) page

end Warp.PolicyBuilder
