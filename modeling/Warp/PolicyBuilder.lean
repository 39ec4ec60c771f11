import Warp.ConditionTreeLimits

/-!
# The policy builder

The condition tree that a browser edits, its statistics and the check before it is sent. The counts
are written once more in the language of the browser.
-/

namespace Warp.PolicyBuilder

/-- A condition as a browser receives it, with the words for its value. -/
structure Condition where
  field : String
  operator : Operator
  value : String
  displayValue : Option String := none
deriving DecidableEq, Repr

inductive ConditionGroup where
  | mk (logicalOperator : LogicalOperator) (conditions : List Condition)
      (childGroups : List ConditionGroup)

structure BuilderCondition extends Condition where
  rowId : ℕ
deriving DecidableEq, Repr

inductive BuilderConditionGroup where
  | mk (groupId : ℕ) (logicalOperator : LogicalOperator) (conditions : List BuilderCondition)
      (childGroups : List BuilderConditionGroup)

namespace BuilderConditionGroup

def groupId : BuilderConditionGroup → ℕ
  | .mk groupId _ _ _ => groupId

def conditions : BuilderConditionGroup → List BuilderCondition
  | .mk _ _ conditions _ => conditions

def childGroups : BuilderConditionGroup → List BuilderConditionGroup
  | .mk _ _ _ childGroups => childGroups

end BuilderConditionGroup

/-! ## The tree at the start -/

/-- The next identifiers of groups and of conditions. -/
structure BuilderIds where
  group : ℕ
  condition : ℕ
deriving DecidableEq, Repr

def defaultCondition : Condition := ⟨"", .eq, "", none⟩

def numberConditions : List Condition → BuilderIds → List BuilderCondition × BuilderIds
  | [], ids => ([], ids)
  | condition :: rest, ids =>
    let (rows, last) := numberConditions rest { ids with condition := ids.condition + 1 }
    (⟨condition, ids.condition⟩ :: rows, last)

mutual

/-- The `visit` of `initializeConditionTree` -/
def numberGroup : ConditionGroup → BuilderIds → BuilderConditionGroup × BuilderIds
  | .mk logicalOperator conditions children, ids =>
    let (rows, afterRows) := numberConditions conditions { ids with group := ids.group + 1 }
    let (childGroups, last) := numberGroups children afterRows
    (.mk ids.group logicalOperator rows childGroups, last)

def numberGroups : List ConditionGroup → BuilderIds → List BuilderConditionGroup × BuilderIds
  | [], ids => ([], ids)
  | child :: rest, ids =>
    let (first, afterFirst) := numberGroup child ids
    let (others, last) := numberGroups rest afterFirst
    (first :: others, last)

end

def initializeConditionTree (source : Option ConditionGroup) (includeDefaultCondition : Bool) :
    BuilderConditionGroup :=
  match source with
  | some source => (numberGroup source ⟨1, 1⟩).1
  | none => .mk 1 .and (if includeDefaultCondition then [⟨defaultCondition, 1⟩] else []) []

mutual

/-- The `visit` of `maximumBuilderIds` -/
def raiseIds : BuilderConditionGroup → BuilderIds → BuilderIds
  | .mk groupId _ conditions children, ids =>
    raiseChildIds children
      ⟨max ids.group groupId, conditions.foldl (fun id row => max id row.rowId) ids.condition⟩

def raiseChildIds : List BuilderConditionGroup → BuilderIds → BuilderIds
  | [], ids => ids
  | child :: rest, ids => raiseChildIds rest (raiseIds child ids)

end

def maximumBuilderIds (root : BuilderConditionGroup) : BuilderIds := raiseIds root ⟨root.groupId, 0⟩

/-! ## What is sent -/

def serializeCondition (c : BuilderCondition) : ConditionCreate := ⟨c.field, c.operator, c.value⟩

mutual

def serializeConditionTree : BuilderConditionGroup → ConditionGroupCreate
  | .mk _ logicalOperator conditions children =>
    .mk logicalOperator (conditions.map serializeCondition) (serializeConditionTrees children)

def serializeConditionTrees : List BuilderConditionGroup → List ConditionGroupCreate
  | [] => []
  | child :: rest => serializeConditionTree child :: serializeConditionTrees rest

end

/-! ## Statistics -/

mutual

def structuralStats (depth : ℕ) : BuilderConditionGroup → ℕ × ℕ × ℕ
  | .mk _ _ conditions children => childStats depth (1, conditions.length, depth) children

def childStats (depth : ℕ) : ℕ × ℕ × ℕ → List BuilderConditionGroup → ℕ × ℕ × ℕ
  | stats, [] => stats
  | (groups, conditions, maximumDepth), child :: rest =>
    let (childGroups, childConditions, childDepth) := structuralStats (depth + 1) child
    childStats depth
      (groups + childGroups, conditions + childConditions, max maximumDepth childDepth) rest

end

def productCount : ℕ → List ℕ → ℕ
  | clauseCount, [] => clauseCount
  | clauseCount, operandCount :: rest =>
    if clauseCount * operandCount > maxCompiledClauses then maxCompiledClauses + 1
    else productCount (clauseCount * operandCount) rest

mutual

def compiledClauseCount : BuilderConditionGroup → ℕ
  | .mk _ logicalOperator conditions children =>
    let operandCounts := conditions.map (fun _ => 1) ++ compiledClauseCounts children
    if operandCounts.length = 0 then 0
    else
      match logicalOperator with
      | .or => min (operandCounts.foldl (fun total count => total + count) 0)
          (maxCompiledClauses + 1)
      | .and => productCount 1 operandCounts

def compiledClauseCounts : List BuilderConditionGroup → List ℕ
  | [] => []
  | child :: rest => compiledClauseCount child :: compiledClauseCounts rest

end

def conditionTreeStats (root : BuilderConditionGroup) : ConditionTreeStats :=
  let (groups, conditions, depth) := structuralStats 1 root
  ⟨groups, conditions, depth, compiledClauseCount root⟩

/-! ## The check -/

mutual

def containsEmptyGroup : BuilderConditionGroup → Bool
  | .mk _ _ conditions children =>
    (conditions.length = 0 && children.length = 0) || someContainsEmptyGroup children

def someContainsEmptyGroup : List BuilderConditionGroup → Bool
  | [] => false
  | child :: rest => containsEmptyGroup child || someContainsEmptyGroup rest

end

/-- A character that `trim` removes. -/
def isTrimmed (c : Char) : Bool :=
  let n := c.toNat
  (9 ≤ n && n ≤ 13) || n == 32 || n == 160 || n == 5760 || (8192 ≤ n && n ≤ 8202) || n == 8232
    || n == 8233 || n == 8239 || n == 8287 || n == 12288 || n == 65279

def isIncomplete (c : BuilderCondition) : Bool :=
  c.field.isEmpty || c.value.toList.all isTrimmed

mutual

def containsIncompleteCondition : BuilderConditionGroup → Bool
  | .mk _ _ conditions children =>
    conditions.any isIncomplete || someContainsIncompleteCondition children

def someContainsIncompleteCondition : List BuilderConditionGroup → Bool
  | [] => false
  | child :: rest => containsIncompleteCondition child || someContainsIncompleteCondition rest

end

/-- What the builder shows instead of sending the tree. -/
def conditionTreeValidationError (root : BuilderConditionGroup) : Option String :=
  if containsEmptyGroup root then
    some "Every condition group must contain a condition or group."
  else if containsIncompleteCondition root then
    some "Complete the highlighted fields before previewing this policy."
  else
    let stats := conditionTreeStats root
    if stats.depth > maxConditionGroupDepth then
      some "Condition groups may be at most 3 levels deep."
    else if stats.groups > maxConditionGroups then
      some "A policy may contain at most 20 condition groups."
    else if stats.conditions > maxPolicyConditions then
      some "A policy may contain at most 50 conditions."
    else if stats.compiledClauses > maxCompiledClauses then
      some ("This policy expands to more than 200 evaluation clauses. "
        ++ "Simplify its groups before previewing.")
    else none

end Warp.PolicyBuilder
