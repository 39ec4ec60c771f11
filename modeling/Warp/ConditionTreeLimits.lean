import Mathlib.Algebra.GroupWithZero.Nat
import Warp.PolicyAuthoring

/-!
# Limits of condition trees

A request is refused before its tree is compiled if the tree is too large, or if it would compile to
too many clauses. The clauses are counted without building them.
-/

namespace Warp

open Infra

/-- What the counts read of a condition tree. -/
inductive ConditionGroupLike where
  | mk (logicalOperator : LogicalOperator) (conditions : ℕ) (childGroups : List ConditionGroupLike)

def maxConditionGroupDepth : ℕ := 3

def maxConditionGroups : ℕ := 20

def maxPolicyConditions : ℕ := 50

structure ConditionTreeStats where
  groups : ℕ
  conditions : ℕ
  depth : ℕ
  compiledClauses : ℕ
deriving DecidableEq, Repr

mutual

/-- `_structural_stats`: the groups, the conditions and the greatest depth. -/
def structuralStats (depth : ℕ) : ConditionGroupLike → ℕ × ℕ × ℕ
  | .mk _ conditions children => childStats depth (1, conditions, depth) children

/-- The loop over the child groups. -/
def childStats (depth : ℕ) : ℕ × ℕ × ℕ → List ConditionGroupLike → ℕ × ℕ × ℕ
  | stats, [] => stats
  | (groupCount, conditionCount, maximumDepth), child :: rest =>
    let (childGroups, childConditions, childDepth) := structuralStats (depth + 1) child
    childStats depth
      (groupCount + childGroups, conditionCount + childConditions, max maximumDepth childDepth) rest

end

/-- The product of an AND group, which ends at the first one above the limit. -/
def productCount : ℕ → List ℕ → ℕ
  | clauseCount, [] => clauseCount
  | clauseCount, operandCount :: rest =>
    if clauseCount * operandCount > maxCompiledClauses then maxCompiledClauses + 1
    else productCount (clauseCount * operandCount) rest

def joinCounts (logicalOperator : LogicalOperator) (operandCounts : List ℕ) : ℕ :=
  if operandCounts.isEmpty then 0
  else
    match logicalOperator with
    | .or => min operandCounts.sum (maxCompiledClauses + 1)
    | .and => productCount 1 operandCounts

mutual

/-- `_compiled_clause_count` -/
def compiledClauseCount : ConditionGroupLike → ℕ
  | .mk logicalOperator conditions children =>
    joinCounts logicalOperator (List.replicate conditions 1 ++ compiledClauseCounts children)

def compiledClauseCounts : List ConditionGroupLike → List ℕ
  | [] => []
  | child :: rest => compiledClauseCount child :: compiledClauseCounts rest

end

def conditionTreeStats (root : ConditionGroupLike) : ConditionTreeStats :=
  let (groups, conditions, depth) := structuralStats 1 root
  ⟨groups, conditions, depth, compiledClauseCount root⟩

/-- The message of the `ValueError`, if the tree is too large. -/
def conditionTreeLimitError (root : ConditionGroupLike) : Option String :=
  let stats := conditionTreeStats root
  if stats.depth > maxConditionGroupDepth then
    some "Condition groups may be at most 3 levels deep"
  else if stats.groups > maxConditionGroups then
    some "A policy may contain at most 20 condition groups"
  else if stats.conditions > maxPolicyConditions then
    some "A policy may contain at most 50 conditions"
  else if stats.compiledClauses > maxCompiledClauses then
    some "A policy may compile to at most 200 clauses"
  else none

/-! ## Trees that are counted -/

mutual

def ConditionGroupCreate.like : ConditionGroupCreate → ConditionGroupLike
  | .mk logicalOperator conditions children =>
    .mk logicalOperator conditions.length (ConditionGroupCreate.likes children)

def ConditionGroupCreate.likes : List ConditionGroupCreate → List ConditionGroupLike
  | [] => []
  | child :: rest => child.like :: ConditionGroupCreate.likes rest

end

mutual

def ConditionGroup.like : ConditionGroup → ConditionGroupLike
  | .mk logicalOperator links children =>
    .mk logicalOperator links.length (ConditionGroup.likes children)

def ConditionGroup.likes : List ConditionGroup → List ConditionGroupLike
  | [] => []
  | child :: rest => child.like :: ConditionGroup.likes rest

end

end Warp
