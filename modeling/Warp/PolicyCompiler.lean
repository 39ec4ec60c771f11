import Warp.ConditionFields
import Warp.Infra.Dnf

/-!
# The policy compiler

A nested condition tree compiles to disjunctive normal form: a list of AND clauses joined by OR.
For example, `A AND (B OR C)` becomes `[(A, B), (A, C)]`.
-/

namespace Warp

open Infra

/-! ## Condition trees -/

inductive LogicalOperator where
  | and
  | or
deriving DecidableEq, Repr

/-- A leaf of a condition tree, and likewise an atom of a compiled clause. -/
structure CompiledCondition where
  conditionFieldDefinition : ConditionFieldDefinition
  operator : Operator
  value : String
deriving DecidableEq, Repr

def CompiledCondition.field (c : CompiledCondition) : String := c.conditionFieldDefinition.key

abbrev CompiledClause := List CompiledCondition

inductive ConditionGroup where
  | mk (logicalOperator : LogicalOperator) (conditionLinks : List CompiledCondition)
      (childGroups : List ConditionGroup)

mutual

/-- Every group has a condition or a child group. -/
def ConditionGroup.nonempty : ConditionGroup → Bool
  | .mk _ links children => !(links.isEmpty && children.isEmpty) && nonemptyGroups children

def nonemptyGroups : List ConditionGroup → Bool
  | [] => true
  | g :: rest => g.nonempty && nonemptyGroups rest

end

/-! ## Compilation -/

def maxCompiledClauses : ℕ := 200

def requireClauseLimit (clauseCount : ℕ) : Except ServiceError Unit :=
  ensure (clauseCount ≤ maxCompiledClauses)
    (.policyCompilation "A policy may compile to at most 200 clauses")

/-- The products of an AND group, one operand after the other. -/
def andClauses : List CompiledClause → List (List CompiledClause) →
    Except ServiceError (List CompiledClause)
  | clauses, [] => .ok clauses
  | clauses, operand :: rest =>
    match requireClauseLimit (clauses.length * operand.length) with
    | .error e => .error e
    | .ok () => andClauses (Dnf.product clauses operand) rest

def joinOperands (logicalOperator : LogicalOperator) (operands : List (List CompiledClause)) :
    Except ServiceError (List CompiledClause) :=
  if operands.isEmpty then
    .error (.policyCompilation "Condition groups must contain a condition or child group")
  else
    match logicalOperator with
    | .or =>
      match requireClauseLimit (operands.foldl (fun count operand => count + operand.length) 0) with
      | .error e => .error e
      | .ok () => .ok operands.flatten
    | .and => andClauses [[]] operands

mutual

def compileGroup : ConditionGroup → Except ServiceError (List CompiledClause)
  | .mk logicalOperator links children =>
    match compileGroups children with
    | .error e => .error e
    | .ok operands =>
      joinOperands logicalOperator (links.map (fun condition => [[condition]]) ++ operands)

def compileGroups : List ConditionGroup → Except ServiceError (List (List CompiledClause))
  | [] => .ok []
  | g :: rest =>
    match compileGroup g with
    | .error e => .error e
    | .ok clauses =>
      match compileGroups rest with
      | .error e => .error e
      | .ok operands => .ok (clauses :: operands)

end

/-- The flat clauses of a version's condition tree. -/
def compilePolicyVersionClauses (canonicalRoot : ConditionGroup) :
    Except ServiceError (List CompiledClause) :=
  compileGroup canonicalRoot

/-! ## The meaning of a tree -/

/-- AND: all operands hold. OR: one of them does. -/
def LogicalOperator.combine : LogicalOperator → List Bool → Bool
  | .and, results => results.all id
  | .or, results => results.any id

mutual

def ConditionGroup.holds (p : CompiledCondition → Bool) : ConditionGroup → Bool
  | .mk logicalOperator links children =>
    logicalOperator.combine (links.map p ++ resultsOf p children)

def resultsOf (p : CompiledCondition → Bool) : List ConditionGroup → List Bool
  | [] => []
  | g :: rest => g.holds p :: resultsOf p rest

end

/-! ## Compilation preserves the meaning -/

section

variable {p : CompiledCondition → Bool}

theorem andClauses_eq : ∀ {operands : List (List CompiledClause)}
    {acc clauses : List CompiledClause}, andClauses acc operands = .ok clauses →
      clauses = operands.foldl Dnf.product acc
  | [], _, _, h => by
    cases h
    rfl
  | operand :: rest, acc, clauses, h => by
    rw [andClauses] at h
    split at h
    · exact absurd h (by simp)
    · rw [List.foldl_cons]
      exact andClauses_eq h

theorem joinOperands_holds {op : LogicalOperator} {operands : List (List CompiledClause)}
    {clauses : List CompiledClause} (h : joinOperands op operands = .ok clauses) :
    Dnf.holds p clauses = op.combine (operands.map (Dnf.holds p)) := by
  unfold joinOperands at h
  split at h
  · exact absurd h (by simp)
  · cases op with
    | or =>
      dsimp only at h
      split at h
      · exact absurd h (by simp)
      · cases h
        rw [Dnf.holds_flatten, LogicalOperator.combine, List.any_map]
        rfl
    | and =>
      rw [andClauses_eq h, Dnf.holds_foldl_product, Dnf.holds_unit, Bool.true_and,
        LogicalOperator.combine, List.all_map]
      rfl

mutual

/-- The clauses hold exactly when the tree does. -/
theorem compileGroup_holds : ∀ {g : ConditionGroup} {clauses : List CompiledClause},
    compileGroup g = .ok clauses → Dnf.holds p clauses = g.holds p
  | .mk op links children, clauses, h => by
    rw [compileGroup] at h
    split at h
    · exact absurd h (by simp)
    · next operands hc =>
      have hlinks : (links.map (fun c => [[c]])).map (Dnf.holds p) = links.map p := by
        rw [List.map_map]
        exact List.map_congr_left fun c _ => Dnf.holds_single c
      rw [joinOperands_holds h, List.map_append, hlinks, compileGroups_holds hc,
        ConditionGroup.holds]

theorem compileGroups_holds : ∀ {gs : List ConditionGroup}
    {operands : List (List CompiledClause)}, compileGroups gs = .ok operands →
      operands.map (Dnf.holds p) = resultsOf p gs
  | [], _, h => by
    cases h
    rfl
  | g :: rest, operands, h => by
    rw [compileGroups] at h
    split at h
    · exact absurd h (by simp)
    · next clauses hg =>
      split at h
      · exact absurd h (by simp)
      · next tail hr =>
        cases h
        rw [List.map_cons, compileGroup_holds hg, compileGroups_holds hr, resultsOf]

end

end

end Warp
