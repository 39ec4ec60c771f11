import Mathlib.Algebra.Order.BigOperators.Group.List
import Mathlib.Algebra.Order.BigOperators.GroupWithZero.List
import Mathlib.Algebra.Order.Ring.Nat
import Warp.PolicyBuilder

/-!
# The three clause counters

The compiler builds the clauses, the request check counts them up to one more than the limit, and the
policy builder counts them again. On trees without empty groups all three agree: each of them is the
exact number of clauses, cut off above the limit.
-/

namespace Warp

open Infra

/-! ## The exact number -/

/-- The number of clauses of a group with operands of the given numbers. -/
def LogicalOperator.total : LogicalOperator → List ℕ → ℕ
  | .or, totals => totals.sum
  | .and, totals => totals.prod

mutual

/-- The number of clauses that the distributive law gives, without a limit. -/
def clauseTotal : ConditionGroupLike → ℕ
  | .mk logicalOperator conditions children =>
    logicalOperator.total (List.replicate conditions 1 ++ clauseTotals children)

def clauseTotals : List ConditionGroupLike → List ℕ
  | [] => []
  | child :: rest => clauseTotal child :: clauseTotals rest

end

mutual

/-- Every group has an operand. -/
def ConditionGroupLike.nonempty : ConditionGroupLike → Bool
  | .mk _ conditions children => !(conditions == 0 && children.isEmpty) && nonemptyLikes children

def nonemptyLikes : List ConditionGroupLike → Bool
  | [] => true
  | child :: rest => child.nonempty && nonemptyLikes rest

end

/-- A number as the counters give it. -/
def saturated (total : ℕ) : ℕ := min total (maxCompiledClauses + 1)

theorem saturated_le_iff {total : ℕ} :
    saturated total ≤ maxCompiledClauses ↔ total ≤ maxCompiledClauses := by
  unfold saturated
  omega

theorem saturated_of_le {total : ℕ} (h : total ≤ maxCompiledClauses) : saturated total = total :=
  min_eq_left (Nat.le_succ_of_le h)

theorem one_le_total {op : LogicalOperator} {totals : List ℕ} (hne : totals ≠ [])
    (h : ∀ n ∈ totals, 1 ≤ n) : 1 ≤ op.total totals := by
  cases op with
  | or =>
    obtain ⟨n, rest, rfl⟩ := List.exists_cons_of_ne_nil hne
    have hn := h n List.mem_cons_self
    simp only [LogicalOperator.total, List.sum_cons]
    omega
  | and => exact List.one_le_prod h

/-- An operand is not larger than the whole group. -/
theorem le_total {op : LogicalOperator} {totals : List ℕ} (h : ∀ n ∈ totals, 1 ≤ n) {n : ℕ}
    (hn : n ∈ totals) : n ≤ op.total totals := by
  cases op with
  | or => exact List.single_le_sum (fun _ _ => Nat.zero_le _) _ hn
  | and =>
    induction totals with
    | nil => exact absurd hn List.not_mem_nil
    | cons m rest ih =>
      have hrest : 1 ≤ rest.prod := List.one_le_prod fun x hx => h x (List.mem_cons_of_mem _ hx)
      have hm : 1 ≤ m := h m List.mem_cons_self
      simp only [LogicalOperator.total, List.prod_cons] at ih ⊢
      rcases List.mem_cons.mp hn with rfl | hn
      · exact Nat.le_mul_of_pos_right _ hrest
      · exact (ih (fun x hx => h x (List.mem_cons_of_mem _ hx)) hn).trans
          (Nat.le_mul_of_pos_left _ hm)

theorem operands_ne_nil {op : LogicalOperator} {conditions : ℕ}
    {children : List ConditionGroupLike}
    (h : (ConditionGroupLike.mk op conditions children).nonempty = true) :
    List.replicate conditions 1 ++ clauseTotals children ≠ [] := by
  intro hnil
  obtain ⟨hleaves, htotals⟩ := List.append_eq_nil_iff.mp hnil
  have hzero : conditions = 0 := by simpa using hleaves
  cases children with
  | nil => simp [ConditionGroupLike.nonempty, hzero] at h
  | cons child rest => simp [clauseTotals] at htotals

mutual

theorem one_le_clauseTotal : ∀ {root : ConditionGroupLike}, root.nonempty = true →
    1 ≤ clauseTotal root
  | .mk op conditions children, h => by
    rw [clauseTotal]
    refine one_le_total (operands_ne_nil h) fun n hn => ?_
    simp only [ConditionGroupLike.nonempty, Bool.and_eq_true] at h
    rcases List.mem_append.mp hn with hn | hn
    · exact (List.eq_of_mem_replicate hn).ge
    · exact one_le_clauseTotals h.2 n hn

theorem one_le_clauseTotals : ∀ {children : List ConditionGroupLike},
    nonemptyLikes children = true → ∀ n ∈ clauseTotals children, 1 ≤ n
  | [], _, n, hn => absurd hn List.not_mem_nil
  | child :: rest, h, n, hn => by
    simp only [nonemptyLikes, Bool.and_eq_true] at h
    rcases List.mem_cons.mp hn with rfl | hn
    · exact one_le_clauseTotal h.1
    · exact one_le_clauseTotals h.2 n hn

end

/-! ## The check of a request -/

theorem productCount_eq {totals : List ℕ} (h : ∀ n ∈ totals, 1 ≤ n) {count : ℕ}
    (hone : 1 ≤ count) (hcount : count ≤ maxCompiledClauses) :
    productCount count (totals.map saturated) = saturated (count * totals.prod) := by
  induction totals generalizing count with
  | nil => rw [List.map_nil, productCount, List.prod_nil, mul_one, saturated_of_le hcount]
  | cons n rest ih =>
    have hn : 1 ≤ n := h n List.mem_cons_self
    have hrest : ∀ m ∈ rest, 1 ≤ m := fun m hm => h m (List.mem_cons_of_mem _ hm)
    have hprod : 1 ≤ rest.prod := List.one_le_prod hrest
    rw [List.map_cons, productCount, List.prod_cons, ← mul_assoc]
    by_cases hover : count * n > maxCompiledClauses
    · -- the rest of the product does not come back below the limit
      have hsaturated : count * saturated n > maxCompiledClauses := by
        rcases min_cases n (maxCompiledClauses + 1) with ⟨hmin, _⟩ | ⟨hmin, _⟩
        · rw [saturated, hmin]
          exact hover
        · rw [saturated, hmin]
          exact Nat.le_mul_of_pos_left _ hone
      have hbig : maxCompiledClauses + 1 ≤ count * n * rest.prod :=
        Nat.succ_le_of_lt (hover.trans_le (Nat.le_mul_of_pos_right _ hprod))
      rw [if_pos hsaturated, saturated, min_eq_right hbig]
    · have hle : n ≤ maxCompiledClauses :=
        (Nat.le_mul_of_pos_left n hone).trans (not_lt.mp hover)
      rw [saturated_of_le hle, if_neg hover]
      exact ih hrest (Nat.mul_pos hone hn) (not_lt.mp hover)

theorem saturated_sum (totals : List ℕ) :
    saturated (totals.map saturated).sum = saturated totals.sum := by
  induction totals with
  | nil => rfl
  | cons n rest ih =>
    simp only [List.map_cons, List.sum_cons, saturated] at ih ⊢
    omega

theorem joinCounts_eq {op : LogicalOperator} {totals : List ℕ} (hne : totals ≠ [])
    (h : ∀ n ∈ totals, 1 ≤ n) :
    joinCounts op (totals.map saturated) = saturated (op.total totals) := by
  have hnonempty : (totals.map saturated).isEmpty = false := by
    rw [List.isEmpty_eq_false_iff, ne_eq, List.map_eq_nil_iff]
    exact hne
  unfold joinCounts
  rw [hnonempty, if_neg Bool.false_ne_true]
  cases op with
  | or => exact saturated_sum totals
  | and =>
    show productCount 1 (totals.map saturated) = saturated totals.prod
    rw [productCount_eq h le_rfl (by decide), one_mul]

theorem one_le_operands {op : LogicalOperator} {conditions : ℕ}
    {children : List ConditionGroupLike}
    (h : (ConditionGroupLike.mk op conditions children).nonempty = true) :
    ∀ n ∈ List.replicate conditions 1 ++ clauseTotals children, 1 ≤ n := by
  simp only [ConditionGroupLike.nonempty, Bool.and_eq_true] at h
  intro n hn
  rcases List.mem_append.mp hn with hn | hn
  · exact (List.eq_of_mem_replicate hn).ge
  · exact one_le_clauseTotals h.2 n hn

mutual

/-- The check counts exactly, up to one more than the limit. -/
theorem compiledClauseCount_eq : ∀ {root : ConditionGroupLike}, root.nonempty = true →
    compiledClauseCount root = saturated (clauseTotal root)
  | .mk op conditions children, h => by
    have hne := operands_ne_nil h
    have hone := one_le_operands h
    simp only [ConditionGroupLike.nonempty, Bool.and_eq_true] at h
    have hleaves : List.replicate conditions 1 = (List.replicate conditions 1).map saturated := by
      rw [List.map_replicate]
      rfl
    rw [compiledClauseCount, compiledClauseCounts_eq h.2, hleaves, ← List.map_append,
      joinCounts_eq hne hone, clauseTotal]

theorem compiledClauseCounts_eq : ∀ {children : List ConditionGroupLike},
    nonemptyLikes children = true →
      compiledClauseCounts children = (clauseTotals children).map saturated
  | [], _ => rfl
  | child :: rest, h => by
    simp only [nonemptyLikes, Bool.and_eq_true] at h
    rw [compiledClauseCounts, clauseTotals, List.map_cons, compiledClauseCount_eq h.1,
      compiledClauseCounts_eq h.2]

end

/-! ## The compiler -/

theorem length_foldl_product {clauses : List CompiledClause} {rest : List (List CompiledClause)} :
    (rest.foldl Dnf.product clauses).length = clauses.length * (rest.map List.length).prod := by
  induction rest generalizing clauses with
  | nil => simp
  | cons operand rest ih =>
    rw [List.foldl_cons, ih, Dnf.length_product, List.map_cons, List.prod_cons, mul_assoc]

theorem requireClauseLimit_ok {count : ℕ} (h : count ≤ maxCompiledClauses) :
    requireClauseLimit count = .ok () :=
  ensure_eq_ok.mpr (decide_eq_true h)

theorem requireClauseLimit_error {count : ℕ} (h : ¬ count ≤ maxCompiledClauses) :
    ∃ e, requireClauseLimit count = .error e :=
  ⟨_, by rw [requireClauseLimit, decide_eq_false h]; rfl⟩

/-- An AND group raises at some operand exactly when its product is too large. -/
theorem andClauses_ok_iff {operands : List (List CompiledClause)}
    (h : ∀ operand ∈ operands, 1 ≤ operand.length) {clauses : List CompiledClause}
    (hone : 1 ≤ clauses.length) (hlimit : clauses.length ≤ maxCompiledClauses) :
    (∃ result, andClauses clauses operands = .ok result) ↔
      clauses.length * (operands.map List.length).prod ≤ maxCompiledClauses := by
  induction operands generalizing clauses with
  | nil => exact iff_of_true ⟨clauses, rfl⟩ (by simpa using hlimit)
  | cons operand rest ih =>
    have hoperand := h operand List.mem_cons_self
    have hrest : ∀ o ∈ rest, 1 ≤ o.length := fun o ho => h o (List.mem_cons_of_mem _ ho)
    rw [andClauses, List.map_cons, List.prod_cons, ← mul_assoc]
    by_cases hle : clauses.length * operand.length ≤ maxCompiledClauses
    · rw [requireClauseLimit_ok hle, ← Dnf.length_product]
      dsimp only
      rw [← Dnf.length_product] at hle
      refine ih hrest ?_ hle
      rw [Dnf.length_product]
      exact Nat.mul_pos hone hoperand
    · obtain ⟨e, he⟩ := requireClauseLimit_error hle
      rw [he]
      refine iff_of_false (by simp) fun hprod => hle ((Nat.le_mul_of_pos_right _ ?_).trans hprod)
      exact List.one_le_prod fun n hn => by
        obtain ⟨o, ho, rfl⟩ := List.mem_map.mp hn
        exact hrest o ho

/-- A group of compiled operands raises exactly when it has too many clauses. -/
theorem joinOperands_ok_iff {op : LogicalOperator} {operands : List (List CompiledClause)}
    (hne : operands ≠ []) (h : ∀ operand ∈ operands, 1 ≤ operand.length) :
    (∃ clauses, joinOperands op operands = .ok clauses) ↔
      op.total (operands.map List.length) ≤ maxCompiledClauses := by
  have hnonempty : operands.isEmpty = false := List.isEmpty_eq_false_iff.mpr hne
  unfold joinOperands
  rw [hnonempty, if_neg Bool.false_ne_true]
  cases op with
  | or =>
    have hsum : operands.foldl (fun count operand => count + operand.length) 0 =
        (operands.map List.length).sum := by
      rw [List.sum_eq_foldl, List.foldl_map]
    simp only [hsum, LogicalOperator.total]
    by_cases hle : (operands.map List.length).sum ≤ maxCompiledClauses
    · rw [requireClauseLimit_ok hle]
      exact iff_of_true ⟨_, rfl⟩ hle
    · obtain ⟨e, he⟩ := requireClauseLimit_error hle
      rw [he]
      exact iff_of_false (by simp) hle
  | and =>
    have hiff := @andClauses_ok_iff operands h [[]] le_rfl (by decide)
    rw [List.length_singleton, one_mul] at hiff
    exact hiff

theorem joinOperands_length {op : LogicalOperator} {operands : List (List CompiledClause)}
    {clauses : List CompiledClause} (h : joinOperands op operands = .ok clauses) :
    clauses.length = op.total (operands.map List.length) := by
  unfold joinOperands at h
  split at h
  · exact absurd h (by simp)
  · cases op with
    | or =>
      dsimp only at h
      split at h
      · exact absurd h (by simp)
      · cases h
        rw [List.length_flatten, LogicalOperator.total]
    | and =>
      rw [andClauses_eq h, length_foldl_product, LogicalOperator.total, List.length_singleton,
        one_mul]

mutual

theorem ConditionGroup.nonempty_like : ∀ g : ConditionGroup, g.like.nonempty = g.nonempty
  | .mk op links children => by
    have hchildren : (ConditionGroup.likes children).isEmpty = children.isEmpty := by
      cases children <;> rfl
    have hlinks : (links.length == 0) = links.isEmpty := by
      cases links <;> rfl
    rw [ConditionGroup.like, ConditionGroupLike.nonempty, ConditionGroup.nonempty, hchildren, hlinks,
      nonempty_likes children]

theorem ConditionGroup.nonempty_likes : ∀ gs : List ConditionGroup,
    nonemptyLikes (ConditionGroup.likes gs) = nonemptyGroups gs
  | [] => rfl
  | g :: rest => by
    rw [ConditionGroup.likes, nonemptyLikes, nonemptyGroups, nonempty_like g, nonempty_likes rest]

end

mutual

/-- The compiler succeeds exactly when the tree has no more clauses than the limit, and then it
returns that many. -/
theorem compileGroup_total : ∀ {g : ConditionGroup}, g.like.nonempty = true →
    ((∃ clauses, compileGroup g = .ok clauses) ↔ clauseTotal g.like ≤ maxCompiledClauses) ∧
      ∀ clauses, compileGroup g = .ok clauses → clauses.length = clauseTotal g.like
  | .mk op links children, h => by
    have hne := operands_ne_nil h
    have hone := one_le_operands h
    simp only [ConditionGroup.like, ConditionGroupLike.nonempty, Bool.and_eq_true] at h
    obtain ⟨hok, hlengths⟩ := compileGroups_total h.2
    have hleaves : (links.map fun condition => [[condition]]).map List.length =
        List.replicate links.length 1 := by
      rw [List.map_map]
      exact List.map_const'
    rw [compileGroup, ConditionGroup.like, clauseTotal]
    cases hc : compileGroups children with
    | error e =>
      -- a child is too large, and so is the whole group
      refine ⟨iff_of_false (by simp) fun hle => ?_, by simp⟩
      rw [hc] at hok
      refine absurd (hok.mpr fun n hn => ?_) (by simp)
      exact (le_total hone (List.mem_append_right _ hn)).trans hle
    | ok operands =>
      have hmap : ((links.map fun condition => [[condition]]) ++ operands).map List.length =
          List.replicate links.length 1 ++ clauseTotals (ConditionGroup.likes children) := by
        rw [List.map_append, hleaves, hlengths operands hc]
      dsimp only
      rw [← hmap]
      refine ⟨joinOperands_ok_iff (fun hnil => hne ?_) fun operand hoperand => ?_,
        fun clauses hjoin => joinOperands_length hjoin⟩
      · rw [← hmap, hnil]
        rfl
      · refine hone _ ?_
        rw [← hmap]
        exact List.mem_map_of_mem hoperand

theorem compileGroups_total : ∀ {gs : List ConditionGroup},
    nonemptyLikes (ConditionGroup.likes gs) = true →
    ((∃ operands, compileGroups gs = .ok operands) ↔
        ∀ n ∈ clauseTotals (ConditionGroup.likes gs), n ≤ maxCompiledClauses) ∧
      ∀ operands, compileGroups gs = .ok operands →
        operands.map List.length = clauseTotals (ConditionGroup.likes gs)
  | [], _ => by
    refine ⟨iff_of_true ⟨[], rfl⟩ fun n hn => absurd hn List.not_mem_nil, fun operands h => ?_⟩
    cases h
    rfl
  | g :: rest, h => by
    simp only [ConditionGroup.likes, nonemptyLikes, Bool.and_eq_true] at h
    obtain ⟨hfirst, hlength⟩ := compileGroup_total h.1
    obtain ⟨hothers, hlengths⟩ := compileGroups_total h.2
    rw [compileGroups, ConditionGroup.likes, clauseTotals, List.forall_mem_cons, ← hfirst, ← hothers]
    cases hg : compileGroup g with
    | error e => simp
    | ok clauses =>
      cases hr : compileGroups rest with
      | error e => simp
      | ok operands =>
        refine ⟨iff_of_true ⟨_, rfl⟩ ⟨⟨_, rfl⟩, ⟨_, rfl⟩⟩, fun out hout => ?_⟩
        cases hout
        rw [List.map_cons, hlength clauses hg, hlengths operands hr]

end

/-! ## The canonical tree -/

mutual

theorem canonicalTree_like {rules : Rules} : ∀ {data : ConditionGroupCreate} {g : ConditionGroup},
    canonicalTree rules data = .ok g → g.like = data.like
  | .mk op conditions children, g, h => by
    rw [canonicalTree] at h
    split at h
    · exact absurd h (by simp)
    · next links hlinks =>
      split at h
      · exact absurd h (by simp)
      · next groups hgroups =>
        cases h
        rw [ConditionGroup.like, ConditionGroupCreate.like, canonicalTrees_like hgroups,
          (traverseAll_eq_ok.mp hlinks).length_eq]

theorem canonicalTrees_like {rules : Rules} : ∀ {data : List ConditionGroupCreate}
    {gs : List ConditionGroup}, canonicalTrees rules data = .ok gs →
      ConditionGroup.likes gs = ConditionGroupCreate.likes data
  | [], gs, h => by
    cases h
    rfl
  | child :: rest, gs, h => by
    rw [canonicalTrees] at h
    split at h
    · exact absurd h (by simp)
    · next group hgroup =>
      split at h
      · exact absurd h (by simp)
      · next groups hgroups =>
        cases h
        rw [ConditionGroup.likes, ConditionGroupCreate.likes, canonicalTree_like hgroup,
          canonicalTrees_like hgroups]

end

/-! ## The policy builder -/

namespace PolicyBuilder

/-- What the server counts of a tree that is sent. -/
def sentLike (root : BuilderConditionGroup) : ConditionGroupLike := (serializeConditionTree root).like

def sentLikes (children : List BuilderConditionGroup) : List ConditionGroupLike :=
  ConditionGroupCreate.likes (serializeConditionTrees children)

theorem sentLike_mk (groupId : ℕ) (op : LogicalOperator) (conditions : List BuilderCondition)
    (children : List BuilderConditionGroup) :
    sentLike (.mk groupId op conditions children) = .mk op conditions.length (sentLikes children) := by
  rw [sentLike, serializeConditionTree, ConditionGroupCreate.like, List.length_map, sentLikes]

mutual

theorem structuralStats_eq : ∀ (depth : ℕ) (root : BuilderConditionGroup),
    structuralStats depth root = Warp.structuralStats depth (sentLike root)
  | depth, .mk groupId op conditions children => by
    rw [sentLike_mk, structuralStats, Warp.structuralStats, childStats_eq]

theorem childStats_eq : ∀ (depth : ℕ) (stats : ℕ × ℕ × ℕ) (children : List BuilderConditionGroup),
    childStats depth stats children = Warp.childStats depth stats (sentLikes children)
  | _, _, [] => rfl
  | depth, (groups, conditions, maximumDepth), child :: rest => by
    rw [childStats, structuralStats_eq]
    show _ = Warp.childStats depth _ (sentLike child :: sentLikes rest)
    rw [Warp.childStats]
    generalize Warp.structuralStats (depth + 1) (sentLike child) = stats
    obtain ⟨childGroups, childConditions, childDepth⟩ := stats
    exact childStats_eq depth _ rest

end

theorem productCount_eq (operandCounts : List ℕ) (count : ℕ) :
    productCount count operandCounts = Warp.productCount count operandCounts := by
  induction operandCounts generalizing count with
  | nil => rfl
  | cons operandCount rest ih => rw [productCount, Warp.productCount, ih]

mutual

theorem compiledClauseCount_eq : ∀ root : BuilderConditionGroup,
    compiledClauseCount root = Warp.compiledClauseCount (sentLike root)
  | .mk groupId op conditions children => by
    have hleaves : (conditions.map fun _ => 1) = List.replicate conditions.length 1 :=
      List.map_const'
    simp only [sentLike_mk, compiledClauseCount, Warp.compiledClauseCount, hleaves,
      compiledClauseCounts_eq children, joinCounts, List.isEmpty_iff, List.length_eq_zero_iff]
    split
    · rfl
    · cases op with
      | or => rw [List.sum_eq_foldl]
      | and => exact productCount_eq _ 1

theorem compiledClauseCounts_eq : ∀ children : List BuilderConditionGroup,
    compiledClauseCounts children = Warp.compiledClauseCounts (sentLikes children)
  | [] => rfl
  | child :: rest => by
    rw [compiledClauseCounts, compiledClauseCount_eq, compiledClauseCounts_eq]
    rfl

end

theorem conditionTreeStats_eq (root : BuilderConditionGroup) :
    conditionTreeStats root = Warp.conditionTreeStats (sentLike root) := by
  rw [conditionTreeStats, Warp.conditionTreeStats, structuralStats_eq, compiledClauseCount_eq]

mutual

theorem containsEmptyGroup_eq : ∀ root : BuilderConditionGroup,
    containsEmptyGroup root = !(sentLike root).nonempty
  | .mk groupId op conditions children => by
    have hchildren : (sentLikes children).isEmpty = children.isEmpty := by
      cases children <;> rfl
    rw [sentLike_mk, containsEmptyGroup, someContainsEmptyGroup_eq, ConditionGroupLike.nonempty,
      hchildren]
    cases conditions <;> cases children <;> simp

theorem someContainsEmptyGroup_eq : ∀ children : List BuilderConditionGroup,
    someContainsEmptyGroup children = !nonemptyLikes (sentLikes children)
  | [] => rfl
  | child :: rest => by
    rw [someContainsEmptyGroup, containsEmptyGroup_eq, someContainsEmptyGroup_eq, ← Bool.not_and]
    rfl

end

theorem ite_some_eq_none {α : Type} {p : Prop} [Decidable p] {a : α} {rest : Option α} :
    (if p then some a else rest) = none ↔ ¬ p ∧ rest = none := by
  by_cases hp : p
  · simp [hp]
  · simp [hp]

/-- What the builder accepts has no empty group and is within the limits of a request. -/
theorem accepted_within {root : BuilderConditionGroup}
    (h : conditionTreeValidationError root = none) :
    (sentLike root).nonempty = true ∧ conditionTreeLimitError (sentLike root) = none := by
  simp only [conditionTreeValidationError, conditionTreeStats_eq, ite_some_eq_none,
    containsEmptyGroup_eq, Bool.not_eq_true', Bool.not_eq_false] at h
  obtain ⟨hnonempty, _, hlimits⟩ := h
  refine ⟨hnonempty, ?_⟩
  simp only [conditionTreeLimitError, ite_some_eq_none]
  exact hlimits

end PolicyBuilder

/-! ## Agreement -/

open PolicyBuilder (BuilderConditionGroup serializeConditionTree conditionTreeValidationError)

/-- On trees without empty groups the compiler succeeds exactly within the limit of the count, and
compiles that many clauses. The builder gives the statistics of the server, so a tree that it accepts
passes the limits and compiles. -/
theorem clause_counters_agree :
    (∀ g : ConditionGroup, g.nonempty = true →
      ((∃ clauses, compilePolicyVersionClauses g = .ok clauses) ↔
        compiledClauseCount g.like ≤ maxCompiledClauses) ∧
      ∀ clauses, compilePolicyVersionClauses g = .ok clauses →
        clauses.length = compiledClauseCount g.like) ∧
    (∀ root : BuilderConditionGroup, PolicyBuilder.conditionTreeStats root =
      conditionTreeStats (serializeConditionTree root).like) ∧
    ∀ root : BuilderConditionGroup, conditionTreeValidationError root = none →
      conditionTreeLimitError (serializeConditionTree root).like = none ∧
      ∀ rules data g, data.like = (serializeConditionTree root).like →
        canonicalTree rules data = .ok g →
          ∃ clauses, compilePolicyVersionClauses g = .ok clauses := by
  refine ⟨fun g hg => ?_, PolicyBuilder.conditionTreeStats_eq, fun root hroot => ?_⟩
  · rw [← ConditionGroup.nonempty_like] at hg
    obtain ⟨hok, hlength⟩ := compileGroup_total hg
    rw [compiledClauseCount_eq hg]
    refine ⟨hok.trans saturated_le_iff.symm, fun clauses hclauses => ?_⟩
    rw [saturated_of_le (hok.mp ⟨clauses, hclauses⟩)]
    exact hlength clauses hclauses
  · obtain ⟨hnonempty, hlimits⟩ := PolicyBuilder.accepted_within hroot
    refine ⟨hlimits, fun rules data g hdata hg => ?_⟩
    have hlike : g.like = PolicyBuilder.sentLike root := (canonicalTree_like hg).trans hdata
    rw [← hlike] at hnonempty hlimits
    refine (compileGroup_total hnonempty).1.mpr ?_
    rw [← saturated_le_iff, ← compiledClauseCount_eq hnonempty]
    simp only [conditionTreeLimitError, PolicyBuilder.ite_some_eq_none] at hlimits
    exact not_lt.mp hlimits.2.2.2.1

/-- A choice between as many departments as are asked for. -/
def departmentChoice (groupId count : ℕ) : BuilderConditionGroup :=
  .mk groupId .or ((List.range count).map fun row => ⟨⟨"department", .eq, "Sales", none⟩, row⟩) []

/-- Three choices at once: five times five times eight clauses. -/
def threeChoices : BuilderConditionGroup :=
  .mk 1 .and [] [departmentChoice 2 5, departmentChoice 3 5, departmentChoice 4 8]

theorem clause_counters_agree_three :
    compiledClauseCount (serializeConditionTree threeChoices).like = 200 ∧
    conditionTreeLimitError (serializeConditionTree threeChoices).like = none ∧
      ∀ rules data g, data.like = (serializeConditionTree threeChoices).like →
        canonicalTree rules data = .ok g →
          ∃ clauses, compilePolicyVersionClauses g = .ok clauses :=
  ⟨by decide +kernel, clause_counters_agree.2.2 threeChoices (by decide +kernel)⟩

end Warp
