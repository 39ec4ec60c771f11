import Warp.PolicyVersions

/-!
# Stored clauses

A compiled version is written as flat rows, numbered from the sequences. Reading the rows back in id
order gives the compiled clauses again.
-/

namespace Warp

open Infra

/-! ## What the rows stand for -/

/-- The row holds the condition. -/
def HoldsCondition (rules : Rules) (row : CompiledPolicyCondition) (c : CompiledCondition) : Prop :=
  rules.conditionFieldDefinitions.find? row.conditionFieldDefinitionId =
    some c.conditionFieldDefinition ∧ row.operator = c.operator ∧ row.value = c.value

/-- The clause rows of a version, in id order, hold the clauses. -/
def StoredClauses (rules : Rules) (versionId : ℕ) (clauses : List CompiledClause) : Prop :=
  List.Forall₂ (fun row clause =>
    List.Forall₂ (HoldsCondition rules) (clauseConditions rules row) clause)
      (versionClauses rules [versionId]) clauses

/-! ## The rows that are written -/

def clauseRows (versionId : ℕ) : ℕ → List CompiledClause → List CompiledPolicyClause
  | _, [] => []
  | clauseId, _ :: rest => ⟨clauseId, versionId⟩ :: clauseRows versionId (clauseId + 1) rest

def allConditionRows : ℕ → ℕ → List CompiledClause → List CompiledPolicyCondition
  | _, _, [] => []
  | conditionId, clauseId, clause :: rest =>
    conditionRows conditionId clauseId clause
      ++ allConditionRows (conditionId + clause.length) (clauseId + 1) rest

theorem mem_conditionRows {conditionId clauseId : ℕ} {clause : CompiledClause}
    {row : CompiledPolicyCondition} (h : row ∈ conditionRows conditionId clauseId clause) :
    row.clauseId = clauseId ∧ conditionId ≤ row.id ∧ row.id < conditionId + clause.length := by
  induction clause generalizing conditionId with
  | nil => simp [conditionRows] at h
  | cons c rest ih =>
    rcases List.mem_cons.mp h with rfl | h
    · simp
    · obtain ⟨h1, h2, h3⟩ := ih h
      rw [List.length_cons]
      omega

theorem mem_allConditionRows {conditionId clauseId : ℕ} {clauses : List CompiledClause}
    {row : CompiledPolicyCondition} (h : row ∈ allConditionRows conditionId clauseId clauses) :
    clauseId ≤ row.clauseId := by
  induction clauses generalizing conditionId clauseId with
  | nil => simp [allConditionRows] at h
  | cons clause rest ih =>
    rcases List.mem_append.mp h with h | h
    · exact (mem_conditionRows h).1.ge
    · have := ih h
      omega

theorem mem_clauseRows {versionId clauseId : ℕ} {clauses : List CompiledClause}
    {row : CompiledPolicyClause} (h : row ∈ clauseRows versionId clauseId clauses) :
    row.policyVersionId = versionId ∧ clauseId ≤ row.id := by
  induction clauses generalizing clauseId with
  | nil => simp [clauseRows] at h
  | cons clause rest ih =>
    rcases List.mem_cons.mp h with rfl | h
    · simp
    · obtain ⟨h1, h2⟩ := ih h
      omega

theorem foldl_insert_rows {table : Table CompiledPolicyCondition} {conditionId : ℕ}
    (clauseId : ℕ) (clause : CompiledClause) (h : ∀ row ∈ table, row.id < conditionId) :
    ((conditionRows conditionId clauseId clause).foldl Table.insert table).rows =
      table.rows ++ conditionRows conditionId clauseId clause := by
  induction clause generalizing table conditionId with
  | nil => simp [conditionRows]
  | cons c rest ih =>
    rw [conditionRows, List.foldl_cons]
    have hrows := Table.rows_insert_of_lt (t := table) (a :=
      { id := conditionId
        clauseId := clauseId
        conditionFieldDefinitionId := c.conditionFieldDefinition.id
        operator := c.operator
        value := c.value }) h
    rw [ih ?_, hrows, List.append_assoc]
    · rfl
    · intro row hrow
      rw [Table.mem_def, hrows, List.mem_append, List.mem_singleton] at hrow
      rcases hrow with hrow | rfl
      · exact (h row hrow).trans (Nat.lt_succ_self _)
      · exact Nat.lt_succ_self _

/-- Storing appends the rows and leaves the other tables alone. -/
theorem storeClauses_rows (versionId : ℕ) (clauses : List CompiledClause) :
    ∀ {clauseId conditionId : ℕ} {rules : Rules},
      (∀ row ∈ rules.compiledPolicyClauses, row.id < clauseId) →
      (∀ row ∈ rules.compiledPolicyConditions, row.id < conditionId) →
        (storeClauses versionId clauseId conditionId rules clauses).compiledPolicyClauses.rows =
            rules.compiledPolicyClauses.rows ++ clauseRows versionId clauseId clauses ∧
        (storeClauses versionId clauseId conditionId rules clauses).compiledPolicyConditions.rows =
            rules.compiledPolicyConditions.rows ++
              allConditionRows conditionId clauseId clauses ∧
        (storeClauses versionId clauseId conditionId rules clauses).conditionFieldDefinitions =
            rules.conditionFieldDefinitions := by
  induction clauses with
  | nil =>
    intro clauseId conditionId rules _ _
    simp [storeClauses, clauseRows, allConditionRows]
  | cons clause rest ih =>
    intro clauseId conditionId rules hclauses hconditions
    have hc := Table.rows_insert_of_lt (t := rules.compiledPolicyClauses)
      (a := ⟨clauseId, versionId⟩) hclauses
    have hk := foldl_insert_rows clauseId clause hconditions
    have hclauses' : ∀ row ∈ rules.compiledPolicyClauses.insert ⟨clauseId, versionId⟩,
        row.id < clauseId + 1 := by
      intro row hrow
      rw [Table.mem_def, hc, List.mem_append, List.mem_singleton] at hrow
      rcases hrow with hrow | rfl
      · exact (hclauses row hrow).trans (Nat.lt_succ_self _)
      · exact Nat.lt_succ_self _
    have hconditions' : ∀ row ∈ (conditionRows conditionId clauseId clause).foldl Table.insert
        rules.compiledPolicyConditions, row.id < conditionId + clause.length := by
      intro row hrow
      rw [Table.mem_def, hk, List.mem_append] at hrow
      rcases hrow with hrow | hrow
      · have := hconditions row hrow
        omega
      · exact (mem_conditionRows hrow).2.2
    rw [storeClauses]
    obtain ⟨h1, h2, h3⟩ := @ih (clauseId + 1) (conditionId + clause.length)
      { rules with
        compiledPolicyClauses := rules.compiledPolicyClauses.insert ⟨clauseId, versionId⟩
        compiledPolicyConditions :=
          (conditionRows conditionId clauseId clause).foldl Table.insert
            rules.compiledPolicyConditions } hclauses' hconditions'
    refine ⟨?_, ?_, h3⟩
    · rw [h1, hc, List.append_assoc]
      rfl
    · rw [h2, hk, List.append_assoc]
      rfl

/-! ## Reading the rows back -/

theorem conditionRows_hold {rules : Rules} {conditionId clauseId : ℕ} {clause : CompiledClause}
    (h : ∀ c ∈ clause, c.conditionFieldDefinition ∈ rules.conditionFieldDefinitions) :
    List.Forall₂ (HoldsCondition rules) (conditionRows conditionId clauseId clause) clause := by
  induction clause generalizing conditionId with
  | nil => exact List.Forall₂.nil
  | cons c rest ih =>
    refine List.Forall₂.cons ⟨?_, rfl, rfl⟩ (ih fun x hx => h x (List.mem_cons_of_mem _ hx))
    exact Table.find?_key (h c List.mem_cons_self)

/-- The rows of a clause are picked out of all condition rows by the clause id. -/
theorem filter_allConditionRows {rules : Rules} {versionId : ℕ} {clauses : List CompiledClause} :
    ∀ {conditionId clauseId : ℕ} {before : List CompiledPolicyCondition},
      (∀ row ∈ before, row.clauseId < clauseId) →
      (∀ clause ∈ clauses, ∀ c ∈ clause,
        c.conditionFieldDefinition ∈ rules.conditionFieldDefinitions) →
        List.Forall₂ (fun (row : CompiledPolicyClause) clause =>
          List.Forall₂ (HoldsCondition rules)
            ((before ++ allConditionRows conditionId clauseId clauses).filter
              (fun c => c.clauseId = row.id)) clause)
          (clauseRows versionId clauseId clauses) clauses := by
  induction clauses with
  | nil => intro _ _ _ _ _; exact List.Forall₂.nil
  | cons clause rest ih =>
    intro conditionId clauseId before hbefore hdefs
    rw [allConditionRows, clauseRows]
    refine List.Forall₂.cons ?_ ?_
    · have h1 : before.filter (fun c => c.clauseId = clauseId) = [] := by
        refine List.filter_eq_nil_iff.mpr fun row hrow => ?_
        have := (hbefore row hrow).ne
        simpa using this
      have h2 : (conditionRows conditionId clauseId clause).filter
          (fun c => c.clauseId = clauseId) = conditionRows conditionId clauseId clause := by
        refine List.filter_eq_self.mpr fun row hrow => ?_
        simpa using (mem_conditionRows hrow).1
      have h3 : (allConditionRows (conditionId + clause.length) (clauseId + 1) rest).filter
          (fun c => c.clauseId = clauseId) = [] := by
        refine List.filter_eq_nil_iff.mpr fun row hrow => ?_
        have := mem_allConditionRows hrow
        simp only [decide_eq_true_eq]
        omega
      rw [List.filter_append, List.filter_append, h1, h2, h3, List.nil_append, List.append_nil]
      exact conditionRows_hold (hdefs clause List.mem_cons_self)
    · rw [← List.append_assoc]
      refine ih ?_ fun c hc => hdefs c (List.mem_cons_of_mem _ hc)
      intro row hrow
      rcases List.mem_append.mp hrow with hrow | hrow
      · exact (hbefore row hrow).trans (Nat.lt_succ_self _)
      · rw [(mem_conditionRows hrow).1]
        exact Nat.lt_succ_self _

theorem clauseRows_sorted {versionId : ℕ} {clauses : List CompiledClause} {clauseId : ℕ} :
    (clauseRows versionId clauseId clauses).Pairwise
      (fun a b => toLex (a.policyVersionId, a.id) ≤ toLex (b.policyVersionId, b.id)) := by
  induction clauses generalizing clauseId with
  | nil => exact List.Pairwise.nil
  | cons clause rest ih =>
    refine List.pairwise_cons.mpr ⟨fun row hrow => ?_, ih⟩
    obtain ⟨h1, h2⟩ := mem_clauseRows hrow
    refine Prod.Lex.le_iff.mpr (Or.inr ⟨h1.symm, ?_⟩)
    exact (Nat.le_succ clauseId).trans h2

/-- Stored under fresh ids, the clauses of a version are read back as they were compiled. -/
theorem storeClauses_stored {versionId clauseId conditionId : ℕ} {rules : Rules}
    {clauses : List CompiledClause}
    (hclauses : ∀ row ∈ rules.compiledPolicyClauses, row.id < clauseId)
    (hversion : ∀ row ∈ rules.compiledPolicyClauses, row.policyVersionId ≠ versionId)
    (hconditions : ∀ row ∈ rules.compiledPolicyConditions,
      row.id < conditionId ∧ row.clauseId < clauseId)
    (hdefs : ∀ clause ∈ clauses, ∀ c ∈ clause,
      c.conditionFieldDefinition ∈ rules.conditionFieldDefinitions) :
    StoredClauses (storeClauses versionId clauseId conditionId rules clauses) versionId clauses := by
  obtain ⟨h1, h2, h3⟩ := storeClauses_rows versionId clauses hclauses
    fun row hrow => (hconditions row hrow).1
  have hrows : versionClauses (storeClauses versionId clauseId conditionId rules clauses)
      [versionId] = clauseRows versionId clauseId clauses := by
    have hselect : (storeClauses versionId clauseId conditionId rules
        clauses).compiledPolicyClauses.select (fun c => [versionId].contains c.policyVersionId) =
          clauseRows versionId clauseId clauses := by
      rw [Table.select, h1, List.filter_append]
      have hold : rules.compiledPolicyClauses.rows.filter
          (fun c => [versionId].contains c.policyVersionId) = [] := by
        refine List.filter_eq_nil_iff.mpr fun row hrow => ?_
        simpa using hversion row hrow
      have hnew : (clauseRows versionId clauseId clauses).filter
          (fun c => [versionId].contains c.policyVersionId) =
            clauseRows versionId clauseId clauses := by
        refine List.filter_eq_self.mpr fun row hrow => ?_
        simpa using (mem_clauseRows hrow).1
      rw [hold, hnew, List.nil_append]
    rw [versionClauses, hselect]
    exact List.Pairwise.insertionSort_eq clauseRows_sorted
  unfold StoredClauses
  rw [hrows]
  have hread := @filter_allConditionRows
    (storeClauses versionId clauseId conditionId rules clauses) versionId clauses conditionId
    clauseId rules.compiledPolicyConditions.rows (fun row hrow => (hconditions row hrow).2)
    (by rw [h3]; exact hdefs)
  refine hread.imp fun row clause hrow => ?_
  rw [clauseConditions, Table.select, h2]
  exact hrow

end Warp
