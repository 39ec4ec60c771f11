import Warp.PolicyMatching

/-!
# When evaluating a condition raises

The only step of an evaluation that can raise is the date arithmetic of tenure: both the anniversary
and the next one must lie within the year 9999.
-/

namespace Warp

open Infra

theorem addCalendarYears_eq_ok {day d : Date} {years : ℕ}
    (h : addCalendarYears day years = .ok d) : d.year = day.year + years ∧ d.month = day.month := by
  unfold addCalendarYears at h
  split at h
  · next hf =>
    cases h
    obtain ⟨h1, h2, _⟩ := Date.ofYmd?_eq_some.mp hf
    exact ⟨h1, h2⟩
  · obtain ⟨h1, h2, _⟩ := Date.ofYmd?_eq_some.mp (orRaise_eq_ok.mp h)
    exact ⟨h1, h2⟩

theorem addCalendarYears_ok_iff {day : Date} {years : ℕ} :
    (∃ d, addCalendarYears day years = .ok d) ↔ day.year + years ≤ 9999 := by
  constructor
  · rintro ⟨d, h⟩
    rw [← (addCalendarYears_eq_ok h).1]
    exact d.bounds.2.1
  · intro h
    obtain ⟨h1, h2, h3, h4, h5, h6, h7⟩ := day.bounds
    unfold addCalendarYears
    split
    · next d _ => exact ⟨d, rfl⟩
    · have hmin : 28 ≤ daysInMonth (day.year + years) day.month := by
        unfold daysInMonth
        split
        · split <;> omega
        · split <;> omega
      have hvalid : isValidDate (day.year + years) day.month 28 = true := by
        rw [isValidDate_iff]
        omega
      refine ⟨⟨day.year + years, day.month, 28, hvalid⟩, orRaise_eq_ok.mpr ?_⟩
      exact Date.ofYmd?_eq_some.mpr ⟨rfl, rfl, rfl⟩

theorem compareTenure_ok_iff {startDate evaluationDate : Date} {operator : Operator} {years : ℕ} :
    (∃ result, compareTenure startDate evaluationDate operator years = .ok result) ↔
      startDate.year + years + 1 ≤ 9999 := by
  unfold compareTenure
  constructor
  · rintro ⟨result, h⟩
    split at h
    · exact absurd h (by simp)
    · split at h
      · exact absurd h (by simp)
      · next next hnext => exact addCalendarYears_ok_iff.mp ⟨next, hnext⟩
  · intro h
    obtain ⟨threshold, ht⟩ := addCalendarYears_ok_iff.mpr
      (show startDate.year + years ≤ 9999 by omega)
    obtain ⟨next, hn⟩ := addCalendarYears_ok_iff.mpr
      (show startDate.year + (years + 1) ≤ 9999 by omega)
    rw [ht, hn]
    exact ⟨_, rfl⟩

/-! ## Conditions -/

theorem tenure_parsed : ∀ spec ∈ conditionFieldSpecs, spec.resolver = .tenure →
    spec.parser = .calendarDuration ∧ spec.containsReference = false := by
  decide +kernel

theorem supportedSpec?_mem {definition : ConditionFieldDefinition} {spec : ConditionFieldSpec}
    (h : supportedSpec? definition = some spec) :
    spec ∈ conditionFieldSpecs ∧ spec.key = definition.key ∧ definition.active = true ∧
      definition.resolverKey = some spec.resolverKey := by
  unfold supportedSpec? at h
  split at h
  · exact absurd h (by simp)
  · next spec' hf =>
    split at h
    · next hc =>
      cases h
      exact ⟨(findSpec?_eq_some hf).1, (findSpec?_eq_some hf).2, hc.1, hc.2⟩
    · exact absurd h (by simp)

/-- The years of a tenure condition that evaluation compares. -/
def tenureYears? (definition : ConditionFieldDefinition) (operator : Operator) (value : String) :
    Option ℕ :=
  match supportedSpec? definition with
  | none => none
  | some spec =>
    if spec.resolver = .tenure ∧ operator ∈ spec.allowedOperators then
      (calendarDurationYears value).toOption
    else none

/-- Only the tenure field resolves to a tenure. -/
theorem resolve_tenure {context : ConditionEvaluationContext} {resolver : Resolver}
    {startDate evaluationDate : Date}
    (h : resolver.resolve context = some (.tenure startDate evaluationDate)) :
    resolver = .tenure ∧ startDate = context.employee.startDate ∧
      evaluationDate = context.evaluationDate := by
  cases resolver <;> simp only [Resolver.resolve] at h
  case tenure =>
    cases h
    exact ⟨rfl, rfl, rfl⟩
  case location =>
    obtain ⟨_, _, h⟩ := Option.map_eq_some_iff.mp h
    cases h
  case managerId =>
    obtain ⟨_, _, h⟩ := Option.map_eq_some_iff.mp h
    cases h
  all_goals cases h

theorem compareWithSpec_ok (spec : ConditionFieldSpec) (operator : Operator)
    (expected : ConditionValue) {actual : ConditionValue} (h : ∀ startDate evaluationDate, actual ≠ .tenure startDate evaluationDate) :
    ∃ result, compareWithSpec spec actual operator expected = .ok result := by
  unfold compareWithSpec
  split
  · exact ⟨_, rfl⟩
  · split
    · next startDate evaluationDate _ => exact absurd rfl (h startDate evaluationDate)
    · exact ⟨_, rfl⟩

theorem evaluate_ok_iff {context : ConditionEvaluationContext}
    {definition : ConditionFieldDefinition} {operator : Operator} {value : String} :
    (∃ evaluation, evaluateConditionWithEvidence context definition operator value =
      .ok evaluation) ↔
        ∀ years, tenureYears? definition operator value = some years →
          context.employee.startDate.year + years + 1 ≤ 9999 := by
  unfold evaluateConditionWithEvidence tenureYears?
  cases hspec : supportedSpec? definition with
  | none => simp
  | some spec =>
    dsimp only
    by_cases hop : operator ∈ spec.allowedOperators
    · rw [if_neg (not_not.mpr hop)]
      by_cases htenure : spec.resolver = .tenure
      · -- a tenure condition: everything hangs on the comparison
        obtain ⟨hparser, href⟩ := tenure_parsed spec (supportedSpec?_mem hspec).1 htenure
        rw [if_pos ⟨htenure, hop⟩, hparser, htenure]
        simp only [Parser.parse, calendarDurationParser, Resolver.resolve]
        cases hyears : calendarDurationYears value with
        | error e => simp [Except.toOption]
        | ok years =>
          simp only [Except.toOption, Option.some.injEq, forall_eq', compareWithSpec, href,
            Bool.false_eq_true, if_false]
          have hiff := @compareTenure_ok_iff context.employee.startDate context.evaluationDate
            operator years
          rw [← hiff]
          cases compareTenure context.employee.startDate context.evaluationDate operator years with
          | error e => simp
          | ok result => simp
      · rw [if_neg fun h => htenure h.1]
        refine iff_of_true ?_ (by simp)
        cases spec.parser.parse value with
        | error e => exact ⟨_, rfl⟩
        | ok parsed =>
          obtain ⟨normalized, expected⟩ := parsed
          dsimp only
          cases hactual : spec.resolver.resolve context with
          | none => exact ⟨_, rfl⟩
          | some actual =>
            have hne : ∀ startDate evaluationDate,
                actual ≠ .tenure startDate evaluationDate := by
              rintro startDate evaluationDate rfl
              exact htenure (resolve_tenure hactual).1
            obtain ⟨result, hr⟩ := compareWithSpec_ok spec operator expected hne
            dsimp only
            rw [hr]
            exact ⟨_, rfl⟩
    · rw [if_pos hop, if_neg fun h => hop h.2]
      simp

/-- The condition row refers to a catalog field, and its tenure stays within the calendar. -/
structure WithinCalendar (rules : Rules) (employee : Employee)
    (condition : CompiledPolicyCondition) : Prop where
  known : ∃ definition,
    rules.conditionFieldDefinitions.find? condition.conditionFieldDefinitionId = some definition
  inRange : ∀ definition years,
    rules.conditionFieldDefinitions.find? condition.conditionFieldDefinitionId = some definition →
      tenureYears? definition condition.operator condition.value = some years →
        employee.startDate.year + years + 1 ≤ 9999

theorem evaluateCompiledCondition_ok_iff {rules : Rules} {context : ConditionEvaluationContext}
    {condition : CompiledPolicyCondition} :
    (∃ evidence, evaluateCompiledCondition rules context condition = .ok evidence) ↔
      WithinCalendar rules context.employee condition := by
  unfold evaluateCompiledCondition
  constructor
  · rintro ⟨evidence, h⟩
    split at h
    · exact absurd h (by simp)
    · next definition hdef =>
      refine ⟨⟨definition, hdef⟩, fun definition' years hdef' hyears => ?_⟩
      rw [hdef] at hdef'
      cases hdef'
      split at h
      · exact absurd h (by simp)
      · next evaluation he => exact evaluate_ok_iff.mp ⟨evaluation, he⟩ years hyears
  · rintro ⟨⟨definition, hdef⟩, hrange⟩
    rw [hdef]
    obtain ⟨evaluation, he⟩ := evaluate_ok_iff.mpr fun years => hrange definition years hdef
    dsimp only
    rw [he]
    exact ⟨_, rfl⟩

end Warp
