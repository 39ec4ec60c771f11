import Warp.ConditionCatalog
import Warp.Operations
import Warp.Properties.ScheduleCoverage

/-!
# The days on which a tenure condition changes

A tenure comparison changes its answer on its transition dates and on no other day. Both are computed
from anniversaries, which lie within the calendar for some start dates and durations only.
-/

namespace Warp

open Infra

/-! ## The text of a duration -/

theorem decimalValue?_digitChar : ∀ d < 10, Text.decimalValue? d.digitChar = some d := by
  decide +kernel

theorem decimalDigits?_toDigits (n : ℕ) : Text.decimalDigits? (Nat.toDigits 10 n) = some n := by
  have hfold : ∀ n : ℕ, (Nat.toDigits 10 n).foldl
      (fun acc c => acc.bind fun m => (Text.decimalValue? c).map fun d => m * 10 + d) (some 0) =
        some n := by
    intro n
    induction n using Nat.base_induction 10 (by decide) with
    | single m hm =>
      rw [Nat.toDigits_of_lt_base hm, List.foldl_cons, List.foldl_nil, decimalValue?_digitChar m hm]
      simp
    | digit m k hk hm ih =>
      rw [← Nat.toDigits_append_toDigits (by decide) hm hk, List.foldl_append, ih,
        Nat.toDigits_of_lt_base hk, List.foldl_cons, List.foldl_nil, decimalValue?_digitChar k hk]
      simp [Nat.mul_comm]
  cases hdigits : Nat.toDigits 10 n with
  | nil => exact absurd hdigits Nat.toDigits_ne_nil
  | cons c cs =>
    rw [← hfold n, hdigits]
    rfl

theorem toList_durationText (years : ℕ) :
    (durationText years).toList = 'P' :: (Nat.toDigits 10 years ++ ['Y']) := by
  simp [durationText]

theorem strip_durationText (years : ℕ) : Text.strip (durationText years) = durationText years := by
  have hends : Text.dropEnds Text.isSpace (durationText years).toList = (durationText years).toList := by
    have hP : Text.isSpace 'P' = false := by decide
    have hY : Text.isSpace 'Y' = false := by decide
    simp [toList_durationText, Text.dropEnds, hP, hY]
  rw [Text.strip, hends, String.ofList_toList]

/-- The text of a positive duration is read back. -/
theorem calendarDurationYears_durationText {years : ℕ} (h : 0 < years) :
    calendarDurationYears (durationText years) = .ok years := by
  have hdigits : durationDigits? (durationText years).toList = some years := by
    have hP : isChar ['p', 'P'] 'P' = true := by decide
    have hY : isChar ['y', 'Y'] 'Y' = true := by decide
    rw [toList_durationText, durationDigits?, if_pos hP, List.getLast?_concat, List.dropLast_concat]
    rw [Option.map_some, Option.getD_some, if_pos hY, decimalDigits?_toDigits]
  rw [calendarDurationYears, strip_durationText, hdigits]
  simp [Nat.ne_of_gt h]

theorem calendarDurationYears_pos {value : String} {years : ℕ}
    (h : calendarDurationYears value = .ok years) : 0 < years := by
  unfold calendarDurationYears at h
  split at h
  · exact absurd h (by simp)
  · next n _ =>
    by_cases hn : n = 0
    · rw [if_pos hn] at h
      exact absurd h (by simp)
    · rw [if_neg hn] at h
      cases h
      exact Nat.pos_of_ne_zero hn

/-! ## Anniversaries -/

/-- A later anniversary lies in a later year. -/
theorem addCalendarYears_lt {day d e : Date} {m n : ℕ} (hmn : m < n)
    (hd : addCalendarYears day m = .ok d) (he : addCalendarYears day n = .ok e) : d < e := by
  obtain ⟨hdyear, _⟩ := addCalendarYears_eq_ok hd
  obtain ⟨heyear, _⟩ := addCalendarYears_eq_ok he
  obtain ⟨_, _, _, hd4, _, _, hd7⟩ := d.bounds
  obtain ⟨_, _, he3, _, he5, _, _⟩ := e.bounds
  rw [Date.lt_iff]
  simp only [Date.index]
  omega

/-- The comparison of a tenure with a duration whose two anniversaries are known. -/
theorem compareTenure_eq_ok {startDate day threshold next : Date} {years : ℕ}
    (hthreshold : addCalendarYears startDate years = .ok threshold)
    (hnext : addCalendarYears startDate (years + 1) = .ok next) (operator : Operator) :
    compareTenure startDate day operator years = .ok (match operator with
      | .eq => threshold ≤ day ∧ day < next
      | .lt => day < threshold
      | .le => day < next
      | .gt => next ≤ day
      | .ge => threshold ≤ day) := by
  cases operator <;> simp [compareTenure, hthreshold, hnext]

theorem tenureTransitionDates_eq_ok {startDate threshold next : Date} {years : ℕ} {value : String}
    (hvalue : calendarDurationYears value = .ok years)
    (hthreshold : addCalendarYears startDate years = .ok threshold)
    (hnext : addCalendarYears startDate (years + 1) = .ok next) (operator : Operator) :
    tenureTransitionDates startDate operator value = .ok (match operator with
      | .eq => [threshold, next]
      | .lt => [threshold]
      | .le => [next]
      | .gt => [next]
      | .ge => [threshold]) := by
  rw [tenureTransitionDates, hvalue]
  cases operator <;> simp only [transitionYears, traverseAll, hthreshold, hnext]

/-- The answer on a day differs from the answer on the day before exactly on a transition date. -/
theorem tenure_transition_dates_exact (startDate : Date) (operator : Operator) {years : ℕ}
    (hyears : 0 < years) (hrange : startDate.year + years + 1 ≤ 9999) {day yesterday : Date}
    (hyesterday : day.pred? = some yesterday) :
    ∃ days before after,
      tenureTransitionDates startDate operator (durationText years) = .ok days ∧
      compareTenure startDate yesterday operator years = .ok before ∧
      compareTenure startDate day operator years = .ok after ∧ (before ≠ after ↔ day ∈ days) := by
  obtain ⟨threshold, hthreshold⟩ := addCalendarYears_ok_iff.mpr
    (show startDate.year + years ≤ 9999 by omega)
  obtain ⟨next, hnext⟩ := addCalendarYears_ok_iff.mpr
    (show startDate.year + (years + 1) ≤ 9999 by omega)
  have hlt : threshold < next := addCalendarYears_lt (Nat.lt_succ_self years) hthreshold hnext
  have hbefore : ∀ x : Date, x ≤ yesterday ↔ x < day := fun x => Date.le_pred hyesterday
  have hafter : ∀ x : Date, yesterday < x ↔ day ≤ x := fun x => by
    rw [← not_le, hbefore, not_lt]
  refine ⟨_, _, _, tenureTransitionDates_eq_ok (calendarDurationYears_durationText hyears)
    hthreshold hnext operator, compareTenure_eq_ok hthreshold hnext operator,
    compareTenure_eq_ok hthreshold hnext operator, ?_⟩
  -- the two anniversaries are apart, so the day is at most one of them
  rw [Date.lt_iff] at hlt
  cases operator
  all_goals
    simp only [ne_eq, decide_eq_decide, hbefore, hafter, List.mem_cons, List.not_mem_nil, or_false]
    simp only [← Date.index_injective.eq_iff, Date.lt_iff, Date.le_iff]
    omega

/-- A start on a leap day reaches its first anniversary on February 28. -/
theorem tenure_transition_dates_exact_leap :
    ∃ days before after,
      tenureTransitionDates (.on 2024 2 29) .ge (durationText 1) = .ok days ∧
      compareTenure (.on 2024 2 29) (.on 2025 2 27) .ge 1 = .ok before ∧
      compareTenure (.on 2024 2 29) (.on 2025 2 28) .ge 1 = .ok after ∧
      (before ≠ after ↔ Date.on 2025 2 28 ∈ days) :=
  tenure_transition_dates_exact (.on 2024 2 29) .ge (by decide) (by decide) (by decide)

example : tenureTransitionDates (.on 2024 2 29) .eq "P3Y" =
    .ok [.on 2027 2 28, .on 2028 2 29] := by decide +kernel

/-! ## Accepted conditions -/

theorem normalizeTenure_eq_ok {operator : Operator} {value normalized : String}
    (h : normalizeCondition "tenure" operator value = .ok normalized) :
    ∃ years, calendarDurationYears value = .ok years ∧ 0 < years ∧
      normalized = durationText years := by
  have hspec : ∃ spec, findSpec? "tenure" = some spec ∧ spec.parser = .calendarDuration := by
    decide +kernel
  obtain ⟨spec, hfind, hparser⟩ := hspec
  simp only [normalizeCondition, hfind, hparser, Parser.parse, calendarDurationParser] at h
  split at h
  · exact absurd h (by simp)
  · cases hyears : calendarDurationYears value with
    | error e => simp [hyears] at h
    | ok years =>
      simp only [hyears, Except.ok.injEq] at h
      exact ⟨years, rfl, calendarDurationYears_pos hyears, h.symm⟩

/-- A supported key can be scheduled in every state. -/
theorem replaceEvents_ok {db : Db} {entityType : EntityType} {entityIds : List ℕ}
    {desired : List EventKey} (h : ∀ key ∈ desired, validateEvent key = .ok ()) :
    ∃ db', replaceEvents db entityType entityIds desired = .ok db' := by
  refine exists_runAll_eq_ok (I := fun _ => True) (fun key hkey db _ => ?_) trivial
  unfold scheduleReconciliation
  rw [h key hkey]
  dsimp only
  split
  · exact ⟨_, rfl, trivial⟩
  · split <;> exact ⟨_, rfl, trivial⟩

theorem validateEvent_tenure {employeeId : ℕ} (h : 0 < employeeId) (t : DateTime) :
    validateEvent ⟨.employee, employeeId, .tenureThreshold, t⟩ = .ok () := by
  rw [validateEvent, if_neg (Nat.ne_of_gt h)]
  rfl

theorem syncEmployeeTenureSchedules_ok_iff {db : Db} {employee : Employee} {now : DateTime}
    (hid : 0 < employee.id) :
    (∃ db', syncEmployeeTenureSchedules db employee now = .ok db') ↔
      ∀ c ∈ tenureConditions db.facts.toRules, ∃ days,
        tenureTransitionDates employee.startDate c.1.operator c.1.value = .ok days := by
  have hevents : ∀ c : CompiledPolicyCondition × PolicyVersion,
      (∃ keys, tenureEventsOf employee now c = .ok keys) ↔
        ∃ days, tenureTransitionDates employee.startDate c.1.operator c.1.value = .ok days := by
    intro c
    constructor
    · rintro ⟨keys, hkeys⟩
      obtain ⟨days, hdays, _⟩ := tenureEventsOf_eq_ok.mp hkeys
      exact ⟨days, hdays⟩
    · rintro ⟨days, hdays⟩
      exact ⟨_, tenureEventsOf_eq_ok.mpr ⟨days, hdays, rfl⟩⟩
  simp only [← hevents]
  rw [← exists_traverseAll_eq_ok]
  unfold syncEmployeeTenureSchedules desiredTenureEvents
  cases htraverse : traverseAll (tenureEventsOf employee now)
      (tenureConditions db.facts.toRules) with
  | error e => simp [Except.map]
  | ok lists =>
    refine iff_of_true (replaceEvents_ok fun key hkey => ?_) ⟨lists, rfl⟩
    obtain ⟨keys, hkeys, hkey⟩ := List.mem_flatten.mp (List.mem_eraseDups.mp hkey)
    obtain ⟨c, _, hc⟩ := mem_of_traverseAll htraverse hkeys
    obtain ⟨days, _, rfl⟩ := tenureEventsOf_eq_ok.mp hc
    obtain ⟨day, _, _, _, rfl⟩ := mem_tenureEvents.mp hkey
    exact validateEvent_tenure hid _

/-- The definition that the catalog has for the tenure field is compared by every operator. -/
theorem exists_tenureDefinition : ∃ definition : ConditionFieldDefinition,
    definition.key = "tenure" ∧ ∀ operator value,
      tenureYears? definition operator value = (calendarDurationYears value).toOption := by
  have hspec : ∃ spec, findSpec? "tenure" = some spec ∧ spec.key = "tenure" ∧
      spec.resolver = .tenure ∧ ∀ operator, operator ∈ spec.allowedOperators := by
    refine ⟨_, rfl, rfl, rfl, fun operator => ?_⟩
    cases operator <;> decide
  obtain ⟨spec, hfind, hkey, hresolver, hoperators⟩ := hspec
  refine ⟨specDefinition 1 spec, hkey, fun operator value => ?_⟩
  have hsupported : supportedSpec? (specDefinition 1 spec) = some spec := by
    simp [supportedSpec?, specDefinition, hkey, hfind]
  rw [tenureYears?, hsupported]
  exact if_pos ⟨hresolver, hoperators operator⟩

/-- For employees with a start date, a tenure condition is evaluated on every day, its transition
dates are computed, and the schedules are synchronised as far as the other conditions let them be. -/
structure TenureTotal (startDate : Date) (operator : Operator) (value : String) : Prop where
  evaluated : ∀ context definition, context.employee.startDate = startDate →
    definition.key = "tenure" → ∃ evaluation,
      evaluateConditionWithEvidence context definition operator value = .ok evaluation
  transitions : ∃ days, tenureTransitionDates startDate operator value = .ok days
  synchronised : ∀ db employee now, employee.startDate = startDate → 0 < employee.id →
    (∀ c ∈ tenureConditions db.facts.toRules, (c.1.operator = operator ∧ c.1.value = value) ∨
      ∃ days, tenureTransitionDates startDate c.1.operator c.1.value = .ok days) →
        ∃ db', syncEmployeeTenureSchedules db employee now = .ok db'

/-- Nothing raises exactly when the anniversary after the one that is asked for lies within the
calendar. -/
theorem accepted_tenure_total_iff {operator : Operator} {value normalized : String}
    (haccepted : normalizeCondition "tenure" operator value = .ok normalized) (startDate : Date) :
    TenureTotal startDate operator normalized ↔
      ∀ years, calendarDurationYears value = .ok years → startDate.year + years + 1 ≤ 9999 := by
  obtain ⟨years, hvalue, hpositive, rfl⟩ := normalizeTenure_eq_ok haccepted
  have hread := calendarDurationYears_durationText hpositive
  constructor
  · rintro ⟨hevaluated, _, _⟩ years' hyears
    rw [hvalue] at hyears
    cases hyears
    obtain ⟨definition, hkey, htenure⟩ := exists_tenureDefinition
    let employee : Employee :=
      { id := 1, name := "", state := "", department := "", employeeType := "", location := none,
        startDate := startDate, managerId := none }
    refine evaluate_ok_iff.mp (hevaluated ⟨.empty, employee, startDate⟩ definition rfl hkey) years ?_
    rw [htenure, hread]
    rfl
  · intro hbound
    have hrange := hbound years hvalue
    obtain ⟨threshold, hthreshold⟩ := addCalendarYears_ok_iff.mpr
      (show startDate.year + years ≤ 9999 by omega)
    obtain ⟨next, hnext⟩ := addCalendarYears_ok_iff.mpr
      (show startDate.year + (years + 1) ≤ 9999 by omega)
    have hdays := tenureTransitionDates_eq_ok hread hthreshold hnext operator
    refine ⟨fun context definition hstart _ => ?_, ⟨_, hdays⟩,
      fun db employee now hstart hid hconditions => ?_⟩
    · refine evaluate_ok_iff.mpr fun years' hyears' => ?_
      have hsame := (tenureYears?_eq_some hyears').2
      rw [hread] at hsame
      cases hsame
      rw [hstart]
      exact hrange
    · refine (syncEmployeeTenureSchedules_ok_iff hid).mpr fun c hc => ?_
      rw [hstart]
      rcases hconditions c hc with ⟨hoperator, hcvalue⟩ | hothers
      · rw [hoperator, hcvalue]
        exact ⟨_, hdays⟩
      · exact hothers

theorem accepted_tenure_total_century :
    TenureTotal (.on 2026 1 1) .ge "P100Y" ↔
      ∀ years, calendarDurationYears "100 years" = .ok years →
        (Date.on 2026 1 1).year + years + 1 ≤ 9999 :=
  accepted_tenure_total_iff (by decide +kernel) (.on 2026 1 1)

/-- A laptop for everybody who has been there long enough. -/
def longServicePolicy (value : String) : PolicyCreate where
  name := "laptops"
  priority := 1
  effectiveFrom := .on 2026 1 1
  conditionGroup := .mk .and [⟨"tenure", .ge, value⟩] []
  values := [(1, "large")]

def newcomer : EmployeeCreate where
  name := "Ada"
  state := "CA"
  department := "Engineering"
  employeeType := "full_time"
  startDate := .on 2026 1 10

/-- A field for laptops and the condition catalog. -/
def laptopDb : Db :=
  syncConditionFieldDefinitions
    { Db.empty with
      facts := { Facts.empty with
        assignmentFieldDefinitions := .ofRows [⟨1, "laptop", .one, "priority", .text⟩] } }

/-- With a policy for 9999 years of service, no employee can be created any more. -/
theorem accepted_tenure_raises :
    normalizeCondition "tenure" .ge "9999 years" = .ok "P9999Y" ∧
    (createPolicy laptopDb (longServicePolicy "P9999Y") .system
      (startOfDay (.on 2026 1 1))).toOption.isSome = true ∧
    (do
      let (db, _) ← createPolicy laptopDb (longServicePolicy "P9999Y") .system
        (startOfDay (.on 2026 1 1))
      let (_, employee) ← createEmployee db newcomer .system (startOfDay (.on 2026 1 10))
      return employee.id) = .error .dateOutOfRange ∧
    tenureTransitionDates newcomer.startDate .ge "P9999Y" = .error .dateOutOfRange := by
  refine ⟨?_, ?_, ?_, ?_⟩ <;> decide +kernel

end Warp
