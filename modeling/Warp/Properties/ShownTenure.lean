import Warp.ExplanationFormat
import Warp.Properties.TenureTransitions

/-!
# Shown and compared years

The browser counts the years of a tenure with the calendar of its language, the conditions compare
anniversaries. Both reach a year on the same day, also from the 29th of February, as long as the day of
the evaluation lies after the year 100, where the browser takes years as they are.
-/

namespace Warp.ExplanationFormat

open Infra Infra.UtcDays

/-! ## Days of dates -/

section

variable {a b d start evaluation : Date} {year month : ℕ}

theorem isLeap_natCast (year : ℕ) : isLeap (year : ℤ) = isLeapYear year := by
  rw [Bool.eq_iff_iff, isLeap_iff]
  simp only [isLeapYear, Bool.and_eq_true, Bool.or_eq_true, beq_iff_eq, bne_iff_ne]
  omega

theorem monthLength_natCast (h : 1 ≤ month) (h' : month ≤ 12) :
    monthLength (isLeap (year : ℤ)) (month - 1) = Warp.daysInMonth year month := by
  have htable : ∀ leap, ∀ m < 13, 1 ≤ m → monthLength leap (m - 1) =
      ((if m = 2 then (if leap then 29 else 28)
        else if m = 4 ∨ m = 6 ∨ m = 9 ∨ m = 11 then 30 else 31 : ℕ) : ℤ) := by decide
  rw [isLeap_natCast, htable _ _ (Nat.lt_succ_of_le h') h]
  rfl

theorem month_le (d : Date) : d.month - 1 ≤ 11 := by
  have := d.bounds
  omega

/-- The day of the month is within the month, as the browser counts its days. -/
theorem day_le (d : Date) : (1 : ℤ) ≤ d.day ∧ (d.day : ℤ) ≤ monthLength (isLeap d.year) (d.month - 1) := by
  obtain ⟨_, _, h3, h4, h5, h6, _⟩ := d.bounds
  rw [monthLength_natCast h3 h4]
  omega

theorem parseDay_fields (d : Date) : getUTCFullYear (parseDay d) = d.year ∧
    getUTCMonth (parseDay d) = ((d.month - 1 : ℕ) : ℤ) ∧ getUTCDate (parseDay d) = d.day :=
  makeDay_fields (month_le d) (day_le d).1 (day_le d).2

theorem parseDay_eq (d : Date) : parseDay d =
    dayFromYear d.year + daysBeforeMonth (isLeap d.year) (d.month - 1) + (d.day - 1) :=
  makeDay_eq (month_le d)

/-- A later date is a later day. -/
theorem parseDay_strictMono (h : a < b) : parseDay a < parseDay b := by
  obtain ⟨_, _, ha3, ha4, ha5, _, ha7⟩ := a.bounds
  obtain ⟨_, _, hb3, hb4, hb5, _, hb7⟩ := b.bounds
  rcases Nat.lt_trichotomy a.year b.year with hyear | hyear | hyear
  · calc parseDay a
        < dayFromYear (a.year + 1) := (makeDay_mem (month_le a) (day_le a).1 (day_le a).2).2
      _ ≤ dayFromYear b.year := by
        rcases (Nat.succ_le_of_lt hyear).lt_or_eq with hlt | heq
        · exact (dayFromYear_strictMono (by omega)).le
        · rw [← heq]
          rfl
      _ ≤ parseDay b := (makeDay_mem (month_le b) (day_le b).1 (day_le b).2).1
  · rw [parseDay_eq, parseDay_eq, hyear]
    rcases Nat.lt_trichotomy a.month b.month with hmonth | hmonth | hmonth
    · -- the month of `a` ends before that of `b` starts
      have hlast := (day_le a).2
      have hnext := daysBeforeMonth_succ (isLeap a.year) (a.month - 1)
      have hstart : daysBeforeMonth (isLeap a.year) (a.month - 1 + 1) ≤
          daysBeforeMonth (isLeap a.year) (b.month - 1) := by
        rcases (show a.month - 1 + 1 ≤ b.month - 1 by omega).lt_or_eq with hlt | heq
        · exact (daysBeforeMonth_lt _ hlt (by omega)).le
        · rw [heq]
      rw [hyear] at hlast hnext hstart
      omega
    · rw [Date.lt_iff] at h
      simp only [Date.index, hyear, hmonth] at h
      rw [hmonth]
      omega
    · rw [Date.lt_iff] at h
      simp only [Date.index, hyear] at h
      omega
  · rw [Date.lt_iff] at h
    simp only [Date.index] at h
    omega

theorem parseDay_lt : parseDay a < parseDay b ↔ a < b := by
  refine ⟨fun h => ?_, parseDay_strictMono⟩
  by_contra hle
  rcases (not_lt.mp hle).lt_or_eq with hlt | rfl
  · exact (parseDay_strictMono hlt).not_gt h
  · exact lt_irrefl _ h

end

/-! ## Anniversaries -/

section

variable {start evaluation d : Date} {years : ℕ}

/-- Only February has more days in one year than in another. -/
theorem daysInMonth_of_lt {year year' month : ℕ}
    (h : Warp.daysInMonth year' month < Warp.daysInMonth year month) :
    Warp.daysInMonth year' month = 28 := by
  unfold Warp.daysInMonth at h ⊢
  by_cases hfebruary : month = 2
  · rw [if_pos hfebruary, if_pos hfebruary] at h
    rw [if_pos hfebruary]
    split at h
    · split at h <;> omega
    · next hleap => rw [if_neg hleap]
  · rw [if_neg hfebruary, if_neg hfebruary] at h
    exact absurd h (lt_irrefl _)

/-- The browser's day is the anniversary, from the year 100 on. -/
theorem addCalendarParts_years (h : addCalendarYears start years = .ok d)
    (hyear : 100 ≤ start.year + years) : addCalendarParts (parseDay start) years 0 = parseDay d := by
  obtain ⟨hfull, hmonth, hdate⟩ := parseDay_fields start
  obtain ⟨_, _, h3, h4, h5, h6, h7⟩ := start.bounds
  have hm := month_le start
  have hquot : (((start.month - 1 : ℕ) : ℤ) + 0) / 12 = 0 := by omega
  have hrem : ((((start.month - 1 : ℕ) : ℤ) + 0).tmod 12 + 12).tmod 12 =
      ((start.month - 1 : ℕ) : ℤ) := by
    have hmod : ((start.month - 1 : ℕ) : ℤ).tmod 12 = ((start.month - 1 : ℕ) : ℤ) := by
      rw [Int.tmod_eq_emod_of_nonneg (by omega)]
      omega
    rw [add_zero, hmod, Int.tmod_eq_emod_of_nonneg (by omega)]
    omega
  have hlength : daysInMonth ((start.year + years : ℕ) : ℤ) ((start.month - 1 : ℕ) : ℤ) =
      Warp.daysInMonth (start.year + years) start.month := by
    have hpos := monthLength_pos (isLeap ((start.year + years : ℕ) : ℤ)) hm
    rw [daysInMonth, dateUTC_eq (by omega), makeDay_zero hm, (makeDay_fields hm hpos le_rfl).2.2,
      monthLength_natCast h3 h4]
  have hday : min (start.day : ℤ) (Warp.daysInMonth (start.year + years) start.month) = d.day := by
    have hd := d.bounds
    unfold addCalendarYears at h
    split at h
    · next hfound =>
      cases h
      obtain ⟨hdyear, hdmonth, hdday⟩ := Date.ofYmd?_eq_some.mp hfound
      rw [hdyear, hdmonth] at hd
      omega
    · next hnone =>
      obtain ⟨hdyear, hdmonth, hdday⟩ := Date.ofYmd?_eq_some.mp (orRaise_eq_ok.mp h)
      -- the day is missing, so it is the 29th of February
      have hmissing : Warp.daysInMonth (start.year + years) start.month < start.day := by
        by_contra hle
        have hvalid : isValidDate (start.year + years) start.month start.day = true := by
          rw [isValidDate_iff]
          omega
        have hsome := @Date.ofYmd?_eq_some (start.year + years) start.month start.day
          ⟨_, _, _, hvalid⟩
        rw [hnone] at hsome
        exact absurd (hsome.mpr ⟨rfl, rfl, rfl⟩) (by simp)
      have hlast := daysInMonth_of_lt (hmissing.trans_le h6)
      rw [hlast, hdday]
      omega
  have hfields : d.year = start.year + years ∧ d.month = start.month := addCalendarYears_eq_ok h
  unfold addCalendarParts
  dsimp only
  rw [hfull, hmonth, hdate, hquot, hrem, add_zero, ← Nat.cast_add, hlength, dateUTC_eq (by omega),
    hday, parseDay, hfields.1, hfields.2]

/-- The anniversary has been reached. -/
def Reached (start : Date) (years : ℕ) (day : Date) : Prop :=
  ∃ anniversary, addCalendarYears start years = .ok anniversary ∧ anniversary ≤ day

/-- An anniversary in an earlier year has been reached, one in a later year has not. -/
theorem reached_of_year_lt (hyear : start.year + years < evaluation.year) :
    Reached start years evaluation := by
  have heval := evaluation.bounds
  obtain ⟨d, hd⟩ := addCalendarYears_ok_iff.mpr (show start.year + years ≤ 9999 by omega)
  refine ⟨d, hd, le_of_lt ?_⟩
  obtain ⟨hdyear, _⟩ := addCalendarYears_eq_ok hd
  have hbounds := d.bounds
  rw [Date.lt_iff]
  simp only [Date.index]
  omega

theorem Reached.year_le (h : Reached start years evaluation) :
    start.year + years ≤ evaluation.year := by
  obtain ⟨d, hd, hle⟩ := h
  obtain ⟨hdyear, _⟩ := addCalendarYears_eq_ok hd
  have hbounds := d.bounds
  have heval := evaluation.bounds
  rw [Date.le_iff] at hle
  simp only [Date.index] at hle
  omega

/-- The shown years: the difference of the years, less one before the anniversary. -/
theorem tenureParts_years (hle : start ≤ evaluation) (hyear : 101 ≤ evaluation.year) :
    ∃ years : ℕ, (tenureParts (parseDay start) (parseDay evaluation)).years = years ∧
      Reached start years evaluation ∧ ∀ more, Reached start more evaluation → more ≤ years := by
  have heval := evaluation.bounds
  have hstart := start.bounds
  have hyears : start.year ≤ evaluation.year := by
    rw [Date.le_iff] at hle
    simp only [Date.index] at hle
    omega
  obtain ⟨d, hd⟩ := addCalendarYears_ok_iff.mpr
    (show start.year + (evaluation.year - start.year) ≤ 9999 by omega)
  have hparts := addCalendarParts_years hd (by omega)
  have hdifference : getUTCFullYear (parseDay evaluation) - getUTCFullYear (parseDay start) =
      ((evaluation.year - start.year : ℕ) : ℤ) := by
    rw [(parseDay_fields evaluation).1, (parseDay_fields start).1]
    omega
  have hshown : (tenureParts (parseDay start) (parseDay evaluation)).years =
      if evaluation < d then ((evaluation.year - start.year : ℕ) : ℤ) - 1
      else ((evaluation.year - start.year : ℕ) : ℤ) := by
    unfold tenureParts
    dsimp only
    rw [hdifference, hparts]
    exact if_congr parseDay_lt rfl rfl
  by_cases hbefore : evaluation < d
  · -- the start itself is the anniversary of its own year
    have hpos : 0 < evaluation.year - start.year := by
      refine Nat.pos_of_ne_zero fun hzero => ?_
      rw [hzero] at hd
      have hsame : Date.ofYmd? (start.year + 0) start.month start.day = some start :=
        Date.ofYmd?_eq_some.mpr ⟨rfl, rfl, rfl⟩
      have hself : addCalendarYears start 0 = .ok start := by rw [addCalendarYears, hsame]
      cases Except.ok.inj (hself.symm.trans hd)
      exact hbefore.not_ge hle
    refine ⟨evaluation.year - start.year - 1, ?_, reached_of_year_lt (by omega), fun more hmore => ?_⟩
    · rw [hshown, if_pos hbefore]
      omega
    · have hmoreyear := hmore.year_le
      by_contra hmany
      have hall : more = evaluation.year - start.year := by omega
      obtain ⟨d', hd', hreached⟩ := hall ▸ hmore
      cases Except.ok.inj (hd.symm.trans hd')
      exact hbefore.not_ge hreached
  · refine ⟨evaluation.year - start.year, ?_, ⟨d, hd, not_lt.mp hbefore⟩, fun more hmore => ?_⟩
    · rw [hshown, if_neg hbefore]
    · have hmoreyear := hmore.year_le
      omega

/-- A duration matches from its anniversary until the next one. -/
theorem compareTenure_eq_true : compareTenure start evaluation .eq years = .ok true ↔
    Reached start years evaluation ∧
      ∃ next, addCalendarYears start (years + 1) = .ok next ∧ evaluation < next := by
  constructor
  · intro h
    obtain ⟨hrange⟩ : Nonempty (start.year + years + 1 ≤ 9999) :=
      ⟨compareTenure_ok_iff.mp ⟨true, h⟩⟩
    obtain ⟨threshold, hthreshold⟩ := addCalendarYears_ok_iff.mpr
      (show start.year + years ≤ 9999 by omega)
    obtain ⟨next, hnext⟩ := addCalendarYears_ok_iff.mpr
      (show start.year + (years + 1) ≤ 9999 by omega)
    rw [compareTenure_eq_ok hthreshold hnext] at h
    obtain ⟨hreached, hbefore⟩ := of_decide_eq_true (Except.ok.inj h)
    exact ⟨⟨threshold, hthreshold, hreached⟩, next, hnext, hbefore⟩
  · rintro ⟨⟨threshold, hthreshold, hreached⟩, next, hnext, hbefore⟩
    rw [compareTenure_eq_ok hthreshold hnext]
    exact congrArg _ (decide_eq_true ⟨hreached, hbefore⟩)

/-- Of all durations only the reached years match. -/
theorem compareTenure_unique (hreached : Reached start years evaluation)
    (hmost : ∀ more, Reached start more evaluation → more ≤ years) (hlast : evaluation.year < 9999)
    (years' : ℕ) : compareTenure start evaluation .eq years' = .ok true ↔ years' = years := by
  rw [compareTenure_eq_true]
  constructor
  · rintro ⟨hreached', next, hnext, hbefore⟩
    refine (hmost _ hreached').antisymm (not_lt.mp fun hlt => ?_)
    obtain ⟨d, hd, hle⟩ := hreached
    rcases (Nat.succ_le_of_lt hlt).lt_or_eq with hmore | heq
    · exact (addCalendarYears_lt hmore hnext hd).not_gt (hle.trans_lt hbefore)
    · cases Except.ok.inj (hnext.symm.trans (heq ▸ hd))
      exact hbefore.not_ge hle
  · rintro rfl
    have hyear := hreached.year_le
    obtain ⟨next, hnext⟩ := addCalendarYears_ok_iff.mpr
      (show start.year + (years' + 1) ≤ 9999 by omega)
    refine ⟨hreached, next, hnext, not_le.mp fun hle => ?_⟩
    exact (Nat.lt_succ_self years').not_ge (hmost _ ⟨next, hnext, hle⟩)

theorem tenure_allows_eq : ∀ spec ∈ conditionFieldSpecs, spec.resolver = .tenure →
    Operator.eq ∈ spec.allowedOperators := by
  decide +kernel

/-- A condition on the tenure asks for a positive duration and compares it. -/
theorem evaluateCondition_tenure {context : ConditionEvaluationContext}
    {definition : ConditionFieldDefinition} {spec : ConditionFieldSpec}
    (hspec : supportedSpec? definition = some spec) (htenure : spec.resolver = .tenure) :
    evaluateCondition context definition .eq (durationText years) = .ok true ↔
      0 < years ∧ compareTenure context.employee.startDate context.evaluationDate .eq years =
        .ok true := by
  have hmem := (supportedSpec?_mem hspec).1
  obtain ⟨hparser, hreference⟩ := tenure_parsed spec hmem htenure
  unfold evaluateCondition evaluateConditionWithEvidence
  simp only [hspec, if_neg (not_not.mpr (tenure_allows_eq spec hmem htenure)), hparser, htenure,
    Parser.parse, calendarDurationParser, Resolver.resolve, compareWithSpec, hreference]
  rcases Nat.eq_zero_or_pos years with rfl | hpos
  · have hzero : (calendarDurationYears (durationText 0)).toOption = none := by decide +kernel
    cases hparse : calendarDurationYears (durationText 0) with
    | error e => simp
    | ok n =>
      rw [hparse] at hzero
      cases hzero
  · rw [calendarDurationYears_durationText hpos]
    simp only [Bool.false_eq_true, if_false, hpos, true_and]
    cases compareTenure context.employee.startDate context.evaluationDate .eq years with
    | error e => simp
    | ok result => simp

end

/-- The years that the browser computes are the anniversaries that have been reached. When there are any,
their number is the only one for which the condition "tenure = years" matches. -/
theorem shown_tenure_years_agree {start evaluation : Date} (hle : start ≤ evaluation)
    (hyear : 101 ≤ evaluation.year) (hlast : evaluation.year < 9999) :
    ∃ years : ℕ, (tenureParts (parseDay start) (parseDay evaluation)).years = years ∧
      Reached start years evaluation ∧ (∀ more, Reached start more evaluation → more ≤ years) ∧
      (0 < years → ∀ (context : ConditionEvaluationContext) (definition : ConditionFieldDefinition)
        (spec : ConditionFieldSpec), supportedSpec? definition = some spec →
        spec.resolver = .tenure → context.employee.startDate = start →
        context.evaluationDate = evaluation → ∀ years',
          evaluateCondition context definition .eq (durationText years') = .ok true ↔
            years' = years) := by
  obtain ⟨years, hshown, hreached, hmost⟩ := tenureParts_years hle hyear
  refine ⟨years, hshown, hreached, hmost, fun hpos context definition spec hspec htenure => ?_⟩
  rintro rfl rfl years'
  rw [evaluateCondition_tenure hspec htenure, compareTenure_unique hreached hmost hlast]
  exact and_iff_right_of_imp fun heq => heq ▸ hpos

theorem shown_tenure_years_agree_leap :
    ∃ years : ℕ, (tenureParts (parseDay (.on 2024 2 29)) (parseDay (.on 2027 2 28))).years = years ∧
      Reached (.on 2024 2 29) years (.on 2027 2 28) := by
  obtain ⟨years, hyears, hreached, _⟩ := @shown_tenure_years_agree (.on 2024 2 29) (.on 2027 2 28)
    (show Date.on 2024 2 29 ≤ Date.on 2027 2 28 by decide +kernel) (by decide +kernel)
    (by decide +kernel)
  exact ⟨years, hyears, hreached⟩

end Warp.ExplanationFormat
