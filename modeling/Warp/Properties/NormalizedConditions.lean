import Warp.Properties.TenureTransitions

/-!
# Normalized conditions

Every parser prints its value in a canonical text, and reads the canonical text as the same value. A
condition therefore means the same before and after it is normalized.
-/

namespace Warp

open Infra

/-! ## Decimal digits -/

theorem isDigit_bounds {c : Char} (h : c.isDigit = true) : 48 ≤ c.toNat ∧ c.toNat ≤ 57 :=
  Char.isDigit_iff_toNat.mp h

theorem decimalValue?_of_isDigit {c : Char} (h : c.isDigit = true) :
    Text.decimalValue? c = some (c.toNat - 48) := by
  obtain ⟨hlo, hhi⟩ := isDigit_bounds h
  have hzero : Text.decimalZeros.find? (fun z => z ≤ c.toNat && c.toNat < z + 10) = some 48 :=
    List.find?_cons_of_pos (by simp only [Bool.and_eq_true, decide_eq_true_eq]; omega)
  rw [Text.decimalValue?, hzero, Option.map_some]

theorem asciiDigit?_of_isDigit {c : Char} (h : c.isDigit = true) :
    Text.asciiDigit? c = some (c.toNat - 48) :=
  if_pos (isDigit_bounds h)

theorem isSpace_of_isDigit {c : Char} (h : c.isDigit = true) : Text.isSpace c = false := by
  obtain ⟨hlo, hhi⟩ := isDigit_bounds h
  simp only [Text.isSpace, Bool.or_eq_false_iff, Bool.and_eq_false_iff, decide_eq_false_iff_not,
    beq_eq_false_iff_ne, ne_eq]
  omega

theorem ne_of_isDigit {c d : Char} (h : c.isDigit = true) (hd : d.isDigit = false) : c ≠ d := by
  rintro rfl
  rw [h] at hd
  cases hd

/-- A digit counts the same in the host's reading and in Lean's. -/
theorem ofDigitChars_step {c : Char} (cs : List Char) (acc : ℕ) :
    Nat.ofDigitChars 10 cs (acc * 10 + (c.toNat - 48)) = Nat.ofDigitChars 10 (c :: cs) acc := by
  rw [Nat.ofDigitChars_cons, Nat.mul_comm]
  rfl

theorem digitsValue?_digits {cs : List Char} : ∀ {afterDigit : Bool} {acc : ℕ},
    (∀ c ∈ cs, c.isDigit = true) → (cs = [] → afterDigit = true) →
      Text.digitsValue? afterDigit acc cs = some (Nat.ofDigitChars 10 cs acc) := by
  induction cs with
  | nil =>
    intro afterDigit acc _ hafter
    rw [hafter rfl, Nat.ofDigitChars_nil]
    rfl
  | cons c rest ih =>
    intro afterDigit acc hdigits _
    have hc := hdigits c List.mem_cons_self
    rw [Text.digitsValue?, if_neg (ne_of_isDigit hc (by decide)), decimalValue?_of_isDigit hc,
      ← ofDigitChars_step]
    exact ih (fun d hd => hdigits d (List.mem_cons_of_mem _ hd)) fun _ => rfl

theorem takeDigits?_digits {cs : List Char} : ∀ {acc : ℕ} {rest : List Char},
    (∀ c ∈ cs, c.isDigit = true) →
      Text.takeDigits? cs.length acc (cs ++ rest) = some (Nat.ofDigitChars 10 cs acc, rest) := by
  induction cs with
  | nil =>
    intro acc rest _
    rfl
  | cons c cs ih =>
    intro acc rest hdigits
    have hc := hdigits c List.mem_cons_self
    rw [List.cons_append, List.length_cons, Text.takeDigits?, asciiDigit?_of_isDigit hc,
      ← ofDigitChars_step]
    exact ih fun d hd => hdigits d (List.mem_cons_of_mem _ hd)

/-! ## Integers -/

theorem isDigit_toDigits {n : ℕ} {c : Char} (h : c ∈ Nat.toDigits 10 n) : c.isDigit = true :=
  Nat.isDigit_of_mem_toDigits (by decide) (by decide) h

/-- Nothing is taken off a text whose characters all stay. -/
theorem dropEnds_eq_self {p : Char → Bool} {s : List Char} (h : ∀ c ∈ s, p c = false) :
    Text.dropEnds p s = s := by
  have hdrop : ∀ l : List Char, (∀ c ∈ l, p c = false) → l.dropWhile p = l := by
    intro l hl
    cases l with
    | nil => rfl
    | cons c rest => exact List.dropWhile_cons_of_neg (by simp [hl c List.mem_cons_self])
  rw [Text.dropEnds, hdrop s h, hdrop s.reverse fun c hc => h c (List.mem_reverse.mp hc),
    List.reverse_reverse]

theorem parseInt?_toString (n : ℕ) : Text.parseInt? (toString (n : ℤ)) = some (n : ℤ) := by
  have hlist : (toString (n : ℤ)).toList = Nat.toDigits 10 n := by
    show n.repr.toList = Nat.toDigits 10 n
    exact Nat.toList_repr
  have hvalue : Text.digitsValue? false 0 (Nat.toDigits 10 n) = some n := by
    rw [digitsValue?_digits (fun c hc => isDigit_toDigits hc) fun h => absurd h Nat.toDigits_ne_nil,
      Nat.ofDigitChars_ten_toDigits]
  rw [Text.parseInt?, hlist, dropEnds_eq_self fun c hc => by
    rw [isSpace_of_isDigit (isDigit_toDigits hc), Bool.false_and]]
  split
  -- a digit is neither of the two signs
  · next rest hsign => exact absurd (isDigit_toDigits (hsign ▸ List.mem_cons_self)) (by decide)
  · next rest hsign => exact absurd (isDigit_toDigits (hsign ▸ List.mem_cons_self)) (by decide)
  · rw [hvalue]
    rfl

/-- The two parsers of integers. -/
theorem integerParser_eq_ok {minimum : ℤ} {message value normalized : String}
    {expected : ConditionValue} (hmin : 0 ≤ minimum) :
    integerParser minimum message value = .ok (normalized, expected) ↔
      ∃ n : ℕ, Text.parseInt? value = some (n : ℤ) ∧ minimum ≤ n ∧ normalized = toString (n : ℤ) ∧
        expected = .int n := by
  unfold integerParser
  cases hparse : Text.parseInt? value with
  | none => simp
  | some i =>
    by_cases hi : i < minimum
    · simp only [if_pos hi, Option.some.injEq]
      refine iff_of_false (by simp) ?_
      rintro ⟨n, rfl, hn, _⟩
      exact absurd hi (not_lt.mpr hn)
    · obtain ⟨n, rfl⟩ := Int.eq_ofNat_of_zero_le (hmin.trans (not_lt.mp hi))
      simp only [if_neg hi, Except.ok.injEq, Prod.mk.injEq, Option.some.injEq]
      constructor
      · rintro ⟨rfl, rfl⟩
        exact ⟨n, rfl, not_lt.mp hi, rfl, rfl⟩
      · rintro ⟨m, hm, _, rfl, rfl⟩
        rw [← Int.ofNat_inj.mp hm]
        exact ⟨rfl, rfl⟩

/-! ## Dates -/

theorem isDigit_pad {width n : ℕ} {c : Char} (h : c ∈ (Date.pad width n).toList) :
    c.isDigit = true := by
  rw [Date.pad_toList] at h
  rcases List.mem_append.mp h with h | h
  · rw [(List.mem_replicate.mp h).2]
    rfl
  · exact isDigit_toDigits h

theorem ofDigitChars_pad (width n : ℕ) : Nat.ofDigitChars 10 (Date.pad width n).toList 0 = n := by
  rw [Date.pad_toList, Nat.ofDigitChars_append, Nat.ofDigitChars_replicate_zero, Nat.mul_zero,
    Nat.ofDigitChars_ten_toDigits]

/-- The padded number is read off a text that goes on. -/
theorem takeDigits?_pad {width n : ℕ} (h : (Nat.toDigits 10 n).length ≤ width) (rest : List Char) :
    Text.takeDigits? width 0 ((Date.pad width n).toList ++ rest) = some (n, rest) := by
  have hdigits : ∀ c ∈ (Date.pad width n).toList, c.isDigit = true := fun c hc => isDigit_pad hc
  have hread : Text.takeDigits? (Date.pad width n).toList.length 0 _ = some (_, rest) :=
    takeDigits?_digits hdigits
  rw [Date.pad_length h, ofDigitChars_pad] at hread
  exact hread

theorem utf8ByteSize_ascii {l : List Char} (h : ∀ c ∈ l, c.toNat < 128) :
    (String.ofList l).utf8ByteSize = l.length := by
  induction l with
  | nil => rfl
  | cons c rest ih =>
    have hc : c.utf8Size = 1 := Char.utf8Size_eq_one_iff.mpr
      (UInt32.le_iff_toNat_le.mpr (Nat.le_of_lt_succ (h c List.mem_cons_self)))
    rw [String.ofList_cons, String.utf8ByteSize_append, String.utf8ByteSize_singleton, hc,
      ih fun d hd => h d (List.mem_cons_of_mem _ hd), List.length_cons, Nat.add_comm]

theorem toList_isoformat (d : Date) : d.isoformat.toList = (Date.pad 4 d.year).toList ++
    '-' :: ((Date.pad 2 d.month).toList ++ '-' :: (Date.pad 2 d.day).toList) := by
  simp [Date.isoformat, String.toList_append]

theorem isDigit_or_dash {d : Date} {c : Char} (h : c ∈ d.isoformat.toList) :
    c.isDigit = true ∨ c = '-' := by
  rw [toList_isoformat] at h
  simp only [List.mem_append, List.mem_cons] at h
  rcases h with h | h | h | h | h
  · exact Or.inl (isDigit_pad h)
  · exact Or.inr h
  · exact Or.inl (isDigit_pad h)
  · exact Or.inr h
  · exact Or.inl (isDigit_pad h)

theorem digits_le {n : ℕ} (width : ℕ) (hwidth : 0 < width) (h : n < Nat.pow 10 width) :
    (Nat.toDigits 10 n).length ≤ width :=
  (Nat.length_toDigits_le_iff (by decide) hwidth).mpr h

theorem utf8ByteSize_isoformat (d : Date) : d.isoformat.utf8ByteSize = 10 := by
  obtain ⟨_, hyear, _, hmonth, _, _, hday⟩ := d.bounds
  have hascii : ∀ c ∈ d.isoformat.toList, c.toNat < 128 := by
    intro c hc
    rcases isDigit_or_dash hc with h | rfl
    · have hbounds := isDigit_bounds h
      omega
    · decide
  have hsize := utf8ByteSize_ascii hascii
  rw [String.ofList_toList, toList_isoformat] at hsize
  rw [hsize]
  simp only [List.length_append, List.length_cons]
  rw [Date.pad_length (digits_le 4 (by decide) (show d.year < 10000 by omega)),
    Date.pad_length (digits_le 2 (by decide) (show d.month < 100 by omega)),
    Date.pad_length (digits_le 2 (by decide) (show d.day < 100 by omega))]

/-- The text of a date is read back: ten bytes, separated, and no week. -/
theorem parseIsoDate?_isoformat (d : Date) : Text.parseIsoDate? d.isoformat = some d := by
  obtain ⟨_, hyear, _, hmonth, _, _, hday⟩ := d.bounds
  have htakeYear := takeDigits?_pad (digits_le 4 (by decide) (show d.year < 10000 by omega))
  have htakeMonth := takeDigits?_pad (digits_le 2 (by decide) (show d.month < 100 by omega))
  have htakeDay := takeDigits?_pad (digits_le 2 (by decide) (show d.day < 100 by omega)) []
  rw [List.append_nil] at htakeDay
  have hweek : ((Date.pad 2 d.month).toList ++ '-' :: (Date.pad 2 d.day).toList).head? ≠ some 'W' := by
    cases hpad : (Date.pad 2 d.month).toList with
    | nil => simp
    | cons c rest =>
      have hc : c.isDigit = true := isDigit_pad (hpad ▸ List.mem_cons_self)
      rw [List.cons_append, List.head?_cons, ne_eq, Option.some.injEq]
      exact ne_of_isDigit hc (by decide)
  rw [Text.parseIsoDate?, utf8ByteSize_isoformat, toList_isoformat, if_neg (by decide), htakeYear]
  simp only [Option.bind_some, List.head?_cons, if_true, List.drop_one, List.tail_cons, if_neg hweek,
    htakeMonth, ne_eq, not_true_eq_false, and_false, if_false, htakeDay]
  exact Date.ofYmd?_eq_some.mpr ⟨rfl, rfl, rfl⟩

/-! ## All parsers -/

theorem normalizeStateCode_mem : ∀ code ∈ stateCodes, normalizeStateCode code = some code := by
  decide +kernel

theorem normalizeStateCode_normalized {value code : String} (h : normalizeStateCode value = some code) :
    normalizeStateCode code = some code := by
  unfold normalizeStateCode at h
  dsimp only at h
  split at h
  · next hmem =>
    rw [← Option.some.inj h]
    exact normalizeStateCode_mem _ hmem
  · exact absurd h (by simp)

section

variable {value normalized : String} {expected : ConditionValue}

theorem stateParser_normalized (h : stateParser value = .ok (normalized, expected)) :
    stateParser normalized = .ok (normalized, expected) := by
  unfold stateParser at h
  split at h
  · next code hcode =>
    simp only [Except.ok.injEq, Prod.mk.injEq] at h
    obtain ⟨rfl, rfl⟩ := h
    rw [stateParser, normalizeStateCode_normalized hcode]
  · exact absurd h (by simp)

theorem dateParser_normalized (h : dateParser value = .ok (normalized, expected)) :
    dateParser normalized = .ok (normalized, expected) := by
  unfold dateParser at h
  split at h
  · simp only [Except.ok.injEq, Prod.mk.injEq] at h
    obtain ⟨rfl, rfl⟩ := h
    rw [dateParser, parseIsoDate?_isoformat]
  · exact absurd h (by simp)

theorem integerParser_normalized {minimum : ℤ} {message : String} (hmin : 0 ≤ minimum)
    (h : integerParser minimum message value = .ok (normalized, expected)) :
    integerParser minimum message normalized = .ok (normalized, expected) := by
  obtain ⟨n, _, hn, rfl, rfl⟩ := (integerParser_eq_ok hmin).mp h
  exact (integerParser_eq_ok hmin).mpr ⟨n, parseInt?_toString n, hn, rfl, rfl⟩

theorem booleanParser_normalized (h : booleanParser value = .ok (normalized, expected)) :
    booleanParser normalized = .ok (normalized, expected) := by
  have htexts : booleanParser "true" = .ok ("true", .bool true) ∧
      booleanParser "false" = .ok ("false", .bool false) := by
    decide +kernel
  unfold booleanParser at h
  dsimp only at h
  split at h
  · next htrue =>
    simp only [Except.ok.injEq, Prod.mk.injEq, htrue] at h
    obtain ⟨rfl, rfl⟩ := h
    exact htexts.1
  · split at h
    · next hfalse =>
      simp only [Except.ok.injEq, Prod.mk.injEq, hfalse] at h
      obtain ⟨rfl, rfl⟩ := h
      exact htexts.2
    · exact absurd h (by simp)

theorem calendarDurationParser_normalized
    (h : calendarDurationParser value = .ok (normalized, expected)) :
    calendarDurationParser normalized = .ok (normalized, expected) := by
  unfold calendarDurationParser at h
  split at h
  · exact absurd h (by simp)
  · next years hyears =>
    simp only [Except.ok.injEq, Prod.mk.injEq] at h
    obtain ⟨rfl, rfl⟩ := h
    rw [calendarDurationParser, calendarDurationYears_durationText (calendarDurationYears_pos hyears)]

/-- Every parser reads its canonical text as itself, with the same value. -/
theorem parse_normalized {parser : Parser} (h : parser.parse value = .ok (normalized, expected)) :
    parser.parse normalized = .ok (normalized, expected) := by
  cases parser with
  | string =>
    simp only [Parser.parse, Except.ok.injEq, Prod.mk.injEq] at h
    obtain ⟨rfl, rfl⟩ := h
    rfl
  | state =>
    rw [Parser.parse] at h ⊢
    exact stateParser_normalized h
  | date =>
    rw [Parser.parse] at h ⊢
    exact dateParser_normalized h
  | positiveInteger =>
    rw [Parser.parse] at h ⊢
    exact integerParser_normalized (by decide) h
  | nonnegativeInteger =>
    rw [Parser.parse] at h ⊢
    exact integerParser_normalized (by decide) h
  | boolean =>
    rw [Parser.parse] at h ⊢
    exact booleanParser_normalized h
  | calendarDuration =>
    rw [Parser.parse] at h ⊢
    exact calendarDurationParser_normalized h

end

/-! ## Conditions -/

theorem normalizeCondition_eq_ok {fieldKey : String} {operator : Operator} {value normalized : String} :
    normalizeCondition fieldKey operator value = .ok normalized ↔
      ∃ spec expected, findSpec? fieldKey = some spec ∧ operator ∈ spec.allowedOperators ∧
        spec.parser.parse value = .ok (normalized, expected) := by
  unfold normalizeCondition
  cases hfind : findSpec? fieldKey with
  | none => simp
  | some spec =>
    by_cases hoperator : operator ∈ spec.allowedOperators
    · cases hparse : spec.parser.parse value with
      | error e => simp [hoperator, hparse]
      | ok parsed =>
        obtain ⟨text, expected⟩ := parsed
        simp [hoperator, hparse]
    · simp [hoperator]

/-- Of the text of a condition, only the value that the field's parser reads counts. -/
theorem evaluateCondition_congr {definition : ConditionFieldDefinition} {spec : ConditionFieldSpec}
    {value value' text text' : String} {expected : ConditionValue}
    (hfind : findSpec? definition.key = some spec)
    (hvalue : spec.parser.parse value = .ok (text, expected))
    (hvalue' : spec.parser.parse value' = .ok (text', expected))
    (context : ConditionEvaluationContext) (operator : Operator) :
    evaluateCondition context definition operator value =
      evaluateCondition context definition operator value' := by
  unfold evaluateCondition evaluateConditionWithEvidence supportedSpec?
  rw [hfind]
  dsimp only
  by_cases hsupported : definition.active ∧ definition.resolverKey = some spec.resolverKey
  · simp only [if_pos hsupported]
    by_cases hoperator : operator ∈ spec.allowedOperators
    · simp only [if_neg (not_not.mpr hoperator), hvalue, hvalue']
    · simp only [if_pos hoperator]
  · simp only [if_neg hsupported]

/-- The normalized condition is its own normal form, and it holds exactly when the accepted one does. -/
theorem normalize_condition_stable {fieldKey : String} {operator : Operator}
    {value normalized : String} (h : normalizeCondition fieldKey operator value = .ok normalized) :
    normalizeCondition fieldKey operator normalized = .ok normalized ∧
      ∀ (context : ConditionEvaluationContext) (definition : ConditionFieldDefinition),
        definition.key = fieldKey →
          evaluateCondition context definition operator normalized =
            evaluateCondition context definition operator value := by
  obtain ⟨spec, expected, hfind, hoperator, hparse⟩ := normalizeCondition_eq_ok.mp h
  have hnormalized := parse_normalized hparse
  refine ⟨normalizeCondition_eq_ok.mpr ⟨spec, expected, hfind, hoperator, hnormalized⟩, ?_⟩
  rintro context definition rfl
  exact evaluateCondition_congr hfind hnormalized hparse context operator

theorem normalize_condition_stable_tenure :
    normalizeCondition "tenure" .ge " 007 YEARS " = .ok "P7Y" ∧
      normalizeCondition "tenure" .ge "P7Y" = .ok "P7Y" := by
  have h : normalizeCondition "tenure" .ge " 007 YEARS " = .ok "P7Y" := by decide +kernel
  exact ⟨h, (normalize_condition_stable h).1⟩

end Warp
