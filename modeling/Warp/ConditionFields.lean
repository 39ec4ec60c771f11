import Warp.Json
import Warp.OrgChart
import Warp.States

/-!
# Condition fields

The catalog of facts a policy condition may test, the parsers of condition values, and the
evaluation of one condition for one employee on one date.
-/

namespace Warp

open Infra

/-! ## Values -/

/-- What a resolver or a parser returns. -/
inductive ConditionValue where
  | str (s : String)
  | date (d : Date)
  | int (n : ℤ)
  | bool (b : Bool)
  | ids (s : Finset ℕ)
  | tenure (startDate evaluationDate : Date)
  | duration (years : ℕ)
deriving DecidableEq

/-- A JSON-safe value of the evidence. -/
inductive ExplanationValue where
  | null
  | str (s : String)
  | int (n : ℤ)
  | bool (b : Bool)
  | ids (l : List ℕ)
  | tenure (startDate evaluationDate : Date)
deriving DecidableEq, Repr

def ExplanationValue.toJson : ExplanationValue → Json
  | .null => .null
  | .str s => .str s
  | .int n => .int n
  | .bool b => .bool b
  | .ids l => .arr (l.map fun n => .int n)
  | .tenure startDate evaluationDate =>
    .obj [("start_date", .str startDate.isoformat),
      ("evaluation_date", .str evaluationDate.isoformat)]

def durationText (years : ℕ) : String := "P" ++ toString years ++ "Y"

def explanationValue : ConditionValue → ExplanationValue
  | .str s => .str s
  | .date d => .str d.isoformat
  | .int n => .int n
  | .bool b => .bool b
  | .ids s => .ids (sortedSet s)
  | .tenure startDate evaluationDate => .tenure startDate evaluationDate
  | .duration years => .str (durationText years)

/-! ## Parsers -/

inductive Parser where
  | string
  | state
  | date
  | positiveInteger
  | nonnegativeInteger
  | boolean
  | calendarDuration
deriving DecidableEq, Repr

def stateParser (value : String) : Except ServiceError (String × ConditionValue) :=
  match normalizeStateCode value with
  | some code => .ok (code, .str code)
  | none => .error (.conditionField "must be a valid two-letter U.S. state or territory code")

def dateParser (value : String) : Except ServiceError (String × ConditionValue) :=
  match Text.parseIsoDate? value with
  | some d => .ok (d.isoformat, .date d)
  | none => .error (.conditionField "condition value must be an ISO date (YYYY-MM-DD)")

/-- The two integer parsers differ in the smallest value and in the message. -/
def integerParser (minimum : ℤ) (message value : String) :
    Except ServiceError (String × ConditionValue) :=
  match Text.parseInt? value with
  | some n => if n < minimum then .error (.conditionField message) else .ok (toString n, .int n)
  | none => .error (.conditionField message)

def positiveIntegerParser : String → Except ServiceError (String × ConditionValue) :=
  integerParser 1 "condition value must be a positive integer"

def nonnegativeIntegerParser : String → Except ServiceError (String × ConditionValue) :=
  integerParser 0 "condition value must be a nonnegative integer"

def booleanParser (value : String) : Except ServiceError (String × ConditionValue) :=
  let normalized := Text.lower (Text.strip value)
  if normalized = "true" then .ok (normalized, .bool true)
  else if normalized = "false" then .ok (normalized, .bool false)
  else .error (.conditionField "condition value must be 'true' or 'false'")

def isChar (options : List Char) (c : Char) : Bool := options.contains c

/-- Characters after the digits: spaces and `year` or `years`, in any case. -/
def matchesYears (text : List Char) : Bool :=
  let word := text.dropWhile Text.isSpace
  word.length < text.length &&
    match word with
    | [y, e, a, r] => isChar ['y', 'Y'] y && isChar ['e', 'E'] e && isChar ['a', 'A'] a
        && isChar ['r', 'R'] r
    | [y, e, a, r, s] => isChar ['y', 'Y'] y && isChar ['e', 'E'] e && isChar ['a', 'A'] a
        && isChar ['r', 'R'] r && isChar ['s', 'S', 'ſ'] s
    | _ => false

/-- The digits that `^(?:P(?P<iso>\d+)Y|(?P<human>\d+)\s+years?)$` captures. -/
def durationDigits? (text : List Char) : Option ℕ :=
  match text with
  | [] => none
  | first :: rest =>
    if isChar ['p', 'P'] first then
      if (rest.getLast?.map (isChar ['y', 'Y'])).getD false then Text.decimalDigits? rest.dropLast
      else none
    else
      let digits := text.takeWhile fun c => (Text.decimalValue? c).isSome
      if matchesYears (text.drop digits.length) then Text.decimalDigits? digits else none

/-- The number of years of a duration. -/
def calendarDurationYears (value : String) : Except ServiceError ℕ :=
  match durationDigits? (Text.strip value).toList with
  | none => .error (.conditionField
      "tenure condition values must be whole calendar years, such as '2 years' or 'P2Y'")
  | some years =>
    if years = 0 then .error (.conditionField "tenure condition years must be positive")
    else .ok years

def calendarDurationParser (value : String) : Except ServiceError (String × ConditionValue) :=
  match calendarDurationYears value with
  | .error e => .error e
  | .ok years => .ok (durationText years, .duration years)

def Parser.parse : Parser → String → Except ServiceError (String × ConditionValue)
  | .string => fun value => .ok (value, .str value)
  | .state => stateParser
  | .date => dateParser
  | .positiveInteger => positiveIntegerParser
  | .nonnegativeInteger => nonnegativeIntegerParser
  | .boolean => booleanParser
  | .calendarDuration => calendarDurationParser

/-! ## The catalog -/

inductive Resolver where
  | id
  | name
  | state
  | department
  | employeeType
  | location
  | startDate
  | managerId
  | isManager
  | directReportCount
  | reportsUnder
  | managementLevel
  | tenure
deriving DecidableEq, Repr

structure ConditionFieldDependencySpec where
  dependencyType : DependencyType
  dependencyKey : String
  sourceTable : Option String
  sourceColumn : Option String
  role : String
  impactResolverKey : String
deriving DecidableEq, Repr

structure ConditionFieldSpec where
  key : String
  fieldType : FieldType
  dataType : String
  resolverKey : String
  allowedOperators : List Operator
  resolver : Resolver
  parser : Parser
  /-- `comparator=_contains_reference` -/
  containsReference : Bool := false
  sourceTable : Option String := none
  sourceColumn : Option String := none
  dependencies : List ConditionFieldDependencySpec
deriving DecidableEq, Repr

def comparableOperators : List Operator := [.eq, .lt, .le, .gt, .ge]

def equalityOperators : List Operator := [.eq]

def employeeColumnDependency (column : String) : List ConditionFieldDependencySpec :=
  [{ dependencyType := .column
     dependencyKey := "employee." ++ column
     sourceTable := some "employees"
     sourceColumn := some column
     role := "value"
     impactResolverKey := "changed_employee" }]

def managerRelationshipDependency (impactResolverKey role : String) :
    List ConditionFieldDependencySpec :=
  [{ dependencyType := .relationship
     dependencyKey := "employee.manager_id"
     sourceTable := some "employees"
     sourceColumn := some "manager_id"
     role := role
     impactResolverKey := impactResolverKey }]

def staticSpec (key dataType : String) (resolver : Resolver) (parser : Parser) :
    ConditionFieldSpec where
  key := key
  fieldType := .static
  dataType := dataType
  resolverKey := "employee_attribute_" ++ key ++ "_v1"
  allowedOperators := comparableOperators
  resolver := resolver
  parser := parser
  sourceTable := some "employees"
  sourceColumn := some key
  dependencies := employeeColumnDependency key

/-- The static fields that the source spells out allow equality only. -/
def equalitySpec (key dataType column : String) (resolver : Resolver) (parser : Parser) :
    ConditionFieldSpec where
  key := key
  fieldType := .static
  dataType := dataType
  resolverKey := "employee_attribute_" ++ column ++ "_v1"
  allowedOperators := equalityOperators
  resolver := resolver
  parser := parser
  sourceTable := some "employees"
  sourceColumn := some column
  dependencies := employeeColumnDependency column

def conditionFieldSpecs : List ConditionFieldSpec :=
  [equalitySpec "employee_id" "employee_reference" "id" .id .positiveInteger,
    staticSpec "name" "string" .name .string,
    equalitySpec "state" "state_code" "state" .state .state,
    staticSpec "department" "string" .department .string,
    staticSpec "employee_type" "string" .employeeType .string,
    staticSpec "location" "string" .location .string,
    staticSpec "start_date" "date" .startDate .date,
    equalitySpec "manager_id" "employee_reference" "manager_id" .managerId .positiveInteger,
    { key := "is_manager"
      fieldType := .derived
      dataType := "boolean"
      resolverKey := "employee_is_manager_v1"
      allowedOperators := equalityOperators
      resolver := .isManager
      parser := .boolean
      dependencies := managerRelationshipDependency "old_and_new_managers" "direct_reports" },
    { key := "direct_report_count"
      fieldType := .derived
      dataType := "integer"
      resolverKey := "employee_direct_report_count_v1"
      allowedOperators := comparableOperators
      resolver := .directReportCount
      parser := .nonnegativeInteger
      dependencies := managerRelationshipDependency "old_and_new_managers" "direct_report_count" },
    { key := "reports_under"
      fieldType := .derived
      dataType := "employee_reference"
      resolverKey := "employee_manager_chain_v1"
      allowedOperators := equalityOperators
      resolver := .reportsUnder
      parser := .positiveInteger
      containsReference := true
      dependencies := managerRelationshipDependency "moved_subtree" "ancestor_chain" },
    { key := "management_level"
      fieldType := .derived
      dataType := "integer"
      resolverKey := "employee_management_level_v1"
      allowedOperators := comparableOperators
      resolver := .managementLevel
      parser := .nonnegativeInteger
      dependencies := managerRelationshipDependency "moved_subtree" "ancestor_depth" },
    { key := "tenure"
      fieldType := .derived
      dataType := "calendar_duration"
      resolverKey := "employee_tenure_v1"
      allowedOperators := comparableOperators
      resolver := .tenure
      parser := .calendarDuration
      dependencies :=
        [{ dependencyType := .column
           dependencyKey := "employee.start_date"
           sourceTable := some "employees"
           sourceColumn := some "start_date"
           role := "tenure_origin"
           impactResolverKey := "changed_employee" },
          { dependencyType := .time
            dependencyKey := "evaluation_date"
            sourceTable := none
            sourceColumn := none
            role := "clock"
            impactResolverKey := "tenure_threshold_schedule" }] }]

/-- `CONDITION_FIELD_SPECS.get(key)` -/
def findSpec? (key : String) : Option ConditionFieldSpec :=
  conditionFieldSpecs.find? (fun spec => spec.key = key)

theorem findSpec?_eq_some {key : String} {spec : ConditionFieldSpec}
    (h : findSpec? key = some spec) : spec ∈ conditionFieldSpecs ∧ spec.key = key :=
  ⟨List.mem_of_find?_eq_some h, by simpa using List.find?_some h⟩

def normalizeCondition (fieldKey : String) (operator : Operator) (value : String) :
    Except ServiceError String :=
  match findSpec? fieldKey with
  | none => .error (.conditionField ("Unsupported condition field: " ++ fieldKey))
  | some spec =>
    if operator ∉ spec.allowedOperators then
      .error (.conditionField ("Operator '" ++ operator.text
        ++ "' is not supported for condition field '" ++ fieldKey ++ "'"))
    else
      match spec.parser.parse value with
      | .error e => .error e
      | .ok (normalized, _) => .ok normalized

/-! ## Calendar years -/

/-- `add_calendar_years`: the date of the year, or February 28 where the first `replace` raises. -/
def addCalendarYears (day : Date) (years : ℕ) : Except ServiceError Date :=
  match Date.ofYmd? (day.year + years) day.month day.day with
  | some d => .ok d
  | none => orRaise (Date.ofYmd? (day.year + years) day.month 28) .dateOutOfRange

def transitionYears (operator : Operator) (years : ℕ) : List ℕ :=
  match operator with
  | .eq => [years, years + 1]
  | .lt => [years]
  | .le => [years + 1]
  | .gt => [years + 1]
  | .ge => [years]

def tenureTransitionDates (startDate : Date) (operator : Operator) (normalizedValue : String) :
    Except ServiceError (List Date) :=
  match calendarDurationYears normalizedValue with
  | .error e => .error e
  | .ok years => traverseAll (addCalendarYears startDate) (transitionYears operator years)

/-! ## Evaluation -/

structure ConditionEvaluationContext where
  employees : Table Employee
  employee : Employee
  evaluationDate : Date

structure ConditionEvaluation where
  result : Bool
  actual : ExplanationValue
  expected : ExplanationValue
deriving DecidableEq, Repr

def Resolver.resolve (context : ConditionEvaluationContext) : Resolver → Option ConditionValue
  | .id => some (.int context.employee.id)
  | .name => some (.str context.employee.name)
  | .state => some (.str context.employee.state)
  | .department => some (.str context.employee.department)
  | .employeeType => some (.str context.employee.employeeType)
  | .location => context.employee.location.map .str
  | .startDate => some (.date context.employee.startDate)
  | .managerId => context.employee.managerId.map fun id => .int id
  | .isManager => some (.bool (employeeIsManager context.employees context.employee.id))
  | .directReportCount =>
    some (.int (employeeDirectReportCount context.employees context.employee.id))
  | .reportsUnder => some (.ids (getAncestorIds context.employees context.employee.id))
  | .managementLevel => some (.int (employeeManagementLevel context.employees context.employee.id))
  | .tenure => some (.tenure context.employee.startDate context.evaluationDate)

def Operator.holds {α : Type} [LinearOrder α] (operator : Operator) (a b : α) : Bool :=
  match operator with
  | .eq => a = b
  | .lt => a < b
  | .le => a ≤ b
  | .gt => b < a
  | .ge => b ≤ a

/-- `_compare`. A field's resolver and parser return values of one type. -/
def compareValues (actual : ConditionValue) (operator : Operator) (expected : ConditionValue) :
    Bool :=
  match actual, expected with
  | .str a, .str b => operator.holds a b
  | .date a, .date b => operator.holds a b
  | .int a, .int b => operator.holds a b
  | .bool a, .bool b => operator.holds a b
  | _, _ => false

def compareTenure (startDate evaluationDate : Date) (operator : Operator) (years : ℕ) :
    Except ServiceError Bool :=
  match addCalendarYears startDate years with
  | .error e => .error e
  | .ok threshold =>
    match addCalendarYears startDate (years + 1) with
    | .error e => .error e
    | .ok nextThreshold =>
      .ok <| match operator with
        | .eq => threshold ≤ evaluationDate ∧ evaluationDate < nextThreshold
        | .lt => evaluationDate < threshold
        | .le => evaluationDate < nextThreshold
        | .gt => nextThreshold ≤ evaluationDate
        | .ge => threshold ≤ evaluationDate

/-- `_contains_reference` -/
def containsReference (actual : ConditionValue) (operator : Operator)
    (expected : ConditionValue) : Bool :=
  match actual, operator, expected with
  | .ids s, .eq, .int n => 0 ≤ n ∧ n.toNat ∈ s
  | _, _, _ => false

def compareWithSpec (spec : ConditionFieldSpec) (actual : ConditionValue) (operator : Operator)
    (expected : ConditionValue) : Except ServiceError Bool :=
  if spec.containsReference then .ok (containsReference actual operator expected)
  else
    match actual, expected with
    | .tenure startDate evaluationDate, .duration years =>
      compareTenure startDate evaluationDate operator years
    | actual, expected => .ok (compareValues actual operator expected)

/-- The spec of a definition that the code still supports. -/
def supportedSpec? (definition : ConditionFieldDefinition) : Option ConditionFieldSpec :=
  match findSpec? definition.key with
  | none => none
  | some spec =>
    if definition.active ∧ definition.resolverKey = some spec.resolverKey then some spec else none

def evaluateConditionWithEvidence (context : ConditionEvaluationContext)
    (definition : ConditionFieldDefinition) (operator : Operator) (value : String) :
    Except ServiceError ConditionEvaluation :=
  match supportedSpec? definition with
  | none => .ok ⟨false, .null, .str value⟩
  | some spec =>
    if operator ∉ spec.allowedOperators then .ok ⟨false, .null, .str value⟩
    else
      match spec.parser.parse value with
      | .error _ => .ok ⟨false, .null, .str value⟩
      | .ok (_, expected) =>
        match spec.resolver.resolve context with
        | none => .ok ⟨false, .null, explanationValue expected⟩
        | some actual =>
          match compareWithSpec spec actual operator expected with
          | .error e => .error e
          | .ok result => .ok ⟨result, explanationValue actual, explanationValue expected⟩

def evaluateCondition (context : ConditionEvaluationContext)
    (definition : ConditionFieldDefinition) (operator : Operator) (value : String) :
    Except ServiceError Bool :=
  match evaluateConditionWithEvidence context definition operator value with
  | .error e => .error e
  | .ok evaluation => .ok evaluation.result

end Warp
