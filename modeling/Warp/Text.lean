import Warp.Dates

/-!
# Text of the host language

The string functions the program calls, with Unicode spaces and decimal digits.
-/

namespace Warp.Text

/-! ## Characters -/

/-- `str.isspace` of one character -/
def isSpace (c : Char) : Bool :=
  let n := c.toNat
  (9 ≤ n && n ≤ 13) || (28 ≤ n && n ≤ 32) || n == 133 || n == 160 || n == 5760
    || (8192 ≤ n && n ≤ 8202) || n == 8232 || n == 8233 || n == 8239 || n == 8287 || n == 12288

/-- The zeros of the runs of ten decimal digits. -/
def decimalZeros : List ℕ :=
  [48, 1632, 1776, 1984, 2406, 2534, 2662, 2790, 2918, 3046, 3174, 3302, 3430, 3558, 3664, 3792,
    3872, 4160, 4240, 6112, 6160, 6470, 6608, 6784, 6800, 6992, 7088, 7232, 7248, 42528, 43216,
    43264, 43472, 43504, 43600, 44016, 65296, 66720, 68912, 69734, 69872, 69942, 70096, 70384,
    70736, 70864, 71248, 71360, 71472, 71904, 72016, 72784, 73040, 73120, 73552, 92768, 92864,
    93008, 120782, 120792, 120802, 120812, 120822, 123200, 123632, 124144, 125264, 130032]

def decimalValue? (c : Char) : Option ℕ :=
  (decimalZeros.find? (fun z => z ≤ c.toNat && c.toNat < z + 10)).map (fun z => c.toNat - z)

def asciiDigit? (c : Char) : Option ℕ :=
  if 48 ≤ c.toNat ∧ c.toNat ≤ 57 then some (c.toNat - 48) else none

/-! ## Strings -/

def dropEnds (p : Char → Bool) (s : List Char) : List Char :=
  ((s.dropWhile p).reverse.dropWhile p).reverse

/-- `str.strip` -/
def strip (s : String) : String := String.ofList (dropEnds isSpace s.toList)

/-- `str.upper` as far as the result is ASCII; other characters stay as they are. -/
def upper (s : String) : String :=
  String.join (s.toList.map fun c =>
    if 97 ≤ c.toNat ∧ c.toNat ≤ 122 then (Char.ofNat (c.toNat - 32)).toString
    else if c = 'ı' then "I"
    else if c = 'ſ' then "S"
    else if c = 'ß' then "SS"
    else if c = 'ﬀ' then "FF"
    else if c = 'ﬁ' then "FI"
    else if c = 'ﬂ' then "FL"
    else if c = 'ﬃ' then "FFI"
    else if c = 'ﬄ' then "FFL"
    else if c = 'ﬅ' ∨ c = 'ﬆ' then "ST"
    else c.toString)

/-- `str.lower` as far as the result is ASCII; other characters stay as they are. -/
def lower (s : String) : String :=
  String.ofList (s.toList.map fun c =>
    if 65 ≤ c.toNat ∧ c.toNat ≤ 90 then Char.ofNat (c.toNat + 32)
    else if c.toNat = 8490 then 'k'
    else c)

/-! ## Numbers -/

/-- Decimal digits with single underscores between them. -/
def digitsValue? : Bool → ℕ → List Char → Option ℕ
  | afterDigit, acc, [] => if afterDigit then some acc else none
  | afterDigit, acc, c :: rest =>
    if c = '_' then (if afterDigit then digitsValue? false acc rest else none)
    else
      match decimalValue? c with
      | some d => digitsValue? true (acc * 10 + d) rest
      | none => none

/-- `int(value)`. The information separators do not count as spaces here. -/
def parseInt? (s : String) : Option ℤ :=
  match dropEnds (fun c => isSpace c && !(28 ≤ c.toNat && c.toNat ≤ 31)) s.toList with
  | '-' :: rest => (digitsValue? false 0 rest).map fun n => -(n : ℤ)
  | '+' :: rest => (digitsValue? false 0 rest).map fun n => (n : ℤ)
  | rest => (digitsValue? false 0 rest).map fun n => (n : ℤ)

/-- The value of a text that the pattern `\d+` matches. -/
def decimalDigits? : List Char → Option ℕ
  | [] => none
  | cs => cs.foldl
      (fun acc c => acc.bind fun n => (decimalValue? c).map fun d => n * 10 + d) (some 0)

/-! ## ISO dates -/

/-- Takes `count` ASCII digits off the text. -/
def takeDigits? : ℕ → ℕ → List Char → Option (ℕ × List Char)
  | 0, acc, rest => some (acc, rest)
  | _ + 1, _, [] => none
  | count + 1, acc, c :: rest =>
    match asciiDigit? c with
    | some d => takeDigits? count (acc * 10 + d) rest
    | none => none

/-- The ordinal of the first of January, where day 1 is 0001-01-01. -/
def firstOrdinal (year : ℕ) : ℕ :=
  (year - 1) * 365 + (year - 1) / 4 - (year - 1) / 100 + (year - 1) / 400 + 1

/-- The date that lies a number of days after the first of a month. -/
def walkMonths (year : ℕ) : ℕ → ℕ → ℕ → Option Date
  | 0, _, _ => none
  | fuel + 1, month, offset =>
    if offset < daysInMonth year month then Date.ofYmd? year month (offset + 1)
    else if month < 12 then walkMonths year fuel (month + 1) (offset - daysInMonth year month)
    else Date.ofYmd? (year + 1) 1 (offset - 31 + 1)

/-- The date of a day of an ISO week. -/
def isoWeekDate? (year week day : ℕ) : Option Date :=
  let first := firstOrdinal year
  let long := first % 7 = 4 ∨ (first % 7 = 3 ∧ isLeapYear year)
  if ¬ (1 ≤ year ∧ 0 < week ∧ (week < 53 ∨ (week = 53 ∧ long)) ∧ 0 < day ∧ day < 8) then none
  else
    -- the Monday of the first week lies between three days before and three days after January 1
    let weekday := (first + 6) % 7
    let offset : ℤ := (week - 1) * 7 + (day - 1) - weekday + (if weekday > 3 then 7 else 0)
    if offset < 0 then Date.ofYmd? (year - 1) 12 (32 - offset.natAbs)
    else walkMonths year 12 1 offset.toNat

/-- `date.fromisoformat(value)`; the length selects the formats with week or calendar dates. -/
def parseIsoDate? (s : String) : Option Date :=
  let text := s.toList
  let size := s.utf8ByteSize
  if ¬ (size = 7 ∨ size = 8 ∨ size = 10) then none
  else
    (takeDigits? 4 0 text).bind fun (year, rest) =>
    let separated := rest.head? = some '-'
    let rest := if separated then rest.drop 1 else rest
    if rest.head? = some 'W' then
      (takeDigits? 2 0 (rest.drop 1)).bind fun (week, rest) =>
      if rest.isEmpty then isoWeekDate? year week 1
      else if separated ∧ rest.head? ≠ some '-' then none
      else
        (takeDigits? 1 0 (if separated then rest.drop 1 else rest)).bind fun (day, _) =>
        isoWeekDate? year week day
    else
      (takeDigits? 2 0 rest).bind fun (month, rest) =>
      if separated ∧ rest.head? ≠ some '-' then none
      else
        (takeDigits? 2 0 (if separated then rest.drop 1 else rest)).bind fun (day, _) =>
        Date.ofYmd? year month day

example : (parseIsoDate? "2020-W01-1").map Date.isoformat = some "2019-12-30" := by decide

example : parseInt? " 1_000 " = some 1000 := by decide

end Warp.Text
