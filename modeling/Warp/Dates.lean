import Mathlib.Order.Lattice
import Mathlib.Order.Basic
import Mathlib.Data.Nat.Basic

/-!
# Dates and instants

Calendar dates of the proleptic Gregorian calendar between the years 1 and 9999, and UTC instants
with microseconds. Every timestamp of the program passes `ensure_utc`, so an instant is kept in UTC.
-/

namespace Warp

def isLeapYear (year : ℕ) : Bool := year % 4 == 0 && (year % 100 != 0 || year % 400 == 0)

def daysInMonth (year month : ℕ) : ℕ :=
  if month = 2 then (if isLeapYear year then 29 else 28)
  else if month = 4 ∨ month = 6 ∨ month = 9 ∨ month = 11 then 30
  else 31

theorem daysInMonth_le (year month : ℕ) : daysInMonth year month ≤ 31 := by
  unfold daysInMonth
  split
  · split <;> omega
  · split <;> omega

theorem one_le_daysInMonth (year month : ℕ) : 1 ≤ daysInMonth year month := by
  unfold daysInMonth
  split
  · split <;> omega
  · split <;> omega

def isValidDate (year month day : ℕ) : Bool :=
  1 ≤ year && year ≤ 9999 && 1 ≤ month && month ≤ 12 && 1 ≤ day && day ≤ daysInMonth year month

theorem isValidDate_iff {year month day : ℕ} : isValidDate year month day = true ↔
    1 ≤ year ∧ year ≤ 9999 ∧ 1 ≤ month ∧ month ≤ 12 ∧ 1 ≤ day ∧ day ≤ daysInMonth year month := by
  simp [isValidDate, and_assoc]

structure Date where
  year : ℕ
  month : ℕ
  day : ℕ
  valid : isValidDate year month day = true
deriving DecidableEq, Repr

namespace Date

def ofYmd? (year month day : ℕ) : Option Date :=
  if h : isValidDate year month day = true then some ⟨year, month, day, h⟩ else none

theorem ofYmd?_eq_some {year month day : ℕ} {d : Date} : ofYmd? year month day = some d ↔
    d.year = year ∧ d.month = month ∧ d.day = day := by
  unfold ofYmd?
  split
  · next h =>
    rw [Option.some.injEq]
    constructor
    · rintro rfl
      exact ⟨rfl, rfl, rfl⟩
    · rintro ⟨rfl, rfl, rfl⟩
      rfl
  · next h =>
    refine iff_of_false (by simp) ?_
    rintro ⟨rfl, rfl, rfl⟩
    exact h d.valid

/-- The bounds of a date as linear facts. -/
theorem bounds (d : Date) : 1 ≤ d.year ∧ d.year ≤ 9999 ∧ 1 ≤ d.month ∧ d.month ≤ 12 ∧
    1 ≤ d.day ∧ d.day ≤ daysInMonth d.year d.month ∧ d.day ≤ 31 := by
  obtain ⟨h1, h2, h3, h4, h5, h6⟩ := isValidDate_iff.mp d.valid
  exact ⟨h1, h2, h3, h4, h5, h6, h6.trans (daysInMonth_le _ _)⟩

/-! ## Order -/

/-- A number that grows with the date. -/
def index (d : Date) : ℕ := (d.year * 12 + (d.month - 1)) * 31 + (d.day - 1)

theorem index_injective : Function.Injective index := by
  intro a b h
  obtain ⟨_, _, ha3, ha4, ha5, _, ha7⟩ := a.bounds
  obtain ⟨_, _, hb3, hb4, hb5, _, hb7⟩ := b.bounds
  unfold index at h
  have hy : a.year = b.year := by omega
  have hm : a.month = b.month := by omega
  have hd : a.day = b.day := by omega
  cases a
  cases b
  cases hy
  cases hm
  cases hd
  rfl

instance : LinearOrder Date := LinearOrder.lift' index index_injective

theorem le_iff {a b : Date} : a ≤ b ↔ a.index ≤ b.index := Iff.rfl

theorem lt_iff {a b : Date} : a < b ↔ a.index < b.index := by
  rw [lt_iff_not_ge, le_iff, not_le]

/-- `date.max` -/
def max : Date := ⟨9999, 12, 31, by decide⟩

/-- A date written out; a day that does not exist is the last day of all. -/
def on (year month day : ℕ) : Date := (ofYmd? year month day).getD max

theorem le_max (d : Date) : d ≤ max := by
  obtain ⟨h1, h2, h3, h4, h5, h6, h7⟩ := d.bounds
  rw [le_iff]
  simp only [index, max]
  omega

/-! ## Neighbouring days -/

/-- `d + timedelta(days=1)` -/
def succ? (d : Date) : Option Date :=
  if d.day < daysInMonth d.year d.month then ofYmd? d.year d.month (d.day + 1)
  else if d.month < 12 then ofYmd? d.year (d.month + 1) 1
  else ofYmd? (d.year + 1) 1 1

/-- `d - timedelta(days=1)` -/
def pred? (d : Date) : Option Date :=
  if 1 < d.day then ofYmd? d.year d.month (d.day - 1)
  else if 1 < d.month then ofYmd? d.year (d.month - 1) (daysInMonth d.year (d.month - 1))
  else ofYmd? (d.year - 1) 12 31

theorem lt_succ {d e x : Date} (h : d.succ? = some e) : x < e ↔ x ≤ d := by
  obtain ⟨hd1, hd2, hd3, hd4, hd5, hd6, hd7⟩ := d.bounds
  obtain ⟨hx1, hx2, hx3, hx4, hx5, hx6, hx7⟩ := x.bounds
  rw [lt_iff, le_iff]
  unfold succ? at h
  split at h
  · obtain ⟨h1, h2, h3⟩ := ofYmd?_eq_some.mp h
    simp only [index, h1, h2, h3]
    omega
  · next hlast =>
    have hday : d.day = daysInMonth d.year d.month := by omega
    have hxd : x.year = d.year → x.month = d.month → x.day ≤ d.day := by
      intro hy hm
      rw [hday, ← hy, ← hm]
      exact hx6
    split at h
    · obtain ⟨h1, h2, h3⟩ := ofYmd?_eq_some.mp h
      simp only [index, h1, h2, h3]
      omega
    · have hm : d.month = 12 := by omega
      obtain ⟨h1, h2, h3⟩ := ofYmd?_eq_some.mp h
      simp only [index, h1, h2, h3, hm]
      rw [hm] at hxd
      omega

theorem le_pred {d e x : Date} (h : d.pred? = some e) : x ≤ e ↔ x < d := by
  obtain ⟨hd1, hd2, hd3, hd4, hd5, hd6, hd7⟩ := d.bounds
  obtain ⟨hx1, hx2, hx3, hx4, hx5, hx6, hx7⟩ := x.bounds
  rw [lt_iff, le_iff]
  unfold pred? at h
  split at h
  · obtain ⟨h1, h2, h3⟩ := ofYmd?_eq_some.mp h
    simp only [index, h1, h2, h3]
    omega
  · next hfirst =>
    have hday : d.day = 1 := by omega
    split at h
    · obtain ⟨h1, h2, h3⟩ := ofYmd?_eq_some.mp h
      have hone := one_le_daysInMonth d.year (d.month - 1)
      have hle := daysInMonth_le d.year (d.month - 1)
      have hxd : x.year = d.year → x.month = d.month - 1 →
          x.day ≤ daysInMonth d.year (d.month - 1) := by
        intro hy hm
        rw [← hy, ← hm]
        exact hx6
      simp only [index, h1, h2, h3, hday]
      generalize daysInMonth d.year (d.month - 1) = last at *
      omega
    · have hm : d.month = 1 := by omega
      obtain ⟨h1, h2, h3⟩ := ofYmd?_eq_some.mp h
      simp only [index, h1, h2, h3, hday, hm]
      omega

/-- Only the last date has no successor. -/
theorem succ?_isSome {d : Date} (h : d < max) : ∃ e, d.succ? = some e := by
  obtain ⟨hd1, hd2, hd3, hd4, hd5, hd6, hd7⟩ := d.bounds
  unfold succ?
  split
  · next hlt =>
    refine ⟨⟨d.year, d.month, d.day + 1, ?_⟩, ofYmd?_eq_some.mpr ⟨rfl, rfl, rfl⟩⟩
    rw [isValidDate_iff]
    omega
  · next hlast =>
    split
    · refine ⟨⟨d.year, d.month + 1, 1, ?_⟩, ofYmd?_eq_some.mpr ⟨rfl, rfl, rfl⟩⟩
      have hone := one_le_daysInMonth d.year (d.month + 1)
      rw [isValidDate_iff]
      omega
    · have hday : daysInMonth d.year d.month = 31 := by
        have hm : d.month = 12 := by omega
        rw [hm]
        rfl
      have hy : d.year + 1 ≤ 9999 := by
        rw [lt_iff] at h
        simp only [index, max] at h
        omega
      refine ⟨⟨d.year + 1, 1, 1, ?_⟩, ofYmd?_eq_some.mpr ⟨rfl, rfl, rfl⟩⟩
      have hone := one_le_daysInMonth (d.year + 1) 1
      rw [isValidDate_iff]
      omega

/-- A date after another one has a predecessor. -/
theorem pred?_isSome {c d : Date} (h : c < d) : ∃ e, d.pred? = some e := by
  obtain ⟨hd1, hd2, hd3, hd4, hd5, hd6, hd7⟩ := d.bounds
  obtain ⟨hc1, hc2, hc3, hc4, hc5, hc6, hc7⟩ := c.bounds
  unfold pred?
  split
  · refine ⟨⟨d.year, d.month, d.day - 1, ?_⟩, ofYmd?_eq_some.mpr ⟨rfl, rfl, rfl⟩⟩
    rw [isValidDate_iff]
    omega
  · split
    · refine ⟨⟨d.year, d.month - 1, daysInMonth d.year (d.month - 1), ?_⟩,
        ofYmd?_eq_some.mpr ⟨rfl, rfl, rfl⟩⟩
      have hone := one_le_daysInMonth d.year (d.month - 1)
      rw [isValidDate_iff]
      omega
    · have hy : 1 < d.year := by
        rw [lt_iff] at h
        simp only [index] at h
        omega
      refine ⟨⟨d.year - 1, 12, 31, ?_⟩, ofYmd?_eq_some.mpr ⟨rfl, rfl, rfl⟩⟩
      have hlast : daysInMonth (d.year - 1) 12 = 31 := rfl
      rw [isValidDate_iff]
      omega

/-! ## Text -/

def pad (width n : ℕ) : String :=
  let digits := toString n
  String.ofList (List.replicate (width - digits.length) '0') ++ digits

/-- `date.isoformat` -/
def isoformat (d : Date) : String := pad 4 d.year ++ "-" ++ pad 2 d.month ++ "-" ++ pad 2 d.day

theorem pad_toList (width n : ℕ) : (pad width n).toList =
    List.replicate (width - (Nat.toDigits 10 n).length) '0' ++ Nat.toDigits 10 n := by
  simp [pad, String.toList_append, ← String.length_toList]

theorem pad_injective {width n m : ℕ} (h : (pad width n).toList = (pad width m).toList) :
    n = m := by
  have hvalue : ∀ k, Nat.ofDigitChars 10 (pad width k).toList 0 = k := by
    intro k
    rw [pad_toList, Nat.ofDigitChars_append, Nat.ofDigitChars_replicate_zero, Nat.mul_zero,
      Nat.ofDigitChars_ten_toDigits]
  rw [← hvalue n, h, hvalue]

theorem pad_length {width n : ℕ} (h : (Nat.toDigits 10 n).length ≤ width) :
    (pad width n).toList.length = width := by
  rw [pad_toList, List.length_append, List.length_replicate]
  exact Nat.sub_add_cancel h

/-- Year, month and day stand at fixed places of the text. -/
theorem isoformat_injective {d e : Date} (h : d.isoformat = e.isoformat) : d = e := by
  have hyear : ∀ x : Date, (pad 4 x.year).toList.length = 4 := by
    intro x
    have hx := x.bounds
    exact pad_length ((Nat.length_toDigits_le_iff (by decide) (by decide)).mpr (by omega))
  have hmonth : ∀ x : Date, (pad 2 x.month).toList.length = 2 := by
    intro x
    have hx := x.bounds
    exact pad_length ((Nat.length_toDigits_le_iff (by decide) (by decide)).mpr (by omega))
  have htext := congrArg String.toList h
  simp only [isoformat, String.toList_append, List.append_assoc] at htext
  obtain ⟨hy, htext⟩ := List.append_inj htext ((hyear d).trans (hyear e).symm)
  obtain ⟨hm, htext⟩ := List.append_inj (List.append_cancel_left htext)
    ((hmonth d).trans (hmonth e).symm)
  have hd := pad_injective (List.append_cancel_left htext)
  have hm := pad_injective hm
  have hy := pad_injective hy
  cases d
  cases e
  cases hy
  cases hm
  cases hd
  rfl

end Date

/-! ## Instants -/

/-- A UTC timestamp: the date and the microseconds since midnight. -/
structure DateTime where
  date : Date
  micros : Fin 86400000000
deriving DecidableEq, Repr

namespace DateTime

def index (t : DateTime) : ℕ := t.date.index * 86400000000 + t.micros.val

theorem index_injective : Function.Injective index := by
  intro a b h
  have ha := a.micros.isLt
  have hb := b.micros.isLt
  unfold index at h
  have hd : a.date = b.date := Date.index_injective (by omega)
  have hm : a.micros = b.micros := Fin.ext (by rw [hd] at h; omega)
  cases a
  cases b
  cases hd
  cases hm
  rfl

instance : LinearOrder DateTime := LinearOrder.lift' index index_injective

theorem le_iff {a b : DateTime} : a ≤ b ↔ a.index ≤ b.index := Iff.rfl

theorem date_mono {a b : DateTime} (h : a ≤ b) : a.date ≤ b.date := by
  have ha := a.micros.isLt
  have hb := b.micros.isLt
  rw [le_iff] at h
  rw [Date.le_iff]
  unfold index at h
  omega

end DateTime

/-- Midnight UTC of a calendar date. -/
def startOfDay (day : Date) : DateTime := ⟨day, 0⟩

@[simp] theorem startOfDay_date (day : Date) : (startOfDay day).date = day := rfl

theorem startOfDay_le {d : Date} {t : DateTime} : startOfDay d ≤ t ↔ d ≤ t.date := by
  have ht := t.micros.isLt
  rw [DateTime.le_iff, Date.le_iff]
  simp only [DateTime.index, startOfDay, Fin.val_zero]
  omega

theorem lt_startOfDay {d : Date} {t : DateTime} : t < startOfDay d ↔ t.date < d := by
  rw [← not_le, startOfDay_le, not_le]

end Warp
