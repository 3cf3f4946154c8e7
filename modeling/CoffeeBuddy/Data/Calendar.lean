import CoffeeBuddy.Data.Datetime

/-! Calendar dates of wall clock readings, and the two texts of a datetime the services
write: `isoformat` and the display of `strftime`. -/

namespace CoffeeBuddy

def hour : ℤ := 60 * minute

def day : ℤ := 24 * hour

/-- `_days_before_month` and `_days_in_month` of a common year. -/
def daysBeforeMonth (month : ℕ) : ℕ :=
  [0, 0, 31, 59, 90, 120, 151, 181, 212, 243, 273, 304, 334].getD month 0

def daysInMonth (month : ℕ) : ℕ := [0, 31, 28, 31, 30, 31, 30, 31, 31, 30, 31, 30, 31].getD month 0

structure Date where
  year : ℕ
  month : ℕ
  day : ℕ
deriving DecidableEq

/-- `_ord2ymd`: ordinal 1 is the first of January of year 1. -/
def Date.fromordinal (ordinal : ℕ) : Date :=
  let n := ordinal - 1
  let n400 := n / 146097
  let n := n % 146097
  let n100 := n / 36524
  let n := n % 36524
  let n4 := n / 1461
  let n := n % 1461
  let n1 := n / 365
  let n := n % 365
  let year := n400 * 400 + 1 + n100 * 100 + n4 * 4 + n1
  if n1 = 4 ∨ n100 = 4 then ⟨year - 1, 12, 31⟩
  else
    let leapyear := n1 = 3 ∧ (n4 ≠ 24 ∨ n100 = 3)
    let month := (n + 50) / 32
    let preceding := daysBeforeMonth month + if month > 2 ∧ leapyear then 1 else 0
    if preceding > n then
      let days := daysInMonth (month - 1) + if month - 1 = 2 ∧ leapyear then 1 else 0
      ⟨year, month - 1, n - (preceding - days) + 1⟩
    else ⟨year, month, n - preceding + 1⟩

/-- `f"{n:0{width}d}"` -/
def padded (width n : ℕ) : String :=
  String.ofList (List.leftpad width '0' (Nat.toDigits 10 n))

def hourMinute (t : ℕ) : String :=
  padded 2 (t / hour.toNat) ++ ":" ++ padded 2 (t / minute.toNat % 60)

def seconds (t : ℕ) : String :=
  let micro := t % second.toNat
  padded 2 (t / second.toNat % 60) ++ if micro = 0 then "" else "." ++ padded 6 micro

namespace Datetime

def date (t : Datetime) : Date := .fromordinal (t.wall / day + 719163).toNat

def timeOfDay (t : Datetime) : ℕ := (t.wall % day).toNat

def dateText (t : Datetime) : String :=
  padded 4 t.date.year ++ "-" ++ padded 2 t.date.month ++ "-" ++ padded 2 t.date.day

/-- `_format_offset` -/
def offsetText : Option ℤ → String
  | none => ""
  | some offset =>
    let t := offset.natAbs
    (if offset < 0 then "-" else "+") ++ hourMinute t ++
      if t % minute.toNat = 0 then "" else ":" ++ seconds t

def isoformat (t : Datetime) : String :=
  t.dateText ++ "T" ++ hourMinute t.timeOfDay ++ ":" ++ seconds t.timeOfDay ++
    offsetText t.utcoffset

/-- `t.strftime("%Y-%m-%d %H:%M UTC")` with `%Y` in four digits, as documented; glibc writes a
year below 1000 without the leading zeros. -/
def displayUtc (t : Datetime) : String := t.dateText ++ " " ++ hourMinute t.timeOfDay ++ " UTC"

end Datetime

example : (Datetime.mk 1893488400000000 (some 0) (by decide)).isoformat =
    "2030-01-01T09:00:00+00:00" := by decide +kernel

example : (Datetime.mk wallMin (some (14 * hour)) (by decide)).isoformat =
    "0001-01-01T00:00:00+14:00" := by decide +kernel

end CoffeeBuddy
