import WaterPeg.Bytes
import WaterPeg.Order
import WaterPeg.Text
import WaterPeg.Units

/-!
Dates of the proleptic Gregorian calendar, their place in the count of days, and their text
`YYYY-MM-DD`. A year outside 0 to 9999 is written with a sign.
-/
namespace WaterPeg

/-- Every fourth year, but of the hundreds only every fourth. -/
def isLeapYear (year : Int) : Bool := year % 4 == 0 && (year % 100 != 0 || year % 400 == 0)

def daysBeforeMonth (leap : Bool) (month : Nat) : Nat :=
  let extra := if leap && 2 < month then 1 else 0
  extra + match month with
    | 0 | 1 => 0
    | 2 => 31
    | 3 => 59
    | 4 => 90
    | 5 => 120
    | 6 => 151
    | 7 => 181
    | 8 => 212
    | 9 => 243
    | 10 => 273
    | 11 => 304
    | 12 => 334
    | _ => 365

def daysInMonth (leap : Bool) (month : Nat) : Nat :=
  daysBeforeMonth leap (month + 1) - daysBeforeMonth leap month

/-- The first and the last year that has dates. -/
def firstYear : Int := -262143

def lastYear : Int := 262142

structure Date where
  year : Int
  month : Nat
  day : Nat
  year_mem : firstYear ≤ year ∧ year ≤ lastYear
  month_mem : 1 ≤ month ∧ month ≤ 12
  day_mem : 1 ≤ day ∧ day ≤ daysInMonth (isLeapYear year) month
deriving DecidableEq

namespace Date

theorem ext_parts {a b : Date} (hy : a.year = b.year) (hm : a.month = b.month)
    (hd : a.day = b.day) : a = b := by
  cases a; cases b; simp_all

/-- Dates are ordered by year, month and day. -/
instance : Ord Date :=
  ⟨compareLex (compareOn year) (compareLex (compareOn month) (compareOn day))⟩

instance : Std.TransOrd Date :=
  inferInstanceAs
    (Std.TransCmp (compareLex (compareOn year) (compareLex (compareOn month) (compareOn day))))

instance : Std.LawfulEqOrd Date where
  compare_self := Std.ReflCmp.compare_self
  eq_of_compare h := by
    obtain ⟨hy, h⟩ := Ordering.then_eq_eq.1 h
    obtain ⟨hm, hd⟩ := Ordering.then_eq_eq.1 h
    exact ext_parts (Std.LawfulEqCmp.eq_of_compare hy) (Std.LawfulEqCmp.eq_of_compare hm)
      (Std.LawfulEqCmp.eq_of_compare hd)

def ofParts? (year : Int) (month day : Nat) : Option Date :=
  if hm : 1 ≤ month ∧ month ≤ 12 then
    if hy : firstYear ≤ year ∧ year ≤ lastYear then
      if hd : 1 ≤ day ∧ day ≤ daysInMonth (isLeapYear year) month then
        some ⟨year, month, day, hy, hm, hd⟩
      else none
    else none
  else none

/-! ## The count of days -/

/-- Days from the first of January of the year 1 to the first of January of a year. -/
def daysBeforeYear (year : Int) : Int :=
  let y := year - 1
  365 * y + y / 4 - y / 100 + y / 400

/-- Days from the first of January of the year 1 to the first of January 1970. -/
def epochDay : Int := 719162

/-- Days since the first of January 1970. -/
def dayNumber (d : Date) : Int :=
  daysBeforeYear d.year + daysBeforeMonth (isLeapYear d.year) d.month + (d.day - 1) - epochDay

/-- The year of a day counted from the first of January of the year 1, and its place in that year.
Whole spans of 400 years are taken off, then of 100, of 4 and of one; the last century of a span
and the last year of four are a day longer. -/
def yearOfDay (day : Int) : Int × Nat :=
  let span := day / 146097
  let r := (day % 146097).toNat
  let century := min (r / 36524) 3
  let r := r - century * 36524
  let four := r / 1461
  let r := r % 1461
  let single := min (r / 365) 3
  (400 * span + 100 * century + 4 * four + single + 1, r - single * 365)

def monthOfDay (leap : Bool) (day : Nat) : Nat :=
  if day < daysBeforeMonth leap 2 then 1
  else if day < daysBeforeMonth leap 3 then 2
  else if day < daysBeforeMonth leap 4 then 3
  else if day < daysBeforeMonth leap 5 then 4
  else if day < daysBeforeMonth leap 6 then 5
  else if day < daysBeforeMonth leap 7 then 6
  else if day < daysBeforeMonth leap 8 then 7
  else if day < daysBeforeMonth leap 9 then 8
  else if day < daysBeforeMonth leap 10 then 9
  else if day < daysBeforeMonth leap 11 then 10
  else if day < daysBeforeMonth leap 12 then 11
  else 12

def ofDayNumber? (n : Int) : Option Date :=
  let (year, r) := yearOfDay (epochDay + n)
  let leap := isLeapYear year
  let month := monthOfDay leap r
  ofParts? year month (r - daysBeforeMonth leap month + 1)

/-- The UTC date of a time in seconds since 1970. -/
def ofTime? (time : UInt64) : Option Date := ofDayNumber? (time.toNat / secondsPerDay : Nat)

/-- The first and the last second of a day that is not before 1970. -/
def bounds? (d : Date) : Option (UInt64 × UInt64) :=
  match d.dayNumber with
  | .ofNat n =>
    let start := n * secondsPerDay
    some (UInt64.ofNat start, UInt64.ofNat (start + (secondsPerDay - 1)))
  | .negSucc _ => none

/-! ## Text -/

/-- The decimal digits of a number, with zeros in front up to this many. -/
def digits (width n : Nat) : List Char :=
  let ds := Nat.toDigits 10 n
  List.replicate (width - ds.length) '0' ++ ds

def yearText (year : Int) : List Char :=
  match year with
  | .ofNat n => if n ≤ 9999 then digits 4 n else '+' :: digits 4 n
  | .negSucc n => '-' :: digits 4 (n + 1)

def text (d : Date) : String :=
  String.ofList (yearText d.year ++ '-' :: digits 2 d.month ++ '-' :: digits 2 d.day)

/-- The value of one digit or more, at most `width` of them if a width is given, and the rest. -/
def number? (width : Option Nat) (cs : List Char) : Option (Nat × List Char) :=
  let run := cs.takeWhile Char.isDigit
  let ds := match width with
    | some w => run.take w
    | none => run
  if ds.isEmpty then none else some (Nat.ofDigitChars 10 ds 0, cs.drop ds.length)

/-- A year: four digits at most, or a sign and any number of digits. Blanks may stand in front. -/
def year? (cs : List Char) : Option (Int × List Char) :=
  match cs.dropWhile Text.isBlank with
  | '-' :: cs => (number? none cs).map fun (n, cs) => (-(n : Int), cs)
  | '+' :: cs => (number? none cs).map fun (n, cs) => ((n : Int), cs)
  | cs => (number? (some 4) cs).map fun (n, cs) => ((n : Int), cs)

/-- A hyphen and one or two digits, with blanks before each. -/
def field? (cs : List Char) : Option (Nat × List Char) :=
  match cs.dropWhile Text.isBlank with
  | '-' :: cs => number? (some 2) (cs.dropWhile Text.isBlank)
  | _ => none

/-- Read a date. Blanks may stand before each part and at the end. -/
def ofText? (s : String) : Option Date := do
  let (year, cs) ← year? s.toList
  let (month, cs) ← field? cs
  let (day, cs) ← field? cs
  if (cs.dropWhile Text.isBlank).isEmpty then ofParts? year month day else none

end Date

end WaterPeg
