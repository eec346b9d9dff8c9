import WaterPeg.Proofs.Calendar

/-!
Days partition time. The count of days goes through the dates of the calendar in their order,
leaving none out, so that each date that time reaches is a stretch of seconds: the stretches are of
the same length, and follow on each other without a gap.
-/
namespace WaterPeg.Date

/-! ## Years -/

theorem isLeapYear_iff (year : Int) :
    isLeapYear year = true ↔ year % 4 = 0 ∧ (year % 100 ≠ 0 ∨ year % 400 = 0) := by
  simp [isLeapYear]

/-- The days of a year are those before its thirteenth month. -/
theorem daysBeforeYear_succ (year : Int) :
    daysBeforeYear (year + 1) = daysBeforeYear year + daysBeforeMonth (isLeapYear year) 13 := by
  have hleap := isLeapYear_iff year
  unfold daysBeforeYear
  dsimp only
  cases h : isLeapYear year with
  | true =>
    have hdays : daysBeforeMonth true 13 = 366 := rfl
    have hyear := hleap.1 h
    omega
  | false =>
    have hdays : daysBeforeMonth false 13 = 365 := rfl
    have hyear := mt hleap.2 (ne_true_of_eq_false h)
    omega

theorem daysBeforeYear_le {year year' : Int} (h : year ≤ year') :
    daysBeforeYear year ≤ daysBeforeYear year' := by
  unfold daysBeforeYear
  dsimp only
  omega

/-- In a span of 400 years, every fourth year is leap but the last of the first three centuries. -/
theorem isLeapYear_of_spans (span : Int) (century four single : Nat) (hcentury : century ≤ 3)
    (hfour : four ≤ 24) (hsingle : single ≤ 3) :
    isLeapYear (400 * span + 100 * century + 4 * four + single + 1) = true ↔
      single = 3 ∧ (four < 24 ∨ century = 3) := by
  rw [isLeapYear_iff]
  omega

/-- What is left of a day when its years are taken off does not make up another year. -/
theorem yearOfDay_lt (day : Int) :
    (yearOfDay day).2 < daysBeforeMonth (isLeapYear (yearOfDay day).1) 13 := by
  have hrest : (day % 146097).toNat < 146097 := by omega
  unfold yearOfDay
  dsimp only
  generalize (day % 146097).toNat = r at hrest
  generalize hcentury : min (r / 36524) 3 = century
  generalize hr' : r - century * 36524 = r'
  generalize hsingle : min (r' % 1461 / 365) 3 = single
  have hleap := isLeapYear_of_spans (day / 146097) century (r' / 1461) single (by omega) (by omega)
    (by omega)
  generalize isLeapYear _ = leap at hleap
  cases leap with
  | true =>
    have hdays : daysBeforeMonth true 13 = 366 := rfl
    omega
  | false =>
    have hdays : daysBeforeMonth false 13 = 365 := rfl
    simp only [Bool.false_eq_true, false_iff] at hleap
    omega

/-- The year of a day, and its place in it, are the only ones that count up to it. -/
theorem yearOfDay_eq {year : Int} {r : Nat} (hr : r < daysBeforeMonth (isLeapYear year) 13) :
    yearOfDay (daysBeforeYear year + r) = (year, r) := by
  have hsum := daysBeforeYear_yearOfDay (daysBeforeYear year + r)
  have hrest := yearOfDay_lt (daysBeforeYear year + r)
  generalize yearOfDay (daysBeforeYear year + r) = found at hsum hrest
  obtain ⟨year', r'⟩ := found
  dsimp only at hsum hrest
  have hsucc := daysBeforeYear_succ year
  have hsucc' := daysBeforeYear_succ year'
  have hyear : year' = year := by
    rcases Int.lt_trichotomy year' year with hlt | heq | hgt
    · have hle := daysBeforeYear_le (Int.add_one_le_of_lt hlt)
      omega
    · exact heq
    · have hle := daysBeforeYear_le (Int.add_one_le_of_lt hgt)
      omega
  subst hyear
  have : r' = r := by omega
  rw [this]

/-! ## Months -/

theorem daysBeforeMonth_mono (leap : Bool) {month month' : Nat} (h : month ≤ month')
    (hmonth' : month' ≤ 13) : daysBeforeMonth leap month ≤ daysBeforeMonth leap month' := by
  have hall : ∀ leap : Bool, ∀ month' < 14, ∀ month < month' + 1,
      daysBeforeMonth leap month ≤ daysBeforeMonth leap month' := by decide
  exact hall leap month' (Nat.lt_succ_of_le hmonth') month (Nat.lt_succ_of_le h)

theorem monthOfDay_mem (leap : Bool) (r : Nat) :
    1 ≤ monthOfDay leap r ∧ monthOfDay leap r ≤ 12 := by
  unfold monthOfDay
  iterate 11
    refine iteInduction (motive := fun month => 1 ≤ month ∧ month ≤ 12) (fun _ => by decide)
      fun _ => ?_
  decide

theorem lt_daysBeforeMonth_monthOfDay {leap : Bool} {r : Nat} (h : r < daysBeforeMonth leap 13) :
    r < daysBeforeMonth leap (monthOfDay leap r + 1) := by
  unfold monthOfDay
  iterate 11
    refine iteInduction (motive := fun month => r < daysBeforeMonth leap (month + 1)) id fun _ => ?_
  exact h

/-! ## Dates -/

def dayOfYear (d : Date) : Nat := daysBeforeMonth (isLeapYear d.year) d.month + (d.day - 1)

theorem dayNumber_eq (d : Date) : d.dayNumber = daysBeforeYear d.year + d.dayOfYear - epochDay := by
  have := d.day_mem
  unfold dayNumber dayOfYear
  omega

/-- A date is before the first of the next month. -/
theorem dayOfYear_lt_month (d : Date) :
    d.dayOfYear < daysBeforeMonth (isLeapYear d.year) (d.month + 1) := by
  have hday := d.day_mem
  unfold daysInMonth at hday
  unfold dayOfYear
  omega

theorem dayOfYear_lt (d : Date) : d.dayOfYear < daysBeforeMonth (isLeapYear d.year) 13 := by
  have hmonth := d.month_mem
  exact Nat.lt_of_lt_of_le d.dayOfYear_lt_month
    (daysBeforeMonth_mono _ (by omega) (Nat.le_refl 13))

/-- The order of dates is that of years, then of months, then of days. -/
theorem compare_eq_lt {a b : Date} : compare a b = .lt ↔
    a.year < b.year ∨
      a.year = b.year ∧ (a.month < b.month ∨ a.month = b.month ∧ a.day < b.day) := by
  change (compare a.year b.year).then ((compare a.month b.month).then (compare a.day b.day)) = .lt
    ↔ _
  simp only [Ordering.then_eq_lt, Std.compare_eq_lt, Std.compare_eq_iff_eq]

theorem dayNumber_lt_of_compare {a b : Date} (h : compare a b = .lt) :
    a.dayNumber < b.dayNumber := by
  have hday := a.dayOfYear_lt
  have hmonth := a.dayOfYear_lt_month
  have hmonths := b.month_mem
  have hdays := a.day_mem
  rw [dayNumber_eq, dayNumber_eq]
  rcases compare_eq_lt.1 h with hyear | ⟨hyear, hmonth' | ⟨hmonth', hday'⟩⟩
  · have hsucc := daysBeforeYear_succ a.year
    have hle := daysBeforeYear_le (Int.add_one_le_of_lt hyear)
    omega
  · rw [hyear] at hmonth ⊢
    have hlast : b.month ≤ 13 := by omega
    have hle := daysBeforeMonth_mono (isLeapYear b.year) hmonth' hlast
    have hday : a.dayOfYear < b.dayOfYear := Nat.lt_of_lt_of_le hmonth
      (Nat.le_trans hle (Nat.le_add_right _ _))
    omega
  · have hday : a.dayOfYear < b.dayOfYear := by
      unfold dayOfYear
      rw [hyear, hmonth']
      omega
    rw [hyear]
    omega

/-- The count of days keeps the order of the calendar. -/
theorem compare_dayNumber (a b : Date) : compare a.dayNumber b.dayNumber = compare a b := by
  cases h : compare a b with
  | lt => exact Std.compare_eq_lt.2 (dayNumber_lt_of_compare h)
  | eq => rw [Std.LawfulEqCmp.eq_of_compare h, Std.compare_self]
  | gt => exact Std.compare_eq_gt.2 (dayNumber_lt_of_compare (Std.OrientedCmp.lt_of_gt h))

theorem dayNumber_injective {a b : Date} (h : a.dayNumber = b.dayNumber) : a = b := by
  have hcompare := compare_dayNumber a b
  rw [h, Std.compare_self] at hcompare
  exact Std.LawfulEqCmp.eq_of_compare hcompare.symm

/-- Every year, and day of it, that the calendar reaches has a date. -/
theorem exists_ofDayNumber? {n : Int} (hfirst : firstYear ≤ (yearOfDay (epochDay + n)).1)
    (hlast : (yearOfDay (epochDay + n)).1 ≤ lastYear) : ∃ d, ofDayNumber? n = some d := by
  have hlt := yearOfDay_lt (epochDay + n)
  unfold ofDayNumber?
  dsimp only
  generalize (yearOfDay (epochDay + n)).1 = year at *
  generalize (yearOfDay (epochDay + n)).2 = r at *
  have hle := daysBeforeMonth_monthOfDay_le (isLeapYear year) r
  have hlt' := lt_daysBeforeMonth_monthOfDay hlt
  unfold ofParts?
  rw [dif_pos (monthOfDay_mem _ r), dif_pos ⟨hfirst, hlast⟩, dif_pos]
  · exact ⟨_, rfl⟩
  · unfold daysInMonth
    omega

/-- A date is found again by its place in the count of days. -/
theorem ofDayNumber?_dayNumber (d : Date) : ofDayNumber? d.dayNumber = some d := by
  have hyear : (yearOfDay (epochDay + d.dayNumber)).1 = d.year := by
    have hday : epochDay + d.dayNumber = daysBeforeYear d.year + d.dayOfYear := by
      rw [dayNumber_eq]
      omega
    rw [hday, yearOfDay_eq d.dayOfYear_lt]
  obtain ⟨d', hd'⟩ := exists_ofDayNumber? (n := d.dayNumber) (hyear ▸ d.year_mem.1)
    (hyear ▸ d.year_mem.2)
  rw [hd', dayNumber_injective (dayNumber_of_ofDayNumber? hd')]

theorem ofDayNumber?_eq_some_iff {n : Int} {d : Date} :
    ofDayNumber? n = some d ↔ d.dayNumber = n :=
  ⟨dayNumber_of_ofDayNumber?, fun h => h ▸ d.ofDayNumber?_dayNumber⟩

/-! ## Time -/

/-- One more than the last day, counted from 1970. -/
def dayLimit : Nat := (daysBeforeYear (lastYear + 1) - epochDay).toNat

theorem dayNumber_lt_dayLimit (d : Date) : d.dayNumber < dayLimit := by
  have hlimit : daysBeforeYear (lastYear + 1) - epochDay = dayLimit := by decide
  have hday := d.dayOfYear_lt
  have hsucc := daysBeforeYear_succ d.year
  have hle := daysBeforeYear_le (Int.add_le_add_right d.year_mem.2 1)
  rw [dayNumber_eq]
  omega

/-- From 1970 on, the calendar has all days up to its last. -/
theorem exists_ofDayNumber?_of_lt {n : Nat} (h : n < dayLimit) : ∃ d, ofDayNumber? n = some d := by
  have hlimit : daysBeforeYear (lastYear + 1) - epochDay = dayLimit := by decide
  have hfirst : daysBeforeYear firstYear < epochDay := by decide
  have hsum := daysBeforeYear_yearOfDay (epochDay + n)
  have hlt := yearOfDay_lt (epochDay + n)
  have hsucc := daysBeforeYear_succ (yearOfDay (epochDay + n)).1
  refine exists_ofDayNumber? ?_ ?_
  · refine Int.not_lt.1 fun hbefore => ?_
    have hle := daysBeforeYear_le (Int.add_one_le_of_lt hbefore)
    omega
  · refine Int.not_lt.1 fun hafter => ?_
    have hle := daysBeforeYear_le (Int.add_one_le_of_lt hafter)
    omega

theorem ofTime?_eq_some_iff {time : UInt64} {d : Date} :
    ofTime? time = some d ↔ d.dayNumber = (time.toNat / secondsPerDay : Nat) :=
  ofDayNumber?_eq_some_iff

/-- Time has dates up to the end of the last day. -/
theorem exists_ofTime?_iff {time : UInt64} :
    (∃ d, ofTime? time = some d) ↔ time.toNat / secondsPerDay < dayLimit := by
  constructor
  · rintro ⟨d, hd⟩
    have hlt := d.dayNumber_lt_dayLimit
    rw [ofTime?_eq_some_iff.1 hd] at hlt
    exact Int.ofNat_lt.1 hlt
  · exact exists_ofDayNumber?_of_lt

/-- The bounds of a day are the first and the last second of that many days after 1970. -/
theorem bounds?_eq_some_iff {d : Date} {start stop : UInt64} : d.bounds? = some (start, stop) ↔
    ∃ n : Nat, d.dayNumber = n ∧ start.toNat = n * secondsPerDay ∧
      stop.toNat = n * secondsPerDay + (secondsPerDay - 1) := by
  have hwords (n : Nat) (hn : d.dayNumber = n) :
      n * secondsPerDay + (secondsPerDay - 1) < UInt64.size := by
    have hlimit : dayLimit * secondsPerDay < UInt64.size := by decide
    have hlt := d.dayNumber_lt_dayLimit
    have hnext := Nat.mul_le_mul_right secondsPerDay (show n + 1 ≤ dayLimit by omega)
    have hpos : 0 < secondsPerDay := by decide
    rw [Nat.succ_mul] at hnext
    omega
  have hbounds (n : Nat) (hn : d.dayNumber = n) : d.bounds? =
      some (UInt64.ofNat (n * secondsPerDay),
        UInt64.ofNat (n * secondsPerDay + (secondsPerDay - 1))) := by
    unfold bounds?
    rw [hn]
  constructor
  · intro h
    obtain ⟨n, hn⟩ : ∃ n : Nat, d.dayNumber = n := by
      unfold bounds? at h
      split at h
      · next n hn => exact ⟨n, hn⟩
      · exact nomatch h
    have hwords := hwords n hn
    obtain ⟨rfl, rfl⟩ := Prod.mk.inj (Option.some.inj ((hbounds n hn).symm.trans h))
    exact ⟨n, hn, UInt64.toNat_ofNat_of_lt' (by omega), UInt64.toNat_ofNat_of_lt' hwords⟩
  · rintro ⟨n, hn, hstart, hstop⟩
    rw [hbounds n hn, ← hstop, ← hstart, UInt64.ofNat_toNat, UInt64.ofNat_toNat]

theorem exists_bounds_of_year {d : Date} (h : 1970 ≤ d.year) :
    ∃ bounds, d.bounds? = some bounds := by
  have hepoch : daysBeforeYear 1970 = epochDay := by decide
  have hle := daysBeforeYear_le h
  obtain ⟨n, hn⟩ := Int.eq_ofNat_of_zero_le (show 0 ≤ d.dayNumber by rw [dayNumber_eq]; omega)
  unfold bounds?
  rw [hn]
  exact ⟨_, rfl⟩

/-- Of all times, those between the bounds of a day fall on it. -/
theorem ofTime?_eq_some_iff_of_bounds {d : Date} {start stop : UInt64}
    (h : d.bounds? = some (start, stop)) (time : UInt64) :
    ofTime? time = some d ↔ start ≤ time ∧ time ≤ stop := by
  obtain ⟨n, hn, hstart, hstop⟩ := bounds?_eq_some_iff.1 h
  rw [ofTime?_eq_some_iff, hn, UInt64.le_iff_toNat_le, UInt64.le_iff_toNat_le, hstart, hstop]
  unfold secondsPerDay
  omega

/-- A time lies between the first and the last second of its date. -/
theorem bounds_of_ofTime? {time : UInt64} {d : Date} (h : ofTime? time = some d) :
    ∃ start stop, d.bounds? = some (start, stop) ∧ start ≤ time ∧ time ≤ stop := by
  obtain ⟨⟨start, stop⟩, hbounds⟩ := exists_bounds_of_ofTime? h
  exact ⟨start, stop, hbounds, (ofTime?_eq_some_iff_of_bounds hbounds time).1 h⟩

/-- Days partition time. A date that some time falls on has a first and a last second, a whole
number of days after 1970 and a day's length apart, and of all times just those between fall on it.
Dates follow each other as times do, and are the same exactly where the times are as many whole days
after 1970. Before a time with a date, every time has one. -/
theorem partition_of_ofTime? {time : UInt64} {d : Date} (h : ofTime? time = some d) :
    (∃ start stop, d.bounds? = some (start, stop) ∧ start ≤ time ∧ time ≤ stop ∧
      start.toNat % secondsPerDay = 0 ∧ stop.toNat = start.toNat + (secondsPerDay - 1) ∧
      ∀ time', ofTime? time' = some d ↔ start ≤ time' ∧ time' ≤ stop) ∧
    (∀ time' d', ofTime? time' = some d' →
      (time ≤ time' → (compare d d').isLE) ∧
      (d = d' ↔ time.toNat / secondsPerDay = time'.toNat / secondsPerDay)) ∧
    ∀ time' ≤ time, ∃ d', ofTime? time' = some d' := by
  have hday := ofTime?_eq_some_iff.1 h
  have hdays {time time' : UInt64} (hle : time ≤ time') :
      time.toNat / secondsPerDay ≤ time'.toNat / secondsPerDay :=
    Nat.div_le_div_right (UInt64.le_iff_toNat_le.1 hle)
  refine ⟨?_, fun time' d' h' => ?_, fun time' hle => ?_⟩
  · obtain ⟨start, stop, hbounds, hafter, hbefore⟩ := bounds_of_ofTime? h
    obtain ⟨n, -, hstart, hstop⟩ := bounds?_eq_some_iff.1 hbounds
    refine ⟨start, stop, hbounds, hafter, hbefore, ?_, ?_, ofTime?_eq_some_iff_of_bounds hbounds⟩
    · rw [hstart, Nat.mul_mod_left]
    · rw [hstart, hstop]
  · have hday' := ofTime?_eq_some_iff.1 h'
    refine ⟨fun hle => ?_, fun heq => ?_, fun heq => ?_⟩
    · rw [← compare_dayNumber, hday, hday', Std.isLE_compare]
      exact Int.ofNat_le.2 (hdays hle)
    · rw [heq, hday'] at hday
      exact (Int.ofNat_inj.1 hday).symm
    · rw [heq, ← hday'] at hday
      exact dayNumber_injective hday
  · have hlt := exists_ofTime?_iff.1 ⟨d, h⟩
    exact exists_ofTime?_iff.2 (Nat.lt_of_le_of_lt (hdays hle) hlt)

theorem partition_of_leapDay : ∃ d, ofParts? 2024 2 29 = some d ∧ ofTime? 1709210096 = some d ∧
    d.bounds? = some (1709164800, 1709251199) ∧
    ∀ time, ofTime? time = some d ↔ 1709164800 ≤ time ∧ time ≤ 1709251199 := by
  have hdate : ofTime? 1709210096 = some ⟨2024, 2, 29, by decide, by decide, by decide⟩ := by
    decide +kernel
  obtain ⟨start, stop, hbounds, -, -, -, -, hbetween⟩ := (partition_of_ofTime? hdate).1
  have hshown : (⟨2024, 2, 29, by decide, by decide, by decide⟩ : Date).bounds? =
      some (1709164800, 1709251199) := by
    decide +kernel
  obtain ⟨rfl, rfl⟩ := Prod.mk.inj (Option.some.inj (hbounds.symm.trans hshown))
  exact ⟨_, by decide, hdate, hshown, hbetween⟩

end WaterPeg.Date
