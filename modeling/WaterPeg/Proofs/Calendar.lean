import WaterPeg.Calendar

/-! The place of a date in the count of days is undone by looking the day up in the calendar. -/
namespace WaterPeg.Date

/-- A year that is cut into spans of 400, 100, 4 years and one: of the days before it every span
brings its own. -/
theorem daysBeforeYear_of_spans (span : Int) {century four single : Nat} (hcentury : century ≤ 3)
    (hfour : four ≤ 24) (hsingle : single ≤ 3) :
    daysBeforeYear (400 * span + 100 * century + 4 * four + single + 1) =
      146097 * span + 36524 * century + 1461 * four + 365 * single := by
  have h4 : (400 * span + 100 * century + 4 * four + single) / 4 =
      100 * span + 25 * century + four := by omega
  have h100 : (400 * span + 100 * century + 4 * four + single) / 100 = 4 * span + century := by
    omega
  have h400 : (400 * span + 100 * century + 4 * four + single) / 400 = span := by omega
  unfold daysBeforeYear
  dsimp only
  rw [Int.add_sub_cancel, h4, h100, h400]
  omega

/-- Taking spans of years off a day and counting the days of those years agree. -/
theorem daysBeforeYear_yearOfDay (day : Int) :
    daysBeforeYear (yearOfDay day).1 + (yearOfDay day).2 = day := by
  have hday : 146097 * (day / 146097) + (day % 146097).toNat = day := by omega
  have hrest : (day % 146097).toNat < 146097 := by omega
  unfold yearOfDay
  dsimp only
  generalize (day % 146097).toNat = r at hday hrest
  generalize hcentury : min (r / 36524) 3 = century
  -- The last century of a span is a day longer, and so is the last year of four.
  have hr : r - century * 36524 ≤ 36524 := by omega
  generalize hr' : r - century * 36524 = r' at hr
  generalize hsingle : min (r' % 1461 / 365) 3 = single
  rw [daysBeforeYear_of_spans (day / 146097) (by omega) (by omega) (by omega)]
  omega

/-- One comparison of the search for the month that holds a day. -/
theorem daysBeforeMonth_ite_le {leap : Bool} {r k month : Nat} (hk : daysBeforeMonth leap k ≤ r)
    (hmonth : daysBeforeMonth leap (k + 1) ≤ r → daysBeforeMonth leap month ≤ r) :
    daysBeforeMonth leap (if r < daysBeforeMonth leap (k + 1) then k else month) ≤ r := by
  split
  · exact hk
  · next h => exact hmonth (Nat.not_lt.1 h)

theorem daysBeforeMonth_monthOfDay_le (leap : Bool) (r : Nat) :
    daysBeforeMonth leap (monthOfDay leap r) ≤ r := by
  have hfirst : daysBeforeMonth leap 1 ≤ r := by cases leap <;> exact Nat.zero_le r
  refine daysBeforeMonth_ite_le hfirst ?_
  iterate 10 refine fun h => daysBeforeMonth_ite_le h ?_
  exact id

theorem parts_of_ofParts? {year : Int} {month day : Nat} {d : Date}
    (h : ofParts? year month day = some d) : d.year = year ∧ d.month = month ∧ d.day = day := by
  simp only [ofParts?, Option.dite_none_right_eq_some, Option.some.injEq] at h
  obtain ⟨-, -, -, rfl⟩ := h
  exact ⟨rfl, rfl, rfl⟩

theorem dayNumber_of_ofDayNumber? {n : Int} {d : Date} (h : ofDayNumber? n = some d) :
    d.dayNumber = n := by
  unfold ofDayNumber? at h
  dsimp only at h
  have hsum := daysBeforeYear_yearOfDay (epochDay + n)
  generalize (yearOfDay (epochDay + n)).1 = year at h hsum
  generalize (yearOfDay (epochDay + n)).2 = r at h hsum
  have hle := daysBeforeMonth_monthOfDay_le (isLeapYear year) r
  obtain ⟨hyear, hmonth, hday⟩ := parts_of_ofParts? h
  unfold dayNumber
  rw [hyear, hmonth, hday]
  omega

/-- A date that a time falls on has a first and a last second. -/
theorem exists_bounds_of_ofTime? {time : UInt64} {d : Date} (h : ofTime? time = some d) :
    ∃ bounds, d.bounds? = some bounds := by
  unfold bounds?
  rw [dayNumber_of_ofDayNumber? h]
  exact ⟨_, rfl⟩

end WaterPeg.Date
