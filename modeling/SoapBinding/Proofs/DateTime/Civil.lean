import SoapBinding.DateTime.Civil

/-!
# Dates and their numbers of days

Each number of days gives a date of the calendar, and the date has that number of days. The day of an
era is put together from centuries, groups of four years, years and days (`exists_day`), and there
the closed formula for the year can be evaluated.
-/

namespace SoapBinding.Civil

/-- The year of an era in which a day of the era lies. -/
def yearOf (dayOfEra : Int) : Int :=
  (dayOfEra - dayOfEra / 1460 + dayOfEra / 36524 - dayOfEra / 146096) / 365

/-- The number of days of an era in front of a year. -/
def daysBefore (year : Int) : Int := 365 * year + year / 4 - year / 100

/-- A day of an era: a century, a group of four years in it, a year of the group and a day of the year.
A year has a last day more only at the end of its group, and a century of a hundred years has none. -/
structure IsDay (century group year day : Int) : Prop where
  century_mem : 0 ≤ century ∧ century ≤ 3
  group_mem : 0 ≤ group ∧ group ≤ 24
  year_mem : 0 ≤ year ∧ year ≤ 3
  day_mem : 0 ≤ day ∧ day ≤ 365
  last_day : day = 365 → year = 3
  last_century : day = 365 → group = 24 → century = 3

/-- Every day of an era is one of some year. -/
theorem exists_day {n : Int} (h : 0 ≤ n ∧ n < daysPerEra) :
    ∃ century group year day, IsDay century group year day ∧
      n = 36524 * century + 1461 * group + 365 * year + day := by
  unfold daysPerEra at h
  have hcentury : ∃ century, (0 ≤ century ∧ century ≤ 3) ∧ 0 ≤ n - 36524 * century ∧
      n - 36524 * century ≤ 36524 ∧ (n - 36524 * century = 36524 → century = 3) :=
    ⟨min (n / 36524) 3, by omega, by omega, by omega, by omega⟩
  obtain ⟨century, hcentury, hlow, hhigh, hlast⟩ := hcentury
  have hyear : ∃ year, (0 ≤ year ∧ year ≤ 3) ∧ 0 ≤ (n - 36524 * century) % 1461 - 365 * year ∧
      (n - 36524 * century) % 1461 - 365 * year ≤ 365 ∧
      ((n - 36524 * century) % 1461 - 365 * year = 365 → year = 3) :=
    ⟨min ((n - 36524 * century) % 1461 / 365) 3, by omega, by omega, by omega, by omega⟩
  obtain ⟨year, hyear, hlow', hhigh', hlast'⟩ := hyear
  refine ⟨century, (n - 36524 * century) / 1461, year, (n - 36524 * century) % 1461 - 365 * year,
    ⟨hcentury, by omega, hyear, ⟨hlow', hhigh'⟩, hlast', ?_⟩, by omega⟩
  intro hday hgroup
  exact hlast (by omega)

variable {century group year day : Int}

/-- The formula finds the year of a day. -/
theorem yearOf_day (h : IsDay century group year day) :
    yearOf (36524 * century + 1461 * group + 365 * year + day) =
      100 * century + 4 * group + year := by
  obtain ⟨hcentury, hgroup, hyear, hday, hlast, hlast'⟩ := h
  unfold yearOf
  by_cases hend : day = 365 ∧ group = 24
  · obtain rfl := hlast hend.1
    obtain rfl := hlast' hend.1 hend.2
    obtain ⟨rfl, rfl⟩ := hend
    decide
  · have hcenturies : (36524 * century + 1461 * group + 365 * year + day) / 36524 = century := by
      omega
    have heras : (36524 * century + 1461 * group + 365 * year + day) / 146096 = 0 := by omega
    rw [hcenturies, heras]
    omega

/-- The days in front of the year of a day, and the day, make up the days of the era. -/
theorem daysBefore_day (h : IsDay century group year day) :
    daysBefore (100 * century + 4 * group + year) =
      36524 * century + 1461 * group + 365 * year := by
  obtain ⟨hcentury, hgroup, hyear, -, -, -⟩ := h
  unfold daysBefore
  omega

/-- Where a number of days lies: the year of its era, counted from March, and the day of that year. -/
theorem exists_dayOfYear (n : Int) (h : 0 ≤ n ∧ n < daysPerEra) :
    (0 ≤ yearOf n ∧ yearOf n < 400) ∧ (0 ≤ n - daysBefore (yearOf n) ∧ n - daysBefore (yearOf n) ≤ 365) ∧
      (n - daysBefore (yearOf n) = 365 → isLeap (yearOf n + 1) = true) := by
  obtain ⟨century, group, year, day, hday, rfl⟩ := exists_day h
  rw [yearOf_day hday, daysBefore_day hday]
  obtain ⟨hcentury, hgroup, hyear, hmem, hlast, hlast'⟩ := hday
  refine ⟨by omega, by omega, ?_⟩
  intro he
  have hyear : year = 3 := hlast (by omega)
  have hgroup : group = 24 → century = 3 := hlast' (by omega)
  simp only [isLeap, Bool.and_eq_true, Bool.or_eq_true, beq_iff_eq, bne_iff_ne]
  omega

/-- A day of a year, counted from March, as a month and a day of the month. -/
theorem month_cases {n : Int} (h : 0 ≤ n ∧ n ≤ 365) :
    (0 ≤ (5 * n + 2) / 153 ∧ (5 * n + 2) / 153 ≤ 11) ∧
      1 ≤ n - (153 * ((5 * n + 2) / 153) + 2) / 5 + 1 := by
  omega

theorem isLeap_add_era (year era : Int) : isLeap (year + era * 400) = isLeap year := by
  have h4 : (year + era * 400) % 4 = year % 4 := by omega
  have h100 : (year + era * 400) % 100 = year % 100 := by omega
  have h400 : (year + era * 400) % 400 = year % 400 := by omega
  rw [isLeap, isLeap, h4, h100, h400]

/-- The date that a number of days gives, by its era, its year and its day of the year. -/
theorem ofDays_eq (days : Int) :
    ∃ era year day, days + epochShift = era * daysPerEra + daysBefore year + day ∧
      (0 ≤ year ∧ year < 400) ∧ (0 ≤ day ∧ day ≤ 365) ∧
      (day = 365 → isLeap (year + 1) = true) ∧
      ofDays days =
        ⟨if (if (5 * day + 2) / 153 < 10 then (5 * day + 2) / 153 + 3 else (5 * day + 2) / 153 - 9) ≤ 2
            then year + era * 400 + 1 else year + era * 400,
          if (5 * day + 2) / 153 < 10 then (5 * day + 2) / 153 + 3 else (5 * day + 2) / 153 - 9,
          day - (153 * ((5 * day + 2) / 153) + 2) / 5 + 1⟩ := by
  have hera : 0 ≤ (days + epochShift) % daysPerEra ∧ (days + epochShift) % daysPerEra < daysPerEra := by
    unfold daysPerEra
    omega
  obtain ⟨hyear, hday, hleap⟩ := exists_dayOfYear _ hera
  refine ⟨(days + epochShift) / daysPerEra, yearOf ((days + epochShift) % daysPerEra), _, ?_, hyear,
    hday, hleap, rfl⟩
  have := Int.mul_ediv_add_emod (days + epochShift) daysPerEra
  rw [Int.mul_comm] at this
  omega

/-- **The date that a number of days gives has that number of days.** -/
theorem toDays_ofDays (days : Int) : toDays (ofDays days) = days := by
  obtain ⟨era, year, day, hdays, hyear, hday, -, heq⟩ := ofDays_eq days
  rw [heq]
  unfold toDays
  unfold daysPerEra daysBefore epochShift at *
  dsimp only
  have hmonth := (month_cases hday).1
  generalize (5 * day + 2) / 153 = month at *
  by_cases hm : month < 10
  · rw [if_pos hm, if_neg (by omega), if_neg (by omega), if_neg (by omega)]
    omega
  · rw [if_neg hm, if_pos (by omega), if_pos (by omega), if_pos (by omega)]
    omega

/-- **The date that a number of days gives is one of the calendar.** -/
theorem isValid_ofDays (days : Int) : (ofDays days).isValid = true := by
  obtain ⟨era, year, day, -, -, hday, hleap, heq⟩ := ofDays_eq days
  rw [heq]
  simp only [Date.isValid, Bool.and_eq_true, decide_eq_true_eq]
  refine ⟨(month_cases hday).2, ?_⟩
  obtain ⟨hlow, hhigh⟩ := (month_cases hday).1
  generalize hm : (5 * day + 2) / 153 = month at *
  by_cases hfebruary : month = 11
  · subst hfebruary
    have hyear : isLeap (year + era * 400 + 1) = isLeap (year + 1) := by
      rw [show year + era * 400 + 1 = year + 1 + era * 400 by omega, isLeap_add_era]
    rw [if_pos (by decide), if_neg (by decide)]
    show _ ≤ if isLeap (year + era * 400 + 1) then 29 else 28
    rw [hyear]
    by_cases hlast : day = 365
    · rw [if_pos (hleap hlast)]
      omega
    · split <;> omega
  · have hmonth : month = 0 ∨ month = 1 ∨ month = 2 ∨ month = 3 ∨ month = 4 ∨ month = 5 ∨
        month = 6 ∨ month = 7 ∨ month = 8 ∨ month = 9 ∨ month = 10 := by omega
    rcases hmonth with rfl | rfl | rfl | rfl | rfl | rfl | rfl | rfl | rfl | rfl | rfl <;>
      simp only [daysInMonth] <;> simp <;> omega

/-- The months are those of a year. -/
theorem month_ofDays (days : Int) : 1 ≤ (ofDays days).month ∧ (ofDays days).month ≤ 12 := by
  obtain ⟨era, year, day, -, -, hday, -, heq⟩ := ofDays_eq days
  rw [heq]
  have hmonth := (month_cases hday).1
  dsimp only
  split <;> omega

/-- The days are those of a month. -/
theorem day_ofDays (days : Int) : 1 ≤ (ofDays days).day ∧ (ofDays days).day ≤ 31 := by
  obtain ⟨era, year, day, -, -, hday, -, heq⟩ := ofDays_eq days
  rw [heq]
  dsimp only
  omega

end SoapBinding.Civil
