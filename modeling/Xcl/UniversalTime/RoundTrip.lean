import Xcl.Lib.Calendar
import Xcl.UniversalTime.Model

/-!
# Decoding and encoding universal times

* **`encode_decode`**: a universal time is decoded to its parts, and these are encoded to it.
-/

namespace Xcl.UniversalTime

open Calendar

/-- The first day. It was a Monday. -/
theorem january_mem : 1 ≤ (1 : ℤ) ∧ (1 : ℤ) ≤ 12 := by decide

def epoch : Date := ⟨1900, 1, 1, january_mem, by decide⟩

/-- The parts of a universal time in a time zone. -/
structure IsDecoded (t : ℤ) (z : ℚ) (d : Decoded) : Prop where
  second : ∃ second : ℤ, d.second = second ∧ 0 ≤ second ∧ second < 60
  minute : 0 ≤ d.minute ∧ d.minute < 60
  hour : 0 ≤ d.hour ∧ d.hour < 24
  date : ∃ n date, IsDateOf epoch n date ∧
    d.year = date.year ∧ d.month = date.month ∧ d.date = date.day ∧ d.day = n % 7 ∧
    t - z * 3600 = 86400 * n + 3600 * d.hour + 60 * d.minute + d.second

/-! ## Dates -/

theorem quarterDays_spec {n century days year day : ℤ} (hn : 0 ≤ n)
    (hcentury : century = (4 * n + 3) / 146097) (hdays : days = (4 * n + 3) % 146097 / 4)
    (hyear : year = (4 * days + 3) / 1461) (hday : day = (4 * days + 3) % 1461 / 4) :
    n = yearStart (century * 100 + year + 1) + day ∧ 0 ≤ day ∧ day ≤ 365 ∧
      (day = 365 → IsLeapYear (century * 100 + year + 1)) := by
  -- The remainders modulo 4 of what is cut off and of what is left always make 3.
  have hcount : n = 36524 * century + century / 4 + days := by omega
  have hyears : days = 365 * year + year / 4 + day := by omega
  have hrange : 0 ≤ century ∧ 0 ≤ year ∧ year ≤ 99 := by omega
  have hlast : year = 99 → day = 365 → century % 4 = 3 := by omega
  have hfourth : day = 365 → year % 4 = 3 := by omega
  have hday_range : 0 ≤ day ∧ day ≤ 365 := by omega
  clear hcentury hdays hyear hday
  refine ⟨?_, ?_⟩
  · unfold yearStart
    omega
  · refine ⟨hday_range.1, hday_range.2, fun h => ?_⟩
    have hfour := hfourth h
    by_cases hcenturies : year = 99
    · have hfourCenturies := hlast hcenturies h
      exact ⟨by omega, .inr (by omega)⟩
    · exact ⟨by omega, .inl (by omega)⟩

theorem exists_date_spring {year day month date : ℤ} (hlow : 0 ≤ day) (hhigh : day < 306)
    (hmonth : month = (day * 5 + 461) / 153) (hdate : date = (day * 5 + 461) % 153 / 5 + 1) :
    ∃ d : Date, (date, month, year) = (d.day, d.month, d.year) ∧
      d.dayNumber = yearStart (year + 1) + day - 305 := by
  have hmonth_mem : 3 ≤ month ∧ month ≤ 12 := by omega
  have hlength : 1 ≤ date ∧ date ≤ monthLength year month := by
    obtain ⟨hthree, htwelve⟩ := hmonth_mem
    unfold monthLength
    interval_cases month <;> simp <;> omega
  refine ⟨⟨year, month, date, by omega, hlength⟩, rfl, ?_⟩
  have hbefore : daysBefore year month = (153 * (month - 3) + 2) / 5 + 59 +
      if IsLeapYear year then 1 else 0 := if_neg (by omega)
  have hsum : (153 * (month - 3) + 2) / 5 + date = day + 1 := by omega
  have hyear : yearStart (year + 1) = yearStart year + 365 + if IsLeapYear year then 1 else 0 := by
    rw [yearStart_succ]
    change yearStart year + (275 + 59 + _) + 31 = _
    ring
  change yearStart year + daysBefore year month + date = _
  rw [hbefore, hyear]
  omega

theorem exists_date_winter {year day month date : ℤ} (hlow : 306 ≤ day) (hhigh : day ≤ 365)
    (hleap : day = 365 → IsLeapYear year)
    (hmonth : month = (day * 5 + 461 - 1836) / 153)
    (hdate : date = (day * 5 + 461 - 1836) % 153 / 5 + 1) :
    ∃ d : Date, (date, month, year) = (d.day, d.month, d.year) ∧
      d.dayNumber = yearStart year + day - 305 := by
  have hmonth_mem : 1 ≤ month ∧ month ≤ 2 := by omega
  have hlength : 1 ≤ date ∧ date ≤ monthLength year month := by
    obtain ⟨hone, htwo⟩ := hmonth_mem
    by_cases hleapYear : IsLeapYear year
    · unfold monthLength
      interval_cases month <;> simp [hleapYear] <;> omega
    · have hday : day ≠ 365 := fun h => hleapYear (hleap h)
      unfold monthLength
      interval_cases month <;> simp [hleapYear] <;> omega
  refine ⟨⟨year, month, date, by omega, hlength⟩, rfl, ?_⟩
  have hbefore : daysBefore year month = 31 * (month - 1) := if_pos hmonth_mem.2
  change yearStart year + daysBefore year month + date = _
  rw [hbefore]
  omega

/-- **A date is decoded from its number.** -/
theorem decodeDate_spec {n : ℤ} (hn : 0 ≤ n) :
    ∃ d : Date, decodeDate (n + 1) = (d.day, d.month, d.year) ∧ d.dayNumber = n - 305 := by
  obtain ⟨hcount, hlow, hhigh, hleap⟩ := quarterDays_spec hn rfl rfl rfl rfl
  generalize hyear : (4 * n + 3) / 146097 * 100 +
    (4 * ((4 * n + 3) % 146097 / 4) + 3) / 1461 = year at hcount hleap
  generalize hday : (4 * ((4 * n + 3) % 146097 / 4) + 3) % 1461 / 4 = day at *
  have ht2 : (n + 1) * 4 - 1 = 4 * n + 3 := by omega
  have hquarters : ∀ r : ℤ, r - r % 4 + 3 = 4 * (r / 4) + 3 := fun r => by omega
  have hdecode : decodeDate (n + 1) =
      if (day + 1) * 5 + 456 ≥ 1989 then
        ((day * 5 + 461 - 1836) % 153 / 5 + 1, (day * 5 + 461 - 1836) / 153, year + 1)
      else ((day * 5 + 461) % 153 / 5 + 1, (day * 5 + 461) / 153, year) := by
    have hyears : (365 * 4 + 1 : ℤ) = 1461 := rfl
    have hfive : (day + 1) * 5 + 456 = day * 5 + 461 := by ring
    unfold decodeDate quarterDaysPerCentury quarterDaysPerYear
    simp only [ht2, hyears, Int.fmod_eq_emod_of_nonneg, Nat.ofNat_nonneg, hquarters]
    rw [Int.tdiv_eq_ediv_of_nonneg (a := 4 * n + 3) (by omega),
      Int.tdiv_eq_ediv_of_nonneg (b := 1461) (by omega),
      Int.tdiv_eq_ediv_of_nonneg (b := 4) (by omega), hyear, hday, hfive]
    split_ifs with h
    · rw [Int.tmod_eq_emod_of_nonneg (by omega), Int.tdiv_eq_ediv_of_nonneg (b := 5) (by omega),
        Int.tdiv_eq_ediv_of_nonneg (b := 153) (by omega)]
    · rw [Int.tmod_eq_emod_of_nonneg (by omega), Int.tdiv_eq_ediv_of_nonneg (b := 5) (by omega),
        Int.tdiv_eq_ediv_of_nonneg (b := 153) (by omega)]
  rw [hdecode, hcount]
  split_ifs with h
  · exact exists_date_winter (by omega) hhigh hleap rfl rfl
  · exact exists_date_spring hlow (by omega) rfl rfl

theorem leapYearsBefore_eq {year : ℤ} (h : 1899 ≤ year) :
    leapYearsBefore year = yearStart year - 365 * (year - 1) - 460 := by
  unfold leapYearsBefore yearStart
  simp only
  rcases h.eq_or_lt with rfl | h
  · decide
  rcases (Int.add_one_le_of_lt h).eq_or_lt with rfl | h
  · decide
  rw [Int.tdiv_eq_ediv_of_nonneg (by omega), Int.tdiv_eq_ediv_of_nonneg (by omega),
    Int.tdiv_eq_ediv_of_nonneg (by omega)]
  omega

theorem monthDays_eq {year month : ℤ} (hmonth : 1 ≤ month ∧ month ≤ 12) :
    monthDays month =
      some (daysBefore year month - if 2 < month ∧ IsLeapYear year then 1 else 0) := by
  obtain ⟨hlow, hhigh⟩ := hmonth
  unfold daysBefore
  interval_cases month <;> split_ifs <;> simp_all <;> rfl

theorem year_ge {d : Date} {n : ℤ} (h : d.dayNumber = epoch.dayNumber + n) (hn : -1 ≤ n) :
    1899 ≤ d.year := by
  by_contra hyear
  have hmono : yearStart (d.year + 1) ≤ yearStart 1899 := yearStart_mono (by omega)
  have hstart : yearStart 1899 = 693230 := rfl
  have hepoch : epoch.dayNumber = 693596 := rfl
  have hbounds := d.dayNumber_bounds
  omega

/-- **A date is encoded to its number.** -/
theorem encodeIn_eq {d : Date} {n : ℤ} (h : d.dayNumber = epoch.dayNumber + n) (hn : -1 ≤ n)
    (second minute hour z : ℚ) :
    encodeIn second minute hour d.day d.month d.year z =
      some (second + (minute + (hour + n * 24 + z) * 60) * 60) := by
  have hyear := year_ge h hn
  have hepoch : epoch.dayNumber = 693596 := rfl
  have hnumber : yearStart d.year + daysBefore d.year d.month + d.day = 693596 + n :=
    h.trans (by rw [hepoch])
  have hleap : leapYearsBefore (d.year + 1) =
      leapYearsBefore d.year + if IsLeapYear d.year then 1 else 0 := by
    rw [leapYearsBefore_eq hyear, leapYearsBefore_eq (by omega)]
    unfold yearStart IsLeapYear
    split_ifs <;> omega
  have hbefore := leapYearsBefore_eq hyear
  have hdays : encodeDays d.day d.month d.year (daysBefore d.year d.month -
      if 2 < d.month ∧ IsLeapYear d.year then 1 else 0) = n := by
    unfold encodeDays
    by_cases hmonth : 2 < d.month
    · rw [if_pos hmonth, hleap]
      simp only [hmonth, true_and]
      omega
    · rw [if_neg hmonth, if_neg fun hand => hmonth hand.1]
      omega
  rw [encodeIn, monthDays_eq d.month_mem, Option.map_some, hdays]

/-! ## Seconds -/

theorem truncate_intCast {x d : ℤ} (hx : 0 ≤ x) (hd : 0 < d) :
    truncate x d = (x / d, ((x % d : ℤ) : ℚ)) := by
  have hfloor : ⌊(x / d : ℚ)⌋ = x / d := by
    obtain ⟨m, rfl⟩ := Int.eq_ofNat_of_zero_le hd.le
    exact Rat.floor_intCast_div_natCast x m
  have hquotient : RoundedDivision.truncate ((x : ℚ) / d) = x / d := by
    rw [RoundedDivision.truncate, if_pos (by positivity), hfloor]
  rw [truncate, hquotient, Int.emod_def]
  push_cast
  rw [mul_comm]

theorem decodeUniversalTime_eq (clock : Clock) {t k : ℤ} (ht : 0 ≤ t) (hk : k ≤ 86400) :
    ∃ second minute hour n : ℤ, (0 ≤ second ∧ second < 60) ∧ (0 ≤ minute ∧ minute < 60) ∧
      (0 ≤ hour ∧ hour < 24) ∧ -1 ≤ n ∧
      t - k = 86400 * n + 3600 * hour + 60 * minute + second ∧
      decodeUniversalTime clock t (some (k / 3600)) =
        { second, minute, hour
          date := (decodeDate (n + 693901 + 1)).1
          month := (decodeDate (n + 693901 + 1)).2.1
          year := (decodeDate (n + 693901 + 1)).2.2
          day := n % 7
          daylight := false
          zone := k / 3600 } := by
  have hwest : (k / 3600 : ℚ) * 3600 = k := by ring
  have hweeks : truncate (t - k + secondsOffset) secondsInWeek =
      ((t - k + 432000) / 604800, (((t - k + 432000) % 604800 : ℤ) : ℚ)) := by
    rw [← Int.cast_sub, ← Int.cast_add]
    exact truncate_intCast (by rw [secondsOffset]; omega) (by decide)
  generalize hw : (t - k + 432000) / 604800 = weeks at hweeks
  generalize hs : (t - k + 432000) % 604800 = secs at hweeks
  have hsecs : truncate secs 60 = (secs / 60, ((secs % 60 : ℤ) : ℚ)) :=
    truncate_intCast (by omega) (by decide)
  have hday : (secs / 60).tdiv minutesPerDay = secs / 60 / 1440 :=
    Int.tdiv_eq_ediv_of_nonneg (by omega)
  have hhour : (secs / 60 - secs / 60 / 1440 * minutesPerDay).tdiv 60 = secs / 60 % 1440 / 60 := by
    rw [minutesPerDay, Int.tdiv_eq_ediv_of_nonneg (by omega)]
    omega
  have hminute : (secs / 60 - secs / 60 / 1440 * minutesPerDay).tmod 60 = secs / 60 % 60 := by
    rw [minutesPerDay, Int.tmod_eq_emod_of_nonneg (by omega)]
    omega
  have hnumber : (weeks + weeksOffset) * 7 + secs / 60 / 1440 + november171858 =
      weeks * 7 + secs / 60 / 1440 - 5 + 693901 + 1 := by
    rw [weeksOffset, november171858]
    ring
  have hweekday : (secs / 60 / 1440 + weekdayNovember171858).fmod 7 =
      (weeks * 7 + secs / 60 / 1440 - 5) % 7 := by
    rw [weekdayNovember171858, Int.fmod_eq_emod_of_nonneg _ (by decide)]
    omega
  refine ⟨secs % 60, secs / 60 % 60, secs / 60 % 1440 / 60, weeks * 7 + secs / 60 / 1440 - 5,
    by omega, by omega, by omega, by omega, by omega, ?_⟩
  unfold decodeUniversalTime
  simp only [Option.getD_some, hwest, hweeks, hsecs, hday, hhour, hminute, hnumber, hweekday,
    Option.isNone_some, Bool.false_and, Bool.false_eq_true, if_false]

/-! ## The theorem -/

/-- **Decoding and encoding**: from time zero on, in a time zone of whole seconds. -/
theorem encode_decode (clock : Clock) (t : ℤ) (z : ℚ) (ht : 0 ≤ t) (hz : -24 ≤ z ∧ z ≤ 24)
    (hwhole : ∃ k : ℤ, z = k / 3600) :
    IsDecoded t z (decodeUniversalTime clock t (some z)) ∧
      encodeUniversalTime clock (decodeUniversalTime clock t (some z)).second
        (decodeUniversalTime clock t (some z)).minute (decodeUniversalTime clock t (some z)).hour
        (decodeUniversalTime clock t (some z)).date (decodeUniversalTime clock t (some z)).month
        (decodeUniversalTime clock t (some z)).year (some z) = some (t : ℚ) := by
  obtain ⟨k, rfl⟩ := hwhole
  have hk : k ≤ 86400 := by
    have h := hz.2
    rw [div_le_iff₀ (by norm_num)] at h
    exact_mod_cast h.trans (by norm_num : (24 * 3600 : ℚ) ≤ (86400 : ℤ))
  obtain ⟨second, minute, hour, n, hsecond, hminute, hhour, hn, hsum, hdecode⟩ :=
    decodeUniversalTime_eq clock ht hk
  obtain ⟨d, hdate, hnumber⟩ := @decodeDate_spec (n + 693901) (by omega)
  have hepoch : d.dayNumber = epoch.dayNumber + n := by
    have hepoch : epoch.dayNumber = 693596 := rfl
    omega
  have hyear : ¬d.year < 100 := by
    have h := year_ge hepoch hn
    omega
  have hinstant : (t : ℚ) - k / 3600 * 3600 = 86400 * n + 3600 * hour + 60 * minute + second := by
    have h : ((t - k : ℤ) : ℚ) = 86400 * n + 3600 * hour + 60 * minute + second := by
      rw [hsum]
      push_cast
      ring
    rw [← h]
    push_cast
    ring
  rw [hdecode, hdate]
  constructor
  · have hdateOf : IsDateOf epoch n d := isDateOf_of_dayNumber hepoch
    exact ⟨⟨second, rfl, hsecond⟩, hminute, hhour, n, d, hdateOf, rfl, rfl, rfl, rfl, hinstant⟩
  · unfold encodeUniversalTime
    simp only [if_neg hyear, encodeIn_eq hepoch hn]
    refine congrArg some ?_
    linear_combination -hinstant

/-- Noon on the last day of 1899, far in the west. -/
theorem encode_decode_west :
    IsDecoded 43200 24 (decodeUniversalTime ⟨0, 0, false⟩ 43200 (some 24)) ∧
      encodeUniversalTime ⟨0, 0, false⟩ (decodeUniversalTime ⟨0, 0, false⟩ 43200 (some 24)).second
        (decodeUniversalTime ⟨0, 0, false⟩ 43200 (some 24)).minute
        (decodeUniversalTime ⟨0, 0, false⟩ 43200 (some 24)).hour
        (decodeUniversalTime ⟨0, 0, false⟩ 43200 (some 24)).date
        (decodeUniversalTime ⟨0, 0, false⟩ 43200 (some 24)).month
        (decodeUniversalTime ⟨0, 0, false⟩ 43200 (some 24)).year (some 24) = some (43200 : ℤ) :=
  encode_decode ⟨0, 0, false⟩ 43200 24 (by decide) (by norm_num) ⟨86400, by norm_num⟩

end Xcl.UniversalTime
