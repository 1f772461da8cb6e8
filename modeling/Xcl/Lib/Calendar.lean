import Mathlib.Tactic.IntervalCases
import Mathlib.Tactic.Ring
import Mathlib.Algebra.Order.Ring.Int

/-!
# The Gregorian calendar

* `Date`, `Date.next`, `Date.prev`: the dates, in both directions without end;
* **`isDateOf_of_dayNumber`**: a date is that of the day which its number says.
-/

namespace Xcl.Calendar

/-! ## Dates -/

/-- Every fourth year, of the centuries every fourth. -/
def IsLeapYear (year : ℤ) : Prop := year % 4 = 0 ∧ (year % 100 ≠ 0 ∨ year % 400 = 0)

instance : DecidablePred IsLeapYear := fun year =>
  inferInstanceAs (Decidable (year % 4 = 0 ∧ (year % 100 ≠ 0 ∨ year % 400 = 0)))

def monthLength (year month : ℤ) : ℤ :=
  if month = 2 then if IsLeapYear year then 29 else 28
  else if month = 4 ∨ month = 6 ∨ month = 9 ∨ month = 11 then 30
  else 31

theorem monthLength_pos (year month : ℤ) : 1 ≤ monthLength year month := by
  unfold monthLength
  split_ifs <;> decide

structure Date where
  year : ℤ
  month : ℤ
  day : ℤ
  month_mem : 1 ≤ month ∧ month ≤ 12
  day_mem : 1 ≤ day ∧ day ≤ monthLength year month

/-- The day after. -/
def Date.next (d : Date) : Date :=
  if h : d.day < monthLength d.year d.month then
    ⟨d.year, d.month, d.day + 1, d.month_mem, by have := d.day_mem; omega, h⟩
  else if h : d.month < 12 then
    ⟨d.year, d.month + 1, 1, ⟨by have := d.month_mem; omega, h⟩, le_rfl, monthLength_pos _ _⟩
  else ⟨d.year + 1, 1, 1, ⟨by decide, by decide⟩, le_rfl, monthLength_pos _ _⟩

/-- The day before. -/
def Date.prev (d : Date) : Date :=
  if h : 1 < d.day then
    ⟨d.year, d.month, d.day - 1, d.month_mem, by omega, by have := d.day_mem; omega⟩
  else if h : 1 < d.month then
    ⟨d.year, d.month - 1, monthLength d.year (d.month - 1),
      ⟨by omega, by have := d.month_mem; omega⟩, monthLength_pos _ _, le_rfl⟩
  else ⟨d.year - 1, 12, 31, ⟨by decide, by decide⟩, by decide, le_rfl⟩

theorem Date.ext_iff {d e : Date} :
    d = e ↔ d.year = e.year ∧ d.month = e.month ∧ d.day = e.day := by
  cases d
  cases e
  simp

theorem Date.next_of_lt {d : Date} (h : d.day < monthLength d.year d.month) :
    d.next.year = d.year ∧ d.next.month = d.month ∧ d.next.day = d.day + 1 := by
  rw [Date.next, dif_pos h]
  exact ⟨rfl, rfl, rfl⟩

theorem Date.next_of_eq {d : Date} (h : d.day = monthLength d.year d.month)
    (hmonth : d.month < 12) :
    d.next.year = d.year ∧ d.next.month = d.month + 1 ∧ d.next.day = 1 := by
  rw [Date.next, dif_neg (h ▸ lt_irrefl _), dif_pos hmonth]
  exact ⟨rfl, rfl, rfl⟩

theorem Date.next_of_last {d : Date} (h : d.day = monthLength d.year d.month)
    (hmonth : d.month = 12) :
    d.next.year = d.year + 1 ∧ d.next.month = 1 ∧ d.next.day = 1 := by
  rw [Date.next, dif_neg (h ▸ lt_irrefl _), dif_neg (hmonth ▸ lt_irrefl _)]
  exact ⟨rfl, rfl, rfl⟩

theorem Date.next_prev (d : Date) : d.prev.next = d := by
  have hmonth := d.month_mem
  have hday := d.day_mem
  rw [Date.ext_iff, Date.prev]
  split_ifs with h₁ h₂
  · obtain ⟨hyear, hnext, hfirst⟩ := Date.next_of_lt (d := ⟨d.year, d.month, d.day - 1, _, _⟩)
      (Int.lt_of_lt_of_le (Int.sub_lt_self _ one_pos) hday.2)
    exact ⟨hyear, hnext, hfirst.trans (Int.sub_add_cancel _ _)⟩
  · obtain ⟨hyear, hnext, hfirst⟩ := Date.next_of_eq
      (d := ⟨d.year, d.month - 1, monthLength d.year (d.month - 1), _, _⟩) rfl
      (Int.lt_of_lt_of_le (Int.sub_lt_self _ one_pos) hmonth.2)
    exact ⟨hyear, hnext.trans (Int.sub_add_cancel _ _), hfirst.trans (by omega)⟩
  · obtain ⟨hyear, hnext, hfirst⟩ := Date.next_of_last (d := ⟨d.year - 1, 12, 31, _, _⟩) rfl rfl
    exact ⟨hyear.trans (Int.sub_add_cancel _ _), hnext.trans (by omega), hfirst.trans (by omega)⟩

/-- The date of day `n` when `epoch` is that of day 0. -/
inductive IsDateOf (epoch : Date) : ℤ → Date → Prop
  | epoch : IsDateOf epoch 0 epoch
  | next {n d} (h : IsDateOf epoch n d) : IsDateOf epoch (n + 1) d.next
  | prev {n d} (h : IsDateOf epoch n d) : IsDateOf epoch (n - 1) d.prev

/-! ## The number of a date -/

def daysBefore (year month : ℤ) : ℤ :=
  if month ≤ 2 then 31 * (month - 1)
  else (153 * (month - 3) + 2) / 5 + 59 + if IsLeapYear year then 1 else 0

/-- The days before a year, from the first day of year 1 on. -/
def yearStart (year : ℤ) : ℤ :=
  365 * (year - 1) + (year - 1) / 4 - (year - 1) / 100 + (year - 1) / 400

def Date.dayNumber (d : Date) : ℤ := yearStart d.year + daysBefore d.year d.month + d.day

theorem daysBefore_succ {year month : ℤ} (hmonth : 1 ≤ month ∧ month < 12) :
    daysBefore year (month + 1) = daysBefore year month + monthLength year month := by
  obtain ⟨hlow, hhigh⟩ := hmonth
  unfold daysBefore monthLength
  interval_cases month <;> split_ifs <;> simp_all

theorem yearStart_succ (year : ℤ) :
    yearStart (year + 1) = yearStart year + daysBefore year 12 + 31 := by
  unfold yearStart daysBefore IsLeapYear
  split_ifs <;> omega

theorem Date.dayNumber_next (d : Date) : d.next.dayNumber = d.dayNumber + 1 := by
  obtain ⟨hlow, hhigh⟩ := d.month_mem
  unfold Date.dayNumber
  rcases d.day_mem.2.lt_or_eq with h | h
  · obtain ⟨hyear, hmonth, hday⟩ := Date.next_of_lt h
    rw [hyear, hmonth, hday, ← add_assoc]
  rcases hhigh.lt_or_eq with hlt | heq
  · obtain ⟨hyear, hmonth, hday⟩ := Date.next_of_eq h hlt
    have hsucc : daysBefore d.year (d.month + 1) = _ := daysBefore_succ ⟨hlow, hlt⟩
    rw [hyear, hmonth, hday, hsucc, h]
    ring
  · obtain ⟨hyear, hmonth, hday⟩ := Date.next_of_last h heq
    have hfirst : daysBefore (d.year + 1) 1 = 0 := rfl
    have hlast : d.day = 31 := h.trans (by rw [heq]; rfl)
    rw [hyear, hmonth, hday, yearStart_succ, hfirst, heq, hlast]
    ring

theorem Date.dayNumber_prev (d : Date) : d.prev.dayNumber = d.dayNumber - 1 := by
  have h := d.prev.dayNumber_next
  rw [Date.next_prev] at h
  omega

theorem IsDateOf.dayNumber_eq {epoch : Date} {n : ℤ} {d : Date} (h : IsDateOf epoch n d) :
    d.dayNumber = epoch.dayNumber + n := by
  induction h with
  | epoch => exact (add_zero _).symm
  | next h ih => rw [Date.dayNumber_next, ih, add_assoc]
  | prev h ih => rw [Date.dayNumber_prev, ih, add_sub_assoc]

theorem daysBefore_add_le {year m₁ m₂ : ℤ} (hlow : 1 ≤ m₁) (hlt : m₁ < m₂) (hhigh : m₂ ≤ 12) :
    daysBefore year m₁ + monthLength year m₁ ≤ daysBefore year m₂ := by
  revert hhigh
  induction m₂, hlt using Int.leInduction with
  | base => exact fun hhigh => (daysBefore_succ ⟨hlow, hhigh⟩).ge
  | succ m hm ih =>
    intro hhigh
    have hsucc : daysBefore year (m + 1) = _ := daysBefore_succ ⟨by omega, hhigh⟩
    have hpos := monthLength_pos year m
    have hle := ih (by omega)
    omega

theorem yearStart_mono {y₁ y₂ : ℤ} (h : y₁ ≤ y₂) : yearStart y₁ ≤ yearStart y₂ := by
  unfold yearStart
  omega

theorem Date.dayNumber_bounds (d : Date) :
    yearStart d.year < d.dayNumber ∧ d.dayNumber ≤ yearStart (d.year + 1) := by
  obtain ⟨hlow, hhigh⟩ := d.month_mem
  obtain ⟨hfirst, hlast⟩ := d.day_mem
  have hjanuary : daysBefore d.year 1 = 0 := rfl
  have hdecember : monthLength d.year 12 = 31 := rfl
  have hafter : 0 ≤ daysBefore d.year d.month := by
    rcases hlow.eq_or_lt with h | h
    · rw [← h, hjanuary]
    · have hle : daysBefore d.year 1 + _ ≤ _ := daysBefore_add_le le_rfl h hhigh
      have hpos := monthLength_pos d.year 1
      omega
  have hbefore : daysBefore d.year d.month + monthLength d.year d.month ≤
      daysBefore d.year 12 + 31 := by
    rcases hhigh.eq_or_lt with h | h
    · rw [h, hdecember]
    · have hle : daysBefore d.year d.month + _ ≤ _ := daysBefore_add_le hlow h le_rfl
      omega
  rw [yearStart_succ, Date.dayNumber]
  omega

/-- **No two dates have the same number.** -/
theorem Date.dayNumber_injective : Function.Injective Date.dayNumber := by
  intro d e h
  have hd := d.dayNumber_bounds
  have he := e.dayNumber_bounds
  have hyear : d.year = e.year := by
    rcases lt_trichotomy d.year e.year with hlt | heq | hlt
    · have hmono : yearStart (d.year + 1) ≤ yearStart e.year := yearStart_mono hlt
      omega
    · exact heq
    · have hmono : yearStart (e.year + 1) ≤ yearStart d.year := yearStart_mono hlt
      omega
  have hd_day := d.day_mem
  have he_day := e.day_mem
  unfold Date.dayNumber at h
  rw [hyear] at h hd_day
  have hmonth : d.month = e.month := by
    rcases lt_trichotomy d.month e.month with hlt | heq | hlt
    · have hle : daysBefore e.year d.month + _ ≤ _ :=
        daysBefore_add_le d.month_mem.1 hlt e.month_mem.2
      omega
    · exact heq
    · have hle : daysBefore e.year e.month + _ ≤ _ :=
        daysBefore_add_le e.month_mem.1 hlt d.month_mem.2
      omega
  rw [hmonth] at h
  exact Date.ext_iff.mpr ⟨hyear, hmonth, by omega⟩

theorem exists_isDateOf (epoch : Date) (n : ℤ) : ∃ d, IsDateOf epoch n d := by
  induction n with
  | zero => exact ⟨epoch, .epoch⟩
  | succ n ih =>
    obtain ⟨d, h⟩ := ih
    exact ⟨d.next, h.next⟩
  | pred n ih =>
    obtain ⟨d, h⟩ := ih
    exact ⟨d.prev, h.prev⟩

/-- **The date with this number is the date of the day.** -/
theorem isDateOf_of_dayNumber {epoch d : Date} {n : ℤ}
    (h : d.dayNumber = epoch.dayNumber + n) : IsDateOf epoch n d := by
  obtain ⟨e, he⟩ := exists_isDateOf epoch n
  rwa [Date.dayNumber_injective (h.trans he.dayNumber_eq.symm)]

end Xcl.Calendar
