import Mathlib.Logic.Function.Iterate
import Mathlib.Order.Lattice
import Mathlib.Tactic.Common

/-!
# The Gregorian calendar

Dates of the proleptic Gregorian calendar, and the instants of a day with a second and a fraction
of a second.  Dates are compared by year, month and day (`Date.lt_iff`), and the date after another
one is the next in this order (`Date.next_le_iff`).

Days are added one at a time, so a bound for a number of days is a bound for the steps from one
date to another (`Date.le_addDays_pred`).
-/

namespace ClawDesk.Foundations.Calendar

def IsLeap (year : ℤ) : Prop := year % 4 = 0 ∧ (year % 100 ≠ 0 ∨ year % 400 = 0)

instance (year : ℤ) : Decidable (IsLeap year) :=
  inferInstanceAs (Decidable (year % 4 = 0 ∧ (year % 100 ≠ 0 ∨ year % 400 = 0)))

/-- The number of days of a month. -/
def daysIn (year : ℤ) (month : ℕ) : ℕ :=
  if month = 2 then if IsLeap year then 29 else 28
  else if month = 4 ∨ month = 6 ∨ month = 9 ∨ month = 11 then 30
  else 31

theorem daysIn_mem (year : ℤ) (month : ℕ) : 28 ≤ daysIn year month ∧ daysIn year month ≤ 31 := by
  unfold daysIn
  split_ifs <;> omega

/-- The number of days of a year before a month. -/
def daysBefore (year : ℤ) : ℕ → ℕ
  | 0 => 0
  | 1 => 0
  | month + 2 => daysBefore year (month + 1) + daysIn year (month + 1)

theorem daysBefore_december (year : ℤ) :
    daysBefore year 12 = if IsLeap year then 335 else 334 := by
  by_cases h : IsLeap year <;> simp [daysBefore, daysIn, h]

/-- A date. -/
@[ext]
structure Date where
  year : ℤ
  month : ℕ
  day : ℕ
  month_pos : 1 ≤ month
  month_le : month ≤ 12
  day_pos : 1 ≤ day
  day_le : day ≤ daysIn year month
deriving DecidableEq

namespace Date

variable {a b d : Date} {n : ℕ}

/-! ### The order of dates -/

/-- A number that grows with the date. -/
def rank (d : Date) : ℤ := (d.year * 12 + d.month) * 31 + d.day

theorem day_le_31 (d : Date) : d.day ≤ 31 := d.day_le.trans (daysIn_mem d.year d.month).2

theorem rank_injective : Function.Injective rank := by
  intro a b h
  have ha := a.day_le_31
  have hb := b.day_le_31
  have ha1 := a.day_pos
  have hb1 := b.day_pos
  have ham := a.month_le
  have hbm := b.month_le
  have ham1 := a.month_pos
  have hbm1 := b.month_pos
  unfold rank at h
  ext
  · omega
  · omega
  · omega

instance : LinearOrder Date := LinearOrder.lift' rank rank_injective

theorem lt_iff_rank : a < b ↔ a.rank < b.rank := Iff.rfl

/-- Dates are compared by year, month and day. -/
theorem lt_iff : a < b ↔ a.year < b.year ∨
    a.year = b.year ∧ (a.month < b.month ∨ a.month = b.month ∧ a.day < b.day) := by
  have ha := a.day_le_31
  have hb := b.day_le_31
  have ha1 := a.day_pos
  have hb1 := b.day_pos
  have ham := a.month_le
  have hbm := b.month_le
  have ham1 := a.month_pos
  have hbm1 := b.month_pos
  rw [lt_iff_rank, rank, rank]
  omega

theorem le_iff : a ≤ b ↔ a.year < b.year ∨
    a.year = b.year ∧ (a.month < b.month ∨ a.month = b.month ∧ a.day ≤ b.day) := by
  rw [← not_lt, lt_iff]
  omega

/-! ### Dates one after the other -/

/-- The first day of a month. -/
def first (year : ℤ) (month : ℕ) (hpos : 1 ≤ month) (hle : month ≤ 12) : Date :=
  ⟨year, month, 1, hpos, hle, Nat.le_refl 1,
    (by decide : 1 ≤ 28).trans (daysIn_mem year month).1⟩

/-- The first day of the month after a date. -/
def nextMonth (d : Date) : Date :=
  if h : d.month < 12 then first d.year (d.month + 1) (Nat.le_add_left 1 d.month) h
  else first (d.year + 1) 1 (Nat.le_refl 1) (by decide)

/-- The date after another one. -/
def next (d : Date) : Date :=
  if h : d.day < daysIn d.year d.month then
    ⟨d.year, d.month, d.day + 1, d.month_pos, d.month_le, Nat.le_add_left 1 d.day, h⟩
  else d.nextMonth

/-- Some number of days later. -/
def addDays (d : Date) (n : ℕ) : Date := next^[n] d

/-- The first day of the month of a date. -/
def monthStart (d : Date) : Date := first d.year d.month d.month_pos d.month_le

theorem nextMonth_of_lt (h : d.month < 12) :
    d.nextMonth = first d.year (d.month + 1) (Nat.le_add_left 1 d.month) h := dif_pos h

theorem nextMonth_of_december (h : d.month = 12) :
    d.nextMonth = first (d.year + 1) 1 (Nat.le_refl 1) (by decide) :=
  dif_neg (by omega)

/-- Nothing lies between a month and the first day of the next one. -/
theorem nextMonth_le_iff :
    d.nextMonth ≤ b ↔ d.year < b.year ∨ d.year = b.year ∧ d.month < b.month := by
  have hb := b.month_le
  have hb1 := b.month_pos
  have hb2 := b.day_pos
  have hd := d.month_le
  rw [le_iff]
  by_cases h : d.month < 12
  · rw [nextMonth_of_lt h]
    simp only [first]
    omega
  · rw [nextMonth_of_december (by omega)]
    simp only [first]
    omega

theorem lt_nextMonth (d : Date) : d < d.nextMonth := by
  rw [← not_le, nextMonth_le_iff]
  omega

/-- What comes before the next month is of the same month. -/
theorem same_month (hle : d ≤ b) (hlt : b < d.nextMonth) :
    b.year = d.year ∧ b.month = d.month ∧ d.day ≤ b.day := by
  rw [← not_le, nextMonth_le_iff] at hlt
  rw [le_iff] at hle
  omega

/-- The next month is one of the same year, or of the next year after December. -/
theorem nextMonth_cases (d : Date) : d.nextMonth.day = 1 ∧
    (d.nextMonth.year = d.year ∨ d.month = 12 ∧ d.nextMonth.year = d.year + 1) := by
  have hle := d.month_le
  by_cases h : d.month < 12
  · rw [nextMonth_of_lt h]
    exact ⟨rfl, .inl rfl⟩
  · have hdecember : d.month = 12 := by omega
    rw [nextMonth_of_december hdecember]
    exact ⟨rfl, .inr ⟨hdecember, rfl⟩⟩

theorem next_cases (d : Date) : d.next = d.nextMonth ∨
    d.next.year = d.year ∧ d.next.month = d.month ∧ d.next.day = d.day + 1 := by
  unfold next
  split_ifs
  · exact .inr ⟨rfl, rfl, rfl⟩
  · exact .inl rfl

/-- **The date after another one is the next in order.** -/
theorem next_le_iff : d.next ≤ b ↔ d < b := by
  unfold next
  split_ifs with h
  · rw [le_iff, lt_iff]
    show d.year < b.year ∨
      d.year = b.year ∧ (d.month < b.month ∨ d.month = b.month ∧ d.day + 1 ≤ b.day) ↔ _
    omega
  · -- on its last day no later date is of the same month
    rw [nextMonth_le_iff, lt_iff]
    have hlast : d.year = b.year → d.month = b.month → b.day ≤ d.day := by
      intro hyear hmonth
      have hb := b.day_le
      rw [← hyear, ← hmonth] at hb
      omega
    omega

theorem lt_next (d : Date) : d < d.next := next_le_iff.mp (le_refl d.next)

theorem next_mono (h : a ≤ b) : a.next ≤ b.next := next_le_iff.mpr (h.trans_lt b.lt_next)

/-! ### Some days later -/

@[simp] theorem addDays_zero (d : Date) : d.addDays 0 = d := rfl

theorem addDays_succ (d : Date) (n : ℕ) : d.addDays (n + 1) = d.next.addDays n :=
  Function.iterate_succ_apply next n d

theorem addDays_add (d : Date) (m n : ℕ) : d.addDays (m + n) = (d.addDays m).addDays n := by
  rw [Nat.add_comm]
  exact Function.iterate_add_apply next n m d

theorem addDays_mono (h : a ≤ b) (n : ℕ) : a.addDays n ≤ b.addDays n := by
  induction n generalizing a b with
  | zero => exact h
  | succ n ih =>
      rw [addDays_succ, addDays_succ]
      exact ih (next_mono h)

theorem le_addDays (d : Date) (n : ℕ) : d ≤ d.addDays n := by
  induction n generalizing d with
  | zero => exact le_refl d
  | succ n ih =>
      rw [addDays_succ]
      exact d.lt_next.le.trans (ih d.next)

theorem lt_addDays (d : Date) (n : ℕ) : d < d.addDays (n + 1) := by
  rw [addDays_succ]
  exact d.lt_next.trans_le (le_addDays d.next n)

/-- A later date is a day closer to what comes after it. -/
theorem le_addDays_pred (hb : b ≤ a.addDays n) (had : a < d) (hdb : d ≤ b) :
    0 < n ∧ b ≤ d.addDays (n - 1) := by
  cases n with
  | zero => exact absurd hb (had.trans_le hdb).not_ge
  | succ n =>
      rw [addDays_succ] at hb
      exact ⟨Nat.succ_pos n, hb.trans (addDays_mono (next_le_iff.mpr had) n)⟩

/-! ### Months and years -/

theorem monthStart_le (d : Date) : d.monthStart ≤ d := by
  have hd := d.day_pos
  rw [le_iff]
  show d.year < d.year ∨
    d.year = d.year ∧ (d.month < d.month ∨ d.month = d.month ∧ 1 ≤ d.day)
  omega

/-- The days of a month follow each other. -/
theorem addDays_in_month (h : d.day + n ≤ daysIn d.year d.month) :
    (d.addDays n).year = d.year ∧ (d.addDays n).month = d.month ∧
      (d.addDays n).day = d.day + n := by
  induction n generalizing d with
  | zero => exact ⟨rfl, rfl, rfl⟩
  | succ n ih =>
      have hnext : d.next.year = d.year ∧ d.next.month = d.month ∧ d.next.day = d.day + 1 := by
        rw [next, dif_pos (by omega)]
        exact ⟨rfl, rfl, rfl⟩
      obtain ⟨hyear, hmonth, hday⟩ := hnext
      obtain ⟨hyear', hmonth', hday'⟩ := ih (d := d.next) (by rw [hyear, hmonth, hday]; omega)
      rw [addDays_succ]
      exact ⟨hyear'.trans hyear, hmonth'.trans hmonth, by rw [hday', hday]; omega⟩

theorem le_addDays_monthStart (d : Date) : d ≤ d.monthStart.addDays 30 := by
  have hpos := d.day_pos
  have hle := d.day_le_31
  have hin : 1 + (d.day - 1) ≤ daysIn d.year d.month := by
    rw [Nat.add_sub_cancel' hpos]
    exact d.day_le
  obtain ⟨hyear, hmonth, hday⟩ := addDays_in_month (d := d.monthStart) hin
  have hd : d.monthStart.addDays (d.day - 1) = d := by
    ext
    · exact hyear
    · exact hmonth
    · exact hday.trans (Nat.add_sub_cancel' hpos)
  have hsplit : 30 = (d.day - 1) + (31 - d.day) := by omega
  rw [hsplit, addDays_add, hd]
  exact le_addDays d _

/-- The days of a month lead to the next one. -/
theorem addDays_daysIn (d : Date) :
    d.monthStart.addDays (daysIn d.year d.month) = d.nextMonth := by
  have hmany := (daysIn_mem d.year d.month).1
  have hin : 1 + (daysIn d.year d.month - 1) ≤ daysIn d.year d.month := by omega
  obtain ⟨hyear, hmonth, hday⟩ := addDays_in_month (d := d.monthStart) hin
  have hsplit : daysIn d.year d.month = (daysIn d.year d.month - 1) + 1 := by omega
  rw [hsplit, addDays_add]
  show next (d.monthStart.addDays (daysIn d.year d.month - 1)) = d.nextMonth
  rw [next, dif_neg, nextMonth, nextMonth]
  · simp only [hyear, hmonth]
    rfl
  · rw [hyear, hmonth, hday]
    show ¬ 1 + (daysIn d.year d.month - 1) < daysIn d.year d.month
    omega

/-- The first day of a year. -/
def newYear (year : ℤ) : Date := first year 1 (Nat.le_refl 1) (by decide)

/-- The last day of a year. -/
def yearEnd (year : ℤ) : Date :=
  ⟨year, 12, 31, by decide, Nat.le_refl 12, by decide, Nat.le_refl 31⟩

theorem next_yearEnd (year : ℤ) : (yearEnd year).next = newYear (year + 1) := rfl

theorem addDays_daysBefore (year : ℤ) (month : ℕ) (hpos : 1 ≤ month) (hle : month ≤ 12) :
    (newYear year).addDays (daysBefore year month) = first year month hpos hle := by
  induction month, hpos using Nat.le_induction with
  | base => rfl
  | succ month hpos ih =>
      obtain ⟨m, rfl⟩ : ∃ m, month = m + 1 := ⟨month - 1, (Nat.sub_add_cancel hpos).symm⟩
      have hstart := addDays_daysIn (first year (m + 1) hpos (Nat.le_of_succ_le hle))
      rw [nextMonth_of_lt (d := first year (m + 1) hpos (Nat.le_of_succ_le hle)) hle] at hstart
      rw [daysBefore, addDays_add, ih (Nat.le_of_succ_le hle)]
      exact hstart

/-- A year has 365 days, or 366 if it is a leap year. -/
theorem addDays_yearEnd (year : ℤ) :
    (newYear year).addDays (if IsLeap year then 365 else 364) = yearEnd year := by
  have hdecember := addDays_daysBefore year 12 (by decide) (Nat.le_refl 12)
  rw [daysBefore_december] at hdecember
  have hsplit : (if IsLeap year then 365 else 364) = (if IsLeap year then 335 else 334) + 30 := by
    split_ifs <;> rfl
  obtain ⟨hyear, hmonth, hday⟩ := addDays_in_month (n := 30)
    (d := first year 12 (by decide) (Nat.le_refl 12)) (Nat.le_refl 31)
  rw [hsplit, addDays_add, hdecember]
  ext
  · exact hyear
  · exact hmonth
  · exact hday

/-- A date 365 days after the first day of a year. -/
theorem addDays_365 (year : ℤ) : (newYear year).addDays 365 =
    if IsLeap year then yearEnd year else newYear (year + 1) := by
  have hyear := addDays_yearEnd year
  split_ifs at hyear ⊢
  · exact hyear
  · rw [show 365 = 364 + 1 from rfl, addDays_add, hyear]
    exact next_yearEnd year

theorem newYear_le_iff {year : ℤ} : newYear year ≤ d ↔ year ≤ d.year := by
  have hmonth := d.month_pos
  have hday := d.day_pos
  rw [le_iff]
  show year < d.year ∨ year = d.year ∧ (1 < d.month ∨ 1 = d.month ∧ 1 ≤ d.day) ↔ _
  omega

theorem le_yearEnd_iff {year : ℤ} : d ≤ yearEnd year ↔ d.year ≤ year := by
  rw [← not_lt, ← next_le_iff, next_yearEnd, newYear_le_iff]
  omega

/-- The end of the year of a date is at most 365 days away. -/
theorem yearEnd_le_addDays (d : Date) : yearEnd d.year ≤ d.addDays 365 := by
  have hstart : newYear d.year ≤ d := newYear_le_iff.mpr (le_refl d.year)
  refine le_trans ?_ (addDays_mono hstart 365)
  rw [addDays_365]
  split_ifs
  · exact le_refl _
  · rw [← next_yearEnd]
    exact (lt_next _).le

/-- 366 days do not lead out of the year after, if it is a leap year, or else not beyond the first
day of the year after that. -/
theorem year_addDays_le (d : Date) :
    (d.addDays 366).year ≤ if IsLeap (d.year + 1) then d.year + 1 else d.year + 2 := by
  have hend : d ≤ yearEnd d.year := le_yearEnd_iff.mpr (le_refl d.year)
  have hlater : d.addDays 366 ≤ (newYear (d.year + 1)).addDays 365 := by
    have hmono := addDays_mono hend (365 + 1)
    rwa [addDays_succ (yearEnd d.year), next_yearEnd] at hmono
  rw [addDays_365] at hlater
  split_ifs at hlater ⊢
  · exact le_yearEnd_iff.mp hlater
  · have hyear : newYear (d.year + 1 + 1) ≤ yearEnd (d.year + 2) :=
      newYear_le_iff.mpr (by show d.year + 1 + 1 ≤ d.year + 2; omega)
    exact le_yearEnd_iff.mp (hlater.trans hyear)

/-! ### Weekdays -/

/-- The number of a day, counted from the day before the first day of the year 1. -/
def dayNumber (d : Date) : ℤ :=
  365 * (d.year - 1) + (d.year - 1) / 4 - (d.year - 1) / 100 + (d.year - 1) / 400 +
    daysBefore d.year d.month + d.day

/-- The number of days since Sunday. -/
def weekday (d : Date) : ℕ := (d.dayNumber % 7).toNat

-- The first day of the year 2000 was a Saturday.
example : (newYear 2000).weekday = 6 := by decide

/-! ### Other dates of the same month or year -/

/-- The same day of another month, if there is one. -/
def withMonth (d : Date) (month : ℕ) : Option Date :=
  if h : (1 ≤ month ∧ month ≤ 12) ∧ d.day ≤ daysIn d.year month then
    some ⟨d.year, month, d.day, h.1.1, h.1.2, d.day_pos, h.2⟩
  else none

/-- Another day of the same month, if there is one. -/
def withDay (d : Date) (day : ℕ) : Option Date :=
  if h : 1 ≤ day ∧ day ≤ daysIn d.year d.month then
    some ⟨d.year, d.month, day, d.month_pos, d.month_le, h.1, h.2⟩
  else none

theorem withDay_one (d : Date) : d.withDay 1 = some d.monthStart :=
  dif_pos ⟨Nat.le_refl 1, d.day_pos.trans d.day_le⟩

end Date

/-! ### Instants -/

/-- An instant: a date, the second of the day, and its fraction in nanoseconds, which goes on to
2,000,000,000 in a leap second. -/
@[ext]
structure DateTime where
  date : Date
  secs : ℕ
  frac : ℕ
  secs_lt : secs < 86400
  frac_lt : frac < 2000000000
deriving DecidableEq

namespace DateTime

variable {t u : DateTime}

def hour (t : DateTime) : ℕ := t.secs / 3600

def minute (t : DateTime) : ℕ := t.secs / 60 % 60

def second (t : DateTime) : ℕ := t.secs % 60

/-- A number that grows with the instant. -/
def key (t : DateTime) : ℤ := (t.date.rank * 86400 + t.secs) * 2000000000 + t.frac

theorem key_injective : Function.Injective key := by
  intro t u h
  have ht := t.secs_lt
  have hu := u.secs_lt
  have ht1 := t.frac_lt
  have hu1 := u.frac_lt
  unfold key at h
  ext1
  · refine Date.rank_injective ?_
    omega
  · omega
  · omega

instance : LinearOrder DateTime := LinearOrder.lift' key key_injective

/-- Instants are compared by date and time. -/
theorem lt_iff : t < u ↔ t.date < u.date ∨
    t.date = u.date ∧ (t.secs < u.secs ∨ t.secs = u.secs ∧ t.frac < u.frac) := by
  have ht := t.secs_lt
  have hu := u.secs_lt
  have ht1 := t.frac_lt
  have hu1 := u.frac_lt
  have hdate : t.date = u.date ↔ t.date.rank = u.date.rank := Date.rank_injective.eq_iff.symm
  rw [Date.lt_iff_rank, hdate]
  show key t < key u ↔ _
  unfold key
  omega

theorem le_iff : t ≤ u ↔ t.date < u.date ∨
    t.date = u.date ∧ (t.secs < u.secs ∨ t.secs = u.secs ∧ t.frac ≤ u.frac) := by
  have hdate : t.date = u.date ↔ t.date.rank = u.date.rank := Date.rank_injective.eq_iff.symm
  have hdate' : u.date = t.date ↔ u.date.rank = t.date.rank := Date.rank_injective.eq_iff.symm
  rw [← not_lt, lt_iff, hdate, hdate', Date.lt_iff_rank, Date.lt_iff_rank]
  omega

theorem date_le (h : t ≤ u) : t.date ≤ u.date := by
  rcases le_iff.mp h with hlt | ⟨heq, -⟩
  · exact hlt.le
  · exact heq.le

/-- An instant some seconds later; a leap second ends. -/
def plus (t : DateTime) (seconds : ℕ) : DateTime where
  date := t.date.addDays ((t.secs + seconds) / 86400)
  secs := (t.secs + seconds) % 86400
  frac := t.frac % 1000000000
  secs_lt := Nat.mod_lt _ (by decide)
  frac_lt := (Nat.mod_lt _ (by decide)).trans (by decide)

/-- The same time on another day of the month, if there is one. -/
def withDay (t : DateTime) (day : ℕ) : Option DateTime :=
  (t.date.withDay day).map fun date => { t with date := date }

/-- The same day and time of another month, if there is one. -/
def withMonth (t : DateTime) (month : ℕ) : Option DateTime :=
  (t.date.withMonth month).map fun date => { t with date := date }

def withHour (t : DateTime) (hour : ℕ) : Option DateTime :=
  if h : hour < 24 then some { t with secs := hour * 3600 + t.secs % 3600, secs_lt := by omega }
  else none

def withMinute (t : DateTime) (minute : ℕ) : Option DateTime :=
  if h : minute < 60 then
    some { t with
      secs := t.secs / 3600 * 3600 + minute * 60 + t.secs % 60
      secs_lt := by have ht := t.secs_lt; omega }
  else none

def withSecond (t : DateTime) (second : ℕ) : Option DateTime :=
  if h : second < 60 then
    some { t with
      secs := t.secs / 60 * 60 + second
      secs_lt := by have ht := t.secs_lt; omega }
  else none

/-- A whole minute. -/
def Aligned (t : DateTime) : Prop := t.second = 0 ∧ t.frac = 0

end DateTime

end ClawDesk.Foundations.Calendar
