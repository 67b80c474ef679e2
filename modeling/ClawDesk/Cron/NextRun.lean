import ClawDesk.Cron.Parser
import ClawDesk.Foundations.Calendar

/-!
# The search for the next run

`compute_next_run` starts at the minute after a given instant and goes on to the next value of the
first field that does not match: the month, the day, the weekday, the hour or the minute.  After
1500 rounds it gives up.

What a round does is said once (`CronExpression.advance_spec`): it goes on to where a match may come
next (`Move`), or, in a leap year, back to the first of January (`Wrap`).
-/

namespace ClawDesk.Cron

open Foundations Foundations.Calendar

/-! ### The search -/

/-- The same date at midnight, with the seconds as they are. -/
def midnightOr (candidate t : DateTime) : DateTime :=
  (((t.withHour 0).getD candidate).withMinute 0).getD candidate

/-- Advance to the first of the next month. -/
def toNextMonth (candidate : DateTime) : DateTime :=
  let first := midnightOr candidate ((candidate.withDay 1).getD candidate)
  if first.date.month = 12 then first.plus (31 * 86400)
  else (first.withMonth (first.date.month + 1)).getD (first.plus (28 * 86400))

namespace CronExpression

/-- Whether an instant matches. -/
def matchesTime (cron : CronExpression) (dt : DateTime) : Bool :=
  cron.minute.matchesValue dt.minute && cron.hour.matchesValue dt.hour &&
    cron.dayOfMonth.matchesValue dt.date.day && cron.month.matchesValue dt.date.month &&
    cron.dayOfWeek.matchesValue dt.date.weekday

/-- The hour and minute fields: the next candidate, or none if they match. -/
def advanceTime (cron : CronExpression) (candidate : DateTime) : Option DateTime :=
  let (nextHour, hourWrapped) := cron.hour.nextValue candidate.hour 0 23
  if hourWrapped then some (midnightOr candidate (candidate.plus 86400))
  else if nextHour ≠ candidate.hour then
    some ((((candidate.withHour nextHour).getD candidate).withMinute 0).getD candidate)
  else
    let (nextMinute, minuteWrapped) := cron.minute.nextValue candidate.minute 0 59
    if minuteWrapped then
      let later := candidate.plus 3600
      some ((later.withMinute 0).getD later)
    else if nextMinute ≠ candidate.minute then
      some ((candidate.withMinute nextMinute).getD candidate)
    else none

/-- The day-of-month field and the day-of-week check, and what comes after them. -/
def advanceDay (cron : CronExpression) (candidate : DateTime) : Option DateTime :=
  let (nextDom, domWrapped) := cron.dayOfMonth.nextValue candidate.date.day 1 31
  if domWrapped then some (toNextMonth candidate)
  else if nextDom ≠ candidate.date.day then
    match candidate.withDay nextDom with
    | some c => some (midnightOr c c)
    | none => some (toNextMonth candidate)
  else if cron.dayOfWeek.matchesValue candidate.date.weekday = false then
    some (midnightOr candidate (candidate.plus 86400))
  else advanceTime cron candidate

/-- One round: the month field, and what comes after it. -/
def advance (cron : CronExpression) (candidate : DateTime) : Option DateTime :=
  let (nextMonth, monthWrapped) := cron.month.nextValue candidate.date.month 1 12
  if monthWrapped then
    let january := midnightOr candidate
      ((((candidate.withMonth 1).getD candidate).withDay 1).getD candidate)
    let later := january.plus (365 * 86400)
    some ((((later.withMonth 1).getD later).withDay 1).getD later)
  else if nextMonth ≠ candidate.date.month then
    some (midnightOr candidate
      ((((candidate.withMonth nextMonth).getD candidate).withDay 1).getD candidate))
  else advanceDay cron candidate

/-- The loop, for at most the given number of rounds. -/
def search (cron : CronExpression) : ℕ → DateTime → Option DateTime
  | 0, _ => none
  | rounds + 1, candidate =>
      match advance cron candidate with
      | none => some candidate
      | some next => search cron rounds next

/-- The minute after an instant. -/
def firstCandidate (origin : DateTime) : DateTime :=
  ((origin.plus 60).withSecond 0).getD (origin.plus 60)

/-- The far future. -/
def fallback (origin : DateTime) : DateTime := origin.plus (365 * 86400)

def computeNextRun (cron : CronExpression) (origin : DateTime) : DateTime :=
  (search cron 1500 (firstCandidate origin)).getD (fallback origin)

end CronExpression

structure ParsedSchedule where
  expression : String
  nextRun : DateTime
  timezone : String

/-- Parse a cron expression string into a schedule. -/
def parseCronExpression (now : DateTime) (expr : String) : Except CronError ParsedSchedule :=
  (parseExpression expr).map fun cron => ⟨expr, cron.computeNextRun now, "UTC"⟩

/-! ### The candidates -/

section Candidates

variable {candidate c t : DateTime} {d : Date} {month day n : ℕ}

/-- The seconds and their fraction, at midnight of a date. -/
def atMidnight (t : DateTime) (date : Date) : DateTime where
  date := date
  secs := t.second
  frac := t.frac
  secs_lt := (Nat.mod_lt _ (by decide)).trans (by decide)
  frac_lt := t.frac_lt

theorem midnightOr_eq (candidate t : DateTime) : midnightOr candidate t = atMidnight t t.date := by
  unfold midnightOr
  rw [DateTime.withHour, dif_pos (by decide), Option.getD_some, DateTime.withMinute,
    dif_pos (by decide), Option.getD_some]
  ext1
  · rfl
  · show (0 * 3600 + t.secs % 3600) / 3600 * 3600 + 0 * 60 + (0 * 3600 + t.secs % 3600) % 60 =
      t.secs % 60
    omega
  · rfl

/-- Going on by whole days changes only the date. -/
theorem plus_days (hfrac : t.frac < 1000000000) (n : ℕ) :
    t.plus (n * 86400) = { t with date := t.date.addDays n } := by
  have hsecs := t.secs_lt
  ext1
  · show t.date.addDays ((t.secs + n * 86400) / 86400) = t.date.addDays n
    congr 1
    omega
  · show (t.secs + n * 86400) % 86400 = t.secs
    omega
  · exact Nat.mod_eq_of_lt hfrac

theorem atMidnight_plus_days (hfrac : t.frac < 1000000000) (d : Date) (n : ℕ) :
    (atMidnight t d).plus (n * 86400) = atMidnight t (d.addDays n) :=
  plus_days (t := atMidnight t d) hfrac n

/-- With the first day of the month and midnight set. -/
theorem midnightOr_withDay_one (candidate t : DateTime) :
    midnightOr candidate ((t.withDay 1).getD candidate) = atMidnight t t.date.monthStart := by
  rw [DateTime.withDay, Date.withDay_one, midnightOr_eq]
  rfl

theorem atMidnight_withMonth (t : DateTime) {d e : Date} (h : d.withMonth month = some e)
    (candidate : DateTime) :
    ((atMidnight t d).withMonth month).getD candidate = atMidnight t e := by
  have hmap : (atMidnight t d).withMonth month = some (atMidnight t e) := by
    show (d.withMonth month).map _ = _
    rw [h]
    rfl
  rw [hmap, Option.getD_some]

theorem atMidnight_withDay_one (t : DateTime) (d : Date) (candidate : DateTime) :
    ((atMidnight t d).withDay 1).getD candidate = atMidnight t d.monthStart := by
  rw [DateTime.withDay, show (atMidnight t d).date = d from rfl, Date.withDay_one]
  rfl

/-- The first of the next month, at midnight. -/
theorem toNextMonth_eq (hfrac : c.frac < 1000000000) :
    toNextMonth c = atMidnight c c.date.nextMonth := by
  unfold toNextMonth
  rw [midnightOr_withDay_one]
  show (if c.date.month = 12 then (atMidnight c c.date.monthStart).plus (31 * 86400) else _) = _
  split_ifs with hmonth
  · have hdays := c.date.addDays_daysIn
    rw [hmonth] at hdays
    rw [atMidnight_plus_days hfrac, ← hdays]
    rfl
  · have hlt : c.date.month < 12 := by
      have hle := c.date.month_le
      omega
    refine atMidnight_withMonth c ?_ _
    rw [Date.nextMonth_of_lt hlt]
    exact dif_pos ⟨⟨Nat.le_add_left 1 _, hlt⟩, (by decide : 1 ≤ 28).trans (daysIn_mem _ _).1⟩

/-- A year after the first of January is the first of January again, or the last day of the same
year. -/
theorem january_eq (hfrac : c.frac < 1000000000) :
    let january := midnightOr candidate
      ((((c.withMonth 1).getD candidate).withDay 1).getD candidate)
    let later := january.plus (365 * 86400)
    (((later.withMonth 1).getD later).withDay 1).getD later = atMidnight c
      (Date.newYear (if IsLeap c.date.year then c.date.year else c.date.year + 1)) := by
  -- January has every day that another month has, so it can always be set
  have hjanuary : ∀ d : Date, ∃ e, d.withMonth 1 = some e ∧ e.monthStart = Date.newYear d.year :=
    fun d => ⟨⟨d.year, 1, d.day, Nat.le_refl 1, by decide, d.day_pos, d.day_le_31⟩,
      dif_pos ⟨⟨Nat.le_refl 1, by decide⟩, d.day_le_31⟩, rfl⟩
  obtain ⟨e, he, hstart⟩ := hjanuary c.date
  obtain ⟨e', he', hstart'⟩ := hjanuary ((Date.newYear c.date.year).addDays 365)
  have hset : c.withMonth 1 = some { c with date := e } := by
    rw [DateTime.withMonth, he]
    rfl
  intro january later
  have hfirst : january = atMidnight c (Date.newYear c.date.year) := by
    show midnightOr _ _ = _
    rw [hset, Option.getD_some, midnightOr_withDay_one, ← hstart]
    rfl
  have hlater : later = atMidnight c ((Date.newYear c.date.year).addDays 365) := by
    show january.plus (365 * 86400) = _
    rw [hfirst, atMidnight_plus_days hfrac]
  rw [hlater, atMidnight_withMonth c he', atMidnight_withDay_one, hstart', Date.addDays_365]
  split_ifs <;> rfl

/-- With the minute set. -/
theorem withMinute_eq {minute : ℕ} (h : minute ≤ 59) (c candidate : DateTime) :
    ∃ t, (c.withMinute minute).getD candidate = t ∧ t.date = c.date ∧ t.frac = c.frac ∧
      t.second = c.second ∧ t.secs / 60 = c.hour * 60 + minute := by
  refine ⟨_, rfl, ?_⟩
  rw [DateTime.withMinute, dif_pos (by omega), Option.getD_some]
  refine ⟨rfl, rfl, ?_, ?_⟩
  · show (c.secs / 3600 * 3600 + minute * 60 + c.secs % 60) % 60 = c.secs % 60
    omega
  · show (c.secs / 3600 * 3600 + minute * 60 + c.secs % 60) / 60 = c.secs / 3600 * 60 + minute
    omega

/-- With the hour set. -/
theorem withHour_eq {hour : ℕ} (h : hour ≤ 23) (c candidate : DateTime) :
    ∃ t, (c.withHour hour).getD candidate = t ∧ t.date = c.date ∧ t.frac = c.frac ∧
      t.second = c.second ∧ t.hour = hour := by
  refine ⟨_, rfl, ?_⟩
  rw [DateTime.withHour, dif_pos (by omega), Option.getD_some]
  refine ⟨rfl, rfl, ?_, ?_⟩
  · show (hour * 3600 + c.secs % 3600) % 60 = c.secs % 60
    omega
  · show (hour * 3600 + c.secs % 3600) / 3600 = hour
    omega

end Candidates

/-! ### What a round does -/

namespace CronExpression

variable {cron : CronExpression} {c t : DateTime}

def matchesDate (cron : CronExpression) (d : Date) : Bool :=
  cron.dayOfMonth.matchesValue d.day && cron.month.matchesValue d.month &&
    cron.dayOfWeek.matchesValue d.weekday

theorem matchesDate_iff {d : Date} : cron.matchesDate d = true ↔
    cron.month.matchesValue d.month = true ∧ cron.dayOfMonth.matchesValue d.day = true ∧
      cron.dayOfWeek.matchesValue d.weekday = true := by
  rw [matchesDate, Bool.and_eq_true, Bool.and_eq_true]
  tauto

theorem matchesTime_iff : cron.matchesTime t = true ↔ cron.matchesDate t.date = true ∧
    cron.hour.matchesValue t.hour = true ∧ cron.minute.matchesValue t.minute = true := by
  simp only [matchesTime, matchesDate, Bool.and_eq_true]
  tauto

/-- How a candidate may follow another one. -/
inductive Move (cron : CronExpression) (c t : DateTime) : Prop
  /-- On to a later date; no date in between matches. -/
  | dates (later : c.date < t.date)
      (skipped : ∀ d, c.date ≤ d → d < t.date → cron.matchesDate d = false)
      (midnight : t.secs < 60)
      (month : t.date.day = 1 ∨ cron.month.matchesValue t.date.month = true)
      (year : t.date.year = c.date.year ∨ ¬ IsLeap c.date.year ∨
        cron.month.matchesValue 12 = true)
  /-- Back to the first day of a month that does not match. -/
  | sameMonth (skipped : cron.month.matchesValue c.date.month = false) (day : c.date.day ≠ 1)
      (date : t.date = c.date.monthStart) (midnight : t.secs < 60)
  | nextDay (isMatch : cron.matchesDate c.date = true) (skipped : cron.hour.NoneFrom c.hour 23)
      (date : t.date = c.date.next) (midnight : t.secs < 60)
  | hour (isMatch : cron.matchesDate c.date = true) {h : ℕ} (next : cron.hour.Next c.hour 23 h)
      (later : c.hour < h) (date : t.date = c.date) (time : t.secs / 60 = h * 60)
  | nextHour (isMatch : cron.matchesDate c.date = true)
      (hourMatch : cron.hour.matchesValue c.hour = true)
      (skipped : cron.minute.NoneFrom c.minute 59)
      (date : t.date = c.date.addDays ((c.secs + 3600) / 86400))
      (time : t.secs / 60 = (c.secs + 3600) % 86400 / 3600 * 60)
  | minute (isMatch : cron.matchesDate c.date = true)
      (hourMatch : cron.hour.matchesValue c.hour = true) {m : ℕ}
      (next : cron.minute.Next c.minute 59 m) (later : c.minute < m) (date : t.date = c.date)
      (time : t.secs / 60 = c.hour * 60 + m)

/-- Back to the first day of a leap year, from a month after which none matches. -/
structure Wrap (cron : CronExpression) (c t : DateTime) : Prop where
  leap : IsLeap c.date.year
  skipped : cron.month.NoneFrom c.date.month 12
  date : t.date = Date.newYear c.date.year
  midnight : t.secs < 60

/-- What a round does, if it starts at `c` and ends with `next`. -/
def RoundSpec (cron : CronExpression) (c : DateTime) (next : Option DateTime) : Prop :=
  (next = none ∧ cron.matchesTime c = true) ∨
    ∃ t, next = some t ∧ t.frac = c.frac ∧ t.second = c.second ∧ (Move cron c t ∨ Wrap cron c t)

theorem hour_le (c : DateTime) : c.hour ≤ 23 := by
  have h := c.secs_lt
  unfold DateTime.hour
  omega

theorem minute_le (c : DateTime) : c.minute ≤ 59 := by
  unfold DateTime.minute
  omega

theorem advanceTime_spec (hwf : cron.WellFormed) (hfrac : c.frac < 1000000000)
    (hdate : cron.matchesDate c.date = true) : RoundSpec cron c (cron.advanceTime c) := by
  have hsecs := c.secs_lt
  rcases CronField.nextValue_spec hwf.hour (hour_le c) with ⟨v, hv, hnone⟩ | ⟨h, hh, hnext⟩
  · have hadvance : cron.advanceTime c = some (atMidnight c c.date.next) := by
      rw [advanceTime, hv]
      refine (if_pos rfl).trans (congrArg some ?_)
      rw [midnightOr_eq, show 86400 = 1 * 86400 from rfl, plus_days hfrac]
      rfl
    refine .inr ⟨_, hadvance, rfl, Nat.mod_mod c.secs 60, ?_⟩
    exact .inl (.nextDay hdate hnone rfl (Nat.mod_lt _ (by decide)))
  · have hadvance : cron.advanceTime c =
        if h ≠ c.hour then some ((((c.withHour h).getD c).withMinute 0).getD c)
        else match cron.minute.nextValue c.minute 0 59 with
          | (nextMinute, minuteWrapped) =>
            if minuteWrapped then some (((c.plus 3600).withMinute 0).getD (c.plus 3600))
            else if nextMinute ≠ c.minute then some ((c.withMinute nextMinute).getD c)
            else none := by
      rw [advanceTime, hh]
      rfl
    rw [hadvance]
    by_cases hhour : h = c.hour
    · have hmatch : cron.hour.matchesValue c.hour = true := hhour ▸ hnext.isMatch
      rw [if_neg (not_not.mpr hhour)]
      rcases CronField.nextValue_spec hwf.minute (minute_le c) with ⟨v, hv, hnone⟩ | ⟨m, hm, hnext'⟩
      · obtain ⟨t, ht, hdate', hfrac', hsecond, htime⟩ :=
          withMinute_eq (Nat.zero_le 59) (c.plus 3600) (c.plus 3600)
        rw [hv]
        refine .inr ⟨t, congrArg some ht, hfrac'.trans (Nat.mod_eq_of_lt hfrac), hsecond.trans ?_,
          .inl (.nextHour hdate hmatch hnone hdate' (htime.trans (Nat.add_zero _)))⟩
        show (c.secs + 3600) % 86400 % 60 = c.secs % 60
        omega
      · rw [hm]
        by_cases hminute : m = c.minute
        · refine .inl ⟨if_neg (not_not.mpr hminute), ?_⟩
          exact matchesTime_iff.mpr ⟨hdate, hmatch, hminute ▸ hnext'.isMatch⟩
        · obtain ⟨t, ht, hdate', hfrac', hsecond, htime⟩ := withMinute_eq hnext'.le_max c c
          refine .inr ⟨t, (if_pos hminute).trans (congrArg some ht), hfrac', hsecond, ?_⟩
          exact .inl (.minute hdate hmatch hnext' (by have hle := hnext'.le; omega) hdate' htime)
    · rw [if_pos hhour]
      obtain ⟨u, hu, hdateu, hfracu, hsecondu, hhouru⟩ := withHour_eq hnext.le_max c c
      obtain ⟨t, ht, hdate', hfrac', hsecond, htime⟩ := withMinute_eq (Nat.zero_le 59) u c
      rw [hu]
      refine .inr ⟨t, congrArg some ht, hfrac'.trans hfracu, hsecond.trans hsecondu, ?_⟩
      refine .inl (.hour hdate hnext (by have hle := hnext.le; omega) (hdate'.trans hdateu) ?_)
      rw [htime, hhouru]
      rfl

/-- The date after another one is of the same year, except after December. -/
theorem year_of_next (hmonth : cron.month.matchesValue c.date.month = true) :
    c.date.next.year = c.date.year ∨ cron.month.matchesValue 12 = true := by
  rcases c.date.next_cases with hnext | ⟨hyear, -⟩
  · rcases c.date.nextMonth_cases.2 with hyear | ⟨hdecember, -⟩
    · exact .inl (hnext ▸ hyear)
    · exact .inr (hdecember ▸ hmonth)
  · exact .inl hyear

/-- On to the next month, if no day that is left of this one matches. -/
theorem Move.nextMonth (hmonth : cron.month.matchesValue c.date.month = true)
    (hnone : ∀ u, c.date.day ≤ u → u ≤ daysIn c.date.year c.date.month →
      cron.dayOfMonth.matchesValue u = false)
    (hdate : t.date = c.date.nextMonth) (hmidnight : t.secs < 60) : Move cron c t := by
  obtain ⟨hday, hyear⟩ := c.date.nextMonth_cases
  refine .dates (hdate ▸ c.date.lt_nextMonth) (fun d hle hlt => ?_) hmidnight
    (.inl (hdate ▸ hday)) ?_
  · obtain ⟨hsameyear, hsamemonth, hlater⟩ := Date.same_month hle (hdate ▸ hlt)
    have hin : d.day ≤ daysIn c.date.year c.date.month := by
      rw [← hsameyear, ← hsamemonth]
      exact d.day_le
    rw [matchesDate, hnone d.day hlater hin]
    rfl
  · rcases hyear with hyear | ⟨hdecember, -⟩
    · exact .inl (hdate ▸ hyear)
    · exact .inr (.inr (hdecember ▸ hmonth))

/-- On to a later day of the month, if no day before it matches. -/
theorem Move.laterDay (hmonth : cron.month.matchesValue c.date.month = true) {day : ℕ}
    (hnone : ∀ u, c.date.day ≤ u → u < day → cron.dayOfMonth.matchesValue u = false)
    (hlater : c.date.day < day) (hyear : t.date.year = c.date.year)
    (hsame : t.date.month = c.date.month) (hday : t.date.day = day) (hmidnight : t.secs < 60) :
    Move cron c t := by
  refine .dates ?_ (fun d hle hlt => ?_) hmidnight (.inr (hsame ▸ hmonth)) (.inl hyear)
  · exact Date.lt_iff.mpr (.inr ⟨hyear.symm, .inr ⟨hsame.symm, hday.symm ▸ hlater⟩⟩)
  · have hbetween : c.date.day ≤ d.day ∧ d.day < day := by
      have hlt' := Date.lt_iff.mp hlt
      have hle' := Date.le_iff.mp hle
      omega
    rw [matchesDate, hnone d.day hbetween.1 hbetween.2]
    rfl

/-- On to the next year, if no month that is left of this one matches. -/
theorem Move.nextYear (hcommon : ¬ IsLeap c.date.year)
    (hnone : cron.month.NoneFrom c.date.month 12)
    (hdate : t.date = Date.newYear (c.date.year + 1)) (hmidnight : t.secs < 60) :
    Move cron c t := by
  refine .dates ?_ (fun d hle hlt => ?_) hmidnight (.inl (hdate ▸ rfl)) (.inr (.inl hcommon))
  · rw [hdate, ← not_le, Date.newYear_le_iff]
    omega
  · rw [hdate, ← not_le, Date.newYear_le_iff] at hlt
    have hlater : c.date.month ≤ d.month := by
      have hle' := Date.le_iff.mp hle
      omega
    rw [matchesDate, hnone d.month hlater d.month_le, Bool.and_false]
    rfl

/-- On to the next day, if the weekday does not match. -/
theorem Move.weekday (hmonth : cron.month.matchesValue c.date.month = true)
    (hdow : cron.dayOfWeek.matchesValue c.date.weekday = false) (hdate : t.date = c.date.next)
    (hmidnight : t.secs < 60) : Move cron c t := by
  have hskipped : ∀ d, c.date ≤ d → d < t.date → cron.matchesDate d = false := by
    intro d hle hlt
    have hsame : d = c.date := by
      refine le_antisymm (not_lt.mp fun hlt' => ?_) hle
      exact absurd (Date.next_le_iff.mpr hlt') (not_le.mpr (hdate ▸ hlt))
    rw [hsame, matchesDate, hdow, Bool.and_false]
  refine .dates (hdate ▸ c.date.lt_next) hskipped hmidnight ?_ ?_
  · rw [hdate]
    rcases c.date.next_cases with hnext | ⟨-, hsame, -⟩
    · exact .inl (hnext ▸ c.date.nextMonth_cases.1)
    · exact .inr (hsame ▸ hmonth)
  · rw [hdate]
    exact (year_of_next hmonth).imp_right .inr

theorem advanceDay_spec (hwf : cron.WellFormed) (hfrac : c.frac < 1000000000)
    (hmonth : cron.month.matchesValue c.date.month = true) :
    RoundSpec cron c (cron.advanceDay c) := by
  have hlast := (daysIn_mem c.date.year c.date.month).2
  rcases CronField.nextValue_spec hwf.dayOfMonth c.date.day_le_31 with
    ⟨v, hv, hnone⟩ | ⟨day, hd, hnext⟩
  · have hadvance : cron.advanceDay c = some (atMidnight c c.date.nextMonth) := by
      rw [advanceDay, hv]
      exact (if_pos rfl).trans (congrArg some (toNextMonth_eq hfrac))
    refine .inr ⟨_, hadvance, rfl, Nat.mod_mod c.secs 60, ?_⟩
    exact .inl (.nextMonth hmonth (fun u hu hle => hnone u hu (hle.trans hlast)) rfl
      (Nat.mod_lt _ (by decide)))
  · have hadvance : cron.advanceDay c =
        if day ≠ c.date.day then
          match c.withDay day with
          | some c => some (midnightOr c c)
          | none => some (toNextMonth c)
        else if cron.dayOfWeek.matchesValue c.date.weekday = false then
          some (midnightOr c (c.plus 86400))
        else cron.advanceTime c := by
      rw [advanceDay, hd]
      rfl
    rw [hadvance]
    by_cases hday : day = c.date.day
    · rw [if_neg (not_not.mpr hday)]
      by_cases hdow : cron.dayOfWeek.matchesValue c.date.weekday = false
      · have hnextday : midnightOr c (c.plus 86400) = atMidnight c c.date.next := by
          rw [midnightOr_eq, show 86400 = 1 * 86400 from rfl, plus_days hfrac]
          rfl
        rw [if_pos hdow, hnextday]
        refine .inr ⟨_, rfl, rfl, Nat.mod_mod c.secs 60, ?_⟩
        exact .inl (.weekday hmonth hdow rfl (Nat.mod_lt _ (by decide)))
      · rw [if_neg hdow]
        refine advanceTime_spec hwf hfrac (matchesDate_iff.mpr ⟨hmonth, ?_, ?_⟩)
        · exact hday ▸ hnext.isMatch
        · exact eq_true_of_ne_false hdow
    · rw [if_pos hday]
      by_cases hvalid : 1 ≤ day ∧ day ≤ daysIn c.date.year c.date.month
      · have hset : c.withDay day = some { c with date := ⟨c.date.year, c.date.month, day,
            c.date.month_pos, c.date.month_le, hvalid.1, hvalid.2⟩ } := by
          rw [DateTime.withDay, Date.withDay, dif_pos hvalid]
          rfl
        rw [hset]
        refine .inr ⟨_, congrArg some (midnightOr_eq _ _), rfl, Nat.mod_mod c.secs 60, ?_⟩
        have hle := hnext.le
        exact .inl (.laterDay hmonth hnext.least (by omega) rfl rfl rfl (Nat.mod_lt _ (by decide)))
      · -- the month has no such day
        have hset : c.withDay day = none := by
          rw [DateTime.withDay, Date.withDay, dif_neg hvalid]
          rfl
        rw [hset]
        refine .inr ⟨_, congrArg some (toNextMonth_eq hfrac), rfl, Nat.mod_mod c.secs 60, ?_⟩
        refine .inl (.nextMonth hmonth (fun u hu hle => hnext.least u hu ?_) rfl
          (Nat.mod_lt _ (by decide)))
        have hpos := c.date.day_pos
        have hle := hnext.le
        omega

/-- On to a later month, or back to the first day of this one if the later one has no such day. -/
theorem advance_month {month : ℕ} (hnext : cron.month.Next c.date.month 12 month)
    (hlt : c.date.month < month) :
    ∃ t, midnightOr c ((((c.withMonth month).getD c).withDay 1).getD c) = t ∧ t.frac = c.frac ∧
      t.second = c.second ∧ Move cron c t := by
  rw [midnightOr_withDay_one]
  have hpos := c.date.month_pos
  have hle := hnext.le_max
  by_cases hvalid : (1 ≤ month ∧ month ≤ 12) ∧ c.date.day ≤ daysIn c.date.year month
  · have hset : c.withMonth month = some { c with date := ⟨c.date.year, month, c.date.day,
        hvalid.1.1, hvalid.1.2, c.date.day_pos, hvalid.2⟩ } := by
      rw [DateTime.withMonth, Date.withMonth, dif_pos hvalid]
      rfl
    rw [hset]
    refine ⟨_, rfl, rfl, Nat.mod_mod c.secs 60, ?_⟩
    refine .dates ?_ (fun d hd hdlt => ?_) (Nat.mod_lt _ (by decide)) (.inl rfl) (.inl rfl)
    · exact Date.lt_iff.mpr (.inr ⟨rfl, .inl hlt⟩)
    · have hbetween : c.date.month ≤ d.month ∧ d.month < month := by
        have hdpos := d.day_pos
        have hd' := Date.le_iff.mp hd
        have hdlt' : d.year < c.date.year ∨
            d.year = c.date.year ∧ (d.month < month ∨ d.month = month ∧ d.day < 1) :=
          Date.lt_iff.mp hdlt
        omega
      rw [matchesDate, hnext.least d.month hbetween.1 hbetween.2, Bool.and_false]
      rfl
  · -- the later month has no such day: `unwrap_or` keeps the month as it is
    have hset : c.withMonth month = none := by
      rw [DateTime.withMonth, Date.withMonth, dif_neg hvalid]
      rfl
    rw [hset]
    refine ⟨_, rfl, rfl, Nat.mod_mod c.secs 60, ?_⟩
    refine .sameMonth (hnext.least _ (Nat.le_refl _) hlt) (fun hone => hvalid ⟨by omega, ?_⟩) rfl
      (Nat.mod_lt _ (by decide))
    rw [hone]
    exact (by decide : 1 ≤ 28).trans (daysIn_mem _ _).1

/-- **What a round does.** -/
theorem advance_spec (hwf : cron.WellFormed) (hfrac : c.frac < 1000000000) :
    RoundSpec cron c (cron.advance c) := by
  rcases CronField.nextValue_spec hwf.month c.date.month_le with
    ⟨v, hv, hnone⟩ | ⟨month, hm, hnext⟩
  · have hadvance : cron.advance c = some (atMidnight c
        (Date.newYear (if IsLeap c.date.year then c.date.year else c.date.year + 1))) := by
      rw [advance, hv]
      exact (if_pos rfl).trans (congrArg some (january_eq hfrac))
    refine .inr ⟨_, hadvance, rfl, Nat.mod_mod c.secs 60, ?_⟩
    by_cases hleap : IsLeap c.date.year
    · refine .inr ⟨hleap, hnone, ?_, Nat.mod_lt _ (by decide)⟩
      show Date.newYear (if IsLeap c.date.year then _ else _) = _
      rw [if_pos hleap]
    · have hdate : (atMidnight c (Date.newYear (if IsLeap c.date.year then c.date.year
          else c.date.year + 1))).date = Date.newYear (c.date.year + 1) := by
        show Date.newYear (if IsLeap c.date.year then _ else _) = _
        rw [if_neg hleap]
      exact .inl (.nextYear hleap hnone hdate (Nat.mod_lt _ (by decide)))
  · have hadvance : cron.advance c =
        if month ≠ c.date.month then
          some (midnightOr c ((((c.withMonth month).getD c).withDay 1).getD c))
        else cron.advanceDay c := by
      rw [advance, hm]
      rfl
    rw [hadvance]
    by_cases hmonth : month = c.date.month
    · rw [if_neg (not_not.mpr hmonth)]
      exact advanceDay_spec hwf hfrac (hmonth ▸ hnext.isMatch)
    · have hle := hnext.le
      obtain ⟨t, ht, hfrac', hsecond, hmove⟩ := advance_month hnext (by omega)
      exact .inr ⟨t, (if_pos hmonth).trans (congrArg some ht), hfrac', hsecond, .inl hmove⟩

end CronExpression

end ClawDesk.Cron
