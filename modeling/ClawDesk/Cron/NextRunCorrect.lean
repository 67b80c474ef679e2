import ClawDesk.Cron.NextRun

/-!
# Whether the next run is right

The next run is to be the first whole minute after a given instant that matches, if there is one
within 366 days.  The search finds it (`CronExpression.computeNextRun_correct_iff`), except that

* the fraction of a second of the given instant is kept;
* from a month of a leap year after which no month matches, it goes back to the first of January of
  the same year, and finds a match in the past or none;
* the far future that is returned when none is found has the seconds of the given instant.
-/

namespace ClawDesk.Cron.CronExpression

open Foundations Foundations.Calendar

variable {cron : CronExpression} {c e t u : DateTime}

/-! ### What is to be found -/

/-- A whole minute that matches. -/
def IsMatch (cron : CronExpression) (t : DateTime) : Prop :=
  t.Aligned ∧ cron.matchesTime t = true

/-- A whole minute that matches, in the 366 days after an instant. -/
def Due (cron : CronExpression) (origin t : DateTime) : Prop :=
  cron.IsMatch t ∧ origin < t ∧ t ≤ origin.plus (366 * 86400)

/-- A later whole minute, and the first one that is due, if any is. -/
structure CorrectNextRun (cron : CronExpression) (origin result : DateTime) : Prop where
  aligned : result.Aligned
  later : origin < result
  least : ∀ t, cron.Due origin t → cron.Due origin result ∧ result ≤ t

/-- After some number of rounds the candidate is another one. -/
inductive Reached (cron : CronExpression) : ℕ → DateTime → DateTime → Prop
  | refl (c : DateTime) : Reached cron 0 c c
  | step {n : ℕ} {c t e : DateTime} (round : cron.advance c = some t) (rest : Reached cron n t e) :
      Reached cron (n + 1) c e

/-- The search begins in a leap year whose rest has no match, nor does its December. -/
structure LeapYearOver (cron : CronExpression) (origin : DateTime) : Prop where
  leap : IsLeap (firstCandidate origin).date.year
  december : cron.month.matchesValue 12 = false
  past : ∀ t, cron.IsMatch t → t.date.year = (firstCandidate origin).date.year →
    t < firstCandidate origin

/-- When the next run is right. -/
structure RightWhen (cron : CronExpression) (origin : DateTime) : Prop where
  /-- There is no fraction of a second. -/
  whole : origin.frac % 1000000000 = 0
  /-- A leap year that is over has no match at all, and the first one that is due, if any is, is 365
  days away. -/
  leapYear : cron.LeapYearOver origin →
    (∀ t, cron.IsMatch t → t.date.year ≠ (firstCandidate origin).date.year) ∧
      ∀ t, cron.Due origin t → cron.Due origin (fallback origin) ∧ fallback origin ≤ t
  /-- The instant is a whole minute, or the search comes to a candidate that matches. -/
  found : origin.second = 0 ∨ ∃ n < 1500, ∃ c, cron.Reached n (firstCandidate origin) c ∧
    cron.matchesTime c = true

/-! ### Moves -/

/-- A candidate from which something moves does not match. -/
theorem Move.not_match (h : Move cron c t) : cron.matchesTime c = false := by
  refine Bool.eq_false_iff.mpr fun hmatch => ?_
  obtain ⟨hdate, hhour, hminute⟩ := matchesTime_iff.mp hmatch
  cases h with
  | dates later skipped =>
      exact Bool.eq_false_iff.mp (skipped c.date (le_refl _) later) hdate
  | sameMonth skipped =>
      exact Bool.eq_false_iff.mp skipped (matchesDate_iff.mp hdate).1
  | nextDay _ skipped =>
      exact Bool.eq_false_iff.mp (skipped c.hour (Nat.le_refl _) (hour_le c)) hhour
  | hour _ next later =>
      exact Bool.eq_false_iff.mp (next.least c.hour (Nat.le_refl _) later) hhour
  | nextHour _ _ skipped =>
      exact Bool.eq_false_iff.mp (skipped c.minute (Nat.le_refl _) (minute_le c)) hminute
  | minute _ _ next later =>
      exact Bool.eq_false_iff.mp (next.least c.minute (Nat.le_refl _) later) hminute

theorem aligned_le_iff (hc : c.Aligned) (hu : u.Aligned) :
    c ≤ u ↔ c.date < u.date ∨ c.date = u.date ∧ c.secs / 60 ≤ u.secs / 60 := by
  obtain ⟨hcsecond, hcfrac⟩ := hc
  obtain ⟨husecond, hufrac⟩ := hu
  have hsecs : c.secs / 60 ≤ u.secs / 60 ↔ c.secs < u.secs ∨ c.secs = u.secs := by
    unfold DateTime.second at hcsecond husecond
    omega
  rw [DateTime.le_iff, hsecs, hcfrac, hufrac]
  simp only [Nat.le_refl, and_true]

theorem le_of_midnight (hmidnight : t.secs < 60) (ht : t.Aligned) (hu : u.Aligned)
    (h : t.date ≤ u.date) : t ≤ u := by
  rcases h.lt_or_eq with hlt | heq
  · exact (aligned_le_iff ht hu).mpr (.inl hlt)
  · exact (aligned_le_iff ht hu).mpr (.inr ⟨heq, by omega⟩)

/-- The beginning of the next hour comes before the same whole minutes as a candidate, but for those
of its hour. -/
theorem hour_later_le_iff (hc : c.Aligned) (ht : t.Aligned) (hu : u.Aligned)
    (hnot : c.secs / 60 ≤ u.secs / 60 → u.secs / 3600 ≠ c.secs / 3600)
    (hdate : t.date = c.date.addDays ((c.secs + 3600) / 86400))
    (htime : t.secs / 60 = (c.secs + 3600) % 86400 / 3600 * 60) : c ≤ u ↔ t ≤ u := by
  have hcsecs := c.secs_lt
  have husecs := u.secs_lt
  by_cases hlast : c.secs + 3600 < 86400
  · rw [Nat.div_eq_of_lt hlast] at hdate
    rw [Nat.mod_eq_of_lt hlast] at htime
    rw [aligned_le_iff hc hu, aligned_le_iff ht hu, hdate, htime, Date.addDays_zero]
    refine or_congr_right (and_congr_right fun _ => ⟨fun hle => ?_, fun hle => by omega⟩)
    have hother := hnot hle
    omega
  · have hnext : t.date = c.date.next := by
      rw [hdate, show (c.secs + 3600) / 86400 = 0 + 1 by omega, Date.addDays_succ,
        Date.addDays_zero]
    have hlt : c.date < t.date := hnext ▸ c.date.lt_next
    refine ⟨fun hle => ?_, fun hle => (DateTime.lt_iff.mpr (.inl hlt)).le.trans hle⟩
    refine le_of_midnight (by omega) ht hu (hnext ▸ Date.next_le_iff.mpr ?_)
    rcases (aligned_le_iff hc hu).mp hle with hlt | ⟨-, hle'⟩
    · exact hlt
    · have hother := hnot hle'
      omega

/-- Between two candidates nothing matches. -/
theorem Move.le_iff (h : Move cron c t) (hc : c.Aligned) (ht : t.Aligned) (hu : cron.IsMatch u) :
    c ≤ u ↔ t ≤ u := by
  obtain ⟨hu, hmatch⟩ := hu
  obtain ⟨hdate, hhour, hminute⟩ := matchesTime_iff.mp hmatch
  have hcsecs := c.secs_lt
  have husecs := u.secs_lt
  unfold DateTime.hour at hhour
  unfold DateTime.minute at hminute
  cases h with
  | dates later skipped midnight =>
      constructor
      · intro hle
        refine le_of_midnight midnight ht hu (not_lt.mp fun hlt => ?_)
        exact Bool.eq_false_iff.mp (skipped u.date (DateTime.date_le hle) hlt) hdate
      · exact fun hle => (DateTime.lt_iff.mpr (.inl later)).le.trans hle
  | sameMonth skipped day date midnight =>
      constructor
      · exact fun hle => (le_of_midnight midnight ht hc (date ▸ c.date.monthStart_le)).trans hle
      · -- what lies between the first of the month and the candidate is of the same month
        intro hle
        by_contra hlt
        have hsame : u.date.month = c.date.month := by
          have hstart := Date.le_iff.mp (date ▸ DateTime.date_le hle)
          have hend := Date.le_iff.mp (DateTime.date_le (not_le.mp hlt).le)
          simp only [Date.monthStart, Date.first] at hstart
          omega
        exact Bool.eq_false_iff.mp skipped (hsame ▸ (matchesDate_iff.mp hdate).1)
  | nextDay _ skipped date midnight =>
      constructor
      · intro hle
        refine le_of_midnight midnight ht hu (date ▸ Date.next_le_iff.mpr ?_)
        rcases (aligned_le_iff hc hu).mp hle with hlt | ⟨-, htime⟩
        · exact hlt
        · refine absurd hhour (Bool.eq_false_iff.mp (skipped _ ?_ (hour_le u)))
          unfold DateTime.hour
          omega
      · have hlt : c.date < t.date := date ▸ c.date.lt_next
        exact fun hle => (DateTime.lt_iff.mpr (.inl hlt)).le.trans hle
  | hour _ next later date time =>
      rename_i h
      unfold DateTime.hour at later
      rw [aligned_le_iff hc hu, aligned_le_iff ht hu, date, time]
      refine or_congr_right (and_congr_right fun _ => ⟨fun hle => ?_, fun hle => by omega⟩)
      have hnot : ¬ u.secs / 3600 < h := fun hlt =>
        Bool.eq_false_iff.mp (next.least _ (by unfold DateTime.hour; omega) hlt) hhour
      omega
  | nextHour _ _ skipped date time =>
      refine hour_later_le_iff hc ht hu (fun hle hsame => ?_) date time
      have hnot := skipped _ (by unfold DateTime.minute; omega) (minute_le u)
      exact Bool.eq_false_iff.mp hnot hminute
  | minute _ _ next later date time =>
      rename_i m
      unfold DateTime.hour at time
      unfold DateTime.minute at later
      rw [aligned_le_iff hc hu, aligned_le_iff ht hu, date, time]
      refine or_congr_right (and_congr_right fun _ => ⟨fun hle => ?_, fun hle => by omega⟩)
      have hnot : u.secs / 3600 = c.secs / 3600 → ¬ u.secs / 60 % 60 < m := fun hsame hlt =>
        Bool.eq_false_iff.mp (next.least _ (by unfold DateTime.minute; omega) hlt) hminute
      have hm := next.le_max
      omega

/-! ### Progress -/

/-- The candidate is at the first of a month, or its month matches. -/
def Settled (cron : CronExpression) (c : DateTime) : Prop :=
  c.date.day = 1 ∨ cron.month.matchesValue c.date.month = true

/-- How many rounds are left at most, if no later date is taken. -/
def roundsLeft (cron : CronExpression) (c : DateTime) : ℕ :=
  if cron.matchesTime c then 0
  else if c.minute ≠ 0 then 3
  else if cron.matchesDate c.date ∧ cron.hour.matchesValue c.hour then 1
  else 2

theorem roundsLeft_le (cron : CronExpression) (c : DateTime) : cron.roundsLeft c ≤ 3 := by
  unfold roundsLeft
  split_ifs <;> omega

theorem roundsLeft_of_minute (h : c.minute = 0) : cron.roundsLeft c ≤ 2 := by
  unfold roundsLeft
  split_ifs <;> omega

theorem roundsLeft_pos (h : cron.matchesTime c = false) : 0 < cron.roundsLeft c := by
  unfold roundsLeft
  rw [if_neg (Bool.eq_false_iff.mp h)]
  split_ifs <;> omega

theorem roundsLeft_of_not (h : cron.matchesTime c = false)
    (h' : ¬ (cron.matchesDate c.date = true ∧ cron.hour.matchesValue c.hour = true)) :
    2 ≤ cron.roundsLeft c := by
  unfold roundsLeft
  rw [if_neg (Bool.eq_false_iff.mp h), if_neg h']
  split_ifs <;> omega

theorem roundsLeft_of_minute_ne (h : cron.matchesTime c = false) (h' : c.minute ≠ 0) :
    cron.roundsLeft c = 3 := by
  rw [roundsLeft, if_neg (Bool.eq_false_iff.mp h), if_pos h']

theorem roundsLeft_of_hour (hminute : c.minute = 0) (hdate : cron.matchesDate c.date = true)
    (hhour : cron.hour.matchesValue c.hour = true) : cron.roundsLeft c ≤ 1 := by
  unfold roundsLeft
  rw [if_neg (not_not.mpr hminute), if_pos (And.intro hdate hhour)]
  split_ifs <;> omega

/-- The hour and the minute, from the minute of the day. -/
theorem hour_minute {hour minute : ℕ} (h : t.secs / 60 = hour * 60 + minute) (hlt : minute < 60) :
    t.hour = hour ∧ t.minute = minute := by
  unfold DateTime.hour DateTime.minute
  omega

theorem hour_of_whole {hour : ℕ} (h : t.secs / 60 = hour * 60) :
    t.hour = hour ∧ t.minute = 0 :=
  hour_minute (h.trans (Nat.add_zero _).symm) (by decide)

theorem minute_of_midnight (h : t.secs < 60) : t.minute = 0 := by
  unfold DateTime.minute
  omega

/-- An hour later it is the same date or the next one. -/
theorem date_of_hour_later (c : DateTime) : c.date.addDays ((c.secs + 3600) / 86400) = c.date ∨
    c.date.addDays ((c.secs + 3600) / 86400) = c.date.next := by
  have hsecs := c.secs_lt
  by_cases hlast : c.secs + 3600 < 86400
  · rw [Nat.div_eq_of_lt hlast]
    exact .inl rfl
  · rw [show (c.secs + 3600) / 86400 = 0 + 1 by omega]
    exact .inr rfl

/-- The date a round comes to is a later one, or there are fewer rounds left. -/
theorem Move.progress (hwf : cron.WellFormed) (h : Move cron c t) (hsettled : Settled cron c) :
    (c.date < t.date ∧ cron.roundsLeft t ≤ cron.roundsLeft c) ∨
      (t.date = c.date ∧ cron.roundsLeft t < cron.roundsLeft c) := by
  have hnot := h.not_match
  -- at midnight only the hour and the minute may still have to be set
  have hmidnight : t.secs < 60 → cron.roundsLeft t ≤ 2 := fun hlt =>
    roundsLeft_of_minute (minute_of_midnight hlt)
  cases h with
  | dates later skipped midnight =>
      have hdate := Bool.eq_false_iff.mp (skipped c.date (le_refl _) later)
      have hleft := roundsLeft_of_not hnot fun h => hdate h.1
      exact .inl ⟨later, (hmidnight midnight).trans hleft⟩
  | sameMonth skipped day =>
      rcases hsettled with hday | hmonth
      · exact absurd hday day
      · exact absurd hmonth (Bool.eq_false_iff.mp skipped)
  | nextDay _ skipped date midnight =>
      have hhour := Bool.eq_false_iff.mp (skipped c.hour (Nat.le_refl _) (hour_le c))
      have hleft := roundsLeft_of_not hnot fun h => hhour h.2
      exact .inl ⟨date ▸ c.date.lt_next, (hmidnight midnight).trans hleft⟩
  | hour isMatch next later date time =>
      have hhour := Bool.eq_false_iff.mp (next.least c.hour (Nat.le_refl _) later)
      have hleft := roundsLeft_of_not hnot fun h => hhour h.2
      obtain ⟨hthour, htminute⟩ := hour_of_whole time
      have htleft := roundsLeft_of_hour htminute (date.symm ▸ isMatch)
        (hthour.symm ▸ next.isMatch)
      exact .inr ⟨date, by omega⟩
  | nextHour isMatch hourMatch skipped date time =>
      -- from minute zero on some minute matches, so the hour is left once only
      have hminute : c.minute ≠ 0 := by
        intro hzero
        obtain ⟨v, -, hv, hmatch⟩ :=
          CronField.exists_matchesValue hwf.minute (by decide) (by decide)
        exact Bool.eq_false_iff.mp (skipped v (hzero ▸ Nat.zero_le v) hv) hmatch
      have hleft := roundsLeft_of_minute_ne hnot hminute
      have htleft : cron.roundsLeft t ≤ 2 := roundsLeft_of_minute (hour_of_whole time).2
      rcases (date ▸ c.date.le_addDays _ : c.date ≤ t.date).lt_or_eq with hlt | heq
      · exact .inl ⟨hlt, by omega⟩
      · exact .inr ⟨heq.symm, by omega⟩
  | minute isMatch hourMatch next later date time =>
      have hm := next.le_max
      obtain ⟨hthour, htminute⟩ := hour_minute time (by omega)
      have htmatch : cron.matchesTime t = true := matchesTime_iff.mpr
        ⟨date.symm ▸ isMatch, hthour.symm ▸ hourMatch, htminute.symm ▸ next.isMatch⟩
      have htleft : cron.roundsLeft t = 0 := if_pos htmatch
      have hleft := roundsLeft_pos hnot
      exact .inr ⟨date, by omega⟩

/-- After a round the candidate is settled. -/
theorem Move.settled (h : Move cron c t) : Settled cron t := by
  have hsame : cron.matchesDate c.date = true → t.date = c.date → Settled cron t :=
    fun hmatch hdate => .inr (hdate ▸ (matchesDate_iff.mp hmatch).1)
  have hnext : cron.matchesDate c.date = true → t.date = c.date.next → Settled cron t := by
    intro hmatch hdate
    rw [Settled, hdate]
    rcases c.date.next_cases with hnext | ⟨-, hmonth, -⟩
    · exact .inl (hnext ▸ c.date.nextMonth_cases.1)
    · exact .inr (hmonth ▸ (matchesDate_iff.mp hmatch).1)
  cases h with
  | dates _ _ _ month => exact month
  | sameMonth _ _ date => exact .inl (date ▸ rfl)
  | nextDay isMatch _ date => exact hnext isMatch date
  | hour isMatch _ _ date => exact hsame isMatch date
  | nextHour isMatch _ _ date =>
      rcases date_of_hour_later c with h | h
      · exact hsame isMatch (date.trans h)
      · exact hnext isMatch (date.trans h)
  | minute isMatch _ _ _ date => exact hsame isMatch date

/-- A round goes on to a later date or stays, or goes back within the month. -/
theorem Move.date_cases (h : Move cron c t) : c.date ≤ t.date ∨ t.date = c.date.monthStart := by
  cases h with
  | dates later => exact .inl later.le
  | sameMonth _ _ date => exact .inr date
  | nextDay _ _ date => exact .inl (date ▸ c.date.lt_next.le)
  | hour _ _ _ date => exact .inl (date ▸ le_refl _)
  | nextHour _ _ _ date => exact .inl (date ▸ c.date.le_addDays _)
  | minute _ _ _ _ date => exact .inl (date ▸ le_refl _)

theorem Move.le_addDays (h : Move cron c t) : c.date ≤ t.date.addDays 30 := by
  rcases h.date_cases with hle | hstart
  · exact hle.trans (Date.le_addDays _ 30)
  · exact hstart ▸ c.date.le_addDays_monthStart

theorem Move.year_le (h : Move cron c t) : c.date.year ≤ t.date.year := by
  rcases h.date_cases with hle | hstart
  · have hle' := Date.le_iff.mp hle
    omega
  · rw [hstart]
    exact Int.le_refl _

/-- If December does not match, a leap year is not left. -/
theorem Move.year_eq (h : Move cron c t) (hleap : IsLeap c.date.year)
    (hdecember : cron.month.matchesValue 12 = false) : t.date.year = c.date.year := by
  have hnext : cron.matchesDate c.date = true → c.date.next.year = c.date.year := fun hmatch =>
    (year_of_next (matchesDate_iff.mp hmatch).1).resolve_right (Bool.eq_false_iff.mp hdecember)
  cases h with
  | dates _ _ _ _ year =>
      rcases year with hyear | hcommon | hmatch
      · exact hyear
      · exact absurd hleap hcommon
      · exact absurd hmatch (Bool.eq_false_iff.mp hdecember)
  | sameMonth _ _ date => rw [date]; rfl
  | nextDay isMatch _ date => rw [date, hnext isMatch]
  | hour _ _ _ date => rw [date]
  | nextHour isMatch _ _ date =>
      rcases date_of_hour_later c with h | h
      · rw [date, h]
      · rw [date, h, hnext isMatch]
  | minute _ _ _ _ date => rw [date]

/-! ### Runs -/

theorem advance_cases (hwf : cron.WellFormed) (hc : c.Aligned) :
    (cron.advance c = none ∧ cron.IsMatch c) ∨
      ∃ t, cron.advance c = some t ∧ t.Aligned ∧ (Move cron c t ∨ Wrap cron c t) := by
  have hsmall : c.frac < 1000000000 := by
    rw [hc.2]
    decide
  rcases advance_spec hwf hsmall with ⟨hnone, hmatch⟩ | ⟨t, ht, hfrac, hsecond, hmove⟩
  · exact .inl ⟨hnone, hc, hmatch⟩
  · exact .inr ⟨t, ht, ⟨hsecond.trans hc.1, hfrac.trans hc.2⟩, hmove⟩

/-- A round that does not end the search. -/
theorem advance_eq_some (hwf : cron.WellFormed) (hc : c.Aligned) (ht : cron.advance c = some t) :
    t.Aligned ∧ (Move cron c t ∨ Wrap cron c t) := by
  rcases advance_cases hwf hc with ⟨hnone, -⟩ | ⟨t', ht', hspec⟩
  · exact nomatch hnone.symm.trans ht
  · obtain rfl := Option.some.inj (ht'.symm.trans ht)
    exact hspec

/-- Nothing matches in the rest of a year that wraps. -/
theorem Wrap.not_match (h : Wrap cron c t) (hu : cron.IsMatch u) (hle : c ≤ u)
    (hyear : u.date.year = c.date.year) : False := by
  have hdate := Date.le_iff.mp (DateTime.date_le hle)
  have hlater : c.date.month ≤ u.date.month := by omega
  have hmonth := (matchesDate_iff.mp (matchesTime_iff.mp hu.2).1).1
  exact Bool.eq_false_iff.mp (h.skipped _ hlater u.date.month_le) hmonth

theorem Wrap.december (h : Wrap cron c t) : cron.month.matchesValue 12 = false :=
  h.skipped 12 c.date.month_le (Nat.le_refl 12)

theorem advance_of_match (hwf : cron.WellFormed) (hc : cron.IsMatch c) :
    cron.advance c = none := by
  rcases advance_cases hwf hc.1 with ⟨hnone, -⟩ | ⟨t, -, -, hmove | hwrap⟩
  · exact hnone
  · exact absurd hc.2 (Bool.eq_false_iff.mp hmove.not_match)
  · exact (hwrap.not_match hc (le_refl c) rfl).elim

theorem Reached.trans {m n : ℕ} (h : Reached cron m c t) (h' : Reached cron n t e) :
    Reached cron (m + n) c e := by
  induction h with
  | refl c => rwa [Nat.zero_add]
  | step round _ ih =>
      rw [Nat.add_right_comm]
      exact .step round (ih h')

theorem search_of_reached {n : ℕ} (h : Reached cron n c e) (rounds : ℕ) :
    cron.search (n + rounds) c = cron.search rounds e := by
  induction h with
  | refl c => rw [Nat.zero_add]
  | step round _ ih =>
      rw [Nat.add_right_comm, search, round]
      exact ih

/-- The search finds a candidate that it comes to within its rounds. -/
theorem search_eq_some {n rounds : ℕ} (h : Reached cron n c e) (hlt : n < rounds)
    (hend : cron.advance e = none) : cron.search rounds c = some e := by
  obtain ⟨k, rfl⟩ : ∃ k, rounds = n + (k + 1) := ⟨rounds - n - 1, by omega⟩
  rw [search_of_reached h, search, hend]

theorem reached_of_search {rounds : ℕ} (h : cron.search rounds c = some e) :
    ∃ n < rounds, Reached cron n c e ∧ cron.advance e = none := by
  induction rounds generalizing c with
  | zero => cases h
  | succ rounds ih =>
      rw [search] at h
      cases hadvance : cron.advance c with
      | none =>
          rw [hadvance] at h
          obtain rfl := Option.some.inj h
          exact ⟨0, Nat.succ_pos rounds, .refl c, hadvance⟩
      | some t =>
          rw [hadvance] at h
          obtain ⟨n, hn, hreached, hend⟩ := ih h
          exact ⟨n + 1, Nat.succ_lt_succ hn, .step hadvance hreached, hend⟩

/-- What every round keeps holds after all of them. -/
theorem Reached.invariant {I : DateTime → Prop}
    (hround : ∀ c t, I c → cron.advance c = some t → I t) {n : ℕ} (h : Reached cron n c e)
    (hc : I c) : I e := by
  induction h with
  | refl c => exact hc
  | step round _ ih => exact ih (hround _ _ hc round)

theorem Reached.aligned (hwf : cron.WellFormed) {n : ℕ} (h : Reached cron n c e)
    (hc : c.Aligned) : e.Aligned := by
  refine h.invariant (I := DateTime.Aligned) (fun c t hc ht => ?_) hc
  exact (advance_eq_some hwf hc ht).1

/-- The candidate matches, or the next round goes back. -/
def Ends (cron : CronExpression) (e : DateTime) : Prop :=
  cron.IsMatch e ∨ ∃ t, cron.advance e = some t ∧ t.Aligned ∧ Wrap cron e t

/-- **How soon a run ends** that does not go beyond a date: each round takes a later date, or
leaves fewer rounds for the same one. -/
theorem exists_end (hwf : cron.WellFormed) {I : DateTime → Prop} {goal : Date}
    (hgoal : ∀ c, I c → c.date ≤ goal)
    (hmove : ∀ c t, I c → c.Aligned → t.Aligned → Move cron c t → I t) {n days : ℕ}
    (hc : I c) (haligned : c.Aligned) (hsettled : Settled cron c)
    (hdays : goal ≤ c.date.addDays days) (hn : days + cron.roundsLeft c ≤ n) :
    ∃ m ≤ n, ∃ e, Reached cron m c e ∧ I e ∧ e.Aligned ∧ cron.Ends e := by
  induction n generalizing c days with
  | zero =>
      have hmatch : cron.matchesTime c = true := by
        by_contra hnot
        have hpos := roundsLeft_pos (eq_false_of_ne_true hnot)
        omega
      exact ⟨0, Nat.le_refl 0, c, .refl c, hc, haligned, .inl ⟨haligned, hmatch⟩⟩
  | succ n ih =>
      rcases advance_cases hwf haligned with ⟨-, hmatch⟩ | ⟨t, ht, htaligned, hnext | hwrap⟩
      · exact ⟨0, Nat.zero_le _, c, .refl c, hc, haligned, .inl hmatch⟩
      · have htI := hmove c t hc haligned htaligned hnext
        have hleft : ∃ days', goal ≤ t.date.addDays days' ∧
            days' + cron.roundsLeft t < days + cron.roundsLeft c := by
          rcases hnext.progress hwf hsettled with ⟨hlt, hle⟩ | ⟨hsame, hlt⟩
          · obtain ⟨hpos, hdays'⟩ := Date.le_addDays_pred hdays hlt (hgoal t htI)
            exact ⟨days - 1, hdays', by omega⟩
          · exact ⟨days, hsame ▸ hdays, by omega⟩
        obtain ⟨days', hdays', hless⟩ := hleft
        obtain ⟨m, hm, e, hreached, hend⟩ := ih htI htaligned hnext.settled hdays' (by omega)
        exact ⟨m + 1, Nat.succ_le_succ hm, e, .step ht hreached, hend⟩
      · exact ⟨0, Nat.zero_le _, c, .refl c, hc, haligned, .inr ⟨t, ht, htaligned, hwrap⟩⟩

/-- The same from any candidate: one round settles it, and leads back by 30 days at most. -/
theorem exists_end_of_any (hwf : cron.WellFormed) {I : DateTime → Prop} {goal : Date}
    (hgoal : ∀ c, I c → c.date ≤ goal)
    (hmove : ∀ c t, I c → c.Aligned → t.Aligned → Move cron c t → I t) {days : ℕ}
    (hc : I c) (haligned : c.Aligned) (hdays : goal ≤ c.date.addDays days) :
    ∃ m ≤ days + 34, ∃ e, Reached cron m c e ∧ I e ∧ e.Aligned ∧ cron.Ends e := by
  rcases advance_cases hwf haligned with ⟨-, hmatch⟩ | ⟨t, ht, htaligned, hnext | hwrap⟩
  · exact ⟨0, Nat.zero_le _, c, .refl c, hc, haligned, .inl hmatch⟩
  · -- the one round may go back to the first of the month
    have hdays' : goal ≤ t.date.addDays (30 + days) := by
      rw [Date.addDays_add]
      exact hdays.trans (Date.addDays_mono hnext.le_addDays days)
    have hleft := cron.roundsLeft_le t
    obtain ⟨m, hm, e, hreached, hend⟩ := exists_end hwf hgoal hmove
      (hmove c t hc haligned htaligned hnext) htaligned hnext.settled hdays' (Nat.le_refl _)
    exact ⟨m + 1, by omega, e, .step ht hreached, hend⟩
  · exact ⟨0, Nat.zero_le _, c, .refl c, hc, haligned, .inr ⟨t, ht, htaligned, hwrap⟩⟩

/-! ### The first candidate -/

theorem firstCandidate_frac (origin : DateTime) :
    (firstCandidate origin).frac = origin.frac % 1000000000 := by
  rw [firstCandidate, DateTime.withSecond, dif_pos (by decide), Option.getD_some]
  rfl

theorem firstCandidate_date (origin : DateTime) :
    (firstCandidate origin).date = origin.date.addDays ((origin.secs + 60) / 86400) := by
  rw [firstCandidate, DateTime.withSecond, dif_pos (by decide), Option.getD_some]
  rfl

theorem firstCandidate_secs (origin : DateTime) :
    (firstCandidate origin).secs = (origin.secs + 60) % 86400 / 60 * 60 := by
  rw [firstCandidate, DateTime.withSecond, dif_pos (by decide), Option.getD_some]
  rfl

theorem firstCandidate_aligned {origin : DateTime} (hwhole : origin.frac % 1000000000 = 0) :
    (firstCandidate origin).Aligned := by
  refine ⟨?_, (firstCandidate_frac origin).trans hwhole⟩
  rw [DateTime.second, firstCandidate_secs]
  exact Nat.mul_mod_left _ 60

/-- **The first candidate is the first whole minute after the instant.** -/
theorem firstCandidate_le_iff {origin : DateTime} (hwhole : origin.frac % 1000000000 = 0)
    (ht : t.Aligned) : firstCandidate origin ≤ t ↔ origin < t := by
  have hsecs := origin.secs_lt
  have htsecs := t.secs_lt
  rw [aligned_le_iff (firstCandidate_aligned hwhole) ht, DateTime.lt_iff, firstCandidate_date,
    firstCandidate_secs]
  obtain ⟨hsecond, hfrac⟩ := ht
  unfold DateTime.second at hsecond
  by_cases hlast : origin.secs + 60 < 86400
  · rw [Nat.div_eq_of_lt hlast, Nat.mod_eq_of_lt hlast, Date.addDays_zero, hfrac]
    refine or_congr_right (and_congr_right fun _ => ?_)
    omega
  · have hmidnight : (origin.secs + 60) % 86400 / 60 * 60 / 60 = 0 := by omega
    rw [show (origin.secs + 60) / 86400 = 0 + 1 by omega, Date.addDays_succ, Date.addDays_zero,
      hmidnight, hfrac]
    constructor
    · intro h
      refine .inl (Date.next_le_iff.mp ?_)
      rcases h with hlt | ⟨heq, -⟩
      · exact hlt.le
      · exact heq.le
    · rintro (hlt | ⟨-, htime⟩)
      · rcases (Date.next_le_iff.mpr hlt).lt_or_eq with hlt' | heq
        · exact .inl hlt'
        · exact .inr ⟨heq, Nat.zero_le _⟩
      · omega

theorem date_le_firstCandidate (origin : DateTime) :
    origin.date ≤ (firstCandidate origin).date := by
  rw [firstCandidate_date]
  exact Date.le_addDays _ _

theorem plus_days_date (origin : DateTime) (days : ℕ) :
    (origin.plus (days * 86400)).date = origin.date.addDays days := by
  have hsecs := origin.secs_lt
  show origin.date.addDays ((origin.secs + days * 86400) / 86400) = _
  congr 1
  omega

theorem lt_fallback (origin : DateTime) : origin < fallback origin := by
  refine DateTime.lt_iff.mpr (.inl ?_)
  rw [fallback, plus_days_date]
  exact Date.lt_addDays origin.date 364

theorem fallback_aligned_iff {origin : DateTime} (hwhole : origin.frac % 1000000000 = 0) :
    (fallback origin).Aligned ↔ origin.second = 0 := by
  have hsecond : (fallback origin).second = origin.second := by
    show (origin.secs + 365 * 86400) % 86400 % 60 = origin.secs % 60
    omega
  rw [DateTime.Aligned, hsecond]
  exact and_iff_left hwhole

/-- What is due is at most 366 days after the first candidate. -/
theorem Due.date_le {origin : DateTime} (h : cron.Due origin t) :
    t.date ≤ origin.date.addDays 366 := by
  have hle := DateTime.date_le h.2.2
  rwa [plus_days_date] at hle

/-! ### The runs of the search -/

section Search

variable {origin : DateTime}

/-- What matches from the first candidate on comes after this one. -/
structure OnTime (cron : CronExpression) (origin c : DateTime) : Prop where
  year_le : (firstCandidate origin).date.year ≤ c.date.year
  le_iff : ∀ u, cron.IsMatch u → (firstCandidate origin ≤ u ↔ c ≤ u)

theorem OnTime.start (cron : CronExpression) (origin : DateTime) :
    cron.OnTime origin (firstCandidate origin) :=
  ⟨Int.le_refl _, fun _ _ => Iff.rfl⟩

theorem OnTime.move (h : cron.OnTime origin c) (hc : c.Aligned) (ht : t.Aligned)
    (hmove : Move cron c t) : cron.OnTime origin t :=
  ⟨h.year_le.trans hmove.year_le, fun u hu => (h.le_iff u hu).trans (hmove.le_iff hc ht hu)⟩

/-- **When the search goes back**: the year it began in is over, or the year it has come to has no
match. -/
theorem OnTime.wrap (h : cron.OnTime origin c) (hwrap : Wrap cron c t) :
    cron.LeapYearOver origin ∧ c.date.year = (firstCandidate origin).date.year ∨
      (firstCandidate origin).date.year < c.date.year ∧
        ∀ u, cron.IsMatch u → u.date.year ≠ c.date.year := by
  rcases h.year_le.lt_or_eq with hlt | heq
  · refine .inr ⟨hlt, fun u hu hyear => ?_⟩
    have hlater : firstCandidate origin ≤ u := by
      refine DateTime.le_iff.mpr (.inl (Date.lt_iff.mpr (.inl ?_)))
      omega
    exact hwrap.not_match hu ((h.le_iff u hu).mp hlater) hyear
  · refine .inl ⟨⟨heq ▸ hwrap.leap, hwrap.december, fun u hu hyear => ?_⟩, heq.symm⟩
    refine not_le.mp fun hle => ?_
    exact hwrap.not_match hu ((h.le_iff u hu).mp hle) (hyear.trans heq)

/-- The search stays in a leap year without a match. -/
structure Stuck (cron : CronExpression) (c : DateTime) : Prop where
  leap : IsLeap c.date.year
  december : cron.month.matchesValue 12 = false
  noMatch : ∀ u, cron.IsMatch u → u.date.year ≠ c.date.year

theorem Stuck.of_year_eq (h : cron.Stuck c) (hyear : t.date.year = c.date.year) :
    cron.Stuck t where
  leap := hyear ▸ h.leap
  december := h.december
  noMatch u hu := hyear ▸ h.noMatch u hu

theorem Stuck.advance (hwf : cron.WellFormed) (h : cron.Stuck c) (hc : c.Aligned)
    (ht : cron.advance c = some t) : t.Aligned ∧ cron.Stuck t := by
  obtain ⟨haligned, hmove⟩ := advance_eq_some hwf hc ht
  refine ⟨haligned, h.of_year_eq ?_⟩
  rcases hmove with hmove | hwrap
  · exact hmove.year_eq h.leap h.december
  · rw [hwrap.date]
    rfl

theorem isMatch_of_end (hwf : cron.WellFormed) (hc : c.Aligned) (hend : cron.advance c = none) :
    cron.IsMatch c := by
  rcases advance_cases hwf hc with ⟨-, hmatch⟩ | ⟨t, ht, -⟩
  · exact hmatch
  · exact nomatch hend.symm.trans ht

/-- In a year without a match nothing is found. -/
theorem Stuck.search (hwf : cron.WellFormed) (h : cron.Stuck c) (hc : c.Aligned) (rounds : ℕ) :
    cron.search rounds c = none := by
  refine Option.eq_none_iff_forall_not_mem.mpr fun e he => ?_
  obtain ⟨n, -, hreached, hend⟩ := reached_of_search he
  obtain ⟨haligned, hstuck⟩ : e.Aligned ∧ cron.Stuck e :=
    hreached.invariant (I := fun c => c.Aligned ∧ cron.Stuck c)
      (fun c t hc ht => hc.2.advance hwf hc.1 ht) ⟨hc, h⟩
  exact hstuck.noMatch e (isMatch_of_end hwf haligned hend) rfl

/-- **What is found** is the first match from the first candidate on, if a leap year that is over
has no match at all. -/
theorem found_of_search (hwf : cron.WellFormed) (hwhole : origin.frac % 1000000000 = 0)
    (hover : cron.LeapYearOver origin →
      ∀ t, cron.IsMatch t → t.date.year ≠ (firstCandidate origin).date.year)
    {rounds : ℕ} (h : cron.search rounds (firstCandidate origin) = some e) :
    cron.IsMatch e ∧ ∀ u, cron.IsMatch u → (firstCandidate origin ≤ u ↔ e ≤ u) := by
  obtain ⟨n, -, hreached, hend⟩ := reached_of_search h
  obtain ⟨haligned, hstate⟩ : e.Aligned ∧ (cron.OnTime origin e ∨ cron.Stuck e) := by
    refine hreached.invariant (I := fun c => c.Aligned ∧ (cron.OnTime origin c ∨ cron.Stuck c)) ?_
      ⟨firstCandidate_aligned hwhole, .inl (.start cron origin)⟩
    rintro c t ⟨hc, hontime | hstuck⟩ ht
    · obtain ⟨haligned, hmove | hwrap⟩ := advance_eq_some hwf hc ht
      · exact ⟨haligned, .inl (hontime.move hc haligned hmove)⟩
      · have hstuck : cron.Stuck c := by
          refine ⟨hwrap.leap, hwrap.december, ?_⟩
          rcases hontime.wrap hwrap with ⟨hleap, hyear⟩ | ⟨-, hnoMatch⟩
          · exact fun u hu => hyear ▸ hover hleap u hu
          · exact hnoMatch
        exact ⟨haligned, .inr (hstuck.of_year_eq (by rw [hwrap.date]; rfl))⟩
    · obtain ⟨haligned, hstuck'⟩ := hstuck.advance hwf hc ht
      exact ⟨haligned, .inr hstuck'⟩
  have hmatch := isMatch_of_end hwf haligned hend
  rcases hstate with hontime | hstuck
  · exact ⟨hmatch, hontime.le_iff⟩
  · exact (hstuck.noMatch e hmatch rfl).elim

/-- **When nothing is found, nothing is due**, unless a leap year is over. -/
theorem not_due_of_search (hwf : cron.WellFormed) (hwhole : origin.frac % 1000000000 = 0)
    (hover : ¬ cron.LeapYearOver origin)
    (h : cron.search 1500 (firstCandidate origin) = none) (t : DateTime) :
    ¬ cron.Due origin t := by
  intro hdue
  have hstart : firstCandidate origin ≤ t := (firstCandidate_le_iff hwhole hdue.1.1).mpr hdue.2.1
  have hdays : t.date ≤ (firstCandidate origin).date.addDays 366 :=
    hdue.date_le.trans (Date.addDays_mono (date_le_firstCandidate origin) 366)
  obtain ⟨m, hm, e, hreached, hontime, haligned, hend⟩ := exists_end_of_any hwf
    (I := cron.OnTime origin)
    (fun c hc => DateTime.date_le ((hc.le_iff t hdue.1).mp hstart))
    (fun c t hc haligned ht hmove => hc.move haligned ht hmove) (.start cron origin)
    (firstCandidate_aligned hwhole) hdays
  rcases hend with hmatch | ⟨u, -, -, hwrap⟩
  · have hfound := search_eq_some hreached (by omega : m < 1500) (advance_of_match hwf hmatch)
    exact nomatch h.symm.trans hfound
  · rcases hontime.wrap hwrap with ⟨hleap, -⟩ | ⟨hyear, hnoMatch⟩
    · exact hover hleap
    · -- the leap year that the search has come to lasts longer than 366 days after the instant
      have hlater := Date.le_iff.mp (DateTime.date_le ((hontime.le_iff t hdue.1).mp hstart))
      have hother := hnoMatch t hdue.1
      have horizon := Date.le_iff.mp hdue.date_le
      have hlimit := origin.date.year_addDays_le
      have hfirst := Date.le_iff.mp (date_le_firstCandidate origin)
      have hleap := hwrap.leap
      split_ifs at hlimit with hnext
      · omega
      · have hsame : e.date.year = origin.date.year + 1 := by omega
        exact hnext (hsame ▸ hleap)

/-- **A leap year that is over is searched from its beginning.** -/
theorem found_before (hwf : cron.WellFormed) (hwhole : origin.frac % 1000000000 = 0)
    (hover : cron.LeapYearOver origin) {v : DateTime} (hv : cron.IsMatch v)
    (hyear : v.date.year = (firstCandidate origin).date.year) :
    ∃ e, cron.search 1500 (firstCandidate origin) = some e ∧ cron.IsMatch e ∧ e ≤ v := by
  have hdays := (firstCandidate origin).date.yearEnd_le_addDays
  -- the search comes to the end of the year, …
  obtain ⟨m, hm, e, hreached, ⟨hontime, heyear⟩, haligned, hend⟩ := exists_end_of_any hwf
    (I := fun c => cron.OnTime origin c ∧ c.date.year = (firstCandidate origin).date.year)
    (fun c hc => Date.le_yearEnd_iff.mpr hc.2.le)
    (fun c t hc haligned ht hmove => ⟨hc.1.move haligned ht hmove,
      (hmove.year_eq (hc.2 ▸ hover.leap) hover.december).trans hc.2⟩)
    ⟨.start cron origin, rfl⟩ (firstCandidate_aligned hwhole) hdays
  rcases hend with hmatch | ⟨t, ht, htaligned, hwrap⟩
  · exact absurd ((hontime.le_iff e hmatch).mpr (le_refl e))
      (not_le.mpr (hover.past e hmatch heyear))
  · -- … and then from its first day to the match
    have htyear : t.date = Date.newYear v.date.year := by rw [hwrap.date, heyear, hyear]
    have htv : t ≤ v := by
      refine le_of_midnight hwrap.midnight htaligned hv.1 ?_
      rw [htyear]
      exact Date.newYear_le_iff.mpr (Int.le_refl _)
    have hdays' : v.date ≤ t.date.addDays 365 := by
      have hlast : v.date ≤ Date.yearEnd t.date.year := by
        rw [htyear]
        exact Date.le_yearEnd_iff.mpr (Int.le_refl _)
      exact hlast.trans t.date.yearEnd_le_addDays
    have hleft := cron.roundsLeft_le t
    obtain ⟨m', hm', e', hreached', ⟨he'v, he'year⟩, he'aligned, hend'⟩ := exists_end hwf
      (I := fun c => c ≤ v ∧ c.date.year = v.date.year)
      (fun c hc => DateTime.date_le hc.1)
      (fun c t hc haligned ht hmove => ⟨(hmove.le_iff haligned ht hv).mp hc.1,
        (hmove.year_eq ((hc.2.trans hyear) ▸ hover.leap) hover.december).trans hc.2⟩)
      ⟨htv, by rw [htyear]; rfl⟩ htaligned (.inl (htyear ▸ rfl)) hdays' (Nat.le_refl _)
    rcases hend' with hmatch | ⟨u, -, -, hwrap'⟩
    · refine ⟨e', search_eq_some (hreached.trans (.step ht hreached')) (by omega)
        (advance_of_match hwf hmatch), hmatch, he'v⟩
    · exact (hwrap'.not_match hv he'v he'year.symm).elim

end Search

/-! ### When the next run is right -/

section Result

variable {origin : DateTime}

theorem frac_computeNextRun (hwf : cron.WellFormed) (origin : DateTime) :
    (cron.computeNextRun origin).frac = origin.frac % 1000000000 := by
  unfold computeNextRun
  cases h : cron.search 1500 (firstCandidate origin) with
  | none => rfl
  | some e =>
      obtain ⟨n, -, hreached, -⟩ := reached_of_search h
      refine hreached.invariant (I := fun c => c.frac = origin.frac % 1000000000) ?_
        (firstCandidate_frac origin)
      intro c t hc ht
      rcases advance_spec hwf (hc ▸ Nat.mod_lt _ (by decide)) with ⟨hnone, -⟩ |
        ⟨t', ht', hfrac, -⟩
      · exact nomatch hnone.symm.trans ht
      · obtain rfl := Option.some.inj (ht'.symm.trans ht)
        exact hfrac.trans hc

/-- The conditions are enough. -/
theorem RightWhen.correct (hwf : cron.WellFormed) (h : cron.RightWhen origin) :
    cron.CorrectNextRun origin (cron.computeNextRun origin) := by
  have hstart : ∀ t, t.Aligned → (firstCandidate origin ≤ t ↔ origin < t) := fun t ht =>
    firstCandidate_le_iff h.whole ht
  unfold computeNextRun
  cases hsearch : cron.search 1500 (firstCandidate origin) with
  | some e =>
      obtain ⟨hmatch, hfirst⟩ :=
        found_of_search hwf h.whole (fun hover => (h.leapYear hover).1) hsearch
      have hlater : origin < e := (hstart e hmatch.1).mp ((hfirst e hmatch).mpr (le_refl e))
      refine ⟨hmatch.1, hlater, fun t hdue => ?_⟩
      have hle : e ≤ t := (hfirst t hdue.1).mp ((hstart t hdue.1.1).mpr hdue.2.1)
      exact ⟨⟨hmatch, hlater, hle.trans hdue.2.2⟩, hle⟩
  | none =>
      have hwhole : origin.second = 0 := by
        refine h.found.resolve_right ?_
        rintro ⟨n, hn, c, hreached, hmatch⟩
        have haligned := hreached.aligned hwf (firstCandidate_aligned h.whole)
        have hend := advance_of_match hwf ⟨haligned, hmatch⟩
        exact nomatch hsearch.symm.trans (search_eq_some hreached hn hend)
      refine ⟨(fallback_aligned_iff h.whole).mpr hwhole, lt_fallback origin, fun t hdue => ?_⟩
      by_cases hover : cron.LeapYearOver origin
      · exact (h.leapYear hover).2 t hdue
      · exact absurd hdue (not_due_of_search hwf h.whole hover hsearch t)

/-- The conditions are necessary. -/
theorem CorrectNextRun.rightWhen (hwf : cron.WellFormed)
    (h : cron.CorrectNextRun origin (cron.computeNextRun origin)) : cron.RightWhen origin := by
  have hwhole : origin.frac % 1000000000 = 0 := by
    rw [← frac_computeNextRun hwf]
    exact h.aligned.2
  refine ⟨hwhole, fun hover => ?_, ?_⟩
  · have hnoMatch : ∀ t, cron.IsMatch t →
        t.date.year ≠ (firstCandidate origin).date.year := by
      intro t ht hyear
      obtain ⟨e, hsearch, hmatch, hle⟩ := found_before hwf hwhole hover ht hyear
      have hresult : cron.computeNextRun origin = e := by
        rw [computeNextRun, hsearch]
        rfl
      have hlater := (firstCandidate_le_iff hwhole hmatch.1).mpr (hresult ▸ h.later)
      exact absurd (hlater.trans hle) (not_le.mpr (hover.past t ht hyear))
    have hnone : cron.search 1500 (firstCandidate origin) = none :=
      Stuck.search hwf ⟨hover.leap, hover.december, hnoMatch⟩ (firstCandidate_aligned hwhole) 1500
    have hresult : cron.computeNextRun origin = fallback origin := by
      rw [computeNextRun, hnone]
      rfl
    exact ⟨hnoMatch, hresult ▸ h.least⟩
  · cases hsearch : cron.search 1500 (firstCandidate origin) with
    | some e =>
        obtain ⟨n, hn, hreached, hend⟩ := reached_of_search hsearch
        have haligned := hreached.aligned hwf (firstCandidate_aligned hwhole)
        exact .inr ⟨n, hn, e, hreached, (isMatch_of_end hwf haligned hend).2⟩
    | none =>
        have hresult : cron.computeNextRun origin = fallback origin := by
          rw [computeNextRun, hsearch]
          rfl
        exact .inl ((fallback_aligned_iff hwhole).mp (hresult ▸ h.aligned))

/-- **When the next run is right**, for an expression that is accepted. -/
theorem computeNextRun_correct_iff {expr : String} (hparse : parseExpression expr = .ok cron)
    (origin : DateTime) :
    cron.CorrectNextRun origin (cron.computeNextRun origin) ↔ cron.RightWhen origin :=
  ⟨fun h => h.rightWhen (parseExpression_wellFormed hparse),
    fun h => h.correct (parseExpression_wellFormed hparse)⟩

/-- The fifteenth of March of the leap year 2024, at midnight. -/
def march : DateTime := ⟨⟨2024, 3, 15, by decide, by decide, by decide, by decide⟩, 0, 0, by decide,
  by decide⟩

/-- Every fifth minute is found in time. -/
theorem computeNextRun_every_fifth_minute :
    CorrectNextRun ⟨.step 5, .any, .any, .any, .any⟩ march
      (computeNextRun ⟨.step 5, .any, .any, .any, .any⟩ march) := by
  have hparse : parseExpression "*/5 * * * *" = .ok ⟨.step 5, .any, .any, .any, .any⟩ := by
    decide +kernel
  refine (computeNextRun_correct_iff hparse march).mpr ⟨rfl, fun h => ?_, .inl rfl⟩
  exact absurd h.december (by decide)

/-- Midnight in February. -/
def february : CronExpression := ⟨.values [0], .values [0], .any, .values [2], .any⟩

/-- **In March of a leap year the next run in February is one that is over.** -/
theorem february_in_march :
    parseExpression "0 0 * 2 *" = .ok february ∧
      february.computeNextRun march =
        ⟨⟨2024, 2, 1, by decide, by decide, by decide, by decide⟩, 0, 0, by decide, by decide⟩ ∧
      ¬ february.CorrectNextRun march (february.computeNextRun march) := by
  have hresult : february.computeNextRun march =
      ⟨⟨2024, 2, 1, by decide, by decide, by decide, by decide⟩, 0, 0, by decide, by decide⟩ := by
    decide +kernel
  refine ⟨by decide +kernel, hresult, fun h => ?_⟩
  have hlater := h.later
  rw [hresult] at hlater
  exact absurd hlater (by decide)

end Result

end ClawDesk.Cron.CronExpression
