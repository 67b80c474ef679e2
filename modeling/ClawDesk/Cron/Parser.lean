import ClawDesk.Foundations.IpAddress
import ClawDesk.Foundations.Str
import Mathlib.Data.List.Destutter
import Mathlib.Data.List.GetD
import Mathlib.Data.List.Sort

/-!
# Cron expressions

An expression has five fields, or six with the seconds first, which are skipped.  The numbers of a
field that is accepted are those that it may have (`parseExpression_wellFormed`), and `next_value`
then finds the least value from a given one on that matches, or signals that there is none
(`CronField.nextValue_spec`).
-/

namespace ClawDesk.Cron

open Foundations

/-- A single cron field (minute, hour, etc.). -/
inductive CronField
  /-- Match any value. -/
  | any
  /-- Match specific values (sorted ascending). -/
  | values (vals : List ℕ)
  /-- Match a range. -/
  | range (start stop : ℕ)
  /-- Every N values. -/
  | step (n : ℕ)
deriving DecidableEq

/-- `partition_point`, for a list that the test divides in two. -/
def partitionPoint (pred : ℕ → Bool) (vals : List ℕ) : ℕ := (vals.takeWhile pred).length

/-- Whether a value matches. -/
def CronField.matchesValue : CronField → ℕ → Bool
  | .any, _ => true
  | .values vals, value => vals.contains value
  | .range start stop, value => decide (start ≤ value ∧ value ≤ stop)
  | .step n, value => decide (0 < n ∧ value % n = 0)

/-- Find the next valid value from `current` on, with a flag that is true if there was none. -/
def CronField.nextValue : CronField → ℕ → ℕ → ℕ → ℕ × Bool
  | .any, current, _, _ => (current, false)
  | .values vals, current, _, _ =>
      let idx := partitionPoint (· < current) vals
      if idx < vals.length then (vals.getD idx 0, false)
      else (vals.headD 0, true)
  | .range start stop, current, _, _ =>
      if start ≤ current ∧ current ≤ stop then (current, false)
      else if current < start then (start, false)
      else (start, true)
  | .step n, current, min, max =>
      if n = 0 then (min, false)
      else
        let next := if current % n = 0 then current else (current / n + 1) * n
        if next ≤ max then (next, false) else (0, true)

structure CronExpression where
  minute : CronField
  hour : CronField
  dayOfMonth : CronField
  month : CronField
  dayOfWeek : CronField
deriving DecidableEq

/-! ### Parsing -/

/-- `*/N`, with what stands for `N`. -/
def parseStep (stepStr : List Char) (max : ℕ) : Except String CronField :=
  match parseU32 stepStr with
  | none => .error ("Invalid step: " ++ String.ofList stepStr)
  | some step =>
      if step = 0 ∨ max < step then .error s!"Step {step} out of range 1-{max}"
      else .ok (.step step)

/-- `N-M`. -/
def parseRange (token : List Char) (min max : ℕ) : Except String CronField :=
  match token.splitOn '-' with
  | [first, last] =>
      match parseU32 first with
      | none => .error ("Invalid range start: " ++ String.ofList first)
      | some start =>
          match parseU32 last with
          | none => .error ("Invalid range end: " ++ String.ofList last)
          | some stop =>
              if start < min ∨ max < stop ∨ stop < start then
                .error s!"Range {start}-{stop} out of bounds {min}-{max}"
              else .ok (.range start stop)
  | _ => .error ("Invalid range: " ++ String.ofList token)

/-- `N,M,O`. -/
def parseValues (token : List Char) (min max : ℕ) : Except String CronField :=
  match (token.splitOn ',').mapM parseU32 with
  | none => .error ("Invalid value list: " ++ String.ofList token)
  | some vals =>
      match vals.find? fun v => v < min ∨ max < v with
      | some v => .error s!"Value {v} out of range {min}-{max}"
      | none => .ok (.values ((vals.insertionSort (· ≤ ·)).destutter (· ≠ ·)))

/-- A single value. -/
def parseValue (token : List Char) (min max : ℕ) : Except String CronField :=
  match parseU32 token with
  | none => .error ("Invalid value: " ++ String.ofList token)
  | some val =>
      if val < min ∨ max < val then .error s!"Value {val} out of range {min}-{max}"
      else .ok (.values [val])

/-- Parse a single cron field token. -/
def parseField (token : List Char) (min max : ℕ) : Except String CronField :=
  if token = ['*'] then .ok .any
  else
    match Str.stripFront ['*', '/'] token with
    | some stepStr => parseStep stepStr max
    | none =>
        if '-' ∈ token then parseRange token min max
        else if ',' ∈ token then parseValues token min max
        else parseValue token min max

inductive CronError
  | invalidExpression (expr : String)
deriving DecidableEq

/-- The error for a field names the expression and the field. -/
def fieldOr (expr name : String) (field : Except String CronField) : Except CronError CronField :=
  field.mapError fun e => .invalidExpression s!"{expr}: {name} — {e}"

/-- The expression in the text of a schedule. -/
def parseExpression (expr : String) : Except CronError CronExpression :=
  let tokens := Str.splitWhitespace (Str.trim expr.toList)
  match if tokens.length = 6 then tokens.drop 1 else tokens with
  | [minute, hour, dayOfMonth, month, dayOfWeek] => do
      let minute ← fieldOr expr "minute" (parseField minute 0 59)
      let hour ← fieldOr expr "hour" (parseField hour 0 23)
      let dayOfMonth ← fieldOr expr "day_of_month" (parseField dayOfMonth 1 31)
      let month ← fieldOr expr "month" (parseField month 1 12)
      let dayOfWeek ← fieldOr expr "day_of_week" (parseField dayOfWeek 0 6)
      return { minute, hour, dayOfMonth, month, dayOfWeek }
  | _ => .error (.invalidExpression expr)

example : parseExpression "0 30 9 1,15 */2 1-5" =
    .ok ⟨.values [30], .values [9], .values [1, 15], .step 2, .range 1 5⟩ := by decide +kernel

/-! ### What a field may hold -/

/-- The numbers of a field lie within its bounds, and those of a list are in order. -/
def CronField.WellFormed (min max : ℕ) : CronField → Prop
  | .any => True
  | .values vals => vals ≠ [] ∧ vals.Pairwise (· ≤ ·) ∧ ∀ v ∈ vals, min ≤ v ∧ v ≤ max
  | .range start stop => min ≤ start ∧ start ≤ stop ∧ stop ≤ max
  | .step n => 0 < n ∧ n ≤ max

structure CronExpression.WellFormed (cron : CronExpression) : Prop where
  minute : cron.minute.WellFormed 0 59
  hour : cron.hour.WellFormed 0 23
  dayOfMonth : cron.dayOfMonth.WellFormed 1 31
  month : cron.month.WellFormed 1 12
  dayOfWeek : cron.dayOfWeek.WellFormed 0 6

section Parsing

variable {token : List Char} {min max : ℕ} {field : CronField}

theorem parseStep_wellFormed (h : parseStep token max = .ok field) : field.WellFormed min max := by
  unfold parseStep at h
  cases hstep : parseU32 token with
  | none =>
      rw [hstep] at h
      cases h
  | some n =>
      simp only [hstep] at h
      split_ifs at h with hout
      obtain rfl := Except.ok.inj h
      exact ⟨by omega, by omega⟩

theorem parseRange_wellFormed (h : parseRange token min max = .ok field) :
    field.WellFormed min max := by
  unfold parseRange at h
  split at h
  · split at h
    · cases h
    · split at h
      · cases h
      · split_ifs at h with hout
        obtain rfl := Except.ok.inj h
        exact ⟨by omega, by omega, by omega⟩
  · cases h

theorem parseValue_wellFormed (h : parseValue token min max = .ok field) :
    field.WellFormed min max := by
  unfold parseValue at h
  split at h
  · cases h
  · split_ifs at h with hout
    obtain rfl := Except.ok.inj h
    refine ⟨List.cons_ne_nil _ _, List.pairwise_singleton _ _, fun v hv => ?_⟩
    rw [List.mem_singleton.mp hv]
    omega

theorem parseValues_wellFormed (h : parseValues token min max = .ok field) :
    field.WellFormed min max := by
  unfold parseValues at h
  split at h
  · cases h
  · rename_i vals hvals
    split at h
    · cases h
    · rename_i hfind
      obtain rfl := Except.ok.inj h
      have hsublist := List.destutter_sublist (· ≠ ·) (vals.insertionSort (· ≤ ·))
      refine ⟨fun hnil => ?_, ?_, fun v hv => ?_⟩
      · -- a text has at least one part, and each part one number
        have hempty : vals = [] := by
          have hsorted := (List.destutter_eq_nil _).mp hnil
          have hlength := (List.perm_insertionSort (· ≤ ·) vals).length_eq
          rw [hsorted] at hlength
          exact List.length_eq_zero_iff.mp hlength.symm
        obtain ⟨part, parts, hparts⟩ := List.exists_cons_of_ne_nil (List.splitOn_ne_nil ',' token)
        rw [hparts, List.mapM_cons] at hvals
        obtain ⟨v, -, hrest⟩ := Option.bind_eq_some_iff.mp hvals
        obtain ⟨vs, -, hcons⟩ := Option.bind_eq_some_iff.mp hrest
        exact absurd ((Option.some.inj hcons).trans hempty) (List.cons_ne_nil v vs)
      · exact (List.pairwise_insertionSort (· ≤ ·) vals).sublist hsublist
      · have hmem : v ∈ vals :=
          (List.perm_insertionSort (· ≤ ·) vals).mem_iff.mp (hsublist.subset hv)
        have hin := List.find?_eq_none.mp hfind v hmem
        simp only [decide_eq_true_eq] at hin
        omega

/-- **A field that is accepted is well formed.** -/
theorem parseField_wellFormed (h : parseField token min max = .ok field) :
    field.WellFormed min max := by
  unfold parseField at h
  by_cases hany : token = ['*']
  · rw [if_pos hany] at h
    obtain rfl := Except.ok.inj h
    exact trivial
  · rw [if_neg hany] at h
    cases hstrip : Str.stripFront ['*', '/'] token with
    | some stepStr =>
        rw [hstrip] at h
        exact parseStep_wellFormed h
    | none =>
        simp only [hstrip] at h
        split_ifs at h with hrange hvalues
        · exact parseRange_wellFormed h
        · exact parseValues_wellFormed h
        · exact parseValue_wellFormed h

/-- A field whose error would be reported. -/
theorem fieldOr_wellFormed {expr name : String} {β : Type} {f : CronField → Except CronError β}
    {b : β} (h : (fieldOr expr name (parseField token min max) >>= f) = .ok b) :
    ∃ field, field.WellFormed min max ∧ f field = .ok b := by
  cases hparse : parseField token min max with
  | error e =>
      rw [hparse] at h
      cases h
  | ok field =>
      rw [hparse] at h
      exact ⟨field, parseField_wellFormed hparse, h⟩

/-- The fields of an expression that is accepted are well formed. -/
theorem parseExpression_wellFormed {expr : String} {cron : CronExpression}
    (h : parseExpression expr = .ok cron) : cron.WellFormed := by
  unfold parseExpression at h
  simp only at h
  split at h
  · obtain ⟨minute, hminute, h⟩ := fieldOr_wellFormed h
    obtain ⟨hour, hhour, h⟩ := fieldOr_wellFormed h
    obtain ⟨dayOfMonth, hdayOfMonth, h⟩ := fieldOr_wellFormed h
    obtain ⟨month, hmonth, h⟩ := fieldOr_wellFormed h
    obtain ⟨dayOfWeek, hdayOfWeek, h⟩ := fieldOr_wellFormed h
    obtain rfl := Except.ok.inj h
    exact ⟨hminute, hhour, hdayOfMonth, hmonth, hdayOfWeek⟩
  · cases h

end Parsing

/-! ### The next value that matches -/

namespace CronField

variable {f : CronField} {current min max : ℕ}

/-- Nothing matches from `current` on, up to `max`. -/
def NoneFrom (f : CronField) (current max : ℕ) : Prop :=
  ∀ u, current ≤ u → u ≤ max → f.matchesValue u = false

/-- The least value from `current` on that matches. -/
structure Next (f : CronField) (current max next : ℕ) : Prop where
  le : current ≤ next
  le_max : next ≤ max
  isMatch : f.matchesValue next = true
  least : ∀ u, current ≤ u → u < next → f.matchesValue u = false

/-- Where a list is divided: all of it comes before `current`, or the part in front does. -/
theorem partitionPoint_cases (current : ℕ) (vals : List ℕ) :
    (partitionPoint (· < current) vals = vals.length ∧ ∀ v ∈ vals, v < current) ∨
      ∃ front next rest, vals = front ++ next :: rest ∧
        partitionPoint (· < current) vals = front.length ∧ (∀ v ∈ front, v < current) ∧
        current ≤ next := by
  have hsplit : vals.takeWhile (· < current) ++ vals.dropWhile (· < current) = vals :=
    List.takeWhile_append_dropWhile
  have hfront : ∀ v ∈ vals.takeWhile (· < current), v < current := fun v hv =>
    of_decide_eq_true (List.mem_takeWhile_imp (p := fun x => decide (x < current)) hv)
  cases hdrop : vals.dropWhile (· < current) with
  | nil =>
      rw [hdrop, List.append_nil] at hsplit
      rw [hsplit] at hfront
      exact .inl ⟨congrArg List.length hsplit, hfront⟩
  | cons next rest =>
      rw [hdrop] at hsplit
      have hnext : current ≤ next := by
        have hhead := List.head?_dropWhile_not (fun v => decide (v < current)) vals
        rw [hdrop] at hhead
        simpa using hhead
      exact .inr ⟨_, next, rest, hsplit.symm, rfl, hfront, hnext⟩

/-- The least value of a list from `current` on. -/
theorem nextValue_values {vals : List ℕ} (hsorted : vals.Pairwise (· ≤ ·))
    (hmax : ∀ v ∈ vals, v ≤ max) :
    (∃ v, (values vals).nextValue current min max = (v, true) ∧
      (values vals).NoneFrom current max) ∨
    ∃ next, (values vals).nextValue current min max = (next, false) ∧
      (values vals).Next current max next := by
  have hvalue : (values vals).nextValue current min max =
      if partitionPoint (· < current) vals < vals.length then
        (vals.getD (partitionPoint (· < current) vals) 0, false)
      else (vals.headD 0, true) := rfl
  have hnot : ∀ u, u ∉ vals → (values vals).matchesValue u = false := fun u hu => by
    simpa [matchesValue] using hu
  rw [hvalue]
  rcases partitionPoint_cases current vals with ⟨hpoint, hall⟩ |
    ⟨front, next, rest, rfl, hpoint, hfront, hnext⟩
  · rw [hpoint]
    refine .inl ⟨vals.headD 0, if_neg (Nat.lt_irrefl _), fun u hu _ => hnot u fun hmem => ?_⟩
    exact absurd (hall u hmem) (Nat.not_lt.mpr hu)
  · have hmem : next ∈ front ++ next :: rest := List.mem_append_right _ List.mem_cons_self
    rw [hpoint]
    refine .inr ⟨next, ?_, hnext, hmax next hmem, by simp [matchesValue], fun u hu hlt => ?_⟩
    · rw [if_pos (by rw [List.length_append, List.length_cons]; omega),
        List.getD_append_right _ _ _ _ (Nat.le_refl _), Nat.sub_self, List.getD_cons_zero]
    · refine hnot u fun hu' => ?_
      rcases List.mem_append.mp hu' with hu' | hu'
      · exact absurd (hfront u hu') (Nat.not_lt.mpr hu)
      · obtain ⟨hrest, -⟩ := List.pairwise_cons.mp (List.pairwise_append.mp hsorted).2.1
        rcases List.mem_cons.mp hu' with rfl | hu'
        · exact Nat.lt_irrefl u hlt
        · exact absurd (hrest u hu') (Nat.not_le.mpr hlt)

/-- The least multiple from `current` on. -/
theorem step_next {n next : ℕ} (hn : 0 < n)
    (hnext : next = if current % n = 0 then current else (current / n + 1) * n) :
    next % n = 0 ∧ current ≤ next ∧ ∀ u, current ≤ u → u < next → ¬ u % n = 0 := by
  have hdivmod := Nat.div_add_mod current n
  have hmod := Nat.mod_lt current hn
  by_cases hzero : current % n = 0
  · rw [if_pos hzero] at hnext
    subst hnext
    exact ⟨hzero, Nat.le_refl next, fun u hu hlt => absurd hlt (Nat.not_lt.mpr hu)⟩
  · rw [if_neg hzero] at hnext
    have hexpand : next = n * (current / n) + n := by rw [hnext, Nat.mul_comm, Nat.mul_succ]
    refine ⟨by rw [hnext, Nat.mul_mod_left], by omega, fun u hu hlt hmultiple => ?_⟩
    -- a multiple of `n` strictly between two that follow each other
    have hu' : u = n * (u / n) := by
      have hdivmod' := Nat.div_add_mod u n
      omega
    have hlow : current / n < u / n := by
      refine Nat.lt_of_mul_lt_mul_left (a := n) ?_
      omega
    have hhigh : u / n < current / n + 1 := by
      refine Nat.lt_of_mul_lt_mul_left (a := n) ?_
      rw [Nat.mul_succ]
      omega
    omega

theorem nextValue_step {n : ℕ} (hn : 0 < n) :
    (∃ v, (step n).nextValue current min max = (v, true) ∧ (step n).NoneFrom current max) ∨
    ∃ next, (step n).nextValue current min max = (next, false) ∧
      (step n).Next current max next := by
  obtain ⟨next, hnext⟩ : ∃ next, next = if current % n = 0 then current
      else (current / n + 1) * n := ⟨_, rfl⟩
  obtain ⟨hmultiple, hle, hleast⟩ := step_next hn hnext
  have hvalue : (step n).nextValue current min max =
      if next ≤ max then (next, false) else (0, true) := by
    rw [nextValue, if_neg (Nat.pos_iff_ne_zero.mp hn), hnext]
  rw [hvalue]
  split_ifs with hmax
  · exact .inr ⟨next, rfl, hle, hmax, decide_eq_true ⟨hn, hmultiple⟩,
      fun u hu hlt => decide_eq_false fun h => hleast u hu hlt h.2⟩
  · refine .inl ⟨0, rfl, fun u hu humax => decide_eq_false fun h => hleast u hu ?_ h.2⟩
    omega

/-- **What `next_value` finds**: the least value from `current` on that matches, or that there is
none. -/
theorem nextValue_spec (hwf : f.WellFormed min max) (hle : current ≤ max) :
    (∃ v, f.nextValue current min max = (v, true) ∧ f.NoneFrom current max) ∨
    ∃ next, f.nextValue current min max = (next, false) ∧ f.Next current max next := by
  cases f with
  | any =>
      exact .inr ⟨current, rfl, Nat.le_refl current, hle, rfl,
        fun u hu hlt => absurd hlt (Nat.not_lt.mpr hu)⟩
  | values vals =>
      obtain ⟨-, hsorted, hmem⟩ := hwf
      exact nextValue_values hsorted fun v hv => (hmem v hv).2
  | range start stop =>
      obtain ⟨-, hlt, hstop⟩ := hwf
      have hvalue : (range start stop).nextValue current min max =
          if start ≤ current ∧ current ≤ stop then (current, false)
          else if current < start then (start, false) else (start, true) := rfl
      rw [hvalue]
      split_ifs with hin hbefore
      · exact .inr ⟨current, rfl, Nat.le_refl current, hle, decide_eq_true hin,
          fun u hu hlt => absurd hlt (Nat.not_lt.mpr hu)⟩
      · refine .inr ⟨start, rfl, hbefore.le, hlt.trans hstop, decide_eq_true ⟨Nat.le_refl _, hlt⟩,
          fun u _ hu => decide_eq_false ?_⟩
        omega
      · refine .inl ⟨start, rfl, fun u hu _ => decide_eq_false ?_⟩
        omega
  | step n => exact nextValue_step hwf.1

/-- Some value matches. -/
theorem exists_matchesValue (hwf : f.WellFormed min max) (hmin : min ≤ 1) (hmax : 1 ≤ max) :
    ∃ v, min ≤ v ∧ v ≤ max ∧ f.matchesValue v = true := by
  cases f with
  | any => exact ⟨min, Nat.le_refl min, hmin.trans hmax, rfl⟩
  | values vals =>
      obtain ⟨hne, -, hmem⟩ := hwf
      obtain ⟨v, rest, rfl⟩ := List.exists_cons_of_ne_nil hne
      obtain ⟨hlow, hhigh⟩ := hmem v List.mem_cons_self
      exact ⟨v, hlow, hhigh, by simp [matchesValue]⟩
  | range start stop =>
      obtain ⟨hlow, hlt, hstop⟩ := hwf
      exact ⟨start, hlow, hlt.trans hstop, decide_eq_true ⟨Nat.le_refl _, hlt⟩⟩
  | step n =>
      obtain ⟨hpos, hle⟩ := hwf
      exact ⟨n, hmin.trans hpos, hle, decide_eq_true ⟨hpos, Nat.mod_self n⟩⟩

end CronField

end ClawDesk.Cron
