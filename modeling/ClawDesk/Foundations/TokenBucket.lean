import Mathlib.Algebra.Order.Field.Basic
import Mathlib.Tactic.Linarith

/-!
# Token buckets

A bucket holds at most `c` tokens and is refilled at the rate `r`.  How it counts does
not matter for what it lets through: as long as its level is never more than what it
was, plus the refill, less what was spent, no interval sees more than `c` tokens and
the refill of its length (`Metered.within`).

`Metered` is kept by the two things that happen to a bucket, `Metered.wait` and
`Metered.spend`.
-/

namespace ClawDesk.Foundations

variable {K : Type} [Field K] [LinearOrder K] [IsStrictOrderedRing K]
  {r c time time' level level' : K} {spent : List K}

/-- The level accounts for the tokens that were spent at the given times. -/
structure Metered (r c : K) (spent : List K) (time level : K) : Prop where
  rate_nonneg : 0 ≤ r
  level_nonneg : 0 ≤ level
  level_le : level ≤ c
  past : ∀ u ∈ spent, u ≤ time
  since : ∀ s ≤ time, (spent.countP fun u => s ≤ u : ℕ) + level ≤ c + r * (time - s)
  within : ∀ s t, s ≤ t → ((spent.countP fun u => s ≤ u ∧ u ≤ t : ℕ) : K) ≤ c + r * (t - s)

/-- A new bucket, filled or not. -/
theorem metered_nil (hr : 0 ≤ r) (hnonneg : 0 ≤ level) (hle : level ≤ c) (time : K) :
    Metered r c [] time level where
  rate_nonneg := hr
  level_nonneg := hnonneg
  level_le := hle
  past := by simp
  since s hs := by
    have hrefill := mul_nonneg hr (sub_nonneg.mpr hs)
    rw [List.countP_nil, Nat.cast_zero, zero_add]
    linarith
  within s t hst := by
    have hrefill := mul_nonneg hr (sub_nonneg.mpr hst)
    rw [List.countP_nil, Nat.cast_zero]
    linarith

omit [IsStrictOrderedRing K] in
/-- Nothing was spent after the last time. -/
theorem Metered.countP_of_lt (h : Metered r c spent time level) {s : K} (hs : time < s) :
    (spent.countP fun u => s ≤ u) = 0 :=
  List.countP_eq_zero.mpr fun u hu hsu =>
    absurd ((of_decide_eq_true hsu).trans (h.past u hu)) (not_le.mpr hs)

/-- What was spent since some time, once more time has passed. -/
theorem Metered.since_later (h : Metered r c spent time level) (hle : level' ≤ c)
    (hrefill : level' ≤ level + r * (time' - time)) {s : K} (hs : s ≤ time') :
    (spent.countP fun u => s ≤ u : ℕ) + level' ≤ c + r * (time' - s) := by
  rcases le_or_gt s time with hbefore | hafter
  · have hsince := h.since s hbefore
    linarith
  · have hlater := mul_nonneg h.rate_nonneg (sub_nonneg.mpr hs)
    rw [h.countP_of_lt hafter, Nat.cast_zero]
    linarith

/-- Time passes. -/
theorem Metered.wait (h : Metered r c spent time level) (htime : time ≤ time')
    (hnonneg : 0 ≤ level') (hle : level' ≤ c) (hrefill : level' ≤ level + r * (time' - time)) :
    Metered r c spent time' level' where
  rate_nonneg := h.rate_nonneg
  level_nonneg := hnonneg
  level_le := hle
  past u hu := (h.past u hu).trans htime
  since _ hs := h.since_later hle hrefill hs
  within := h.within

/-- A token is spent. -/
theorem Metered.spend (h : Metered r c spent time level) (htime : time ≤ time')
    (hnonneg : 0 ≤ level') (hle : level' + 1 ≤ c)
    (hrefill : level' + 1 ≤ level + r * (time' - time)) :
    Metered r c (time' :: spent) time' level' := by
  have hsince : ∀ s ≤ time', ((time' :: spent).countP fun u => s ≤ u : ℕ) + level' ≤
      c + r * (time' - s) := by
    intro s hs
    have hcount : ((time' :: spent).countP fun u => s ≤ u) =
        (spent.countP fun u => s ≤ u) + 1 := List.countP_cons_of_pos (decide_eq_true hs)
    have hlater := h.since_later hle hrefill hs
    rw [hcount, Nat.cast_add, Nat.cast_one]
    linarith
  have hpast : ∀ u ∈ time' :: spent, u ≤ time' := by
    intro u hu
    rcases List.mem_cons.mp hu with rfl | hu
    · exact le_rfl
    · exact (h.past u hu).trans htime
  refine ⟨h.rate_nonneg, hnonneg, by linarith, hpast, hsince, fun s t hst => ?_⟩
  by_cases hin : s ≤ time' ∧ time' ≤ t
  · -- the interval reaches beyond the last token, so it sees all that was spent since
    have hcount : ((time' :: spent).countP fun u => s ≤ u ∧ u ≤ t) =
        (time' :: spent).countP fun u => s ≤ u := by
      refine List.countP_congr fun u hu => ?_
      have hut := (hpast u hu).trans hin.2
      simp [hut]
    have hall := hsince s hin.1
    have hrest := mul_nonneg h.rate_nonneg (sub_nonneg.mpr hin.2)
    rw [hcount]
    linarith
  · have hcount : ((time' :: spent).countP fun u => s ≤ u ∧ u ≤ t) =
        spent.countP fun u => s ≤ u ∧ u ≤ t :=
      List.countP_cons_of_neg fun hmine => hin (of_decide_eq_true hmine)
    rw [hcount]
    exact h.within s t hst

end ClawDesk.Foundations
