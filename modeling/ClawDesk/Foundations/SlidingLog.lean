import Mathlib.Data.List.Basic

/-!
# Logs of times over a sliding window

A log of times, oldest first.  A time counts until the window has passed since.  A queue from
whose front everything that no longer counts is dropped holds what still counts of the log
(`dropWhile_eq_recent`).  If nothing is logged unless fewer than `max` times count, then no
interval shorter than the window holds more than `max` (`Metered.interval_le`).
-/

namespace ClawDesk.Foundations.SlidingLog

variable {window now now' time max a b : ℕ} {times log : List ℕ}

/-- The times that still count. -/
def recent (window now : ℕ) (times : List ℕ) : List ℕ := times.filter fun t => now < t + window

theorem recent_append {later : List ℕ} :
    recent window now (times ++ later) = recent window now times ++ recent window now later :=
  List.filter_append ..

/-- What does not count now does not count later. -/
theorem recent_recent (hle : now ≤ now') :
    recent window now' (recent window now times) = recent window now' times := by
  unfold recent
  rw [List.filter_filter]
  refine List.filter_congr fun t _ => ?_
  rw [← Bool.decide_and, decide_eq_decide]
  omega

/-- Dropping from the front until a time counts drops all that does not. -/
theorem dropWhile_eq_recent (sorted : times.Pairwise (· ≤ ·)) :
    times.dropWhile (fun t => t + window ≤ now) = recent window now times := by
  induction times with
  | nil => rfl
  | cons t times ih =>
      obtain ⟨hfirst, hrest⟩ := List.pairwise_cons.mp sorted
      unfold recent at ih ⊢
      by_cases hold : t + window ≤ now
      · rw [List.dropWhile_cons_of_pos (by simpa using hold),
          List.filter_cons_of_neg (by simpa using hold), ih hrest]
      · rw [List.dropWhile_cons_of_neg (by simpa using hold)]
        symm
        refine List.filter_eq_self.mpr fun s hs => ?_
        rcases List.mem_cons.mp hs with rfl | hs
        · simpa using hold
        · have := hfirst s hs
          simp only [decide_eq_true_eq]
          omega

/-- Nothing was logged unless fewer than `max` times counted. -/
inductive Metered (window max : ℕ) : List ℕ → Prop
  | nil : Metered window max []
  | concat {log : List ℕ} {time : ℕ} (before : Metered window max log)
      (last : ∀ t ∈ log, t ≤ time) (room : (recent window time log).length < max) :
      Metered window max (log ++ [time])

theorem Metered.sorted (h : Metered window max log) : log.Pairwise (· ≤ ·) := by
  induction h with
  | nil => exact List.Pairwise.nil
  | concat _ last _ ih =>
      refine List.pairwise_append.mpr ⟨ih, List.pairwise_singleton _ _, fun t ht s hs => ?_⟩
      rw [List.mem_singleton.mp hs]
      exact last t ht

/-- Nothing can be logged where nothing may count. -/
theorem Metered.eq_nil (h : Metered window 0 log) : log = [] := by
  cases h with
  | nil => rfl
  | concat _ _ room => exact absurd room (Nat.not_lt_zero _)

/-- **No interval shorter than the window holds more than `max` times.** -/
theorem Metered.interval_le (h : Metered window max log) (hshort : b < a + window) :
    (log.filter fun t => a ≤ t ∧ t ≤ b).length ≤ max := by
  induction h with
  | nil => exact Nat.zero_le _
  | @concat log time _ last room ih =>
      rw [List.filter_append, List.length_append]
      by_cases hin : a ≤ time ∧ time ≤ b
      · -- all that the interval holds still counted when the last time was logged
        have hsub :
            (log.filter fun t => a ≤ t ∧ t ≤ b).length ≤ (recent window time log).length := by
          refine List.Sublist.length_le (List.monotone_filter_right _ fun t ht => ?_)
          simp only [decide_eq_true_eq] at ht ⊢
          omega
        have hone : ([time].filter fun t => a ≤ t ∧ t ≤ b).length ≤ 1 := List.length_filter_le _ _
        omega
      · have hnone : [time].filter (fun t => a ≤ t ∧ t ≤ b) = [] := by simpa using hin
        rw [hnone]
        exact ih

/-- So at no moment more than `max` times count. -/
theorem Metered.recent_le (h : Metered window max log) (hnow : ∀ t ∈ log, t ≤ now) :
    (recent window now log).length ≤ max := by
  have hshort : now < now + 1 - window + window := by omega
  have hrecent : recent window now log = log.filter fun t => now + 1 - window ≤ t ∧ t ≤ now := by
    refine List.filter_congr fun t ht => ?_
    have := hnow t ht
    rw [decide_eq_decide]
    omega
  rw [hrecent]
  exact h.interval_le hshort

end ClawDesk.Foundations.SlidingLog
