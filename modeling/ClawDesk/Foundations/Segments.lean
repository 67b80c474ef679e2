import Mathlib.Data.List.Basic
import Mathlib.Tactic.Common

/-!
# Cutting a list into segments

One pass over a list decides after each item, from the item and what follows it, whether
a segment ends there.  Nothing is lost (`flatten_segments`), and two places lie in one
segment exactly if there is no cut from the first of them up to the second
(`sameSegment_iff`).
-/

namespace ClawDesk.Foundations

variable {α : Type} (cut : α → List α → Bool)

/-- The segments of a list, the first of which goes on from `current`. -/
def segmentsFrom (current : List α) : List α → List (List α)
  | [] => if current.isEmpty then [] else [current]
  | x :: rest =>
      if cut x rest then (current ++ [x]) :: segmentsFrom [] rest
      else segmentsFrom (current ++ [x]) rest

/-- There is a cut after the item at this place. -/
def cutAfter : List α → ℕ → Bool
  | [], _ => false
  | x :: rest, 0 => cut x rest
  | _ :: rest, p + 1 => cutAfter rest p

/-- Two places lie in one segment. -/
def SameSegment : List (List α) → ℕ → ℕ → Prop
  | [], _, _ => False
  | s :: segs, i, j =>
      (i < s.length ∧ j < s.length) ∨
        (s.length ≤ i ∧ s.length ≤ j ∧ SameSegment segs (i - s.length) (j - s.length))

variable {cut}

theorem SameSegment.symm {segs : List (List α)} {i j : ℕ} (h : SameSegment segs i j) :
    SameSegment segs j i := by
  induction segs generalizing i j with
  | nil => exact h
  | cons s segs ih =>
      rcases h with ⟨hi, hj⟩ | ⟨hi, hj, h⟩
      · exact .inl ⟨hj, hi⟩
      · exact .inr ⟨hj, hi, ih h⟩

/-- **Nothing is lost.** -/
theorem flatten_segmentsFrom (current xs : List α) :
    (segmentsFrom cut current xs).flatten = current ++ xs := by
  induction xs generalizing current with
  | nil =>
      unfold segmentsFrom
      cases current with
      | nil => rfl
      | cons c current => rfl
  | cons x rest ih =>
      unfold segmentsFrom
      split_ifs
      · rw [List.flatten_cons, ih, List.nil_append, List.append_assoc, List.singleton_append]
      · rw [ih, List.append_assoc, List.singleton_append]

/-- Two places in one segment, while a segment is under way. -/
theorem sameSegment_segmentsFrom {current xs : List α} {i j : ℕ} (hij : i ≤ j)
    (hj : j < current.length + xs.length) :
    SameSegment (segmentsFrom cut current xs) i j ↔
      ∀ p, i ≤ current.length + p → current.length + p < j → cutAfter cut xs p = false := by
  induction xs generalizing current i j with
  | nil =>
      have hne : current.isEmpty = false := by
        cases current with
        | nil => exact absurd hj (Nat.not_lt_zero j)
        | cons c current => rfl
      rw [segmentsFrom, hne]
      exact iff_of_true (.inl ⟨Nat.lt_of_le_of_lt hij hj, hj⟩) fun p _ _ => rfl
  | cons x rest ih =>
      have hlength : (current ++ [x]).length = current.length + 1 := List.length_append
      rw [List.length_cons] at hj
      unfold segmentsFrom
      by_cases hcut : cut x rest = true
      · rw [if_pos hcut, SameSegment, hlength]
        constructor
        · rintro (⟨-, hlt⟩ | ⟨hi, -, hsame⟩) p hp hpj
          · omega
          · obtain ⟨q, rfl⟩ : ∃ q, p = q + 1 := ⟨p - 1, by omega⟩
            have hrest := (ih (by omega) (by rw [List.length_nil]; omega)).mp hsame q
            rw [List.length_nil] at hrest
            exact hrest (by omega) (by omega)
        · intro h
          by_cases hlast : j ≤ current.length
          · exact .inl ⟨by omega, by omega⟩
          · -- the cut after `x` lies between, unless both places are behind it
            have hi : current.length + 1 ≤ i := by
              by_contra hi
              have hzero := h 0 (by omega) (by omega)
              rw [cutAfter, hcut] at hzero
              cases hzero
            refine .inr ⟨hi, by omega, (ih (by omega) (by rw [List.length_nil]; omega)).mpr ?_⟩
            intro q hq hqj
            rw [List.length_nil] at hq hqj
            exact h (q + 1) (by omega) (by omega)
      · rw [if_neg hcut, ih hij (by omega), hlength]
        constructor
        · intro h p hp hpj
          cases p with
          | zero => exact Bool.eq_false_iff.mpr hcut
          | succ q => exact h q (by omega) (by omega)
        · intro h q hq hqj
          exact h (q + 1) (by omega) (by omega)

/-- **Two places lie in one segment exactly if there is no cut between them.** -/
theorem sameSegment_iff {xs : List α} {i j : ℕ} (hij : i ≤ j) (hj : j < xs.length) :
    SameSegment (segmentsFrom cut [] xs) i j ↔
      ∀ p, i ≤ p → p < j → cutAfter cut xs p = false := by
  have h : SameSegment (segmentsFrom cut [] xs) i j ↔ ∀ p, i ≤ ([] : List α).length + p →
      ([] : List α).length + p < j → cutAfter cut xs p = false :=
    sameSegment_segmentsFrom hij (by rwa [List.length_nil, Nat.zero_add])
  rw [List.length_nil] at h
  simpa only [Nat.zero_add] using h

theorem cutAfter_eq {xs : List α} {x : α} {p : ℕ} (h : xs[p]? = some x) :
    cutAfter cut xs p = cut x (xs.drop (p + 1)) := by
  induction xs generalizing p with
  | nil => cases h
  | cons y xs ih =>
      cases p with
      | zero =>
          obtain rfl : y = x := Option.some.inj h
          rfl
      | succ p => exact ih h

end ClawDesk.Foundations
