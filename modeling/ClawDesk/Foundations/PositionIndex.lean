import Mathlib.Data.List.Basic

/-!
# An index of positions

A log that forgets its oldest entries numbers all entries it ever held and keeps, for
some property, the numbers of the entries that have it.  The entries still held are the
numbers from `start` on.  The index follows an append (`positions_concat`) and the loss
of the oldest entries (`filter_positions`), and finds exactly the entries a scan finds
(`lookup_positions`).
-/

namespace ClawDesk.Foundations

variable {α : Type} (p : α → Bool)

/-- The numbers of the entries with the property, the first entry being number `start`. -/
def positions : ℕ → List α → List ℕ
  | _, [] => []
  | start, x :: xs =>
      if p x then start :: positions (start + 1) xs else positions (start + 1) xs

/-- The entries with these numbers.  A number that is no longer held is passed over. -/
def lookup (start : ℕ) (xs : List α) (indices : List ℕ) : List α :=
  indices.filterMap fun i => if start ≤ i then xs[i - start]? else none

variable {p}

theorem le_of_mem_positions {xs : List α} {start i : ℕ} (h : i ∈ positions p start xs) :
    start ≤ i := by
  induction xs generalizing start with
  | nil => cases h
  | cons x xs ih =>
      unfold positions at h
      split_ifs at h
      · rcases List.mem_cons.mp h with rfl | h
        · exact Nat.le_refl _
        · exact Nat.le_of_succ_le (ih h)
      · exact Nat.le_of_succ_le (ih h)

/-- **An entry is appended.** -/
theorem positions_concat (start : ℕ) (xs : List α) (x : α) :
    positions p start (xs ++ [x]) =
      positions p start xs ++ if p x then [start + xs.length] else [] := by
  induction xs generalizing start with
  | nil => rfl
  | cons y xs ih =>
      have hlength : start + 1 + xs.length = start + (y :: xs).length := by
        rw [List.length_cons]
        omega
      rw [List.cons_append, positions, positions, ih, hlength]
      split_ifs <;> rfl

/-- **The oldest entries are forgotten.** -/
theorem filter_positions (k start : ℕ) (xs : List α) :
    (positions p start xs).filter (start + k ≤ ·) = positions p (start + k) (xs.drop k) := by
  induction k generalizing start xs with
  | zero =>
      apply List.filter_eq_self.mpr
      intro i hi
      exact decide_eq_true (le_of_mem_positions hi)
  | succ k ih =>
      cases xs with
      | nil => rfl
      | cons x xs =>
          have hrest : (positions p (start + 1) xs).filter (start + (k + 1) ≤ ·) =
              positions p (start + (k + 1)) (xs.drop k) := by
            have hnumber : start + (k + 1) = start + 1 + k := by omega
            rw [hnumber]
            exact ih (start + 1) xs
          rw [positions, List.drop_succ_cons, ← hrest]
          split_ifs
          · rw [List.filter_cons_of_neg (by simp)]
          · rfl

/-- The first entry is looked up. -/
theorem lookup_cons_start {start : ℕ} {x : α} {xs : List α} (indices : List ℕ) :
    lookup start (x :: xs) (start :: indices) = x :: lookup start (x :: xs) indices := by
  simp [lookup]

/-- Entries before those that are looked up do not matter. -/
theorem lookup_cons {start : ℕ} {x : α} {xs : List α} {indices : List ℕ}
    (h : ∀ i ∈ indices, start + 1 ≤ i) :
    lookup start (x :: xs) indices = lookup (start + 1) xs indices := by
  unfold lookup
  apply List.filterMap_congr
  intro i hi
  have hle := h i hi
  obtain ⟨j, rfl⟩ := Nat.exists_eq_add_of_le hle
  have hstart : start ≤ start + 1 + j := by omega
  have hcons : start + 1 + j - start = j + 1 := by omega
  have hrest : start + 1 + j - (start + 1) = j := by omega
  rw [if_pos hstart, if_pos hle, hcons, hrest, List.getElem?_cons_succ]

/-- **The index finds what a scan finds**, in the order of the entries. -/
theorem lookup_positions (start : ℕ) (xs : List α) :
    lookup start xs (positions p start xs) = xs.filter p := by
  induction xs generalizing start with
  | nil => rfl
  | cons x xs ih =>
      have hrest : lookup start (x :: xs) (positions p (start + 1) xs) = xs.filter p := by
        rw [lookup_cons fun i hi => le_of_mem_positions hi]
        exact ih (start + 1)
      unfold positions
      split_ifs with hx
      · rw [List.filter_cons_of_pos hx, ← hrest]
        exact lookup_cons_start _
      · rw [List.filter_cons_of_neg hx]
        exact hrest

end ClawDesk.Foundations
