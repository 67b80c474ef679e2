import Mathlib.Algebra.BigOperators.Group.Finset.Basic
import Mathlib.Data.Nat.ModEq
import Mathlib.Order.Interval.Finset.Nat

/-!
# Rings indexed by a number modulo their length

A ring of `N` places keeps something for each of the `N` newest numbers, the number
`c` in place `c % N`.  The places of the window are pairwise different
(`InWindow.eq_of_mod_eq`), so an entry can be set without touching another
(`Mirrors.set`), and when the newest number moves on it is enough to clear the
places that are passed on the way (`Mirrors.clear`).  The sum over the ring is the
sum over the window (`Mirrors.sum_eq`).
-/

namespace ClawDesk.Foundations

variable {α : Type} {N newest old new c d p : ℕ}

/-- `c` is one of the `N` newest numbers. -/
def InWindow (N newest c : ℕ) : Prop := c ≤ newest ∧ newest < c + N

instance : Decidable (InWindow N newest c) := inferInstanceAs (Decidable (_ ∧ _))

/-- Numbers less than `N` apart have different places. -/
theorem mod_ne_of_lt (hlt : c < d) (hnear : d < c + N) : c % N ≠ d % N := by
  intro h
  have hdvd : N ∣ d - c := (Nat.modEq_iff_dvd' hlt.le).mp h
  have hle := Nat.le_of_dvd (by omega) hdvd
  omega

theorem InWindow.eq_of_mod_eq (hc : InWindow N newest c) (hd : InWindow N newest d)
    (h : c % N = d % N) : c = d := by
  rcases lt_trichotomy c d with hlt | heq | hgt
  · exact absurd h (mod_ne_of_lt hlt (by have := hc.2; have := hd.1; omega))
  · exact heq
  · exact absurd h.symm (mod_ne_of_lt hgt (by have := hd.2; have := hc.1; omega))

/-- The place `p` is passed on the way from `old` to `new`. -/
def Passed (N old new p : ℕ) : Prop := ∃ c, old < c ∧ c ≤ new ∧ c % N = p

/-- The place of a number that stays in the window is not passed. -/
theorem not_passed (hold : c ≤ old) (hnew : InWindow N new c) : ¬ Passed N old new (c % N) := by
  rintro ⟨d, hd, hle, hmod⟩
  refine mod_ne_of_lt (N := N) (c := c) (d := d) (by omega) ?_ hmod.symm
  have := hnew.2
  omega

/-- Every place is passed on a full lap. -/
theorem passed_of_lap (hp : p < N) (hlap : old + N ≤ new) : Passed N old new p := by
  have hmem : p ∈ (Finset.Ico (old + 1) (old + 1 + N)).image (· % N) := by
    rw [Nat.image_Ico_mod]
    exact Finset.mem_range.mpr hp
  obtain ⟨c, hc, hmod⟩ := Finset.mem_image.mp hmem
  rw [Finset.mem_Ico] at hc
  exact ⟨c, by omega, by omega, hmod⟩

/-- The last place on the way is that of `new` itself. -/
theorem passed_iff (hlt : old < new) : Passed N old new p ↔
    Passed N old (new - 1) p ∨ p = new % N := by
  constructor
  · rintro ⟨c, hc, hle, rfl⟩
    rcases Nat.lt_or_ge c new with hcn | hcn
    · exact .inl ⟨c, hc, by omega, rfl⟩
    · exact .inr (by rw [Nat.le_antisymm hle hcn])
  · rintro (⟨c, hc, hle, rfl⟩ | rfl)
    · exact ⟨c, hc, by omega, rfl⟩
    · exact ⟨new, hlt, le_rfl, rfl⟩

/-- The places passed are counted from the place of `old`. -/
theorem passed_mod_iff {k : ℕ} :
    Passed N (old % N) (old % N + k) p ↔ Passed N old (old + k) p := by
  have hplace (i : ℕ) : (old % N + i) % N = (old + i) % N := Nat.mod_add_mod ..
  constructor
  · rintro ⟨c, hc, hle, rfl⟩
    obtain ⟨i, rfl⟩ := Nat.exists_eq_add_of_le hc.le
    exact ⟨old + i, by omega, by omega, (hplace i).symm⟩
  · rintro ⟨c, hc, hle, rfl⟩
    obtain ⟨i, rfl⟩ := Nat.exists_eq_add_of_le hc.le
    exact ⟨old % N + i, by omega, by omega, hplace i⟩

/-- The places passed, as an interval that does not wrap around. -/
theorem passed_iff_interval {k : ℕ} (hp : p < N) (hend : (old + 1) % N + k ≤ N) :
    Passed N old (old + k) p ↔ (old + 1) % N ≤ p ∧ p < (old + 1) % N + k := by
  have hfirst : (old + 1) % N < N := Nat.mod_lt _ (by omega)
  -- the `j`-th number after `old` is in the `j`-th place of the interval
  have hplace (j : ℕ) (hj : j < k) : (old + 1 + j) % N = (old + 1) % N + j := by
    rw [Nat.add_mod, Nat.mod_eq_of_lt (b := N) (a := j) (by omega), Nat.mod_eq_of_lt (by omega)]
  constructor
  · rintro ⟨c, hc, hle, rfl⟩
    obtain ⟨j, rfl⟩ := Nat.exists_eq_add_of_le hc
    rw [hplace j (by omega)]
    omega
  · rintro ⟨hle, hlt⟩
    refine ⟨old + 1 + (p - (old + 1) % N), by omega, by omega, ?_⟩
    rw [hplace _ (by omega)]
    omega

/-- …and as two intervals when it does. -/
theorem passed_iff_wrapped {k : ℕ} (hp : p < N) (hend : N < (old + 1) % N + k) (hk : k ≤ N) :
    Passed N old (old + k) p ↔ (old + 1) % N ≤ p ∨ p < (old + 1) % N + k - N := by
  have hfirst : (old + 1) % N < N := Nat.mod_lt _ (by omega)
  have hplace (j : ℕ) (hj : j < k) : (old + 1 + j) % N =
      if (old + 1) % N + j < N then (old + 1) % N + j else (old + 1) % N + j - N := by
    rw [Nat.add_mod, Nat.mod_eq_of_lt (b := N) (a := j) (by omega)]
    split_ifs with h
    · exact Nat.mod_eq_of_lt h
    · rw [Nat.mod_eq_sub_mod (by omega), Nat.mod_eq_of_lt (by omega)]
  constructor
  · rintro ⟨c, hc, hle, rfl⟩
    obtain ⟨j, rfl⟩ := Nat.exists_eq_add_of_le hc
    rw [hplace j (by omega)]
    split_ifs <;> omega
  · rintro (hle | hlt)
    · refine ⟨old + 1 + (p - (old + 1) % N), by omega, by omega, ?_⟩
      rw [hplace _ (by omega), if_pos (by omega)]
      omega
    · refine ⟨old + 1 + (p + N - (old + 1) % N), by omega, by omega, ?_⟩
      rw [hplace _ (by omega), if_neg (by omega)]
      omega

/-! ### What a ring keeps -/

/-- The ring holds what `f` says, for each of the newest numbers. -/
def Mirrors (N : ℕ) (ring : ℕ → α) (newest : ℕ) (f : ℕ → α) : Prop :=
  ∀ c, InWindow N newest c → ring (c % N) = f c

variable {ring ring' f : ℕ → α} {a : α}

/-- Setting one entry. -/
theorem Mirrors.set (h : Mirrors N ring newest f) (hc : InWindow N newest c) :
    Mirrors N (Function.update ring (c % N) a) newest (Function.update f c a) := by
  intro d hd
  by_cases hdc : d = c
  · subst hdc
    rw [Function.update_self, Function.update_self]
  · rw [Function.update_of_ne hdc, Function.update_of_ne fun heq => hdc (hd.eq_of_mod_eq hc heq)]
    exact h d hd

/-- Clearing the places that are passed. -/
theorem Mirrors.clear (h : Mirrors N ring old f) (hpos : 0 < N) (hle : old ≤ new)
    (hcleared : ∀ p < N, Passed N old new p → ring' p = a)
    (hkept : ∀ p < N, ¬ Passed N old new p → ring' p = ring p)
    (hlater : ∀ c, old < c → f c = a) : Mirrors N ring' new f := by
  intro c hc
  rcases Nat.lt_or_ge old c with hlt | hold
  · rw [hcleared _ (Nat.mod_lt _ hpos) ⟨c, hlt, hc.1, rfl⟩, hlater c hlt]
  · have hwindow : InWindow N old c := ⟨hold, hle.trans_lt hc.2⟩
    rw [hkept _ (Nat.mod_lt _ hpos) (not_passed hold hc), h c hwindow]

/-- The window moves on by one, into the place of the oldest number. -/
theorem Mirrors.advance (h : Mirrors N ring newest f) (hold : newest + 1 = old + N) :
    Mirrors N (Function.update ring (old % N) (f (newest + 1))) (newest + 1) f := by
  intro c hc
  rcases Nat.lt_or_ge newest c with hlt | hle
  · obtain rfl : c = newest + 1 := Nat.le_antisymm hc.1 hlt
    rw [hold, Nat.add_mod_right, Function.update_self]
  · have hne : c % N ≠ old % N := by
      have := hc.2
      exact (mod_ne_of_lt (by omega) (by omega)).symm
    rw [Function.update_of_ne hne]
    exact h c ⟨hle, by have := hc.2; omega⟩

/-- **The sum over the ring is the sum over the window**, once that is full. -/
theorem Mirrors.sum_eq {ring f : ℕ → ℕ} (h : Mirrors N ring newest f) (hfull : N ≤ newest) :
    ∑ p ∈ Finset.range N, ring p = ∑ c ∈ Finset.Ioc (newest - N) newest, f c := by
  have hwindow {c : ℕ} (hc : c ∈ Finset.Ioc (newest - N) newest) : InWindow N newest c := by
    rw [Finset.mem_Ioc] at hc
    exact ⟨hc.2, by omega⟩
  have himage : (Finset.Ioc (newest - N) newest).image (· % N) = Finset.range N := by
    rw [← Nat.image_Ico_mod (newest - N + 1) N]
    congr 1
    ext c
    rw [Finset.mem_Ioc, Finset.mem_Ico]
    omega
  rw [← himage, Finset.sum_image fun c hc d hd => (hwindow hc).eq_of_mod_eq (hwindow hd)]
  exact Finset.sum_congr rfl fun c hc => h c (hwindow hc)

end ClawDesk.Foundations
