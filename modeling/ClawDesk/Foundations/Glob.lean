import Mathlib.Data.List.Basic
import Mathlib.Tactic.Common

/-!
# Glob patterns

A pattern is a text in which one letter, the star, stands for any text.  A pattern with
one star, at its end or at its beginning, asks for a beginning or for an end
(`globs_concat_star`, `globs_star_cons`).  Every pattern matches what is left of it when
its stars are deleted (`globs_filter`).

With a second letter for any one letter (`Wild`), a matcher that tries the shortest text for each
star need only remember the last star it has met (`Wild.last_star`).
-/

namespace ClawDesk.Foundations

variable {α : Type}

/-- The text matches the pattern: a star stands for any text, every other letter for
itself. -/
inductive Globs (star : α) : List α → List α → Prop
  | nil : Globs star [] []
  | letter {c : α} {p s : List α} (hc : c ≠ star) (h : Globs star p s) :
      Globs star (c :: p) (c :: s)
  | star {p s : List α} (t : List α) (h : Globs star p s) : Globs star (star :: p) (t ++ s)

variable {star : α} {p s front back : List α}

theorem globs_cons_letter {c : α} (hc : c ≠ star) :
    Globs star (c :: p) s ↔ ∃ rest, s = c :: rest ∧ Globs star p rest := by
  constructor
  · intro h
    cases h with
    | letter _ h => exact ⟨_, rfl, h⟩
    | star t h => exact absurd rfl hc
  · rintro ⟨rest, rfl, h⟩
    exact .letter hc h

/-- A beginning without a star stands for itself. -/
theorem globs_append (hfront : star ∉ front) :
    Globs star (front ++ p) s ↔ ∃ rest, s = front ++ rest ∧ Globs star p rest := by
  induction front generalizing s with
  | nil => simp
  | cons c front ih =>
      have hc : c ≠ star := fun h => hfront (h ▸ List.mem_cons_self)
      have hrest : star ∉ front := fun h => hfront (List.mem_cons_of_mem c h)
      rw [List.cons_append, globs_cons_letter hc]
      constructor
      · rintro ⟨rest, rfl, h⟩
        obtain ⟨rest', rfl, hp⟩ := (ih hrest).mp h
        exact ⟨rest', rfl, hp⟩
      · rintro ⟨rest, rfl, h⟩
        exact ⟨front ++ rest, rfl, (ih hrest).mpr ⟨rest, rfl, h⟩⟩

/-- **A pattern without a star** matches itself only. -/
theorem globs_of_notMem (h : star ∉ p) : Globs star p s ↔ s = p := by
  have happend := globs_append (p := []) (s := s) h
  rw [List.append_nil] at happend
  rw [happend]
  constructor
  · rintro ⟨rest, rfl, hrest⟩
    cases hrest
    exact List.append_nil p
  · rintro rfl
    exact ⟨[], (List.append_nil s).symm, .nil⟩

theorem globs_star (s : List α) : Globs star [star] s := by
  have h : Globs star [star] (s ++ []) := .star s .nil
  rwa [List.append_nil] at h

/-- **A star at the end** asks for the beginning before it. -/
theorem globs_concat_star (hfront : star ∉ front) :
    Globs star (front ++ [star]) s ↔ front <+: s := by
  rw [globs_append hfront]
  constructor
  · rintro ⟨rest, rfl, -⟩
    exact List.prefix_append front rest
  · rintro ⟨rest, rfl⟩
    exact ⟨rest, rfl, globs_star rest⟩

/-- **A star at the beginning** asks for the end after it. -/
theorem globs_star_cons (hback : star ∉ back) : Globs star (star :: back) s ↔ back <:+ s := by
  constructor
  · intro h
    cases h with
    | letter hc => exact absurd rfl hc
    | star t h =>
        rw [(globs_of_notMem hback).mp h]
        exact List.suffix_append t back
  · rintro ⟨t, rfl⟩
    exact .star t ((globs_of_notMem hback).mpr rfl)

/-- **A pattern matches what is left of it without its stars.** -/
theorem globs_filter [DecidableEq α] (p : List α) : Globs star p (p.filter (· ≠ star)) := by
  induction p with
  | nil => exact .nil
  | cons c p ih =>
      by_cases hc : c = star
      · subst hc
        rw [List.filter_cons_of_neg (by simp)]
        exact .star [] ih
      · rw [List.filter_cons_of_pos (by simpa using hc)]
        exact .letter hc ih

/-! ### A letter for any one letter -/

/-- The text matches the pattern: a star stands for any text, `one` for any one letter, every
other letter for itself. -/
inductive Wild (star one : α) : List α → List α → Prop
  | nil : Wild star one [] []
  | letter {c d : α} {p s : List α} (hc : c ≠ star) (hcd : c = one ∨ c = d)
      (h : Wild star one p s) : Wild star one (c :: p) (d :: s)
  | star {p s : List α} (t : List α) (h : Wild star one p s) : Wild star one (star :: p) (t ++ s)

variable {one : α} {u v : List α}

theorem wild_cons_letter {c : α} (hc : c ≠ star) : Wild star one (c :: p) s ↔
    ∃ d rest, s = d :: rest ∧ (c = one ∨ c = d) ∧ Wild star one p rest := by
  constructor
  · intro h
    cases h with
    | letter _ hcd h => exact ⟨_, _, rfl, hcd, h⟩
    | star t h => exact absurd rfl hc
  · rintro ⟨d, rest, rfl, hcd, h⟩
    exact .letter hc hcd h

theorem wild_cons_star :
    Wild star one (star :: p) s ↔ ∃ rest, rest <:+ s ∧ Wild star one p rest := by
  constructor
  · intro h
    cases h with
    | letter hc => exact absurd rfl hc
    | star t h => exact ⟨_, List.suffix_append t _, h⟩
  · rintro ⟨rest, ⟨t, rfl⟩, h⟩
    exact .star t h

/-- A star takes the next letter, or stands for nothing. -/
theorem wild_star_cons {d : α} : Wild star one (star :: p) (d :: s) ↔
    Wild star one p (d :: s) ∨ Wild star one (star :: p) s := by
  simp only [wild_cons_star, List.suffix_cons_iff]
  constructor
  · rintro ⟨rest, rfl | hrest, h⟩
    · exact .inl h
    · exact .inr ⟨rest, hrest, h⟩
  · rintro (h | ⟨rest, hrest, h⟩)
    · exact ⟨_, .inl rfl, h⟩
    · exact ⟨rest, .inr hrest, h⟩

/-- More text in front is taken by a star. -/
theorem Wild.of_suffix (h : Wild star one (star :: p) v) (hv : v <:+ u) :
    Wild star one (star :: p) u := by
  obtain ⟨rest, hrest, h⟩ := wild_cons_star.mp h
  exact wild_cons_star.mpr ⟨rest, hrest.trans hv, h⟩

theorem wild_nil_iff : Wild star one p [] ↔ ∀ c ∈ p, c = star := by
  induction p with
  | nil => exact iff_of_true .nil (by simp)
  | cons c p ih =>
      rw [List.forall_mem_cons]
      by_cases hc : c = star
      · subst hc
        simp [wild_cons_star, ih]
      · simp [wild_cons_letter hc, hc]

/-- The same text in front of both. -/
theorem Wild.append (h : Wild star one p s) (u : List α) : Wild star one (u ++ p) (u ++ s) := by
  induction u with
  | nil => exact h
  | cons c u ih =>
      by_cases hc : c = star
      · subst hc
        exact .star [c] ih
      · exact .letter hc (.inr rfl) ih

/-- A beginning without a star takes up as many letters as it has. -/
theorem Wild.drop (hu : star ∉ u) (h : Wild star one (u ++ p) s) :
    u.length ≤ s.length ∧ Wild star one p (s.drop u.length) := by
  induction u generalizing s with
  | nil => exact ⟨Nat.zero_le _, h⟩
  | cons c u ih =>
      have hc : c ≠ star := fun heq => hu (heq ▸ List.mem_cons_self)
      obtain ⟨d, rest, rfl, -, hrest⟩ := (wild_cons_letter hc).mp h
      obtain ⟨hlen, hdrop⟩ := ih (fun hmem => hu (List.mem_cons_of_mem c hmem)) hrest
      exact ⟨Nat.succ_le_succ hlen, hdrop⟩

/-- Without a star the text has the length of the pattern. -/
theorem Wild.length_eq (hp : star ∉ p) (h : Wild star one p s) : p.length = s.length := by
  rw [← List.append_nil p] at h
  obtain ⟨hle, hrest⟩ := h.drop hp
  have hge : s.length ≤ p.length := by
    rw [← List.drop_eq_nil_iff]
    generalize s.drop p.length = rest at hrest
    cases hrest
    rfl
  exact Nat.le_antisymm hle hge

/-- **A pattern without special letters** matches itself only. -/
theorem wild_of_notMem (hstar : star ∉ p) (hone : one ∉ p) : Wild star one p s ↔ p = s := by
  induction p generalizing s with
  | nil =>
      constructor
      · intro h
        cases h
        rfl
      · rintro rfl
        exact .nil
  | cons c p ih =>
      rw [List.mem_cons, not_or] at hstar hone
      rw [wild_cons_letter (Ne.symm hstar.1)]
      constructor
      · rintro ⟨d, rest, rfl, hcd, h⟩
        rw [(ih hstar.2 hone.2).mp h, hcd.resolve_left (Ne.symm hone.1)]
      · rintro rfl
        exact ⟨c, p, rfl, .inr rfl, (ih hstar.2 hone.2).mpr rfl⟩

theorem suffix_drop (h : v <:+ s) (n : ℕ) : v.drop n <:+ s.drop n := by
  obtain ⟨t, rfl⟩ := h
  rw [List.drop_append]
  exact (List.drop_suffix_drop_left v (Nat.sub_le n t.length)).trans (List.suffix_append _ _)

/-- **The last star is enough to go back to**: what an earlier one would make of less text, the
last one makes of the text where it was met. -/
theorem Wild.last_star (hu : star ∉ u) (h : Wild star one (star :: (u ++ star :: p)) v)
    (hv : v <:+ s) : Wild star one (star :: p) (s.drop u.length) := by
  obtain ⟨rest, hrest, h⟩ := wild_cons_star.mp h
  exact (h.drop hu).2.of_suffix (suffix_drop (hrest.trans hv) _)

end ClawDesk.Foundations
