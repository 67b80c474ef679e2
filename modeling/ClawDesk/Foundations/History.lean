import Mathlib.Data.Finset.Basic

/-!
# Histories

A **history** is a set of entries of a growing log, given by their places.
`Made` says that one of them has a property; what holds of a history is not
changed by entries that are added to the log later.
-/

namespace ClawDesk.Foundations

variable {α : Type}

/-- An entry in the history `H` has the property `p`. -/
def Made (log : List α) (H : Finset ℕ) (p : α → Prop) : Prop :=
  ∃ i ∈ H, ∃ a, log[i]? = some a ∧ p a

/-- An entry of a list that has grown by one is an old entry or the new one. -/
theorem getElem?_concat_eq_some {l : List α} {a b : α} {i : ℕ} (h : (l ++ [a])[i]? = some b) :
    l[i]? = some b ∨ (i = l.length ∧ b = a) := by
  rw [List.getElem?_append] at h
  split at h
  · exact .inl h
  · next hi =>
      obtain ⟨hlt, rfl⟩ := List.getElem?_eq_some_iff.mp h
      have : i = l.length := by
        rw [List.length_singleton] at hlt
        omega
      exact .inr ⟨this, by simp⟩

section Made

variable {log : List α} {a : α} {i : ℕ} {H H' : Finset ℕ} {p q : α → Prop}

theorem not_made_empty : ¬ Made log ∅ p := by
  rintro ⟨i, hi, -⟩
  exact absurd hi (Finset.notMem_empty i)

theorem made_union : Made log (H ∪ H') p ↔ Made log H p ∨ Made log H' p := by
  constructor
  · rintro ⟨i, hi, h⟩
    rcases Finset.mem_union.mp hi with hi | hi
    · exact .inl ⟨i, hi, h⟩
    · exact .inr ⟨i, hi, h⟩
  · rintro (⟨i, hi, h⟩ | ⟨i, hi, h⟩)
    · exact ⟨i, Finset.mem_union_left _ hi, h⟩
    · exact ⟨i, Finset.mem_union_right _ hi, h⟩

/-- One more entry is taken into the history. -/
theorem made_insert (ha : log[i]? = some a) : Made log (insert i H) p ↔ p a ∨ Made log H p := by
  constructor
  · rintro ⟨j, hj, b, hb, hp⟩
    rcases Finset.mem_insert.mp hj with rfl | hj
    · exact .inl (Option.some.inj (hb.symm.trans ha) ▸ hp)
    · exact .inr ⟨j, hj, b, hb, hp⟩
  · rintro (hp | ⟨j, hj, b, hb, hp⟩)
    · exact ⟨i, Finset.mem_insert_self _ _, a, ha, hp⟩
    · exact ⟨j, Finset.mem_insert_of_mem hj, b, hb, hp⟩

/-- A later entry is in no earlier history. -/
theorem made_append (bounded : ∀ i ∈ H, i < log.length) :
    Made (log ++ [a]) H p ↔ Made log H p := by
  constructor
  · rintro ⟨i, hi, b, hb, hp⟩
    rw [List.getElem?_append_left (bounded i hi)] at hb
    exact ⟨i, hi, b, hb, hp⟩
  · rintro ⟨i, hi, b, hb, hp⟩
    rw [← List.getElem?_append_left (bounded i hi)] at hb
    exact ⟨i, hi, b, hb, hp⟩

/-- A new entry, with the history it is added to. -/
theorem made_insert_length (bounded : ∀ i ∈ H, i < log.length) :
    Made (log ++ [a]) (insert log.length H) p ↔ p a ∨ Made log H p := by
  rw [made_insert List.getElem?_concat_length, made_append bounded]

theorem made_congr (h : ∀ (i : ℕ) a, log[i]? = some a → (p a ↔ q a)) :
    Made log H p ↔ Made log H q := by
  constructor
  · rintro ⟨i, hi, a, ha, hp⟩
    exact ⟨i, hi, a, ha, (h i a ha).mp hp⟩
  · rintro ⟨i, hi, a, ha, hq⟩
    exact ⟨i, hi, a, ha, (h i a ha).mpr hq⟩

end Made

end ClawDesk.Foundations
