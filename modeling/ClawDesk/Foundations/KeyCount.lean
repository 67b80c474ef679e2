import Mathlib.Data.List.AList

/-!
# Counting keys

How many keys of a store pass a test, and what an insertion and a deletion do to that number.
-/

namespace ClawDesk.Foundations

variable {α : Type} {β : α → Type} {m : AList β} {p : α → Bool} {k : α} {v : β k}

/-- How many keys pass the test. -/
def keyCount (m : AList β) (p : α → Bool) : ℕ := m.keys.countP p

@[simp] theorem keyCount_empty (p : α → Bool) : keyCount (∅ : AList β) p = 0 := rfl

theorem keyCount_pos_iff : 0 < keyCount m p ↔ ∃ k ∈ m, p k = true := List.countP_pos_iff

theorem keyCount_mono {q : α → Bool} (h : ∀ k ∈ m, p k = true → q k = true) :
    keyCount m p ≤ keyCount m q :=
  List.countP_mono_left h

variable [DecidableEq α]

theorem keyCount_erase_of_notMem (h : k ∉ m) : keyCount (m.erase k) p = keyCount m p := by
  unfold keyCount
  rw [AList.keys_erase, List.erase_of_not_mem h]

theorem keyCount_eq_erase (h : k ∈ m) :
    keyCount m p = keyCount (m.erase k) p + if p k = true then 1 else 0 := by
  unfold keyCount
  rw [(List.perm_cons_erase (AList.mem_keys.mp h)).countP_eq, List.countP_cons, AList.keys_erase]

theorem keyCount_erase_of_neg (h : p k = false) : keyCount (m.erase k) p = keyCount m p := by
  by_cases hk : k ∈ m
  · rw [keyCount_eq_erase hk]
    simp [h]
  · exact keyCount_erase_of_notMem hk

/-- A key that is there counts one less when it is deleted. -/
theorem keyCount_erase_of_mem (h : k ∈ m) (hp : p k = true) :
    keyCount (m.erase k) p + 1 = keyCount m p := by
  rw [keyCount_eq_erase h, hp, if_pos rfl]

theorem keyCount_insert : keyCount (m.insert k v) p =
    keyCount (m.erase k) p + if p k = true then 1 else 0 := by
  unfold keyCount
  rw [AList.keys_insert, AList.keys_erase, List.countP_cons]

theorem keyCount_insert_of_neg (h : p k = false) : keyCount (m.insert k v) p = keyCount m p := by
  rw [keyCount_insert, keyCount_erase_of_neg h]
  simp [h]

theorem keyCount_insert_of_mem (h : k ∈ m) : keyCount (m.insert k v) p = keyCount m p := by
  cases hp : p k with
  | true => rw [keyCount_insert, hp, if_pos rfl, keyCount_erase_of_mem h hp]
  | false => exact keyCount_insert_of_neg hp

/-- A new key counts one more. -/
theorem keyCount_insert_of_notMem (h : k ∉ m) (hp : p k = true) :
    keyCount (m.insert k v) p = keyCount m p + 1 := by
  rw [keyCount_insert, keyCount_erase_of_notMem h, hp, if_pos rfl]

end ClawDesk.Foundations
