import ClawDesk.Foundations.Fold
import Mathlib.Tactic.Common

/-!
# Sequences with brackets

Some items of a sequence open a group and some close one.  `level` counts the groups open after
a sequence, and does not go below zero.

One flag a level can remember that a marked item was seen in a group of that level, if opening
a group clears the flag.  `Kept` is what such a flag knows: a marked item of that
level, with no group of the level opened since.  `kept_concat` is its step.
-/

namespace ClawDesk.Foundations.Brackets

/-- What an item does to the groups. -/
inductive Shape where
  | opens
  | closes
  | plain
  deriving DecidableEq

section Level

variable {α : Type} (shape : α → Shape)

/-- The level after an item. -/
def after (n : ℕ) (item : α) : ℕ :=
  match shape item with
  | .opens => n + 1
  | .closes => n - 1
  | .plain => n

/-- The level after a sequence that begins at a level. -/
def level (n : ℕ) (items : List α) : ℕ := items.foldl (after shape) n

/-- Sequences in which the groups are balanced. -/
inductive Balanced : List α → Prop where
  | nil : Balanced []
  | plain {item : α} {items : List α} (hitem : shape item = .plain) (rest : Balanced items) :
      Balanced (item :: items)
  | group {opening closing : α} {body items : List α} (hopening : shape opening = .opens)
      (hclosing : shape closing = .closes) (hbody : Balanced body) (rest : Balanced items) :
      Balanced (opening :: body ++ closing :: items)

variable {shape} {n : ℕ} {items items' : List α} {item : α}

@[simp] theorem level_nil : level shape n [] = n := rfl

@[simp] theorem level_cons :
    level shape n (item :: items) = level shape (after shape n item) items := rfl

@[simp] theorem level_append :
    level shape n (items ++ items') = level shape (level shape n items) items' :=
  List.foldl_append

theorem after_opens (h : shape item = .opens) : after shape n item = n + 1 := by
  rw [after, h]

theorem after_closes (h : shape item = .closes) : after shape n item = n - 1 := by
  rw [after, h]

theorem after_plain (h : shape item = .plain) : after shape n item = n := by
  rw [after, h]

/-- A balanced sequence ends at the level at which it begins. -/
theorem Balanced.level_eq (h : Balanced shape items) (n : ℕ) : level shape n items = n := by
  induction h generalizing n with
  | nil => rfl
  | plain hitem _ ih => rw [level_cons, after_plain hitem, ih]
  | group hopening hclosing _ _ ihbody ih =>
      rw [List.cons_append, level_cons, after_opens hopening, level_append, ihbody, level_cons,
        after_closes hclosing, Nat.add_sub_cancel, ih]

/-- Inside a balanced sequence, the level at which it begins is not left downwards. -/
theorem Balanced.le_level (h : Balanced shape items) {front back : List α}
    (hsplit : items = front ++ back) (n : ℕ) : n ≤ level shape n front := by
  induction h generalizing n front back with
  | nil =>
      rw [(List.append_eq_nil_iff.mp hsplit.symm).1]
      exact Nat.le_refl n
  | plain hitem _ ih =>
      cases front with
      | nil => exact Nat.le_refl n
      | cons item front =>
          obtain ⟨rfl, htail⟩ := List.cons.inj hsplit
          rw [level_cons, after_plain hitem]
          exact ih htail n
  | group hopening hclosing hbody _ ihbody ih =>
      cases front with
      | nil => exact Nat.le_refl n
      | cons item front =>
          obtain ⟨rfl, htail⟩ := List.cons.inj hsplit
          rw [level_cons, after_opens hopening]
          rcases List.append_eq_append_iff.mp htail with ⟨mid, rfl, hmid⟩ | ⟨mid, rfl, -⟩
          · -- the front reaches the end of the body
            rw [level_append, hbody.level_eq]
            cases mid with
            | nil => exact Nat.le_succ n
            | cons item mid =>
                obtain ⟨rfl, hrest⟩ := List.cons.inj hmid
                rw [level_cons, after_closes hclosing, Nat.add_sub_cancel]
                exact ih hrest n
          · exact Nat.le_trans (Nat.le_succ n) (ihbody rfl (n + 1))

end Level

/-! ### A flag for each level -/

section Kept

variable {α : Type} (shape : α → Shape) (mark : α → Bool)

/-- A marked item stands at the level, and no group of the level has been opened since. -/
def Kept (d : ℕ) (items : List α) : Prop :=
  ∃ before item since, items = before ++ item :: since ∧ mark item = true ∧
    level shape 0 before = d ∧
    ∀ inner opening rest, since = inner ++ opening :: rest → shape opening = .opens →
      level shape 0 (before ++ item :: inner) + 1 ≠ d

variable {shape mark} {d : ℕ} {items : List α} {item : α}

@[simp] theorem not_kept_nil : ¬ Kept shape mark d [] := by
  rintro ⟨before, item, since, hitems, -⟩
  simp at hitems

/-- **What one item does to the flags**: a marked one sets that of its level, and one that
opens a group clears that of the group. -/
theorem kept_concat : Kept shape mark d (items ++ [item]) ↔
    (mark item = true ∧ level shape 0 items = d) ∨
      Kept shape mark d items ∧ ¬ (shape item = .opens ∧ level shape 0 items + 1 = d) := by
  constructor
  · rintro ⟨before, marked, since, hitems, hmark, hlevel, hsince⟩
    rcases concat_eq_append_cons hitems with ⟨rfl, rfl, rfl⟩ | ⟨since, rfl, rfl⟩
    · exact Or.inl ⟨hmark, hlevel⟩
    · refine Or.inr ⟨⟨before, marked, since, rfl, hmark, hlevel, ?_⟩, ?_⟩
      · intro inner opening rest hsplit
        exact hsince inner opening (rest ++ [item]) (by simp [hsplit])
      · rintro ⟨hopens, heq⟩
        exact hsince since item [] (by simp) hopens heq
  · rintro (⟨hmark, hlevel⟩ | ⟨⟨before, marked, since, rfl, hmark, hlevel, hsince⟩, hnot⟩)
    · exact ⟨items, item, [], rfl, hmark, hlevel, by simp⟩
    · refine ⟨before, marked, since ++ [item], by simp, hmark, hlevel, ?_⟩
      intro inner opening rest hsplit hopens
      rcases concat_eq_append_cons hsplit with ⟨rfl, rfl, -⟩ | ⟨init, -, hinit⟩
      · exact fun heq => hnot ⟨hopens, heq⟩
      · exact hsince inner opening init hinit hopens

end Kept

end ClawDesk.Foundations.Brackets
