import Mathlib.Data.List.DropRight
import Mathlib.Data.List.Infix
import Mathlib.Data.List.TakeWhile
import Mathlib.Order.Nat

/-!
# Occurrences in a text

`find` is where a pattern occurs first.  A text is cut by some of its characters into runs: what
holds of every run, and of a text when it holds of what follows its first run, holds of every
text (`run_induction`).
-/

namespace ClawDesk.Foundations.Substring

/-! ### The first occurrence -/

section Find

variable {α : Type} [DecidableEq α] {pat text front back : List α} {i : ℕ}

/-- `str::find`, of a pattern. -/
def find (pat text : List α) : Option ℕ :=
  (List.range (text.length + 1)).find? fun i => pat <+: text.drop i

theorem find_eq_some_iff : find pat text = some i ↔
    pat <+: text.drop i ∧ i ≤ text.length ∧ ∀ j < i, ¬ pat <+: text.drop j := by
  rw [find, List.find?_range_eq_some]
  simp only [decide_eq_true_eq, List.mem_range, Nat.lt_succ_iff, Bool.not_eq_true',
    decide_eq_false_iff_not]

/-- Where a pattern is found, the text is cut. -/
theorem eq_of_find (h : find pat text = some i) : ∃ back, text = text.take i ++ pat ++ back := by
  obtain ⟨⟨back, hback⟩, -⟩ := find_eq_some_iff.mp h
  refine ⟨back, ?_⟩
  rw [List.append_assoc, hback, List.take_append_drop]

/-- An occurrence before which there is none is found. -/
theorem find_eq_length (h : ∀ front' back', front ++ pat ++ back = front' ++ pat ++ back' →
    front.length ≤ front'.length) : find pat (front ++ pat ++ back) = some front.length := by
  rw [find_eq_some_iff]
  refine ⟨?_, by simp, fun j hj hpat => ?_⟩
  · rw [List.append_assoc, List.drop_left]
    exact List.prefix_append _ _
  · obtain ⟨rest, hrest⟩ := hpat
    have hcut : (front ++ pat ++ back).take j ++ pat ++ rest = front ++ pat ++ back := by
      rw [List.append_assoc ((front ++ pat ++ back).take j), hrest, List.take_append_drop]
    have hle := h _ rest hcut.symm
    rw [List.length_take] at hle
    omega

/-- No occurrence comes before the one that is found. -/
theorem le_of_find (h : find pat text = some i) (hsplit : text = front ++ pat ++ back) :
    i ≤ front.length := by
  by_contra hlt
  refine (find_eq_some_iff.mp h).2.2 front.length (Nat.not_le.mp hlt) ?_
  rw [hsplit, List.append_assoc, List.drop_left]
  exact List.prefix_append _ _

theorem find_eq_none_iff : find pat text = none ↔ ¬ pat <:+: text := by
  rw [find, List.find?_eq_none]
  constructor
  · rintro h ⟨front, back, rfl⟩
    have hlt : front.length < (front ++ pat ++ back).length + 1 := by
      rw [List.length_append, List.length_append]
      omega
    refine h front.length (List.mem_range.mpr hlt) (decide_eq_true ?_)
    rw [List.append_assoc, List.drop_left]
    exact List.prefix_append _ _
  · intro h i _ hpat
    obtain ⟨rest, hrest⟩ := of_decide_eq_true hpat
    exact h ⟨text.take i, rest, by rw [List.append_assoc, hrest, List.take_append_drop]⟩

omit [DecidableEq α] in
/-- A pattern without the letter does not reach over it. -/
theorem prefix_cut {w t : List α} {c : α} (hc : c ∉ pat) :
    pat <+: w ++ c :: t ↔ pat <+: w := by
  refine ⟨fun h => ?_, fun h => h.trans (List.prefix_append _ _)⟩
  rcases List.prefix_or_prefix_of_prefix h (List.prefix_append w (c :: t)) with hpat | hpat
  · exact hpat
  · obtain ⟨rest, rfl⟩ := hpat
    cases rest with
    | nil => rw [List.append_nil]
    | cons d rest =>
        rw [List.prefix_append_right_inj, List.cons_prefix_cons] at h
        exact absurd (by simp [h.1]) hc

omit [DecidableEq α] in
theorem suffix_cut {w t : List α} {c : α} (hc : c ∉ pat) :
    pat <:+ t ++ c :: w ↔ pat <:+ w := by
  rw [← List.reverse_prefix, ← List.reverse_prefix, List.reverse_append, List.reverse_cons,
    List.append_assoc]
  exact prefix_cut (by rwa [List.mem_reverse])

omit [DecidableEq α] in
/-- An occurrence of a pattern without the letter is before it or behind it. -/
theorem occurs_cut {w t : List α} {c : α} (hc : c ∉ pat) (h : w ++ c :: t = front ++ pat ++ back) :
    (∃ rest, w = front ++ pat ++ rest ∧ back = rest ++ c :: t) ∨
      ∃ rest, t = rest ++ pat ++ back ∧ front = w ++ c :: rest := by
  rcases List.append_eq_append_iff.mp h with ⟨mid, hmid, hback⟩ | ⟨rest, hw, hback⟩
  · cases mid with
    | nil => exact Or.inl ⟨[], by rw [hmid, List.append_nil, List.append_nil], hback.symm⟩
    | cons d mid =>
        obtain ⟨rfl, rfl⟩ := List.cons.inj hback
        rcases List.append_eq_append_iff.mp hmid.symm with ⟨rest, hfront, hrest⟩ | ⟨rest, -, hpat⟩
        · cases rest with
          | nil => exact absurd (by rw [← List.nil_append pat, ← hrest]; simp) hc
          | cons d rest =>
              obtain ⟨rfl, rfl⟩ := List.cons.inj hrest
              exact Or.inr ⟨rest, rfl, hfront⟩
        · exact absurd (by simp [hpat]) hc
  · exact Or.inl ⟨rest, hw, hback⟩

omit [DecidableEq α] in
theorem prefix_drop_cut {w t : List α} {c : α} (hc : c ∉ pat) (hi : i ≤ w.length) :
    pat <+: (w ++ c :: t).drop i ↔ pat <+: w.drop i := by
  rw [List.drop_append_of_le_length hi, prefix_cut hc]

omit [DecidableEq α] in
theorem drop_cut {w t : List α} {c : α} (i : ℕ) :
    (w ++ c :: t).drop (w.length + 1 + i) = t.drop i := by
  rw [Nat.add_assoc, List.drop_length_add_append, Nat.add_comm 1 i, List.drop_succ_cons]

/-- **A text is searched before and behind a letter that the pattern does not have.** -/
theorem find_cut {w t : List α} {c : α} (hc : c ∉ pat) :
    find pat (w ++ c :: t) = (find pat w).or ((find pat t).map (w.length + 1 + ·)) := by
  have hat : ∀ {i}, pat <+: (w ++ c :: t).drop i → (i ≤ w.length ∧ pat <+: w.drop i) ∨
      ∃ k, i = w.length + 1 + k ∧ pat <+: t.drop k := by
    intro i hpat
    rcases Nat.lt_or_ge w.length i with hlt | hle
    · obtain ⟨k, rfl⟩ := Nat.exists_eq_add_of_lt hlt
      rw [show w.length + k + 1 = w.length + 1 + k by omega, drop_cut] at hpat
      exact Or.inr ⟨k, by omega, hpat⟩
    · exact Or.inl ⟨hle, (prefix_drop_cut hc hle).mp hpat⟩
  cases hw : find pat w with
  | some i =>
      obtain ⟨hpat, hi, hfirst⟩ := find_eq_some_iff.mp hw
      rw [Option.some_or, find_eq_some_iff]
      refine ⟨(prefix_drop_cut hc hi).mpr hpat, by simp; omega, fun j hj hj' => ?_⟩
      exact hfirst j hj ((prefix_drop_cut hc (by omega)).mp hj')
  | none =>
      have hnone : ∀ j, ¬ pat <+: w.drop j := fun j hpat =>
        find_eq_none_iff.mp hw (hpat.isInfix.trans (List.drop_suffix j w).isInfix)
      rw [Option.none_or]
      cases ht : find pat t with
      | none =>
          rw [Option.map_none, find_eq_none_iff]
          rintro ⟨front, back, hcut⟩
          have hpat : pat <+: (w ++ c :: t).drop front.length := by
            rw [← hcut, List.append_assoc, List.drop_left]
            exact List.prefix_append _ _
          rcases hat hpat with ⟨-, hpat⟩ | ⟨k, -, hpat⟩
          · exact hnone _ hpat
          · exact find_eq_none_iff.mp ht (hpat.isInfix.trans (List.drop_suffix k t).isInfix)
      | some k =>
          obtain ⟨hpat, hk, hfirst⟩ := find_eq_some_iff.mp ht
          rw [Option.map_some, find_eq_some_iff, drop_cut]
          refine ⟨hpat, by simp; omega, fun j hj hj' => ?_⟩
          rcases hat hj' with ⟨-, hpat⟩ | ⟨l, rfl, hpat⟩
          · exact hnone j hpat
          · exact hfirst l (by omega) hpat

end Find

/-! ### Cutting at a letter -/

section Cut

variable {α : Type} [DecidableEq α] (c : α) (text : List α)

/-- A text is its part before the first `c`, or is cut there. -/
theorem eq_or_cut_first : text = text.takeWhile (· ≠ c) ∨
    ∃ back, text = text.takeWhile (· ≠ c) ++ c :: back := by
  have hcut : text.takeWhile (· ≠ c) ++ text.dropWhile (· ≠ c) = text :=
    List.takeWhile_append_dropWhile
  have hhead := List.head?_dropWhile_not (fun d => decide (d ≠ c)) text
  cases hback : text.dropWhile (· ≠ c) with
  | nil =>
      rw [hback, List.append_nil] at hcut
      exact Or.inl hcut.symm
  | cons d back =>
      obtain rfl : d = c := by
        rw [hback] at hhead
        simpa using hhead
      rw [hback] at hcut
      exact Or.inr ⟨back, hcut.symm⟩

/-- A text is its part after the last `c`, or is cut there. -/
theorem eq_or_cut_last : text = text.rtakeWhile (· ≠ c) ∨
    ∃ front, text = front ++ c :: text.rtakeWhile (· ≠ c) := by
  rcases eq_or_cut_first c text.reverse with hwhole | ⟨back, hcut⟩
  · exact Or.inl (List.reverse_injective (by rwa [List.rtakeWhile, List.reverse_reverse]))
  · refine Or.inr ⟨back.reverse, List.reverse_injective ?_⟩
    rw [List.rtakeWhile, List.reverse_append, List.reverse_cons, List.reverse_reverse,
      List.reverse_reverse, List.append_assoc]
    exact hcut

end Cut

/-! ### Runs -/

section Run

variable {α : Type} {stop : α → Bool} {w t : List α} {c : α}

/-- A run stops at none of its characters. -/
def IsRun (stop : α → Bool) (w : List α) : Prop := ∀ c ∈ w, stop c = false

/-- The run with which a text begins. -/
def run (stop : α → Bool) (text : List α) : List α := text.takeWhile fun c => !stop c

/-- What follows it. -/
def afterRun (stop : α → Bool) (text : List α) : List α := text.dropWhile fun c => !stop c

theorem isRun_iff_all : IsRun stop w ↔ (w.all fun c => !stop c) = true := by
  simp [IsRun]

theorem isRun_append {w' : List α} : IsRun stop (w ++ w') ↔ IsRun stop w ∧ IsRun stop w' :=
  List.forall_mem_append

theorem notMem_of_isRun (hw : IsRun stop w) (hc : stop c = true) : c ∉ w := fun hmem => by
  rw [hw c hmem] at hc
  cases hc

theorem run_append_afterRun (text : List α) : run stop text ++ afterRun stop text = text :=
  List.takeWhile_append_dropWhile

theorem isRun_run (text : List α) : IsRun stop (run stop text) := fun c hc => by
  simpa using List.mem_takeWhile_imp hc

theorem run_eq_self (hw : IsRun stop w) : run stop w = w :=
  List.takeWhile_eq_self_iff.mpr fun c hc => by simp [hw c hc]

theorem afterRun_eq_nil (hw : IsRun stop w) : afterRun stop w = [] :=
  List.dropWhile_eq_nil_iff.mpr fun c hc => by simp [hw c hc]

theorem run_append_stop (hw : IsRun stop w) (hc : stop c = true) : run stop (w ++ c :: t) = w := by
  rw [run, List.takeWhile_append_of_pos fun d hd => by simp [hw d hd],
    List.takeWhile_cons_of_neg (by simp [hc]), List.append_nil]

theorem afterRun_append_stop (hw : IsRun stop w) (hc : stop c = true) :
    afterRun stop (w ++ c :: t) = c :: t := by
  rw [afterRun, List.dropWhile_append_of_pos fun d hd => by simp [hw d hd],
    List.dropWhile_cons_of_neg (by simp [hc])]

/-- What follows a stop does not reach the run before it. -/
theorem run_append_cons (w t : List α) (hc : stop c = true) :
    run stop (w ++ c :: t) = run stop w := by
  unfold run
  induction w with
  | nil => rw [List.nil_append, List.takeWhile_cons_of_neg (by simp [hc]), List.takeWhile_nil]
  | cons d w ih => rw [List.cons_append, List.takeWhile_cons, List.takeWhile_cons, ih]

theorem afterRun_eq_cons {text : List α} (h : afterRun stop text = c :: t) : stop c = true := by
  have hhead := List.head?_dropWhile_not (fun c => !stop c) text
  rw [show text.dropWhile (fun c => !stop c) = c :: t from h] at hhead
  simpa using hhead

/-- **Induction along the runs of a text.** -/
theorem run_induction (stop : α → Bool) {P : List α → Prop} (whole : ∀ w, IsRun stop w → P w)
    (cut : ∀ w c t, IsRun stop w → stop c = true → P t → P (w ++ c :: t)) (text : List α) :
    P text := by
  induction hlength : text.length using Nat.strongRecOn generalizing text with
  | ind n ih =>
      have hcut := @run_append_afterRun _ stop text
      cases hafter : afterRun stop text with
      | nil =>
          rw [hafter, List.append_nil] at hcut
          exact hcut ▸ whole _ (isRun_run text)
      | cons c t =>
          rw [hafter] at hcut
          have hlt : t.length < n := by
            rw [← hlength, ← hcut, List.length_append, List.length_cons]
            omega
          exact hcut ▸ cut _ c t (isRun_run text) (afterRun_eq_cons hafter) (ih _ hlt t rfl)

end Run

end ClawDesk.Foundations.Substring
