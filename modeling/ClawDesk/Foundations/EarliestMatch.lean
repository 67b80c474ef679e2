import Mathlib.Data.Fintype.Basic
import Mathlib.Data.List.FinRange
import Mathlib.Data.List.MinMax
import Mathlib.Data.Prod.Lex
import Mathlib.Order.Fin.Basic

/-!
# Searching several needles at once

A search in one pass reports a match as soon as it ends and goes on behind it: of the matches
from a place on it takes the one that ends first, of these the one that starts first, and of
these the first needle (`IsFirst`).  An empty match where the last one ended is skipped.

`FindIter` says which matches such a search reports, and `Reported` the same of one match,
from the places at which the search begins anew (`FindIter.mem_iff`).  `findIter` searches that way
(`findIter_spec`).
-/

namespace ClawDesk.Foundations.EarliestMatch

/-- A needle, and where it occurs. -/
structure Match (k : ℕ) where
  pattern : Fin k
  start : ℕ
  stop : ℕ
  deriving DecidableEq

namespace Match

variable {k : ℕ}

/-- Which of two matches is preferred. -/
def key (m : Match k) : ℕ ×ₗ ℕ ×ₗ Fin k := toLex (m.stop, toLex (m.start, m.pattern))

theorem key_injective : Function.Injective (key (k := k)) := by
  rintro ⟨p, i, j⟩ ⟨p', i', j'⟩ h
  obtain ⟨rfl, h⟩ := Prod.mk.inj (toLex.injective h)
  obtain ⟨rfl, rfl⟩ := Prod.mk.inj (toLex.injective h)
  rfl

theorem stop_le_of_key_le {m m' : Match k} (h : m.key ≤ m'.key) : m.stop ≤ m'.stop := by
  rcases Prod.Lex.le_iff.mp h with hlt | ⟨heq, -⟩
  · exact hlt.le
  · exact heq.le

end Match

section Search

variable {α : Type} {k : ℕ} (needles : Fin k → List α) (hay : List α)

/-- The needle occurs there. -/
def IsMatch (m : Match k) : Prop :=
  m.start ≤ hay.length ∧ m.stop = m.start + (needles m.pattern).length ∧
    needles m.pattern <+: hay.drop m.start

/-- The match that is reported from a place on. -/
structure IsFirst (s : ℕ) (m : Match k) : Prop where
  isMatch : IsMatch needles hay m
  le_start : s ≤ m.start
  key_le : ∀ m', IsMatch needles hay m' → s ≤ m'.start → m.key ≤ m'.key

/-- The matches that are reported from a place on, where the last match ended at `last`. -/
inductive FindIter : ℕ → Option ℕ → List (Match k) → Prop where
  | done {s last} (hnone : ∀ m, IsMatch needles hay m → ¬ s ≤ m.start) : FindIter s last []
  | found {s last m ms} (hfirst : IsFirst needles hay s m) (hnew : some m.stop ≠ last)
      (rest : FindIter m.stop (some m.stop) ms) : FindIter s last (m :: ms)
  | skip {s last m ms} (hfirst : IsFirst needles hay s m) (hold : some m.stop = last)
      (rest : FindIter (s + 1) last ms) : FindIter s last ms

/-- A place at which the search begins anew, and the end of the last match. -/
inductive CutPoint : ℕ → Option ℕ → Prop where
  | zero : CutPoint 0 none
  | found {s last m} (h : CutPoint s last) (hfirst : IsFirst needles hay s m)
      (hnew : some m.stop ≠ last) : CutPoint m.stop (some m.stop)
  | skip {s last m} (h : CutPoint s last) (hfirst : IsFirst needles hay s m)
      (hold : some m.stop = last) : CutPoint (s + 1) last

/-- From a place at which the search begins anew, the match is the first one. -/
def Reported (m : Match k) : Prop :=
  ∃ s last, CutPoint needles hay s last ∧ IsFirst needles hay s m ∧ some m.stop ≠ last

variable {needles hay} {s : ℕ} {last : Option ℕ} {m m' : Match k} {ms : List (Match k)}

theorem IsMatch.start_le_stop (h : IsMatch needles hay m) : m.start ≤ m.stop := by
  rw [h.2.1]
  exact Nat.le_add_right _ _

theorem IsMatch.stop_le (h : IsMatch needles hay m) : m.stop ≤ hay.length := by
  have hle := h.2.2.length_le
  rw [List.length_drop] at hle
  have hstart := h.1
  rw [h.2.1]
  omega

theorem IsFirst.unique (h : IsFirst needles hay s m) (h' : IsFirst needles hay s m') : m = m' :=
  Match.key_injective
    (le_antisymm (h.key_le m' h'.isMatch h'.le_start) (h'.key_le m h.isMatch h.le_start))

/-- What is reported is reached through the cut points. -/
theorem FindIter.reported (h : FindIter needles hay s last ms)
    (hcut : CutPoint needles hay s last) : ∀ m ∈ ms, Reported needles hay m := by
  induction h with
  | done _ =>
      intro m hm
      cases hm
  | found hfirst hnew _ ih =>
      intro m hm
      rcases List.mem_cons.mp hm with rfl | hm
      · exact ⟨_, _, hcut, hfirst, hnew⟩
      · exact ih (hcut.found hfirst hnew) m hm
  | skip hfirst hold _ ih => exact ih (hcut.skip hfirst hold)

/-- The search passes through every cut point, with a part of what it reports left. -/
theorem FindIter.of_cutPoint (h : FindIter needles hay 0 none ms)
    (hcut : CutPoint needles hay s last) :
    ∃ rest, FindIter needles hay s last rest ∧ rest ⊆ ms := by
  induction hcut with
  | zero => exact ⟨ms, h, fun _ => id⟩
  | found _ hfirst hnew ih =>
      obtain ⟨rest, hrest, hsub⟩ := ih
      cases hrest with
      | done hnone => exact absurd hfirst.le_start (hnone _ hfirst.isMatch)
      | found hfirst' _ hrest =>
          obtain rfl := hfirst.unique hfirst'
          exact ⟨_, hrest, List.Subset.trans (List.subset_cons_self _ _) hsub⟩
      | skip hfirst' hold _ =>
          obtain rfl := hfirst.unique hfirst'
          exact absurd hold hnew
  | skip _ hfirst hold ih =>
      obtain ⟨rest, hrest, hsub⟩ := ih
      cases hrest with
      | done hnone => exact absurd hfirst.le_start (hnone _ hfirst.isMatch)
      | found hfirst' hnew _ =>
          obtain rfl := hfirst.unique hfirst'
          exact absurd hold hnew
      | skip _ _ hrest => exact ⟨_, hrest, hsub⟩

/-- **The matches that a search reports** are those that come first from a cut point. -/
theorem FindIter.mem_iff (h : FindIter needles hay 0 none ms) :
    m ∈ ms ↔ Reported needles hay m := by
  constructor
  · exact h.reported .zero m
  · rintro ⟨s, last, hcut, hfirst, hnew⟩
    obtain ⟨rest, hrest, hsub⟩ := h.of_cutPoint hcut
    cases hrest with
    | done hnone => exact absurd hfirst.le_start (hnone _ hfirst.isMatch)
    | found hfirst' _ _ =>
        obtain rfl := hfirst.unique hfirst'
        exact hsub List.mem_cons_self
    | skip hfirst' hold _ =>
        obtain rfl := hfirst.unique hfirst'
        exact absurd hold hnew

theorem IsMatch.start_lt_stop (h : IsMatch needles hay m) (hne : ∀ p, needles p ≠ []) :
    m.start < m.stop := by
  rw [h.2.1]
  exact Nat.lt_add_of_pos_right (List.length_pos_iff.mpr (hne _))

/-- Inside of every match a reported one ends, by induction on the search. -/
theorem FindIter.exists_within (h : FindIter needles hay s last ms)
    (hlast : ∀ l ∈ last, l ≤ s) (hne : ∀ p, needles p ≠ []) (hm : IsMatch needles hay m)
    (hs : s ≤ m.start) : ∃ m' ∈ ms, m.start < m'.stop ∧ m'.stop ≤ m.stop := by
  induction h with
  | done hnone => exact absurd hs (hnone m hm)
  | @found s last first ms hfirst _ _ ih =>
      rcases Nat.lt_or_ge m.start first.stop with hlt | hge
      · have hle := Match.stop_le_of_key_le (hfirst.key_le m hm hs)
        exact ⟨first, List.mem_cons_self, hlt, hle⟩
      · obtain ⟨m', hm', hwithin⟩ := ih (fun l hl => (Option.some.inj hl).ge) hge
        exact ⟨m', List.mem_cons_of_mem _ hm', hwithin⟩
  | skip hfirst hold _ _ =>
      have hle := hlast _ hold.symm
      have hlt := hfirst.isMatch.start_lt_stop hne
      have hstart := hfirst.le_start
      omega

end Search

/-! ### A search -/

section FindIter

variable {α : Type} [DecidableEq α] {k : ℕ} (needles : Fin k → List α) (hay : List α)

/-- The matches that start at `s` or later. -/
def matchesBehind (s : ℕ) : List (Match k) :=
  (List.range' s (hay.length + 1 - s)).flatMap fun start =>
    ((List.finRange k).filter fun p => needles p <+: hay.drop start).map fun p =>
      ⟨p, start, start + (needles p).length⟩

/-- Some rounds of the search. -/
def rounds : ℕ → ℕ → Option ℕ → List (Match k)
  | 0, _, _ => []
  | fuel + 1, s, last =>
      match (matchesBehind needles hay s).argmin Match.key with
      | none => []
      | some m =>
          if some m.stop = last then rounds fuel (s + 1) last
          else m :: rounds fuel m.stop (some m.stop)

/-- All matches that the search reports. -/
def findIter : List (Match k) := rounds needles hay (2 * (hay.length + 1) + 2) 0 none

variable {needles hay} {s : ℕ} {m : Match k}

theorem mem_matchesBehind :
    m ∈ matchesBehind needles hay s ↔ IsMatch needles hay m ∧ s ≤ m.start := by
  unfold matchesBehind IsMatch
  rw [List.mem_flatMap]
  constructor
  · rintro ⟨start, hstart, hm⟩
    obtain ⟨p, hp, rfl⟩ := List.mem_map.mp hm
    rw [List.mem_range'_1] at hstart
    have hocc := of_decide_eq_true (List.mem_filter.mp hp).2
    exact ⟨⟨by dsimp only; omega, rfl, hocc⟩, hstart.1⟩
  · rintro ⟨⟨hle, hstop, hocc⟩, hs⟩
    refine ⟨m.start, List.mem_range'_1.mpr ⟨hs, by omega⟩, List.mem_map.mpr ⟨m.pattern, ?_, ?_⟩⟩
    · exact List.mem_filter.mpr ⟨List.mem_finRange _, decide_eq_true hocc⟩
    · rw [← hstop]

theorem isFirst_of_argmin (h : m ∈ (matchesBehind needles hay s).argmin Match.key) :
    IsFirst needles hay s m := by
  obtain ⟨hmatch, hs⟩ := mem_matchesBehind.mp (List.argmin_mem h)
  exact ⟨hmatch, hs, fun m' hm' hs' =>
    List.le_of_mem_argmin (mem_matchesBehind.mpr ⟨hm', hs'⟩) h⟩

/-- How many rounds are left at most. -/
def left (hay : List α) (s : ℕ) (last : Option ℕ) : ℕ :=
  2 * (hay.length + 1 - s) + if last = some s then 0 else 1

/-- **The rounds search**, as long as there are enough of them. -/
theorem findIter_rounds {fuel : ℕ} {last : Option ℕ} (hfuel : left hay s last < fuel) :
    FindIter needles hay s last (rounds needles hay fuel s last) := by
  induction fuel generalizing s last with
  | zero => exact absurd hfuel (Nat.not_lt_zero _)
  | succ fuel ih =>
      rw [rounds]
      cases hfind : (matchesBehind needles hay s).argmin Match.key with
      | none =>
          refine .done fun m hm hs => ?_
          have hmem := mem_matchesBehind.mpr ⟨hm, hs⟩
          rw [List.argmin_eq_none.mp hfind] at hmem
          cases hmem
      | some m =>
          have hfirst := isFirst_of_argmin hfind
          have hstart := hfirst.le_start
          have hstop := hfirst.isMatch.start_le_stop
          have hend := hfirst.isMatch.stop_le
          dsimp only
          split_ifs with hold
          · refine .skip hfirst hold (ih ?_)
            unfold left at *
            split_ifs at * <;> omega
          · refine .found hfirst hold (ih ?_)
            unfold left at *
            rw [if_pos rfl]
            split_ifs at hfuel with hlast
            · have hne : m.stop ≠ s := fun heq => hold (by rw [heq, hlast])
              omega
            · omega

theorem findIter_spec : FindIter needles hay 0 none (findIter needles hay) := by
  refine findIter_rounds ?_
  unfold left
  split_ifs <;> omega

end FindIter

end ClawDesk.Foundations.EarliestMatch
