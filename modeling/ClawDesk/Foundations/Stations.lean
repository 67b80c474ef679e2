import Mathlib.Algebra.Order.BigOperators.Group.Finset

/-!
# Walks along a line of stations

There are `n` stations in a line, and station `i` has room for `room i` visits.  A walk starts at
the first.  With every visit it moves further inside the station, or on to the next one, or it
stops at the last.  It passes through the stations in order, leaves none out, never comes back,
and visits none more often than there is room for.
-/

namespace ClawDesk.Foundations.Stations

variable {n : ℕ} {room : ℕ → ℕ} {visits : List ℕ} {i pos : ℕ} {next place : Option (ℕ × ℕ)}

/-- Where a visit leads to: the station with the position inside, or nowhere. -/
inductive Move (n : ℕ) (room : ℕ → ℕ) : ℕ × ℕ → Option (ℕ × ℕ) → Prop
  | within {i pos pos' : ℕ} (further : pos < pos') (inside : pos' < room i) :
      Move n room (i, pos) (some (i, pos'))
  | onward {i pos : ℕ} (more : i + 1 < n) : Move n room (i, pos) (some (i + 1, 0))
  | stop {i pos : ℕ} (last : i + 1 = n) : Move n room (i, pos) none

/-- The stations visited so far, and where the walk is now. -/
inductive Walk (n : ℕ) (room : ℕ → ℕ) : List ℕ → Option (ℕ × ℕ) → Prop
  | start : Walk n room [] (some (0, 0))
  | visit {visits : List ℕ} {i pos : ℕ} {next : Option (ℕ × ℕ)}
      (before : Walk n room visits (some (i, pos))) (move : Move n room (i, pos) next) :
      Walk n room (visits ++ [i]) next

/-- The stations before the place of the walk. -/
def passed (n : ℕ) (place : Option (ℕ × ℕ)) : ℕ := place.elim n Prod.fst

theorem Walk.inside (hn : 0 < n) (hroom : ∀ i, 0 < room i) (h : Walk n room visits place) :
    ∀ i pos, place = some (i, pos) → i < n ∧ pos < room i := by
  induction h with
  | start =>
      rintro i pos ⟨⟩
      exact ⟨hn, hroom 0⟩
  | visit _ move ih =>
      rintro i pos ⟨⟩
      cases move with
      | within _ inside => exact ⟨(ih _ _ rfl).1, inside⟩
      | onward more => exact ⟨more, hroom _⟩

/-- Nothing ahead has been visited. -/
theorem Walk.le_passed (h : Walk n room visits place) : ∀ i ∈ visits, i ≤ passed n place := by
  induction h with
  | start => exact fun i hi => absurd hi List.not_mem_nil
  | @visit visits i pos next _ move ih =>
      have hle : i ≤ passed n next := by
        cases move with
        | within => exact le_rfl
        | onward => exact Nat.le_succ i
        | stop last => exact last ▸ Nat.le_succ i
      intro j hj
      rcases List.mem_append.mp hj with hj | hj
      · exact (ih j hj).trans hle
      · exact (List.mem_singleton.mp hj).trans_le hle

/-- **The stations come in order.** -/
theorem Walk.sorted (h : Walk n room visits place) : visits.Pairwise (· ≤ ·) := by
  induction h with
  | start => exact List.Pairwise.nil
  | visit before _ ih =>
      refine List.pairwise_append.mpr ⟨ih, List.pairwise_singleton _ _, fun i hi j hj => ?_⟩
      rw [List.mem_singleton.mp hj]
      exact before.le_passed i hi

/-- **No station is left out.** -/
theorem Walk.complete (h : Walk n room visits place) : ∀ i < passed n place, i ∈ visits := by
  induction h with
  | start => exact fun i hi => absurd hi (Nat.not_lt_zero i)
  | @visit visits i pos next _ move ih =>
      have hle : passed n next ≤ i + 1 := by
        cases move with
        | within => exact Nat.le_succ i
        | onward => exact le_rfl
        | stop last => exact last.ge
      intro j hj
      rcases (Nat.lt_succ_iff.mp (hj.trans_le hle)).lt_or_eq with hlt | rfl
      · exact List.mem_append_left _ (ih j hlt)
      · exact List.mem_append_right _ (List.mem_singleton_self j)

/-- How many visits there can have been at a station. -/
def share (room : ℕ → ℕ) (place : Option (ℕ × ℕ)) (i : ℕ) : ℕ :=
  place.elim (room i) fun p => if p.1 = i then p.2 else if i < p.1 then room i else 0

/-- A visit takes up some of the share of its station and of no other. -/
theorem Move.share_lt (h : Move n room (i, pos) next) (hpos : pos < room i) (j : ℕ) :
    share room (some (i, pos)) j + (if i = j then 1 else 0) ≤ share room next j := by
  cases h with
  | within further inside =>
      simp only [share, Option.elim_some]
      split_ifs <;> omega
  | onward more =>
      simp only [share, Option.elim_some]
      split_ifs <;> first | omega | (subst_vars; omega)
  | stop last =>
      simp only [share, Option.elim_some, Option.elim_none]
      split_ifs <;> first | omega | (subst_vars; omega)

theorem Walk.count_le_share (hn : 0 < n) (hroom : ∀ i, 0 < room i)
    (h : Walk n room visits place) (i : ℕ) : visits.count i ≤ share room place i := by
  induction h with
  | start => exact Nat.zero_le _
  | @visit visits j pos next before move ih =>
      have hmove := move.share_lt (before.inside hn hroom j pos rfl).2 i
      rw [List.count_append, List.count_singleton]
      simp only [beq_iff_eq]
      omega

/-- **No station is visited more often than there is room for.** -/
theorem Walk.count_le (hn : 0 < n) (hroom : ∀ i, 0 < room i) (h : Walk n room visits place)
    (i : ℕ) : visits.count i ≤ room i := by
  refine (h.count_le_share hn hroom i).trans ?_
  rcases place with _ | ⟨j, pos⟩
  · exact le_rfl
  · have hpos := (h.inside hn hroom j pos rfl).2
    simp only [share, Option.elim_some]
    split_ifs with hj
    · exact hj ▸ hpos.le
    · exact le_rfl
    · exact Nat.zero_le _

/-- **A walk that is still going on has made fewer visits than there is room for in all.** -/
theorem Walk.length_lt (hn : 0 < n) (hroom : ∀ i, 0 < room i)
    (h : Walk n room visits (some (i, pos))) : visits.length < ∑ j ∈ Finset.range n, room j := by
  obtain ⟨hi, hpos⟩ := h.inside hn hroom i pos rfl
  have hmem : ∀ j ∈ (visits : Multiset ℕ), j ∈ Finset.range n := fun j hj =>
    Finset.mem_range.mpr ((h.le_passed j hj).trans_lt hi)
  have hlength : ∑ j ∈ Finset.range n, visits.count j = visits.length := by
    simpa only [Multiset.coe_count, Multiset.coe_card] using Multiset.sum_count_eq_card hmem
  calc visits.length = ∑ j ∈ Finset.range n, visits.count j := hlength.symm
    _ < ∑ j ∈ Finset.range n, room j := by
        refine Finset.sum_lt_sum (fun j _ => h.count_le hn hroom j) ⟨i, Finset.mem_range.mpr hi, ?_⟩
        refine (h.count_le_share hn hroom i).trans_lt ?_
        simpa [share] using hpos

end ClawDesk.Foundations.Stations
