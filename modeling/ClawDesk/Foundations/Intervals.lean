import Mathlib.Algebra.BigOperators.Group.Finset.Piecewise
import Mathlib.Algebra.Order.BigOperators.Group.Finset
import Mathlib.Algebra.Order.Group.Defs
import Mathlib.Data.List.Sort

/-!
# Jobs that do not overlap

Jobs that take their turns on one machine take no longer together than the time in which all of
them are done (`sum_le_of_apart`), and on a number of machines no longer than that time on each of
them (`sum_le_of_machines`).
-/

namespace ClawDesk.Foundations

variable {ι K : Type} [AddCommGroup K] [LinearOrder K] [IsOrderedAddMonoid K]

/-- One is done before the other starts. -/
def Apart (start len : ι → K) (a b : ι) : Prop :=
  start a + len a ≤ start b ∨ start b + len b ≤ start a

variable {start len : ι → K} {jobs : List ι} {a b : ι} {lo hi : K}

omit [IsOrderedAddMonoid K] in
theorem Apart.symm (h : Apart start len a b) : Apart start len b a := Or.symm h

/-- Of two jobs that do not overlap, the one that starts first is done first. -/
theorem Apart.le (h : Apart start len a b) (hlen : 0 < len b) (hle : start a ≤ start b) :
    start a + len a ≤ start b := by
  refine h.resolve_right fun hback => ?_
  exact absurd ((lt_add_of_pos_right _ hlen).trans_le hback) (not_lt_of_ge hle)

/-- One after the other, in the order of the list. -/
theorem sum_le_of_sequential (hjobs : jobs.Pairwise fun a b => start a + len a ≤ start b)
    (hlo : ∀ a ∈ jobs, lo ≤ start a) (hhi : ∀ a ∈ jobs, start a + len a ≤ hi) (h : lo ≤ hi) :
    lo + (jobs.map len).sum ≤ hi := by
  induction jobs generalizing lo with
  | nil => simpa using h
  | cons a jobs ih =>
      obtain ⟨hfirst, hrest⟩ := List.pairwise_cons.mp hjobs
      obtain ⟨hlo, -⟩ := List.forall_mem_cons.mp hlo
      obtain ⟨hdone, hhi⟩ := List.forall_mem_cons.mp hhi
      calc lo + ((a :: jobs).map len).sum
        _ = lo + len a + (jobs.map len).sum := by
            rw [List.map_cons, List.sum_cons, add_assoc]
        _ ≤ start a + len a + (jobs.map len).sum :=
            add_le_add_left (add_le_add_left hlo _) _
        _ ≤ hi := ih hrest hfirst hhi hdone

/-- **The jobs of one machine take no longer together than until all are done.** -/
theorem sum_le_of_apart (hjobs : jobs.Pairwise (Apart start len)) (hlen : ∀ a ∈ jobs, 0 < len a)
    (hlo : ∀ a ∈ jobs, lo ≤ start a) (hhi : ∀ a ∈ jobs, start a + len a ≤ hi) (h : lo ≤ hi) :
    lo + (jobs.map len).sum ≤ hi := by
  -- in the order in which they start
  let le : ι → ι → Prop := fun a b => start a ≤ start b
  have htotal : Std.Total le := ⟨fun a b => le_total (start a) (start b)⟩
  have htrans : IsTrans ι le := ⟨fun a b c => le_trans⟩
  have hperm : (jobs.insertionSort le).Perm jobs := List.perm_insertionSort le jobs
  have hapart : (jobs.insertionSort le).Pairwise (Apart start len) :=
    hjobs.perm hperm.symm Apart.symm
  have hsequential : (jobs.insertionSort le).Pairwise fun a b => start a + len a ≤ start b := by
    refine (hapart.and (List.pairwise_insertionSort le jobs)).imp_of_mem ?_
    rintro a b - hb ⟨hab, hle⟩
    exact hab.le (hlen b (hperm.mem_iff.mp hb)) hle
  rw [← (hperm.map len).sum_eq]
  exact sum_le_of_sequential hsequential (fun a ha => hlo a (hperm.mem_iff.mp ha))
    (fun a ha => hhi a (hperm.mem_iff.mp ha)) h

omit [LinearOrder K] [IsOrderedAddMonoid K] in
/-- The jobs, machine by machine. -/
theorem sum_eq_sum_machines {machine : ι → ℕ} {m : ℕ} (hm : ∀ a ∈ jobs, machine a < m) :
    (jobs.map len).sum =
      ∑ p ∈ Finset.range m, ((jobs.filter fun a => machine a = p).map len).sum := by
  induction jobs with
  | nil => simp
  | cons a jobs ih =>
      obtain ⟨ha, hrest⟩ := List.forall_mem_cons.mp hm
      have hone : ∀ p, (((a :: jobs).filter fun a => machine a = p).map len).sum =
          (if machine a = p then len a else 0) +
            ((jobs.filter fun a => machine a = p).map len).sum := by
        intro p
        rw [List.filter_cons]
        by_cases hp : machine a = p
        · simp [hp]
        · simp [hp]
      simp only [hone]
      rw [List.map_cons, List.sum_cons, ih hrest, Finset.sum_add_distrib, Finset.sum_ite_eq,
        if_pos (Finset.mem_range.mpr ha)]

/-- **The jobs of a number of machines take no longer together than that many times as long as
until all are done.** -/
theorem sum_le_of_machines {machine : ι → ℕ} {m : ℕ} (hm : ∀ a ∈ jobs, machine a < m)
    (hjobs : jobs.Pairwise fun a b => machine a = machine b → Apart start len a b)
    (hlen : ∀ a ∈ jobs, 0 < len a) (hlo : ∀ a ∈ jobs, 0 ≤ start a)
    (hhi : ∀ a ∈ jobs, start a + len a ≤ hi) (h : 0 ≤ hi) : (jobs.map len).sum ≤ m • hi := by
  have hone : ∀ p ∈ Finset.range m,
      ((jobs.filter fun a => machine a = p).map len).sum ≤ hi := by
    intro p _
    have hmem : ∀ a ∈ jobs.filter fun a => machine a = p, a ∈ jobs ∧ machine a = p := fun a ha =>
      ⟨(List.mem_filter.mp ha).1, of_decide_eq_true (List.mem_filter.mp ha).2⟩
    have hapart : (jobs.filter fun a => machine a = p).Pairwise (Apart start len) := by
      refine (hjobs.sublist List.filter_sublist).imp_of_mem fun ha hb hab => hab ?_
      exact (hmem _ ha).2.trans (hmem _ hb).2.symm
    have hsum := sum_le_of_apart hapart (fun a ha => hlen a (hmem a ha).1)
      (fun a ha => hlo a (hmem a ha).1) (fun a ha => hhi a (hmem a ha).1) h
    rwa [zero_add] at hsum
  rw [sum_eq_sum_machines hm]
  refine (Finset.sum_le_card_nsmul _ _ hi hone).trans_eq ?_
  rw [Finset.card_range]

end ClawDesk.Foundations
