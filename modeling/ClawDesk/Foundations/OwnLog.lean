import ClawDesk.Foundations.Interleaving
import Mathlib.Algebra.BigOperators.Group.Finset.Piecewise
import Mathlib.Data.Int.Basic

/-!
# What each call did, in the log of all

Every event of an interleaved run adds to a **balance**, by an amount that depends on what its
own call did before it.  If every call balances, so does the run (`balance_eq_zero`): what is
known of the programs one by one is enough, in whatever order their events came.
-/

namespace ClawDesk.Foundations

variable {Tid E : Type} {R : E → Type} [DecidableEq Tid] {t : Tid} {ev : Event Tid E R}
  {log : List (Event Tid E R)} {f : Sigma R → List (Sigma R) → ℤ}

/-- What one call did. -/
def own (t : Tid) (log : List (Event Tid E R)) : List (Sigma R) :=
  (log.filter fun ev => ev.tid = t).map fun ev => ⟨ev.op, ev.res⟩

@[simp] theorem own_nil (t : Tid) : own t ([] : List (Event Tid E R)) = [] := rfl

theorem own_cons_of_eq (h : ev.tid = t) (log : List (Event Tid E R)) :
    own t (ev :: log) = ⟨ev.op, ev.res⟩ :: own t log := by
  rw [own, List.filter_cons_of_pos (by simpa using h), List.map_cons]
  rfl

theorem own_cons_of_ne (h : ev.tid ≠ t) (log : List (Event Tid E R)) :
    own t (ev :: log) = own t log := by
  rw [own, List.filter_cons_of_neg (by simpa using h)]
  rfl

theorem own_reverse (t : Tid) (log : List (Event Tid E R)) :
    own t log.reverse = (own t log).reverse := by
  rw [own, own, List.filter_reverse, List.map_reverse]

theorem mem_own (h : ev ∈ log) : (⟨ev.op, ev.res⟩ : Sigma R) ∈ own ev.tid log :=
  List.mem_map.mpr ⟨ev, List.mem_filter.mpr ⟨h, by simp⟩, rfl⟩

/-! ### Balances -/

/-- The sum over one call, newest event first. -/
def total (f : Sigma R → List (Sigma R) → ℤ) : List (Sigma R) → ℤ
  | [] => 0
  | e :: earlier => f e earlier + total f earlier

/-- The sum over all calls, newest event first. -/
def balance (f : Sigma R → List (Sigma R) → ℤ) : List (Event Tid E R) → ℤ
  | [] => 0
  | ev :: earlier => f ⟨ev.op, ev.res⟩ (own ev.tid earlier) + balance f earlier

theorem total_own_cons (t : Tid) (ev : Event Tid E R) (log : List (Event Tid E R)) :
    total f (own t (ev :: log)) = total f (own t log) +
      if ev.tid = t then f ⟨ev.op, ev.res⟩ (own ev.tid log) else 0 := by
  by_cases h : ev.tid = t
  · subst h
    rw [own_cons_of_eq rfl, total, if_pos rfl, add_comm]
  · rw [own_cons_of_ne h, if_neg h, add_zero]

/-- The balance is the sum of what the calls contribute. -/
theorem balance_eq_sum (calls : Finset Tid) (h : ∀ ev ∈ log, ev.tid ∈ calls) :
    balance f log = ∑ t ∈ calls, total f (own t log) := by
  induction log with
  | nil => simp [balance, total]
  | cons ev log ih =>
      have hev : ev.tid ∈ calls := h ev List.mem_cons_self
      have hlog := ih fun ev' hmem => h ev' (List.mem_cons_of_mem _ hmem)
      simp only [total_own_cons, Finset.sum_add_distrib, ← hlog]
      rw [Finset.sum_ite_eq, if_pos hev, balance, add_comm]

/-- **If every call balances, the run does.** -/
theorem balance_eq_zero (h : ∀ t, total f (own t log) = 0) : balance f log = 0 := by
  rw [balance_eq_sum (log.map Event.tid).toFinset fun ev hmem =>
    List.mem_toFinset.mpr (List.mem_map_of_mem hmem)]
  exact Finset.sum_eq_zero fun t _ => h t

/-! ### Conditions along a call -/

/-- Every event of a call has the property, given what the call did before it. -/
def Along (P : Sigma R → List (Sigma R) → Prop) : List (Sigma R) → Prop
  | [] => True
  | e :: earlier => P e earlier ∧ Along P earlier

theorem along_own_cons {P : Tid → Sigma R → List (Sigma R) → Prop}
    (h : ∀ t, Along (P t) (own t log)) (hev : P ev.tid ⟨ev.op, ev.res⟩ (own ev.tid log)) (t : Tid) :
    Along (P t) (own t (ev :: log)) := by
  by_cases ht : ev.tid = t
  · subst ht
    rw [own_cons_of_eq rfl]
    exact ⟨hev, h ev.tid⟩
  · rw [own_cons_of_ne ht]
    exact h t

/-- A condition along every call holds at every event. -/
theorem Along.of_split {P : Tid → Sigma R → List (Sigma R) → Prop}
    {later earlier : List (Event Tid E R)}
    (h : Along (P ev.tid) (own ev.tid (later ++ ev :: earlier))) :
    P ev.tid ⟨ev.op, ev.res⟩ (own ev.tid earlier) := by
  induction later with
  | nil =>
      rw [List.nil_append, own_cons_of_eq rfl] at h
      exact h.1
  | cons ev' later ih =>
      by_cases ht : ev'.tid = ev.tid
      · rw [List.cons_append, own_cons_of_eq ht] at h
        exact ih h.2
      · rw [List.cons_append, own_cons_of_ne ht] at h
        exact ih h

/-! ### The newest event of a kind -/

/-- The newest event of a kind is the newest of its own call. -/
theorem find?_own {p : E → Bool} (h : log.find? (fun ev => p ev.op) = some ev) :
    (own ev.tid log).find? (fun e => p e.1) = some ⟨ev.op, ev.res⟩ := by
  induction log with
  | nil => cases h
  | cons ev' log ih =>
      rw [List.find?_cons] at h
      cases hp : p ev'.op with
      | true =>
          rw [hp] at h
          obtain rfl := Option.some.inj h
          rw [own_cons_of_eq rfl, List.find?_cons, hp]
      | false =>
          rw [hp] at h
          by_cases ht : ev'.tid = ev.tid
          · rw [own_cons_of_eq ht, List.find?_cons, hp]
            exact ih h
          · rw [own_cons_of_ne ht]
            exact ih h

end ClawDesk.Foundations
