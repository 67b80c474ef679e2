import ClawDesk.Foundations.Fold
import Mathlib.Algebra.Group.Nat.Defs
import Mathlib.Data.List.Sort
import Mathlib.Order.Lattice

/-!
# Time stamps of the execution lineage

A Lamport clock hands out its counter for a local event and then advances it, while a merge with an
external time stamp advances the counter first and hands out the new value.  So a tick directly
after a merge hands out the stamp of the merge again, and no other two stamps are the same
(`stamps_increase`).

The collector stamps the events it records with ticks only.  Its events have increasing stamps, and
those after a merge are later than the external one.

The counter has 64 bits.  What is said here is about calls that do not overflow it.
-/

namespace ClawDesk.Domain.Lineage

open Foundations

/-! ### The clock -/

/-- Lamport logical clock for partial ordering across agent boundaries. -/
structure LamportClock where
  counter : ℕ
  deriving DecidableEq

/-- The calls on a clock. -/
inductive ClockCall where
  | tick
  | merge (external : ℕ)
  deriving DecidableEq

namespace LamportClock

def new : LamportClock := ⟨0⟩

/-- Tick the clock for a local event. -/
def tick (clock : LamportClock) : ℕ × LamportClock :=
  (clock.counter, ⟨(clock.counter + 1) % 2 ^ 64⟩)

/-- Merge with an external timestamp. -/
def merge (clock : LamportClock) (external : ℕ) : ℕ × LamportClock :=
  let newVal := (max clock.counter external + 1) % 2 ^ 64
  (newVal, ⟨newVal⟩)

def call (clock : LamportClock) : ClockCall → ℕ × LamportClock
  | .tick => clock.tick
  | .merge external => clock.merge external

/-- The call does not overflow the counter. -/
def Fits (clock : LamportClock) : ClockCall → Prop
  | .tick => clock.counter + 1 < 2 ^ 64
  | .merge external => max clock.counter external + 1 < 2 ^ 64

instance (clock : LamportClock) : (c : ClockCall) → Decidable (clock.Fits c)
  | .tick => inferInstanceAs (Decidable (_ < _))
  | .merge _ => inferInstanceAs (Decidable (_ < _))

/-- One more call: the clock afterwards, and what has been returned to which call. -/
def logged (state : LamportClock × List (ClockCall × ℕ)) (c : ClockCall) :
    LamportClock × List (ClockCall × ℕ) :=
  ((state.1.call c).2, state.2 ++ [(c, (state.1.call c).1)])

/-- A fresh clock after some calls. -/
def run (calls : List ClockCall) : LamportClock × List (ClockCall × ℕ) :=
  calls.foldl logged (new, [])

/-- No call overflows the counter. -/
def NoOverflow (calls : List ClockCall) : Prop :=
  EachStep logged (new, []) calls fun state c => state.1.Fits c

instance (calls : List ClockCall) : Decidable (NoOverflow calls) :=
  EachStep.decidable _ _ _ _

/-- Every stamp is greater than the ones before it, and that of a merge than the external one. -/
def ClockCondition (log : List (ClockCall × ℕ)) : Prop :=
  (log.Pairwise fun a b => a.2 < b.2) ∧ ∀ e stamp, (ClockCall.merge e, stamp) ∈ log → e < stamp

/-- A tick directly after a merge gets the stamp of the merge again. -/
theorem not_clockCondition :
    ¬ ClockCondition (run [.tick, .tick, .merge 10, .tick]).2 := by
  rintro ⟨hpairwise, -⟩
  exact absurd hpairwise (by decide)

variable {state : LamportClock × List (ClockCall × ℕ)} {calls : List ClockCall} {c : ClockCall}

/-- What a call that fits does. -/
theorem call_of_fits {clock : LamportClock} (h : clock.Fits c) :
    (c = .tick ∧ clock.call c = (clock.counter, ⟨clock.counter + 1⟩)) ∨
      ∃ e, c = .merge e ∧
        clock.call c = (max clock.counter e + 1, ⟨max clock.counter e + 1⟩) := by
  cases c with
  | tick =>
      refine .inl ⟨rfl, ?_⟩
      show clock.tick = _
      rw [tick, Nat.mod_eq_of_lt h]
  | merge e =>
      refine .inr ⟨e, rfl, ?_⟩
      show clock.merge e = _
      rw [merge, Nat.mod_eq_of_lt h]

/-- The stamps are in order, up to a tick directly after a merge; the counter is above them, but
for a merge that came last; and a merge is above the external stamp. -/
structure Inv (state : LamportClock × List (ClockCall × ℕ)) : Prop where
  below : ∀ before a after, state.2 = before ++ a :: after → a.2 < state.1.counter ∨
    after = [] ∧ (∃ e, a.1 = .merge e) ∧ a.2 = state.1.counter
  order : ∀ before a mid b after, state.2 = before ++ a :: (mid ++ b :: after) → a.2 < b.2 ∨
    mid = [] ∧ (∃ e, a.1 = .merge e) ∧ b.1 = .tick ∧ a.2 = b.2
  external : ∀ e stamp, (ClockCall.merge e, stamp) ∈ state.2 → e < stamp

theorem Inv.le_counter (h : Inv state) {a : ClockCall × ℕ} (ha : a ∈ state.2) :
    a.2 ≤ state.1.counter := by
  obtain ⟨before, after, hsplit⟩ := List.append_of_mem ha
  rcases h.below before a after hsplit with hlt | ⟨-, -, heq⟩
  · exact hlt.le
  · exact heq.le

/-- One more call. -/
theorem Inv.logged (h : Inv state) (hfits : state.1.Fits c) : Inv (logged state c) := by
  rcases call_of_fits hfits with ⟨rfl, hcall⟩ | ⟨e, rfl, hcall⟩
  · rw [LamportClock.logged, hcall]
    refine ⟨?_, ?_, ?_⟩
    · rintro before a after hsplit
      rcases concat_eq_append_cons hsplit with ⟨-, rfl, -⟩ | ⟨init, -, hinit⟩
      · exact .inl (Nat.lt_succ_self _)
      · exact .inl (Nat.lt_succ_of_le (h.le_counter (hinit ▸ by simp)))
    · rintro before a mid b after hsplit
      rw [← List.cons_append, ← List.append_assoc] at hsplit
      rcases concat_eq_append_cons hsplit with ⟨hlog, rfl, -⟩ | ⟨init, -, hinit⟩
      · rcases h.below before a mid hlog with hlt | ⟨hmid, hmerge, heq⟩
        · exact .inl hlt
        · exact .inr ⟨hmid, hmerge, rfl, heq⟩
      · exact h.order before a mid b init (by simpa using hinit)
    · intro e stamp hmem
      rcases List.mem_append.mp hmem with hmem | hmem
      · exact h.external e stamp hmem
      · simp at hmem
  · have hle : state.1.counter ≤ max state.1.counter e := le_max_left _ _
    rw [LamportClock.logged, hcall]
    refine ⟨?_, ?_, ?_⟩
    · rintro before a after hsplit
      rcases concat_eq_append_cons hsplit with ⟨-, rfl, hafter⟩ | ⟨init, -, hinit⟩
      · exact .inr ⟨hafter, ⟨e, rfl⟩, rfl⟩
      · exact .inl (Nat.lt_succ_of_le ((h.le_counter (hinit ▸ by simp)).trans hle))
    · rintro before a mid b after hsplit
      rw [← List.cons_append, ← List.append_assoc] at hsplit
      rcases concat_eq_append_cons hsplit with ⟨hlog, rfl, -⟩ | ⟨init, -, hinit⟩
      · exact .inl (Nat.lt_succ_of_le ((h.le_counter (hlog ▸ by simp)).trans hle))
      · exact h.order before a mid b init (by simpa using hinit)
    · intro e' stamp hmem
      rcases List.mem_append.mp hmem with hmem | hmem
      · exact h.external e' stamp hmem
      · obtain ⟨he, rfl⟩ := Prod.mk.inj (List.mem_singleton.mp hmem)
        obtain rfl := ClockCall.merge.inj he
        exact Nat.lt_succ_of_le (le_max_right _ _)

theorem inv_run (h : NoOverflow calls) : Inv (run calls) := by
  refine EachStep.invariant h ⟨?_, ?_, ?_⟩ fun _ _ hinv hfits => hinv.logged hfits
  · intro before a after hsplit
    simp at hsplit
  · intro before a mid b after hsplit
    simp at hsplit
  · intro e stamp hmem
    cases hmem

end LamportClock

/-! ### The collector -/

/-- Mutable builder used during execution.  A node is its time stamp and all else it records. -/
structure LineageCollector (α : Type) where
  clock : LamportClock
  nodes : List (ℕ × α)

inductive CollectorCall (α : Type) where
  | record (node : α)
  | mergeClock (external : ℕ)

namespace LineageCollector

variable {α : Type}

def new : LineageCollector α where
  clock := .new
  nodes := []

/-- Record a lineage event. -/
def record (collector : LineageCollector α) (node : α) : LineageCollector α :=
  let (lamportTs, clock) := collector.clock.tick
  { clock := clock, nodes := collector.nodes ++ [(lamportTs, node)] }

/-- Merge an external Lamport timestamp, which comes from an A2A agent. -/
def mergeClock (collector : LineageCollector α) (external : ℕ) : LineageCollector α :=
  { collector with clock := (collector.clock.merge external).2 }

def step (collector : LineageCollector α) : CollectorCall α → LineageCollector α
  | .record node => collector.record node
  | .mergeClock external => collector.mergeClock external

/-- The nodes of the finished graph, sorted by Lamport timestamp. -/
def finalize (collector : LineageCollector α) : List (ℕ × α) :=
  collector.nodes.mergeSort fun a b => decide (a.1 ≤ b.1)

/-- The call on the clock. -/
def clockCall : CollectorCall α → ClockCall
  | .record _ => .tick
  | .mergeClock external => .merge external

/-- A fresh collector after some calls. -/
def run (calls : List (CollectorCall α)) : LineageCollector α := calls.foldl step new

/-- No call overflows the counter. -/
def NoOverflow (calls : List (CollectorCall α)) : Prop :=
  EachStep step new calls fun collector c => collector.clock.Fits (clockCall c)

instance (calls : List (CollectorCall α)) : Decidable (NoOverflow calls) :=
  EachStep.decidable _ _ _ _

variable {collector : LineageCollector α} {calls : List (CollectorCall α)}

theorem counter_mergeClock {external : ℕ} (h : collector.clock.Fits (.merge external)) :
    (collector.step (.mergeClock external)).clock.counter =
      max collector.clock.counter external + 1 := by
  show (collector.clock.merge external).2.counter = _
  rw [LamportClock.merge, Nat.mod_eq_of_lt h]

/-- What calls add: nodes with increasing stamps between the counter before and after. -/
theorem nodes_foldl_step
    (h : EachStep step collector calls fun s c => s.clock.Fits (clockCall c)) :
    ∃ later, (calls.foldl step collector).nodes = collector.nodes ++ later ∧
      (later.Pairwise fun a b => a.1 < b.1) ∧
      (∀ node ∈ later, collector.clock.counter ≤ node.1 ∧
        node.1 < (calls.foldl step collector).clock.counter) ∧
      collector.clock.counter ≤ (calls.foldl step collector).clock.counter := by
  induction calls using List.reverseRecOn with
  | nil => exact ⟨[], by simp, .nil, by simp, le_rfl⟩
  | append_singleton calls c ih =>
      obtain ⟨hbefore, hlast⟩ := eachStep_concat.mp h
      obtain ⟨later, hnodes, hpairwise, hbounds, hle⟩ := ih hbefore
      rw [List.foldl_append, List.foldl_cons, List.foldl_nil]
      cases c with
      | record node =>
          have hrecord : step (calls.foldl step collector) (.record node) =
              { clock := ⟨(calls.foldl step collector).clock.counter + 1⟩
                nodes := (calls.foldl step collector).nodes ++
                  [((calls.foldl step collector).clock.counter, node)] } := by
            show record _ _ = _
            rw [record, LamportClock.tick, Nat.mod_eq_of_lt hlast]
          rw [hrecord, hnodes]
          refine ⟨later ++ [((calls.foldl step collector).clock.counter, node)],
            List.append_assoc _ _ _, ?_, ?_, Nat.le_succ_of_le hle⟩
          · refine List.pairwise_append.mpr ⟨hpairwise, List.pairwise_singleton _ _, ?_⟩
            intro a ha b hb
            obtain rfl := List.mem_singleton.mp hb
            exact (hbounds a ha).2
          · intro a ha
            rcases List.mem_append.mp ha with ha | ha
            · exact ⟨(hbounds a ha).1, Nat.lt_succ_of_lt (hbounds a ha).2⟩
            · obtain rfl := List.mem_singleton.mp ha
              exact ⟨hle, Nat.lt_succ_self _⟩
      | mergeClock external =>
          have hgrow : (calls.foldl step collector).clock.counter ≤
              (step (calls.foldl step collector) (.mergeClock external)).clock.counter := by
            rw [counter_mergeClock hlast]
            exact Nat.le_succ_of_le (le_max_left _ _)
          exact ⟨later, hnodes, hpairwise,
            fun a ha => ⟨(hbounds a ha).1, (hbounds a ha).2.trans_le hgrow⟩, hle.trans hgrow⟩

/-- **The events of a collector have increasing stamps, so they are in order at the end.** -/
theorem nodes_ordered (h : NoOverflow calls) :
    ((run calls).nodes.Pairwise fun a b => a.1 < b.1) ∧
      (run calls).finalize = (run calls).nodes := by
  obtain ⟨later, hnodes, hpairwise, -, -⟩ := nodes_foldl_step h
  have hordered : (run calls).nodes.Pairwise fun a b => a.1 < b.1 := by
    rw [run, hnodes]
    exact hpairwise
  exact ⟨hordered, List.mergeSort_of_pairwise (hordered.imp fun hlt => decide_eq_true hlt.le)⟩

/-- **The events after a merge are later than the external one.** -/
theorem external_lt_of_merge {before after : List (CollectorCall α)} {external : ℕ}
    (h : NoOverflow (before ++ .mergeClock external :: after)) :
    ∃ later, (run (before ++ .mergeClock external :: after)).nodes = (run before).nodes ++ later ∧
      ∀ node ∈ later, external < node.1 := by
  obtain ⟨-, hrest⟩ := eachStep_append.mp h
  obtain ⟨hmerge, hafter⟩ := eachStep_cons.mp hrest
  obtain ⟨later, hnodes, -, hbounds, -⟩ := nodes_foldl_step hafter
  refine ⟨later, ?_, fun node hnode => ?_⟩
  · rw [run, List.foldl_append, List.foldl_cons, hnodes]
    rfl
  · have hcounter := (hbounds node hnode).1
    rw [counter_mergeClock hmerge] at hcounter
    exact (Nat.lt_succ_of_le (le_max_right _ _)).trans_le hcounter

end LineageCollector

/-- **Stamps increase, but for a tick directly after a merge, which gets the stamp of the merge;
merges come after the external stamps; the events of a collector have increasing stamps, and those
after a merge are later than the external one.** -/
theorem stamps_increase :
    (∀ calls, LamportClock.NoOverflow calls →
      (∀ before a mid b after, (LamportClock.run calls).2 = before ++ a :: (mid ++ b :: after) →
        a.2 < b.2 ∨ mid = [] ∧ (∃ e, a.1 = .merge e) ∧ b.1 = .tick ∧ a.2 = b.2) ∧
      ∀ e stamp, (ClockCall.merge e, stamp) ∈ (LamportClock.run calls).2 → e < stamp) ∧
    ∀ (α : Type) (calls : List (CollectorCall α)), LineageCollector.NoOverflow calls →
      ((LineageCollector.run calls).nodes.Pairwise fun a b => a.1 < b.1) ∧
      (LineageCollector.run calls).finalize = (LineageCollector.run calls).nodes ∧
      ∀ before external after, calls = before ++ .mergeClock external :: after →
        ∃ later, (LineageCollector.run calls).nodes = (LineageCollector.run before).nodes ++ later ∧
          ∀ node ∈ later, external < node.1 := by
  refine ⟨fun calls h => ?_, fun α calls h => ?_⟩
  · exact ⟨(LamportClock.inv_run h).order, (LamportClock.inv_run h).external⟩
  · obtain ⟨hordered, hfinalize⟩ := LineageCollector.nodes_ordered h
    refine ⟨hordered, hfinalize, ?_⟩
    rintro before external after rfl
    exact LineageCollector.external_lt_of_merge h

/-- A merge between two ticks. -/
theorem stamps_increase_merge :
    LamportClock.NoOverflow [.tick, .merge 10, .tick] ∧
      ∀ e stamp, (ClockCall.merge e, stamp) ∈ (LamportClock.run [.tick, .merge 10, .tick]).2 →
        e < stamp :=
  ⟨by decide, (stamps_increase.1 [.tick, .merge 10, .tick] (by decide)).2⟩

end ClawDesk.Domain.Lineage
