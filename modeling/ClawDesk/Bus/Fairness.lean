import ClawDesk.Bus.Dispatch
import Mathlib.Algebra.Order.AbsoluteValue.Basic

/-!
# Fairness of the dispatch

The arrival time of an event is the number of events dispatched before it.  So it is never before
the last finish time of the class, which is then the arrival time and the inverse of the weight, at
most one; and the finish times come in the order of the arrivals, whatever the classes.

The drain gives out the events in the order in which they were published (`Run.drains_fifo`), and
the classes get their shares only as far as they were published in proportion
(`fairDrains_iff`).
-/

namespace ClawDesk.Bus

/-- The classes of the events that are queued after some calls, in the order in which they were
published. -/
def waiting : List BusCall → List Priority
  | [] => []
  | .publish event :: calls =>
      if (registered calls).any (·.hits event) then waiting calls ++ [event.payload.priority]
      else waiting calls
  | .drainPrioritized max :: calls => (waiting calls).drop max
  | .subscribe _ :: calls | .unsubscribe _ :: calls => waiting calls

namespace ShardedWfqScheduler

variable {T : Type} {scheduler scheduler' : ShardedWfqScheduler T} {n : ℕ}
  {items queue : List (PriorityItem T)}

/-- A drain of items with distinct finish times takes them in the order of these. -/
theorem Drain.eq_take (h : Drain n scheduler items scheduler')
    (hpending : scheduler.pending.Perm queue)
    (hsorted : queue.Pairwise fun a b => a.virtualFinishTime < b.virtualFinishTime) :
    items = queue.take n ∧ scheduler'.pending.Perm (queue.drop n) := by
  induction h generalizing queue with
  | done => exact ⟨rfl, hpending⟩
  | empty hnone =>
      rw [best_eq_none_iff.mp hnone] at hpending
      obtain rfl := hpending.symm.eq_nil
      refine ⟨by simp, ?_⟩
      rw [best_eq_none_iff.mp hnone]
      simp
  | pop hbest hdequeues _ ih =>
      obtain ⟨rest, rfl, hrest⟩ :=
        eq_cons_of_pops (pops_pending hbest hdequeues) hpending hsorted
      obtain ⟨hitems, hleft⟩ := ih hrest hsorted.of_cons
      exact ⟨congrArg _ hitems, hleft⟩

/-- A drain leaves the last finish times alone. -/
theorem Drain.lastVft (h : Drain n scheduler items scheduler') (c : Priority) :
    (scheduler'.shards c).lastVft = (scheduler.shards c).lastVft := by
  induction h with
  | done => rfl
  | empty => rfl
  | @pop n scheduler scheduler' d item rest items _ _ _ ih =>
      rw [ih]
      rcases eq_or_ne c d with rfl | hne
      · simp [setHeap]
      · rw [setHeap_heap_of_ne hne]

end ShardedWfqScheduler

/-! ### The queue of a bus -/

/-- What is pending, by increasing finish times, none of them later than the clock. -/
structure Queued (bus : EventBus) (queue : List (PriorityItem DispatchItem)) : Prop where
  pending : bus.wfq.pending.Perm queue
  increasing : queue.Pairwise fun a b => a.virtualFinishTime < b.virtualFinishTime
  clock : ∀ x ∈ queue, x.virtualFinishTime ≤ bus.wfqClock
  last : ∀ c, (bus.wfq.shards c).lastVft c ≤ bus.wfqClock

variable {calls : List BusCall} {bus : EventBus} {queue : List (PriorityItem DispatchItem)}

/-- The finish time of a new item is after the clock, and not after its next tick. -/
theorem finishTime_eq {last clock : ℚ} (h : last ≤ clock) (c : Priority) :
    clock < max last clock + 1 / c.weight ∧ max last clock + 1 / c.weight ≤ clock + 1 := by
  rw [max_eq_right h]
  cases c <;> norm_num [Priority.weight]

theorem Queued.enqueue (h : Queued bus queue) (item : DispatchItem) (c : Priority) :
    ∃ x : PriorityItem DispatchItem, x.priority = c ∧
      Queued { bus with wfqClock := bus.wfqClock + 1, wfq := bus.wfq.enqueue item c bus.wfqClock }
        (queue ++ [x]) := by
  have hfinish := finishTime_eq (h.last c) c
  refine ⟨⟨item, max ((bus.wfq.shards c).lastVft c) bus.wfqClock + 1 / c.weight, c⟩, rfl,
    ?_, ?_, ?_, ?_⟩
  · refine (ShardedWfqScheduler.pending_enqueue bus.wfq item c bus.wfqClock).trans ?_
    exact (h.pending.cons _).trans (List.perm_append_singleton _ _).symm
  · refine List.pairwise_append.mpr ⟨h.increasing, List.pairwise_singleton _ _, ?_⟩
    intro x hx y hy
    rw [List.mem_singleton.mp hy]
    exact (h.clock x hx).trans_lt hfinish.1
  · intro x hx
    push_cast
    rcases List.mem_append.mp hx with hx | hx
    · exact (h.clock x hx).trans (by linarith)
    · rw [List.mem_singleton.mp hx]
      exact hfinish.2
  · intro d
    push_cast
    rcases eq_or_ne d c with rfl | hne
    · rw [ShardedWfqScheduler.enqueue_shards_self, WfqScheduler.enqueue]
      simpa using hfinish.2
    · rw [ShardedWfqScheduler.enqueue_shards_of_ne hne]
      exact (h.last d).trans (by linarith)

/-- **Whatever is called, the finish times are in the order of publishing.** -/
theorem EventBus.Run.queued (h : EventBus.Run calls bus) :
    ∃ queue, Queued bus queue ∧ queue.map (·.priority) = waiting calls := by
  induction h with
  | new capacity =>
      refine ⟨[], ⟨.refl _, .nil, by simp, fun c => ?_⟩, rfl⟩
      exact le_of_eq (Nat.cast_zero).symm
  | @subscribe calls bus _ sub ih =>
      obtain ⟨queue, hqueued, hwaiting⟩ := ih
      refine ⟨queue, ?_, hwaiting⟩
      rw [EventBus.subscribe]
      split
      · exact ⟨hqueued.pending, hqueued.increasing, hqueued.clock, hqueued.last⟩
      · exact ⟨hqueued.pending, hqueued.increasing, hqueued.clock, hqueued.last⟩
  | unsubscribe _ subId ih =>
      obtain ⟨queue, hqueued, hwaiting⟩ := ih
      exact ⟨queue, ⟨hqueued.pending, hqueued.increasing, hqueued.clock, hqueued.last⟩, hwaiting⟩
  | @publish calls bus hrun event ih =>
      obtain ⟨queue, hqueued, hwaiting⟩ := ih
      have hnone := hrun.triggered_eq_nil_iff event
      rw [waiting, EventBus.publish]
      dsimp only
      split
      · rename_i hempty
        rw [hnone.mp (List.isEmpty_iff.mp hempty), if_neg Bool.false_ne_true]
        exact ⟨queue, ⟨hqueued.pending, hqueued.increasing, hqueued.clock, hqueued.last⟩, hwaiting⟩
      · rename_i hsome
        have hany : (registered calls).any (·.hits event) = true := by
          rw [← Bool.not_eq_false, ← hnone]
          exact fun heq => hsome (List.isEmpty_iff.mpr heq)
        rw [if_pos hany]
        obtain ⟨x, hx, hnext⟩ := hqueued.enqueue _ event.payload.priority
        refine ⟨queue ++ [x], ⟨hnext.pending, hnext.increasing, hnext.clock, hnext.last⟩, ?_⟩
        rw [List.map_append, hwaiting, List.map_singleton, hx]
  | @drainPrioritized calls bus _ max items wfq hdrain ih =>
      obtain ⟨queue, hqueued, hwaiting⟩ := ih
      obtain ⟨-, hleft⟩ := hdrain.eq_take hqueued.pending hqueued.increasing
      refine ⟨queue.drop max, ⟨hleft, hqueued.increasing.drop, fun x hx => ?_, fun c => ?_⟩, ?_⟩
      · exact hqueued.clock x (List.mem_of_mem_drop hx)
      · rw [hdrain.lastVft c]
        exact hqueued.last c
      · rw [waiting, ← hwaiting, List.map_drop]

/-- **The drain gives out the events in the order in which they were published.** -/
theorem EventBus.Run.drains_fifo (h : EventBus.Run calls bus) {max : ℕ}
    {items : List (PriorityItem DispatchItem)} {wfq : ShardedWfqScheduler DispatchItem}
    (hdrain : ShardedWfqScheduler.Drain max bus.wfq items wfq) :
    items.map (·.priority) = (waiting calls).take max ∧
      (wfq.pending.map (·.priority)).Perm ((waiting calls).drop max) := by
  obtain ⟨queue, hqueued, hwaiting⟩ := h.queued
  obtain ⟨hitems, hleft⟩ := hdrain.eq_take hqueued.pending hqueued.increasing
  rw [hitems, ← hwaiting, ← List.map_take, ← List.map_drop]
  exact ⟨rfl, hleft.map _⟩

/-! ### Shares -/

/-- What a class has got of the items, by its weight. -/
def share (c : Priority) (classes : List Priority) : ℚ := classes.count c / c.weight

/-- The bound on how far the shares of two classes may be apart. -/
def SharesClose (i j : Priority) (classes : List Priority) : Prop :=
  |share i classes - share j classes| ≤ 1 / i.weight + 1 / j.weight

/-- As long as both classes have something pending, their shares of what has been drained are
close. -/
def FairDrains (bus : EventBus) (i j : Priority) : Prop :=
  ∀ max items wfq, ShardedWfqScheduler.Drain max bus.wfq items wfq →
    (∃ x ∈ wfq.pending, x.priority = i) → (∃ x ∈ wfq.pending, x.priority = j) →
    ∀ released, released <+: items → SharesClose i j (released.map (·.priority))

/-- As long as both classes are still to come, their shares of what was published are close. -/
def PublishedFairly (classes : List Priority) (i j : Priority) : Prop :=
  ∀ n, i ∈ classes.drop n → j ∈ classes.drop n → SharesClose i j (classes.take n)

/-- **Two classes get their shares exactly if the events were published in proportion.** -/
theorem fairDrains_iff (h : EventBus.Run calls bus) (i j : Priority) :
    FairDrains bus i j ↔ PublishedFairly (waiting calls) i j := by
  have hmem : ∀ (c : Priority) (pending : List (PriorityItem DispatchItem)),
      (∃ x ∈ pending, x.priority = c) ↔ c ∈ pending.map (·.priority) := fun c pending =>
    List.mem_map.symm
  constructor
  · intro hfair n hi hj
    obtain ⟨items, wfq, hdrain⟩ := ShardedWfqScheduler.exists_drain n bus.wfq
    obtain ⟨hitems, hleft⟩ := h.drains_fifo hdrain
    rw [← hitems]
    refine hfair n items wfq hdrain ?_ ?_ items (List.prefix_refl _)
    · exact (hmem i _).mpr (hleft.mem_iff.mpr hi)
    · exact (hmem j _).mpr (hleft.mem_iff.mpr hj)
  · intro hpublished max items wfq hdrain hi hj released hreleased
    obtain ⟨hitems, hleft⟩ := h.drains_fifo hdrain
    have hle : released.length ≤ max := by
      have hlength := congrArg List.length hitems
      have hshort := hreleased.length_le
      rw [List.length_map, List.length_take] at hlength
      omega
    -- what is still to come after the drain is still to come after a part of it
    have hlater : ∀ c, c ∈ (waiting calls).drop max → c ∈ (waiting calls).drop released.length := by
      intro c hc
      rw [← Nat.sub_add_cancel hle, Nat.add_comm, ← List.drop_drop] at hc
      exact List.mem_of_mem_drop hc
    have htake : released.map (·.priority) = (waiting calls).take released.length :=
      calc released.map (·.priority)
        _ = (items.take released.length).map (·.priority) :=
            congrArg _ (List.prefix_iff_eq_take.mp hreleased)
        _ = ((waiting calls).take max).take released.length := by rw [List.map_take, hitems]
        _ = (waiting calls).take released.length := by
            rw [List.take_take, Nat.min_eq_left hle]
    rw [htake]
    exact hpublished _ (hlater i (hleft.mem_iff.mp ((hmem i _).mp hi)))
      (hlater j (hleft.mem_iff.mp ((hmem j _).mp hj)))

/-- Events of some classes for a subscription that takes them all, the last one first. -/
def alertCalls (classes : List Priority) : List BusCall :=
  (classes.map fun c => .publish ⟨"alerts", 0, ⟨.messageReceived, c⟩⟩) ++
    [.subscribe (alertSub ["alerts"])]

theorem exists_run_alertCalls (classes : List Priority) :
    ∃ bus, EventBus.Run (alertCalls classes) bus := by
  induction classes with
  | nil => exact ⟨_, .subscribe (.new 8) _⟩
  | cons c classes ih =>
      obtain ⟨bus, hrun⟩ := ih
      exact ⟨_, hrun.publish _⟩

theorem fairDrains_iff_mixed : ∃ bus, EventBus.Run (alertCalls [.batch, .urgent]) bus ∧
    (FairDrains bus .urgent .batch ↔
      PublishedFairly (waiting (alertCalls [.batch, .urgent])) .urgent .batch) := by
  obtain ⟨bus, hrun⟩ := exists_run_alertCalls [.batch, .urgent]
  exact ⟨bus, hrun, fairDrains_iff hrun .urgent .batch⟩

/-- **What is urgent waits for all that was published before it.** -/
theorem batch_before_urgent : ∃ calls bus, EventBus.Run calls bus ∧
    ¬ FairDrains bus .urgent .batch := by
  obtain ⟨bus, hrun⟩ := exists_run_alertCalls [.urgent, .batch, .batch, .batch]
  refine ⟨_, bus, hrun, fun hfair => ?_⟩
  obtain ⟨items, wfq, hdrain⟩ := ShardedWfqScheduler.exists_drain 2 bus.wfq
  obtain ⟨hitems, hleft⟩ := hrun.drains_fifo hdrain
  have hwaiting : waiting (alertCalls [.urgent, .batch, .batch, .batch]) =
      [.batch, .batch, .batch, .urgent] := by decide +kernel
  rw [hwaiting] at hitems hleft
  have hpending : ∀ c ∈ [Priority.batch, .urgent], ∃ x ∈ wfq.pending, x.priority = c :=
    fun c hc => List.mem_map.mp (hleft.mem_iff.mpr hc)
  have hclose := hfair 2 items wfq hdrain (hpending .urgent (by decide))
    (hpending .batch (by decide)) items (List.prefix_refl _)
  rw [hitems] at hclose
  have hurgent : share .urgent [.batch, .batch] = 0 := by
    norm_num [share, show List.count Priority.urgent [.batch, .batch] = 0 from rfl]
  have hbatch : share .batch [.batch, .batch] = 2 := by
    norm_num [share, Priority.weight]
  have hbound : |share .urgent [.batch, .batch] - share .batch [.batch, .batch]| ≤ _ := hclose
  rw [hurgent, hbatch] at hbound
  norm_num [Priority.weight] at hbound

end ClawDesk.Bus
