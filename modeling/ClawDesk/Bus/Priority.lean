import ClawDesk.Foundations.LeastFirst
import Mathlib.Algebra.Order.Field.Rat
import Mathlib.Data.List.MinMax
import Mathlib.Tactic.Linarith
import Mathlib.Tactic.Positivity

/-!
# Weighted fair queuing

Every item gets a virtual finish time, later by the inverse of the weight of its class than the
one before it in the class.  A drain gives out the items with the least finish times first.
The sharded scheduler has a heap for every class, and takes the next item from the heap whose
least finish time is least.

Within a class the finish times increase, so a class leaves in the order in which it was
enqueued; and the least of the three least finish times is the least of all, so the three
heaps drain like one that holds everything (`sharded_lawful`).

Virtual times are rational.
-/

namespace ClawDesk.Bus

open Foundations

/-- Priority class for event dispatch. -/
inductive Priority where
  | urgent
  | standard
  | batch
  deriving DecidableEq

/-- WFQ weight for this priority class. -/
def Priority.weight : Priority → ℕ
  | urgent => 8
  | standard => 4
  | batch => 1

/-- A priority-tagged item awaiting dispatch. -/
structure PriorityItem (T : Type) where
  item : T
  virtualFinishTime : ℚ
  priority : Priority

variable {T : Type}

/-! ### One heap -/

/-- Weighted fair queuing scheduler.  The heap is given by its elements. -/
structure WfqScheduler (T : Type) where
  heap : List (PriorityItem T)
  lastVft : Priority → ℚ

namespace WfqScheduler

def new : WfqScheduler T where
  heap := []
  lastVft := fun _ => 0

/-- Enqueue an item: `F_i = max(F_{i-1}, now) + 1/weight`. -/
def enqueue (scheduler : WfqScheduler T) (item : T) (priority : Priority) (arrivalTime : ℚ) :
    WfqScheduler T :=
  let vft := max (scheduler.lastVft priority) arrivalTime + 1 / priority.weight
  { heap := ⟨item, vft, priority⟩ :: scheduler.heap
    lastVft := Function.update scheduler.lastVft priority vft }

/-- `dequeue` pops an item with the lowest virtual finish time. -/
def Dequeues (scheduler : WfqScheduler T) (item : PriorityItem T) (rest : List (PriorityItem T)) :
    Prop :=
  LeastFirst.Pops (·.virtualFinishTime) scheduler.heap item rest

/-- Peek at the virtual finish time of the next item. -/
def peekVft (scheduler : WfqScheduler T) : Option ℚ :=
  (scheduler.heap.map (·.virtualFinishTime)).min?

end WfqScheduler

/-! ### Three heaps -/

/-- K-sharded WFQ scheduler: one independent heap per priority class. -/
structure ShardedWfqScheduler (T : Type) where
  shards : Priority → WfqScheduler T

namespace ShardedWfqScheduler

def new : ShardedWfqScheduler T where
  shards := fun _ => .new

/-- Enqueue an item in the shard for its priority class. -/
def enqueue (scheduler : ShardedWfqScheduler T) (item : T) (priority : Priority)
    (arrivalTime : ℚ) : ShardedWfqScheduler T where
  shards := Function.update scheduler.shards priority
    ((scheduler.shards priority).enqueue item priority arrivalTime)

/-- The shard with the minimum VFT, the first one of several. -/
def best (scheduler : ShardedWfqScheduler T) : Option Priority :=
  (([.urgent, .standard, .batch].filterMap fun c =>
    (scheduler.shards c).peekVft.map fun vft => (c, vft)).argmin Prod.snd).map Prod.fst

/-- The scheduler with another heap in one shard. -/
def setHeap (scheduler : ShardedWfqScheduler T) (c : Priority) (heap : List (PriorityItem T)) :
    ShardedWfqScheduler T where
  shards := Function.update scheduler.shards c { scheduler.shards c with heap := heap }

/-- The loop of `drain`: a K-way merge, until `max` items are out or no shard has any. -/
inductive Drain : ℕ → ShardedWfqScheduler T → List (PriorityItem T) → ShardedWfqScheduler T → Prop
  | done (scheduler : ShardedWfqScheduler T) : Drain 0 scheduler [] scheduler
  | empty {n : ℕ} {scheduler : ShardedWfqScheduler T} (none : scheduler.best = none) :
      Drain (n + 1) scheduler [] scheduler
  | pop {n : ℕ} {scheduler scheduler' : ShardedWfqScheduler T} {c : Priority}
      {item : PriorityItem T} {rest items : List (PriorityItem T)}
      (best : scheduler.best = some c) (dequeues : (scheduler.shards c).Dequeues item rest)
      (drain : Drain n (scheduler.setHeap c rest) items scheduler') :
      Drain (n + 1) scheduler (item :: items) scheduler'

/-- All pending items, across all shards. -/
def pending (scheduler : ShardedWfqScheduler T) : List (PriorityItem T) :=
  (scheduler.shards .urgent).heap ++ (scheduler.shards .standard).heap ++
    (scheduler.shards .batch).heap

end ShardedWfqScheduler

/-! ### Runs -/

/-- A call of the scheduler. -/
inductive WfqCall (T : Type) where
  | enqueue (item : T) (priority : Priority) (arrivalTime : ℚ)
  | drain (max : ℕ)

/-- The calls with the items that they returned, the last one first. -/
abbrev WfqLog (T : Type) := List (WfqCall T × List (PriorityItem T))

namespace WfqLog

/-- The last virtual finish time of a class. -/
def lastVft (c : Priority) : WfqLog T → ℚ
  | [] => 0
  | (.enqueue _ priority arrivalTime, _) :: log =>
      if priority = c then max (lastVft c log) arrivalTime + 1 / priority.weight else lastVft c log
  | (.drain _, _) :: log => lastVft c log

/-- What was enqueued, the first item first. -/
def enqueued : WfqLog T → List (PriorityItem T)
  | [] => []
  | (.enqueue item priority arrivalTime, _) :: log => enqueued log ++
      [⟨item, max (lastVft priority log) arrivalTime + 1 / priority.weight, priority⟩]
  | (.drain _, _) :: log => enqueued log

/-- What was drained, the first item first. -/
def drained : WfqLog T → List (PriorityItem T)
  | [] => []
  | (_, items) :: log => drained log ++ items

end WfqLog

/-- The items of a class. -/
def ofClass (c : Priority) (items : List (PriorityItem T)) : List (PriorityItem T) :=
  items.filter fun x => x.priority = c

/-- The calls on a new sharded scheduler, and the scheduler they lead to. -/
inductive ShardedWfqScheduler.Run : WfqLog T → ShardedWfqScheduler T → Prop
  | new : Run [] new
  | enqueue {log : WfqLog T} {scheduler : ShardedWfqScheduler T} (run : Run log scheduler)
      (item : T) (priority : Priority) (arrivalTime : ℚ) :
      Run ((.enqueue item priority arrivalTime, []) :: log)
        (scheduler.enqueue item priority arrivalTime)
  | drain {log : WfqLog T} {scheduler scheduler' : ShardedWfqScheduler T}
      (run : Run log scheduler) {max : ℕ} {items : List (PriorityItem T)}
      (drain : Drain max scheduler items scheduler') :
      Run ((.drain max, items) :: log) scheduler'

/-- The same calls on one scheduler that holds all items, and dequeues to drain. -/
inductive WfqScheduler.Run : WfqLog T → WfqScheduler T → Prop
  | new : Run [] new
  | enqueue {log : WfqLog T} {scheduler : WfqScheduler T} (run : Run log scheduler)
      (item : T) (priority : Priority) (arrivalTime : ℚ) :
      Run ((.enqueue item priority arrivalTime, []) :: log)
        (scheduler.enqueue item priority arrivalTime)
  | drain {log : WfqLog T} {scheduler : WfqScheduler T} (run : Run log scheduler) {max : ℕ}
      {items rest : List (PriorityItem T)}
      (drains : LeastFirst.Drains (·.virtualFinishTime) max scheduler.heap items rest) :
      Run ((.drain max, items) :: log) { scheduler with heap := rest }

namespace ShardedWfqScheduler

/-- What holds of the scheduler after some calls. -/
structure Lawful (log : WfqLog T) (scheduler : ShardedWfqScheduler T) : Prop where
  /-- Every item is drained once or still pending. -/
  once : log.enqueued.Perm (log.drained ++ scheduler.pending)
  /-- A class leaves in the order in which it was enqueued. -/
  fifo : ∀ c, ofClass c log.drained <+: ofClass c log.enqueued
  answers : ∀ max, ∃ items scheduler', Drain max scheduler items scheduler'
  count : ∀ max items scheduler', Drain max scheduler items scheduler' →
    items.length = min max scheduler.pending.length
  sorted : ∀ max items scheduler', Drain max scheduler items scheduler' →
    items.Pairwise fun a b => a.virtualFinishTime ≤ b.virtualFinishTime
  /-- Each item is a least one of those that are pending when it is drained. -/
  least : ∀ max items scheduler', Drain max scheduler items scheduler' →
    ∀ before x after, items = before ++ x :: after →
      ∀ y ∈ x :: after ++ scheduler'.pending, x.virtualFinishTime ≤ y.virtualFinishTime
  /-- One scheduler can drain the same items. -/
  single : ∃ one, WfqScheduler.Run log one ∧ one.heap.Perm scheduler.pending
  /-- However one scheduler drains, it differs only in items with the same finish time. -/
  ties : ∀ log' one, WfqScheduler.Run log' one → log'.map Prod.fst = log.map Prod.fst →
    (log'.map fun e => e.2.map (·.virtualFinishTime)) =
      log.map fun e => e.2.map (·.virtualFinishTime)

/-! ### The merge of the three heaps -/

variable {scheduler scheduler' : ShardedWfqScheduler T} {c : Priority} {item : PriorityItem T}
  {items rest : List (PriorityItem T)} {log : WfqLog T} {n : ℕ}

@[simp] theorem setHeap_heap_self : ((scheduler.setHeap c rest).shards c).heap = rest := by
  simp [setHeap]

theorem setHeap_heap_of_ne {c' : Priority} (h : c' ≠ c) :
    (scheduler.setHeap c rest).shards c' = scheduler.shards c' :=
  Function.update_of_ne h _ _

theorem enqueue_shards_self (payload : T) (arrivalTime : ℚ) :
    (scheduler.enqueue payload c arrivalTime).shards c =
      (scheduler.shards c).enqueue payload c arrivalTime := Function.update_self ..

theorem enqueue_shards_of_ne {d : Priority} (h : d ≠ c) (payload : T) (arrivalTime : ℚ) :
    (scheduler.enqueue payload c arrivalTime).shards d = scheduler.shards d :=
  Function.update_of_ne h _ _

theorem mem_pending : item ∈ scheduler.pending ↔ ∃ c, item ∈ (scheduler.shards c).heap := by
  rw [pending, List.mem_append, List.mem_append]
  constructor
  · rintro ((h | h) | h)
    · exact ⟨_, h⟩
    · exact ⟨_, h⟩
    · exact ⟨_, h⟩
  · rintro ⟨_ | _ | _, h⟩
    · exact .inl (.inl h)
    · exact .inl (.inr h)
    · exact .inr h

/-- One shard has one item more. -/
theorem pending_perm (hself : (scheduler'.shards c).heap.Perm (item :: (scheduler.shards c).heap))
    (hother : ∀ d, d ≠ c → (scheduler'.shards d).heap = (scheduler.shards d).heap) :
    scheduler'.pending.Perm (item :: scheduler.pending) := by
  unfold pending
  cases c with
  | urgent =>
      rw [hother .standard (by decide), hother .batch (by decide)]
      exact (hself.append_right _).append_right _
  | standard =>
      rw [hother .urgent (by decide), hother .batch (by decide)]
      exact ((hself.append_left _).append_right _).trans (List.perm_middle.append_right _)
  | batch =>
      rw [hother .urgent (by decide), hother .standard (by decide)]
      exact (hself.append_left _).trans List.perm_middle

/-- The least finish time of a shard. -/
theorem peekVft_eq_some_iff {one : WfqScheduler T} {vft : ℚ} : one.peekVft = some vft ↔
    vft ∈ one.heap.map (·.virtualFinishTime) ∧ ∀ x ∈ one.heap, vft ≤ x.virtualFinishTime := by
  rw [WfqScheduler.peekVft, List.min?_eq_some_iff]
  simp

theorem peekVft_eq_none_iff {one : WfqScheduler T} : one.peekVft = none ↔ one.heap = [] := by
  rw [WfqScheduler.peekVft, List.min?_eq_none_iff, List.map_eq_nil_iff]

/-- The finish times that the merge compares. -/
theorem mem_vfts {vft : ℚ} :
    (c, vft) ∈ ([.urgent, .standard, .batch].filterMap fun c =>
        (scheduler.shards c).peekVft.map fun vft => (c, vft)) ↔
      (scheduler.shards c).peekVft = some vft := by
  rw [List.mem_filterMap]
  constructor
  · rintro ⟨c', -, h⟩
    obtain ⟨vft', hvft, heq⟩ := Option.map_eq_some_iff.mp h
    obtain ⟨rfl, rfl⟩ := Prod.mk.inj heq
    exact hvft
  · intro h
    exact ⟨c, by cases c <;> simp, by rw [h]; rfl⟩

theorem best_eq_none_iff : scheduler.best = none ↔ scheduler.pending = [] := by
  rw [best, Option.map_eq_none_iff, List.argmin_eq_none, List.eq_nil_iff_forall_not_mem,
    List.eq_nil_iff_forall_not_mem]
  constructor
  · intro h x hx
    obtain ⟨c, hc⟩ := mem_pending.mp hx
    obtain ⟨vft, hvft⟩ : ∃ vft, (scheduler.shards c).peekVft = some vft := by
      refine Option.ne_none_iff_exists'.mp fun hnone => ?_
      rw [peekVft_eq_none_iff.mp hnone] at hc
      exact absurd hc List.not_mem_nil
    exact h (c, vft) (mem_vfts.mpr hvft)
  · rintro h ⟨c, vft⟩ hmem
    obtain ⟨hvft, -⟩ := peekVft_eq_some_iff.mp (mem_vfts.mp hmem)
    obtain ⟨x, hx, -⟩ := List.mem_map.mp hvft
    exact h x (mem_pending.mpr ⟨c, hx⟩)

/-- The shard that is chosen has an item, and its least finish time is least of all. -/
theorem best_eq_some (h : scheduler.best = some c) : ∃ vft,
    (scheduler.shards c).peekVft = some vft ∧
      ∀ x ∈ scheduler.pending, vft ≤ x.virtualFinishTime := by
  obtain ⟨⟨c', vft⟩, hmin, rfl⟩ := Option.map_eq_some_iff.mp h
  refine ⟨vft, mem_vfts.mp (List.argmin_mem hmin), fun x hx => ?_⟩
  obtain ⟨d, hd⟩ := mem_pending.mp hx
  obtain ⟨vft', hvft'⟩ : ∃ vft, (scheduler.shards d).peekVft = some vft := by
    refine Option.ne_none_iff_exists'.mp fun hnone => ?_
    rw [peekVft_eq_none_iff.mp hnone] at hd
    exact absurd hd List.not_mem_nil
  calc vft ≤ vft' := List.le_of_mem_argmin (mem_vfts.mpr hvft') hmin
    _ ≤ x.virtualFinishTime := (peekVft_eq_some_iff.mp hvft').2 x hd

/-- **What the merge takes is a least item of all.** -/
theorem pops_pending (hbest : scheduler.best = some c)
    (hdequeues : (scheduler.shards c).Dequeues item rest) :
    LeastFirst.Pops (·.virtualFinishTime) scheduler.pending item
      (scheduler.setHeap c rest).pending := by
  obtain ⟨vft, hpeek, hleast⟩ := best_eq_some hbest
  have hperm : scheduler.pending.Perm (item :: (scheduler.setHeap c rest).pending) := by
    apply pending_perm (c := c)
    · rw [setHeap_heap_self]
      exact hdequeues.1
    · intro d hd
      rw [setHeap_heap_of_ne hd]
  refine ⟨hperm, fun y hy => ?_⟩
  obtain ⟨x, hx, heq⟩ := List.mem_map.mp (peekVft_eq_some_iff.mp hpeek).1
  calc item.virtualFinishTime ≤ x.virtualFinishTime := hdequeues.2 x hx
    _ = vft := heq
    _ ≤ y.virtualFinishTime := hleast y hy

/-- **Three heaps drain like one.** -/
theorem Drain.drains (h : Drain n scheduler items scheduler') :
    LeastFirst.Drains (·.virtualFinishTime) n scheduler.pending items scheduler'.pending := by
  induction h with
  | done => exact .done (.refl _)
  | empty hnone =>
      rw [best_eq_none_iff.mp hnone]
      exact .empty _
  | pop hbest hdequeues _ ih => exact .pop (pops_pending hbest hdequeues) ih

/-- A shard that has an item can give out a least one. -/
theorem exists_dequeues {one : WfqScheduler T} {vft : ℚ} (h : one.peekVft = some vft) :
    ∃ item rest, one.Dequeues item rest := by
  obtain ⟨hmem, hleast⟩ := peekVft_eq_some_iff.mp h
  obtain ⟨item, hitem, rfl⟩ := List.mem_map.mp hmem
  obtain ⟨before, after, hsplit⟩ := List.append_of_mem hitem
  exact ⟨item, before ++ after, by rw [hsplit]; exact List.perm_middle, hleast⟩

theorem exists_drain (n : ℕ) (scheduler : ShardedWfqScheduler T) :
    ∃ items scheduler', Drain n scheduler items scheduler' := by
  induction n generalizing scheduler with
  | zero => exact ⟨[], scheduler, .done _⟩
  | succ n ih =>
      cases hbest : scheduler.best with
      | none => exact ⟨[], scheduler, .empty hbest⟩
      | some c =>
          obtain ⟨vft, hpeek, -⟩ := best_eq_some hbest
          obtain ⟨item, rest, hdequeues⟩ := exists_dequeues hpeek
          obtain ⟨items, scheduler', hdrain⟩ := ih (scheduler.setHeap c rest)
          exact ⟨item :: items, scheduler', .pop hbest hdequeues hdrain⟩

/-! ### Classes -/

theorem ofClass_append (l l' : List (PriorityItem T)) :
    ofClass c (l ++ l') = ofClass c l ++ ofClass c l' := List.filter_append ..

/-- The least item of an increasing queue is its first one. -/
theorem eq_cons_of_pops {heap waiting : List (PriorityItem T)}
    (hpops : LeastFirst.Pops (·.virtualFinishTime) heap item rest) (hheap : heap.Perm waiting)
    (hsorted : waiting.Pairwise fun a b => a.virtualFinishTime < b.virtualFinishTime) :
    ∃ waiting', waiting = item :: waiting' ∧ rest.Perm waiting' := by
  cases waiting with
  | nil => exact absurd (hheap.mem_iff.mp hpops.mem) List.not_mem_nil
  | cons x waiting' =>
      have hfirst : item = x := by
        rcases List.mem_cons.mp (hheap.mem_iff.mp hpops.mem) with heq | hmem
        · exact heq
        · have hlt := List.rel_of_pairwise_cons hsorted hmem
          exact absurd (hpops.2 x (hheap.mem_iff.mpr List.mem_cons_self)) (not_le.mpr hlt)
      subst hfirst
      exact ⟨waiting', rfl, (hpops.1.symm.trans hheap).cons_inv⟩

/-- Each shard holds its class: what waits, in the order of the finish times. -/
structure Classed (scheduler : ShardedWfqScheduler T) (waiting : Priority → List (PriorityItem T)) :
    Prop where
  priority : ∀ c, ∀ x ∈ waiting c, x.priority = c
  heap : ∀ c, (scheduler.shards c).heap.Perm (waiting c)
  increasing : ∀ c, (waiting c).Pairwise fun a b => a.virtualFinishTime < b.virtualFinishTime

/-- **A drain takes the first items of each class.** -/
theorem Classed.drain {waiting : Priority → List (PriorityItem T)}
    (h : Classed scheduler waiting) (hdrain : Drain n scheduler items scheduler') :
    ∃ waiting', (∀ c, waiting c = ofClass c items ++ waiting' c) ∧
      Classed scheduler' waiting' ∧ ∀ c, (scheduler'.shards c).lastVft =
        (scheduler.shards c).lastVft := by
  induction hdrain generalizing waiting with
  | done => exact ⟨waiting, fun _ => rfl, h, fun _ => rfl⟩
  | empty => exact ⟨waiting, fun _ => rfl, h, fun _ => rfl⟩
  | @pop n scheduler scheduler' c item rest items hbest hdequeues _ ih =>
      obtain ⟨tail, htail, hrest⟩ := eq_cons_of_pops hdequeues (h.heap c) (h.increasing c)
      have hitem : item.priority = c := h.priority c item (htail ▸ List.mem_cons_self)
      have hclassed : Classed (scheduler.setHeap c rest) (Function.update waiting c tail) := by
        refine ⟨fun d x hx => ?_, fun d => ?_, fun d => ?_⟩
        · by_cases hd : d = c
          · subst hd
            rw [Function.update_self] at hx
            exact h.priority d x (htail ▸ List.mem_cons_of_mem _ hx)
          · rw [Function.update_of_ne hd] at hx
            exact h.priority d x hx
        · by_cases hd : d = c
          · subst hd
            rw [setHeap_heap_self, Function.update_self]
            exact hrest
          · rw [setHeap_heap_of_ne hd, Function.update_of_ne hd]
            exact h.heap d
        · by_cases hd : d = c
          · subst hd
            rw [Function.update_self]
            exact (htail ▸ h.increasing d).of_cons
          · rw [Function.update_of_ne hd]
            exact h.increasing d
      obtain ⟨waiting', hsplit, hclassed', hlast⟩ := ih hclassed
      refine ⟨waiting', fun d => ?_, hclassed', fun d => (hlast d).trans ?_⟩
      · by_cases hd : d = c
        · subst hd
          have hd := hsplit d
          rw [Function.update_self] at hd
          rw [htail, hd, ofClass, ofClass, List.filter_cons_of_pos (by simpa using hitem),
            List.cons_append]
        · have hother := hsplit d
          rw [Function.update_of_ne hd] at hother
          rw [hother, ofClass, ofClass,
            List.filter_cons_of_neg (by simpa using fun heq => hd (heq.symm.trans hitem))]
      · by_cases hd : d = c
        · subst hd
          simp [setHeap]
        · rw [setHeap_heap_of_ne hd]

/-! ### What every call keeps -/

/-- The scheduler agrees with the calls that led to it. -/
structure Tracks (log : WfqLog T) (scheduler : ShardedWfqScheduler T) : Prop where
  lastVft : ∀ c, (scheduler.shards c).lastVft c = log.lastVft c
  waits : ∃ waiting, (∀ c, ofClass c log.enqueued = ofClass c log.drained ++ waiting c) ∧
    Classed scheduler waiting
  bounded : ∀ x ∈ log.enqueued, x.virtualFinishTime ≤ log.lastVft x.priority
  once : log.enqueued.Perm (log.drained ++ scheduler.pending)
  single : ∃ one, WfqScheduler.Run log one ∧ one.heap.Perm scheduler.pending ∧
    ∀ c, one.lastVft c = log.lastVft c

theorem tracks_new : Tracks ([] : WfqLog T) new where
  lastVft _ := rfl
  waits := ⟨fun _ => [], fun _ => rfl, by simp, fun _ => .refl _, fun _ => .nil⟩
  bounded x hx := absurd hx List.not_mem_nil
  once := .refl _
  single := ⟨_, .new, .refl _, fun _ => rfl⟩

theorem Tracks.drain (h : Tracks log scheduler) (hdrain : Drain n scheduler items scheduler') :
    Tracks ((.drain n, items) :: log) scheduler' := by
  obtain ⟨waiting, hsplit, hclassed⟩ := h.waits
  obtain ⟨waiting', hsplit', hclassed', hlast⟩ := hclassed.drain hdrain
  have hone := hdrain.drains
  refine ⟨fun c => ?_, ⟨waiting', fun c => ?_, hclassed'⟩, h.bounded, ?_, ?_⟩
  · rw [hlast c]
    exact h.lastVft c
  · show ofClass c log.enqueued = ofClass c (log.drained ++ items) ++ waiting' c
    rw [hsplit c, hsplit' c, ofClass_append, List.append_assoc]
  · show log.enqueued.Perm ((log.drained ++ items) ++ scheduler'.pending)
    rw [List.append_assoc]
    exact h.once.trans (hone.perm.append_left _)
  · obtain ⟨one, hrun, hheap, hvft⟩ := h.single
    exact ⟨_, .drain hrun (hone.of_perm hheap), .refl _, hvft⟩

/-- The finish time of an item is later than the one before it in its class. -/
theorem lt_finishTime (last arrivalTime : ℚ) (c : Priority) :
    last < max last arrivalTime + 1 / c.weight := by
  have hweight : (0 : ℚ) < 1 / c.weight := by
    cases c <;> norm_num [Priority.weight]
  have hle := le_max_left last arrivalTime
  linarith

/-- A new item is the last of its class. -/
theorem Classed.enqueue {waiting : Priority → List (PriorityItem T)} {payload : T}
    {arrivalTime vft : ℚ} (h : Classed scheduler waiting)
    (hvft : vft = max ((scheduler.shards c).lastVft c) arrivalTime + 1 / c.weight)
    (hlate : ∀ x ∈ waiting c, x.virtualFinishTime < vft) :
    Classed (scheduler.enqueue payload c arrivalTime)
      (Function.update waiting c (waiting c ++ [⟨payload, vft, c⟩])) := by
  subst hvft
  refine ⟨fun d x hx => ?_, fun d => ?_, fun d => ?_⟩
  · by_cases hd : d = c
    · subst hd
      rw [Function.update_self, List.mem_append, List.mem_singleton] at hx
      rcases hx with hx | rfl
      · exact h.priority d x hx
      · rfl
    · rw [Function.update_of_ne hd] at hx
      exact h.priority d x hx
  · by_cases hd : d = c
    · subst hd
      rw [enqueue_shards_self, Function.update_self]
      exact ((h.heap d).cons _).trans (List.perm_append_singleton _ _).symm
    · rw [enqueue_shards_of_ne hd, Function.update_of_ne hd]
      exact h.heap d
  · by_cases hd : d = c
    · subst hd
      rw [Function.update_self, List.pairwise_append]
      refine ⟨h.increasing d, List.pairwise_singleton _ _, fun x hx y hy => ?_⟩
      rw [List.mem_singleton.mp hy]
      exact hlate x hx
    · rw [Function.update_of_ne hd]
      exact h.increasing d

theorem pending_enqueue (scheduler : ShardedWfqScheduler T) (payload : T) (c : Priority)
    (arrivalTime : ℚ) :
    (scheduler.enqueue payload c arrivalTime).pending.Perm
      (⟨payload, max ((scheduler.shards c).lastVft c) arrivalTime + 1 / c.weight, c⟩ ::
        scheduler.pending) := by
  apply pending_perm (c := c)
  · rw [enqueue_shards_self]
    exact .refl _
  · intro d hd
    rw [enqueue_shards_of_ne hd]

theorem Tracks.enqueue (h : Tracks log scheduler) (payload : T) (c : Priority)
    (arrivalTime : ℚ) : Tracks ((.enqueue payload c arrivalTime, []) :: log)
      (scheduler.enqueue payload c arrivalTime) := by
  obtain ⟨waiting, hsplit, hclassed⟩ := h.waits
  have hlt := lt_finishTime (WfqLog.lastVft c log) arrivalTime c
  have hvft : max (WfqLog.lastVft c log) arrivalTime + 1 / c.weight =
      max ((scheduler.shards c).lastVft c) arrivalTime + 1 / c.weight := by
    rw [h.lastVft c]
  have hlate : ∀ x ∈ waiting c, x.virtualFinishTime <
      max (WfqLog.lastVft c log) arrivalTime + 1 / c.weight := by
    intro x hx
    have hmem : x ∈ ofClass c log.enqueued := hsplit c ▸ List.mem_append_right _ hx
    obtain ⟨hmem, -⟩ := List.mem_filter.mp hmem
    have hle := h.bounded x hmem
    rw [hclassed.priority c x hx] at hle
    exact lt_of_le_of_lt hle hlt
  refine ⟨fun d => ?_, ⟨_, fun d => ?_, hclassed.enqueue hvft hlate⟩, fun x hx => ?_, ?_, ?_⟩
  · show _ = if c = d then _ else WfqLog.lastVft d log
    split_ifs with hd
    · subst hd
      rw [enqueue_shards_self, hvft]
      exact Function.update_self ..
    · rw [enqueue_shards_of_ne (Ne.symm hd)]
      exact h.lastVft d
  · show ofClass d (WfqLog.enqueued log ++ _) = ofClass d (WfqLog.drained log ++ []) ++ _
    rw [List.append_nil, ofClass_append, hsplit d]
    by_cases hd : d = c
    · subst hd
      rw [Function.update_self, List.append_assoc]
      simp [ofClass]
    · rw [Function.update_of_ne hd]
      simp [ofClass, Ne.symm hd]
  · show _ ≤ if c = x.priority then _ else WfqLog.lastVft x.priority log
    rcases List.mem_append.mp hx with hx | hx
    · have hle := h.bounded x hx
      split_ifs with hc
      · subst hc
        exact hle.trans hlt.le
      · exact hle
    · rw [List.mem_singleton.mp hx]
      exact (if_pos rfl).symm.le
  · show (WfqLog.enqueued log ++ _).Perm ((WfqLog.drained log ++ []) ++ _)
    have hpending := pending_enqueue scheduler payload c arrivalTime
    rw [← hvft] at hpending
    rw [List.append_nil]
    refine (List.perm_append_singleton _ _).trans ((h.once.cons _).trans ?_)
    exact List.perm_middle.symm.trans (hpending.symm.append_left _)
  · obtain ⟨one, hrun, hheap, hone⟩ := h.single
    refine ⟨_, .enqueue hrun payload c arrivalTime, ?_, fun d => ?_⟩
    · have hpending := pending_enqueue scheduler payload c arrivalTime
      rw [h.lastVft c, ← hone c] at hpending
      exact (hheap.cons _).trans hpending.symm
    · show Function.update one.lastVft c _ d = if c = d then _ else WfqLog.lastVft d log
      split_ifs with hd
      · subst hd
        rw [Function.update_self, hone c]
      · rw [Function.update_of_ne (Ne.symm hd), hone d]

theorem Run.tracks (h : Run log scheduler) : Tracks log scheduler := by
  induction h with
  | new => exact tracks_new
  | enqueue _ payload c arrivalTime ih => exact ih.enqueue payload c arrivalTime
  | drain _ drain ih => exact ih.drain drain

/-- **One scheduler drains the same finish times** however it chooses among equal ones. -/
theorem WfqScheduler.Run.ties {log' : WfqLog T} {one one' : WfqScheduler T}
    (h : WfqScheduler.Run log one) (h' : WfqScheduler.Run log' one')
    (hcalls : log'.map Prod.fst = log.map Prod.fst) :
    (log'.map fun e => e.2.map (·.virtualFinishTime)) =
        (log.map fun e => e.2.map (·.virtualFinishTime)) ∧
      (one'.heap.map (·.virtualFinishTime)).Perm (one.heap.map (·.virtualFinishTime)) ∧
      one'.lastVft = one.lastVft := by
  induction h generalizing log' one' with
  | new =>
      cases h' with
      | new => exact ⟨rfl, .refl _, rfl⟩
      | _ => simp at hcalls
  | enqueue _ payload c arrivalTime ih =>
      cases h' with
      | enqueue run' payload' c' arrivalTime' =>
          obtain ⟨hcall, htail⟩ := List.cons.inj hcalls
          cases hcall
          obtain ⟨hlogs, hheap, hlast⟩ := ih run' htail
          refine ⟨congrArg (_ :: ·) hlogs, ?_, ?_⟩
          · simp only [WfqScheduler.enqueue, List.map_cons, hlast]
            exact hheap.cons _
          · simp only [WfqScheduler.enqueue, hlast]
      | _ => simp at hcalls
  | drain _ drains ih =>
      cases h' with
      | drain run' drains' =>
          obtain ⟨hcall, htail⟩ := List.cons.inj hcalls
          cases hcall
          obtain ⟨hlogs, hheap, hlast⟩ := ih run' htail
          obtain ⟨hitems, hrest⟩ := drains'.map_eq drains hheap
          refine ⟨?_, hrest, hlast⟩
          rw [List.map_cons, List.map_cons, hlogs]
          exact congrArg (· :: _) hitems
      | _ => simp at hcalls

/-- **The sharded scheduler drains every item once, each class in its order, and always a
least item of all that are pending**, as one scheduler would that holds all of them. -/
theorem sharded_lawful (h : Run log scheduler) : Lawful log scheduler := by
  have htracks := h.tracks
  obtain ⟨waiting, hsplit, -⟩ := htracks.waits
  obtain ⟨one, hone, hheap, -⟩ := htracks.single
  exact {
    once := htracks.once
    fifo := fun c => hsplit c ▸ List.prefix_append _ _
    answers := fun max => exists_drain max scheduler
    count := fun _ _ _ hdrain => hdrain.drains.length_eq
    sorted := fun _ _ _ hdrain => hdrain.drains.sorted
    least := fun _ _ _ hdrain _ _ _ hitems => hdrain.drains.least hitems
    single := ⟨one, hone, hheap⟩
    ties := fun _ _ h' hcalls => (WfqScheduler.Run.ties hone h' hcalls).1 }

/-- A digest and an alert are enqueued. -/
def enqueuedBoth : ShardedWfqScheduler String :=
  (new.enqueue "digest" .batch 0).enqueue "alert" .urgent 0

/-- The alert leaves first. -/
theorem sharded_lawful_alert :
    Lawful [(.drain 1, [⟨"alert", 1 / 8, .urgent⟩]), (.enqueue "alert" .urgent 0, []),
      (.enqueue "digest" .batch 0, [])] (enqueuedBoth.setHeap .urgent []) := by
  have hbest : enqueuedBoth.best = some .urgent := by decide +kernel
  have hdequeues : (enqueuedBoth.shards .urgent).Dequeues ⟨"alert", 1 / 8, .urgent⟩ [] := by
    have hshard : enqueuedBoth.shards .urgent = WfqScheduler.new.enqueue "alert" .urgent 0 := by
      rw [enqueuedBoth, enqueue_shards_self, enqueue_shards_of_ne (by decide)]
      rfl
    have hheap : (enqueuedBoth.shards .urgent).heap = [⟨"alert", 1 / 8, .urgent⟩] := by
      rw [hshard]
      norm_num [WfqScheduler.enqueue, WfqScheduler.new, Priority.weight]
    rw [WfqScheduler.Dequeues, hheap]
    exact ⟨.refl _, by simp⟩
  exact sharded_lawful (.drain (.enqueue (.enqueue .new _ _ _) _ _ _)
    (.pop hbest hdequeues (.done _)))

end ShardedWfqScheduler

end ClawDesk.Bus
