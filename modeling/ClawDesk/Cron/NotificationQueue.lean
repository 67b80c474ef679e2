import ClawDesk.Foundations.TokenBucket
import Mathlib.Algebra.Order.Field.Rat
import Mathlib.Data.List.Sort
import Mathlib.Tactic.Ring

/-!
# The notification queue

Notifications above a threshold wait in a heap until they are dequeued, the others in
a batch until it is drained.  A token bucket stands before the heap.

Nothing is delivered twice, nothing is lost, and the batch keeps its order
(`queue_lawful`).  The bucket holds the budget of one hour and is refilled by as much
in an hour, so an hour sees up to twice the budget (`twice_the_budget`), and never
more.

Numbers are rational.  Times are readings of a clock in seconds, which does not go
back.
-/

namespace ClawDesk.Cron

open Foundations

/-! ### Notifications -/

/-- Delivery channel preference. -/
inductive DeliveryChannel where
  | desktop
  | mobile
  | whatsApp
  | telegram
  | email
  | voice
  deriving DecidableEq

/-- A notification with computed priority for the queue. -/
structure PrioritizedNotification where
  typeId : String
  typeName : String
  title : String
  body : String
  priority : ℚ
  urgency : ℚ
  relevance : ℚ
  ageSecs : ℕ
  immediate : Bool
  channel : DeliveryChannel
  createdAt : ℕ
  deriving DecidableEq

/-- Priority queue configuration. -/
structure PriorityQueueConfig where
  wUrgency : ℚ
  wRelevance : ℚ
  wAge : ℚ
  ageTau : ℚ
  pushThreshold : ℚ
  maxPerHour : ℕ

/-! ### The token bucket -/

/-- Token bucket for rate limiting notifications. -/
structure TokenBucket where
  tokens : ℚ
  capacity : ℚ
  refillRate : ℚ
  lastRefill : ℚ

namespace TokenBucket

def new (maxPerHour : ℕ) (now : ℚ) : TokenBucket where
  tokens := maxPerHour
  capacity := maxPerHour
  refillRate := maxPerHour / 3600
  lastRefill := now

/-- Refill tokens based on elapsed time.  The clock is read twice. -/
def refill (bucket : TokenBucket) (read now : ℚ) : TokenBucket :=
  let elapsed := max (read - bucket.lastRefill) 0
  { bucket with
    tokens := min (bucket.tokens + elapsed * bucket.refillRate) bucket.capacity
    lastRefill := now }

/-- Try to consume a token.  Returns true if allowed. -/
def tryConsume (bucket : TokenBucket) (read now : ℚ) : Bool × TokenBucket :=
  let bucket := bucket.refill read now
  if 1 ≤ bucket.tokens then (true, { bucket with tokens := bucket.tokens - 1 })
  else (false, bucket)

end TokenBucket

/-! ### The queue -/

/-- The notification priority queue.  The heap is given by its elements. -/
structure NotificationQueue where
  config : PriorityQueueConfig
  heap : List PrioritizedNotification
  batch : List PrioritizedNotification
  throttle : TokenBucket

/-- `BinaryHeap::pop` returns a greatest element and leaves the others. -/
def Pops (heap : List PrioritizedNotification) :
    Option PrioritizedNotification → List PrioritizedNotification → Prop
  | none, rest => heap = [] ∧ rest = []
  | some n, rest => heap.Perm (n :: rest) ∧ ∀ m ∈ heap, m.priority ≤ n.priority

namespace NotificationQueue

def new (config : PriorityQueueConfig) (now : ℚ) : NotificationQueue where
  config := config
  heap := []
  batch := []
  throttle := .new config.maxPerHour now

/-- Compute priority for a notification:
`p(n) = w_urgency × u(n) + w_relevance × r(n) + w_age × age(n)/τ`. -/
def computePriority (config : PriorityQueueConfig) (urgency relevance : ℚ) (ageSecs : ℕ) : ℚ :=
  config.wUrgency * urgency + config.wRelevance * relevance +
    config.wAge * (ageSecs / config.ageTau)

/-- The notification as it is queued. -/
def prioritized (config : PriorityQueueConfig) (notification : PrioritizedNotification) :
    PrioritizedNotification :=
  let priority := computePriority config notification.urgency notification.relevance
    notification.ageSecs
  { notification with
    priority := priority
    immediate := decide (config.pushThreshold < priority) }

/-- Enqueue a notification. -/
def enqueue (queue : NotificationQueue) (notification : PrioritizedNotification) :
    NotificationQueue :=
  let notification := prioritized queue.config notification
  if notification.immediate = true then { queue with heap := notification :: queue.heap }
  else { queue with batch := queue.batch ++ [notification] }

/-- The batch as it is delivered. -/
def digest (batch : List PrioritizedNotification) : List PrioritizedNotification :=
  batch.mergeSort fun a b => b.priority ≤ a.priority

/-- Get all batched notifications for digest delivery. -/
def drainBatch (queue : NotificationQueue) : List PrioritizedNotification × NotificationQueue :=
  (digest queue.batch, { queue with batch := [] })

end NotificationQueue

/-! ### Runs -/

/-- A call, with the readings of the clock and what it returns. -/
inductive QueueCall where
  | enqueue (notification : PrioritizedNotification)
  | dequeue (read now : ℚ) (delivered : Option PrioritizedNotification)
  | drainBatch (delivered : List PrioritizedNotification)

namespace NotificationQueue

/-- One call.  `dequeue` asks the throttle first. -/
inductive Step : NotificationQueue → QueueCall → NotificationQueue → Prop
  | enqueue (queue : NotificationQueue) (notification : PrioritizedNotification) :
      Step queue (.enqueue notification) (queue.enqueue notification)
  | throttled {queue : NotificationQueue} {read now : ℚ} {throttle : TokenBucket}
      (past : queue.throttle.lastRefill ≤ read) (between : read ≤ now)
      (refused : queue.throttle.tryConsume read now = (false, throttle)) :
      Step queue (.dequeue read now none) { queue with throttle := throttle }
  | dequeue {queue : NotificationQueue} {read now : ℚ} {throttle : TokenBucket}
      {delivered : Option PrioritizedNotification} {rest : List PrioritizedNotification}
      (past : queue.throttle.lastRefill ≤ read) (between : read ≤ now)
      (allowed : queue.throttle.tryConsume read now = (true, throttle))
      (pops : Pops queue.heap delivered rest) :
      Step queue (.dequeue read now delivered) { queue with heap := rest, throttle := throttle }
  | drainBatch (queue : NotificationQueue) :
      Step queue (.drainBatch queue.drainBatch.1) queue.drainBatch.2

/-- The calls on a new queue, the last one first, and the queue they lead to. -/
inductive Run (config : PriorityQueueConfig) (start : ℚ) : List QueueCall → NotificationQueue → Prop
  | new : Run config start [] (new config start)
  | step {calls : List QueueCall} {queue queue' : NotificationQueue} {call : QueueCall}
      (run : Run config start calls queue) (step : Step queue call queue') :
      Run config start (call :: calls) queue'

/-- What was enqueued. -/
def accepted (config : PriorityQueueConfig) : List QueueCall → List PrioritizedNotification
  | [] => []
  | .enqueue n :: calls => prioritized config n :: accepted config calls
  | _ :: calls => accepted config calls

/-- What was delivered. -/
def delivered : List QueueCall → List PrioritizedNotification
  | [] => []
  | .dequeue _ _ (some n) :: calls => n :: delivered calls
  | .drainBatch ns :: calls => ns ++ delivered calls
  | _ :: calls => delivered calls

/-- What waits for the digest, in the order in which it was enqueued. -/
def waiting (config : PriorityQueueConfig) : List QueueCall → List PrioritizedNotification
  | [] => []
  | .enqueue n :: calls =>
      if (prioritized config n).immediate = true then waiting config calls
      else waiting config calls ++ [prioritized config n]
  | .drainBatch _ :: _ => []
  | .dequeue _ _ _ :: calls => waiting config calls

/-- The times at which `dequeue` released a notification. -/
def releases : List QueueCall → List ℚ
  | [] => []
  | .dequeue _ now (some _) :: calls => now :: releases calls
  | _ :: calls => releases calls

/-- The number of notifications that `dequeue` released in an interval. -/
def released (calls : List QueueCall) (s t : ℚ) : ℕ :=
  (releases calls).countP fun u => s ≤ u ∧ u ≤ t

/-- What a call delivers from the queue that it finds. -/
def InOrder (queue : NotificationQueue) : QueueCall → Prop
  | .dequeue _ _ (some n) => n ∈ queue.heap ∧ ∀ m ∈ queue.heap, m.priority ≤ n.priority
  | .drainBatch ns => ns.Perm queue.batch ∧ ns.Pairwise (fun a b => b.priority ≤ a.priority) ∧
      ∀ p, (ns.filter fun n => n.priority = p) = queue.batch.filter fun n => n.priority = p
  | _ => True

/-- What holds of a queue after some calls. -/
structure Lawful (config : PriorityQueueConfig) (calls : List QueueCall)
    (queue : NotificationQueue) : Prop where
  /-- Everything is delivered once or still queued. -/
  once : (accepted config calls).Perm (delivered calls ++ (queue.heap ++ queue.batch))
  batch : queue.batch = waiting config calls
  next : ∀ call queue', Step queue call queue' → InOrder queue call
  bounded : ∀ s t, s ≤ t →
    (released calls s t : ℚ) ≤ config.maxPerHour * (1 + (t - s) / 3600)

end NotificationQueue

/-! ### The throttle -/

namespace TokenBucket

variable {bucket bucket' : TokenBucket} {spent : List ℚ} {read now : ℚ} {allowed : Bool}

/-- The tokens account for what was spent. -/
def Accounts (bucket : TokenBucket) (spent : List ℚ) : Prop :=
  Metered bucket.refillRate bucket.capacity spent bucket.lastRefill bucket.tokens

theorem accounts_new (maxPerHour : ℕ) (now : ℚ) : (new maxPerHour now).Accounts [] :=
  metered_nil (div_nonneg (Nat.cast_nonneg _) (by norm_num)) (Nat.cast_nonneg _) le_rfl _

/-- The refill of the time that passed. -/
theorem Accounts.refill (h : bucket.Accounts spent) (past : bucket.lastRefill ≤ read)
    (between : read ≤ now) :
    (bucket.refill read now).Accounts spent ∧ (bucket.refill read now).tokens ≤
      bucket.tokens + bucket.refillRate * (now - bucket.lastRefill) := by
  have helapsed : max (read - bucket.lastRefill) 0 ≤ now - bucket.lastRefill :=
    max_le (by linarith) (by linarith)
  have hrefill := mul_le_mul_of_nonneg_right helapsed h.rate_nonneg
  have hearned := mul_nonneg (le_max_right (read - bucket.lastRefill) 0) h.rate_nonneg
  have hnonneg := h.level_nonneg
  have hlevel : (bucket.refill read now).tokens ≤
      bucket.tokens + bucket.refillRate * (now - bucket.lastRefill) := by
    refine (min_le_left _ _).trans ?_
    linarith
  refine ⟨h.wait (past.trans between) ?_ (min_le_right _ _) hlevel, hlevel⟩
  exact le_min (by linarith) (hnonneg.trans h.level_le)

theorem tryConsume_config (h : bucket.tryConsume read now = (allowed, bucket')) :
    bucket'.capacity = bucket.capacity ∧ bucket'.refillRate = bucket.refillRate := by
  unfold tryConsume at h
  dsimp only at h
  split_ifs at h <;> obtain ⟨-, rfl⟩ := Prod.mk.inj h <;> exact ⟨rfl, rfl⟩

/-- A token that is allowed is accounted for. -/
theorem Accounts.spend (h : bucket.Accounts spent) (past : bucket.lastRefill ≤ read)
    (between : read ≤ now) (allowed : bucket.tryConsume read now = (true, bucket')) :
    bucket'.Accounts (now :: spent) := by
  obtain ⟨hrefilled, hlevel⟩ := h.refill past between
  unfold tryConsume at allowed
  dsimp only at allowed
  split_ifs at allowed with hone
  · obtain ⟨-, rfl⟩ := Prod.mk.inj allowed
    refine Metered.spend h (past.trans between) (sub_nonneg.mpr hone) ?_ ?_
    · show (bucket.refill read now).tokens - 1 + 1 ≤ bucket.capacity
      rw [sub_add_cancel]
      exact hrefilled.level_le
    · show (bucket.refill read now).tokens - 1 + 1 ≤ _
      rw [sub_add_cancel]
      exact hlevel
  · cases allowed

/-- Whether or not there is a token, there are no more of them than before. -/
theorem Accounts.wait (h : bucket.Accounts spent) (past : bucket.lastRefill ≤ read)
    (between : read ≤ now) (heq : bucket.tryConsume read now = (allowed, bucket')) :
    bucket'.Accounts spent := by
  obtain ⟨hrefilled, hlevel⟩ := h.refill past between
  unfold tryConsume at heq
  dsimp only at heq
  split_ifs at heq with hone
  · obtain ⟨-, rfl⟩ := Prod.mk.inj heq
    have hle := hrefilled.level_le
    refine Metered.wait hrefilled le_rfl (sub_nonneg.mpr hone) ?_ ?_
    · show (bucket.refill read now).tokens - 1 ≤ (bucket.refill read now).capacity
      linarith
    · show (bucket.refill read now).tokens - 1 ≤ _
      rw [sub_self, mul_zero]
      linarith
  · obtain ⟨-, rfl⟩ := Prod.mk.inj heq
    exact hrefilled

end TokenBucket

/-! ### What every call keeps -/

namespace NotificationQueue

variable {config : PriorityQueueConfig} {start : ℚ} {calls : List QueueCall}
  {queue queue' : NotificationQueue} {call : QueueCall}

/-- The queue agrees with the calls that led to it. -/
structure Tracks (config : PriorityQueueConfig) (calls : List QueueCall)
    (queue : NotificationQueue) : Prop where
  sameConfig : queue.config = config
  once : (accepted config calls).Perm (delivered calls ++ (queue.heap ++ queue.batch))
  batch : queue.batch = waiting config calls
  capacity : queue.throttle.capacity = config.maxPerHour
  refillRate : queue.throttle.refillRate = config.maxPerHour / 3600
  accounts : queue.throttle.Accounts (releases calls)

theorem tracks_new (config : PriorityQueueConfig) (start : ℚ) :
    Tracks config [] (new config start) :=
  ⟨rfl, .refl _, rfl, rfl, rfl, TokenBucket.accounts_new _ _⟩

theorem Tracks.enqueue (h : Tracks config calls queue) (n : PrioritizedNotification) :
    Tracks config (.enqueue n :: calls) (queue.enqueue n) := by
  unfold NotificationQueue.enqueue
  dsimp only
  obtain rfl := h.sameConfig
  split_ifs with himmediate
  · refine ⟨h.sameConfig, ?_, ?_, h.capacity, h.refillRate, h.accounts⟩
    · exact (h.once.cons _).trans List.perm_middle.symm
    · show queue.batch = if _ then _ else _
      rw [if_pos himmediate]
      exact h.batch
  · refine ⟨h.sameConfig, ?_, ?_, h.capacity, h.refillRate, h.accounts⟩
    · show (prioritized queue.config n :: accepted queue.config calls).Perm
        (delivered calls ++ (queue.heap ++ (queue.batch ++ [prioritized queue.config n])))
      rw [← List.append_assoc queue.heap, ← List.append_assoc (delivered calls)]
      exact (h.once.cons _).trans (List.perm_append_singleton _ _).symm
    · show queue.batch ++ _ = if _ then _ else _
      rw [if_neg himmediate, h.batch]

/-- **One call** keeps what is owed and what was spent. -/
theorem Tracks.step (h : Tracks config calls queue) (step : Step queue call queue') :
    Tracks config (call :: calls) queue' := by
  cases step with
  | enqueue n => exact h.enqueue n
  | throttled past between refused =>
      obtain ⟨hcapacity, hrate⟩ := TokenBucket.tryConsume_config refused
      exact ⟨h.sameConfig, h.once, h.batch, hcapacity.trans h.capacity, hrate.trans h.refillRate,
        h.accounts.wait past between refused⟩
  | @dequeue read now throttle n rest past between allowed pops =>
      obtain ⟨hcapacity, hrate⟩ := TokenBucket.tryConsume_config allowed
      cases n with
      | none =>
          obtain ⟨hheap, rfl⟩ := pops
          have honce := h.once
          rw [hheap] at honce
          exact ⟨h.sameConfig, honce, h.batch, hcapacity.trans h.capacity, hrate.trans h.refillRate,
            h.accounts.wait past between allowed⟩
      | some n =>
          refine ⟨h.sameConfig, ?_, h.batch, hcapacity.trans h.capacity, hrate.trans h.refillRate,
            h.accounts.spend past between allowed⟩
          -- the notification goes from the heap to what was delivered
          refine h.once.trans ?_
          refine ((pops.1.append_right queue.batch).append_left (delivered calls)).trans ?_
          exact List.perm_middle
  | drainBatch =>
      refine ⟨h.sameConfig, ?_, rfl, h.capacity, h.refillRate, h.accounts⟩
      show (accepted config calls).Perm
        (digest queue.batch ++ delivered calls ++ (queue.heap ++ []))
      rw [List.append_nil, List.append_assoc]
      refine h.once.trans ?_
      rw [← List.append_assoc]
      exact List.perm_append_comm.trans
        ((List.mergeSort_perm queue.batch _).symm.append_right _)

theorem tracks_run (run : Run config start calls queue) : Tracks config calls queue := by
  induction run with
  | new => exact tracks_new config start
  | step _ step ih => exact ih.step step

/-- The digest is sorted, and keeps the order of equal priorities. -/
theorem digest_inOrder (batch : List PrioritizedNotification) :
    (digest batch).Perm batch ∧ (digest batch).Pairwise (fun a b => b.priority ≤ a.priority) ∧
      ∀ p, ((digest batch).filter fun n => n.priority = p) =
        batch.filter fun n => n.priority = p := by
  have hperm : (digest batch).Perm batch := List.mergeSort_perm ..
  have htrans (a b c : PrioritizedNotification) (hab : decide (b.priority ≤ a.priority) = true)
      (hbc : decide (c.priority ≤ b.priority) = true) : decide (c.priority ≤ a.priority) = true :=
    decide_eq_true ((of_decide_eq_true hbc).trans (of_decide_eq_true hab))
  have htotal (a b : PrioritizedNotification) :
      (decide (b.priority ≤ a.priority) || decide (a.priority ≤ b.priority)) = true := by
    rcases le_total b.priority a.priority with h | h <;> simp [h]
  refine ⟨hperm, ?_, fun p => ?_⟩
  · exact (List.pairwise_mergeSort htrans htotal batch).imp of_decide_eq_true
  · -- equal priorities are a sorted sublist, which sorting keeps
    have hequal : (batch.filter fun n => n.priority = p).Pairwise
        fun a b => decide (b.priority ≤ a.priority) = true := by
      refine List.pairwise_of_forall_mem_list ?_
      intro a ha b hb
      simp only [List.mem_filter, decide_eq_true_eq] at ha hb
      exact decide_eq_true (by rw [ha.2, hb.2])
    have hsublist := List.sublist_mergeSort htrans htotal hequal List.filter_sublist
    have hfiltered := hsublist.filter fun n => decide (n.priority = p)
    simp only [List.filter_filter, Bool.and_self] at hfiltered
    exact (hfiltered.eq_of_length (hperm.filter _).length_eq.symm).symm

theorem inOrder_of_step (step : Step queue call queue') : InOrder queue call := by
  cases step with
  | enqueue | throttled => trivial
  | @dequeue _ _ _ n _ _ _ _ pops =>
      cases n with
      | none => trivial
      | some n => exact ⟨pops.1.mem_iff.mpr List.mem_cons_self, pops.2⟩
  | drainBatch => exact digest_inOrder queue.batch

/-! ### A budget of two an hour -/

/-- Everything is immediate. -/
def twoPerHour : PriorityQueueConfig where
  wUrgency := 1
  wRelevance := 0
  wAge := 0
  ageTau := 3600
  pushThreshold := 0
  maxPerHour := 2

def urgent : PrioritizedNotification where
  typeId := "urgent"
  typeName := "Urgent"
  title := "Alert"
  body := "Something important"
  priority := 0
  urgency := 1
  relevance := 0
  ageSecs := 0
  immediate := false
  channel := .desktop
  createdAt := 0

/-- The queue after a `dequeue` that is allowed. -/
theorem Run.dequeue {read now : ℚ} {n : Option PrioritizedNotification}
    {rest : List PrioritizedNotification} (run : Run config start calls queue)
    (past : queue.throttle.lastRefill ≤ read) (between : read ≤ now)
    (allowed : (queue.throttle.tryConsume read now).1 = true) (pops : Pops queue.heap n rest) :
    Run config start (.dequeue read now n :: calls)
      { queue with heap := rest, throttle := (queue.throttle.tryConsume read now).2 } :=
  run.step (.dequeue past between (Prod.ext allowed rfl) pops)

/-- The queue after an `enqueue` of an immediate notification. -/
theorem Run.enqueue {n : PrioritizedNotification} (run : Run config start calls queue)
    (himmediate : (prioritized queue.config n).immediate = true) :
    Run config start (.enqueue n :: calls)
      { queue with heap := prioritized queue.config n :: queue.heap } := by
  have hstep := run.step (.enqueue queue n)
  unfold NotificationQueue.enqueue at hstep
  dsimp only at hstep
  rw [if_pos himmediate] at hstep
  exact hstep

theorem immediate_urgent : (prioritized twoPerHour urgent).immediate = true := by decide +kernel

/-- **A notification is delivered once and waits in order until then, and an hour sees at
most twice the budget.** -/
theorem queue_lawful (run : Run config start calls queue) : Lawful config calls queue := by
  have h := tracks_run run
  refine ⟨h.once, h.batch, fun _ _ => inOrder_of_step, fun s t hst => ?_⟩
  have hwithin := h.accounts.within s t hst
  rw [h.capacity, h.refillRate] at hwithin
  refine hwithin.trans (le_of_eq ?_)
  ring

/-- One notification, and its delivery. -/
theorem queue_lawful_urgent : ∃ queue, Lawful twoPerHour
    [.dequeue 1 2 (some (prioritized twoPerHour urgent)), .enqueue urgent] queue := by
  have hqueued : Run twoPerHour 0 [.enqueue urgent] _ := Run.new.enqueue immediate_urgent
  have hpops : Pops [prioritized twoPerHour urgent] (some (prioritized twoPerHour urgent)) [] :=
    ⟨.refl _, by simp⟩
  exact ⟨_, queue_lawful (hqueued.dequeue (by decide +kernel) (by decide +kernel)
    (by decide +kernel) hpops)⟩

/-- **Two notifications are released at once and a third one half an hour later**, and a
`dequeue` of the empty queue takes a token of the budget. -/
theorem twice_the_budget :
    (∃ calls queue, Run twoPerHour 0 calls queue ∧ twoPerHour.maxPerHour < released calls 0 3600) ∧
    ∃ queue', Step (new twoPerHour 0) (.dequeue 0 0 none) queue' ∧
      (new twoPerHour 0).heap = [] ∧
      queue'.throttle.tokens < ((new twoPerHour 0).throttle.refill 0 0).tokens := by
  have hpops (rest : List PrioritizedNotification)
      (h : ∀ m ∈ rest, m = prioritized twoPerHour urgent) :
      Pops (prioritized twoPerHour urgent :: rest) (some (prioritized twoPerHour urgent)) rest := by
    refine ⟨.refl _, fun m hm => ?_⟩
    rcases List.mem_cons.mp hm with rfl | hm
    · exact le_rfl
    · rw [h m hm]
  have hqueued : Run twoPerHour 0 [.enqueue urgent, .enqueue urgent, .enqueue urgent]
      { new twoPerHour 0 with heap := List.replicate 3 (prioritized twoPerHour urgent) } :=
    ((Run.new.enqueue immediate_urgent).enqueue immediate_urgent).enqueue immediate_urgent
  have hfirst : Run twoPerHour 0 (.dequeue 0 0 _ :: _) _ := hqueued.dequeue
    (by decide +kernel) le_rfl (by decide +kernel) (hpops _ fun _ => List.eq_of_mem_replicate)
  have hsecond : Run twoPerHour 0 (.dequeue 0 0 _ :: _) _ := hfirst.dequeue
    (by decide +kernel) le_rfl (by decide +kernel) (hpops _ fun _ => List.eq_of_mem_replicate)
  have hthird : Run twoPerHour 0 (.dequeue 1800 1800 _ :: _) _ := hsecond.dequeue
    (by decide +kernel) le_rfl (by decide +kernel) (hpops _ fun _ => List.eq_of_mem_replicate)
  have hempty : Pops (new twoPerHour 0).heap none [] := ⟨rfl, rfl⟩
  have hallowed : (new twoPerHour 0).throttle.tryConsume 0 0 =
      (true, ((new twoPerHour 0).throttle.tryConsume 0 0).2) := Prod.ext (by decide +kernel) rfl
  refine ⟨⟨_, _, hthird, by decide +kernel⟩, _, .dequeue le_rfl le_rfl hallowed hempty, rfl, ?_⟩
  decide +kernel

end NotificationQueue

end ClawDesk.Cron
