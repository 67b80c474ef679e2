import ClawDesk.Foundations.Fold
import Mathlib.Algebra.Order.Field.Rat
import Mathlib.Data.List.AList
import Mathlib.Tactic.NormNum

/-!
# Backpressure

Every subscriber has a bounded channel, counters and a signal level that says how full its channel
is.  The manager keeps the worst of the levels in a cache.

What is pending for a subscriber is what has been delivered to it and not been marked as consumed.
A delivery computes it anew from two counters, of which the one for consumption is never counted
up; and only one of the three operations that change a level brings the cache up to date.  So the
figures stay right exactly when nothing is delivered in this way after a mark, and the other two
leave the worst level as it is (`figures_right_iff`).

Fill ratios are rational, and counters do not wrap around.
-/

namespace ClawDesk.Bus

open Foundations

/-! ### Signal levels -/

/-- Tri-state backpressure signal. -/
inductive SignalLevel where
  | green
  | yellow
  | red
  deriving DecidableEq

namespace SignalLevel

def asU8 : SignalLevel → ℕ
  | green => 0
  | yellow => 1
  | red => 2

instance : LinearOrder SignalLevel :=
  LinearOrder.lift' asU8 fun a b h => by cases a <;> cases b <;> first | rfl | cases h

theorem green_le (level : SignalLevel) : green ≤ level := Nat.zero_le (asU8 level)

/-- The level for a fill ratio. -/
def ofFill (pending capacity : ℕ) : SignalLevel :=
  let ratio : ℚ := if capacity = 0 then 1 else pending / capacity
  if 4 / 5 < ratio then red else if 1 / 2 < ratio then yellow else green

theorem ofFill_zero {capacity : ℕ} (hcapacity : 0 < capacity) : ofFill 0 capacity = green := by
  rw [ofFill, if_neg hcapacity.ne', Nat.cast_zero, zero_div]
  norm_num

end SignalLevel

/-! ### Subscribers -/

/-- Overflow strategy when a subscriber's channel is full. -/
inductive OverflowStrategy where
  | dropNewest
  | dropOldest
  | block

/-- Configuration for a subscriber channel. -/
structure SubscriberConfig where
  capacity : ℕ
  overflow : OverflowStrategy

/-- Per-subscriber delivery metrics. -/
structure SubscriberMetrics where
  delivered : ℕ
  dropped : ℕ
  pending : ℕ
  consumed : ℕ

/-- A registered subscriber, with what is in its channel. -/
structure RegisteredSubscriber where
  queue : List (List UInt8)
  closed : Bool
  metrics : SubscriberMetrics
  signal : SignalLevel
  config : SubscriberConfig

inductive TrySendError where
  | full
  | closed

namespace RegisteredSubscriber

def new (config : SubscriberConfig) : RegisteredSubscriber :=
  ⟨[], false, ⟨0, 0, 0, 0⟩, .green, config⟩

/-- `mpsc::Sender::try_send`. -/
def trySend (sub : RegisteredSubscriber) (event : List UInt8) :
    Except TrySendError RegisteredSubscriber :=
  if sub.closed then .error .closed
  else if sub.config.capacity ≤ sub.queue.length then .error .full
  else .ok { sub with queue := sub.queue ++ [event] }

/-- `signal.update`, with the pending count of the metrics. -/
def updateSignal (sub : RegisteredSubscriber) : RegisteredSubscriber :=
  { sub with signal := .ofFill sub.metrics.pending sub.config.capacity }

/-- One more event has been dropped. -/
def drop (sub : RegisteredSubscriber) : RegisteredSubscriber :=
  { sub with metrics := { sub.metrics with dropped := sub.metrics.dropped + 1 } }

end RegisteredSubscriber

abbrev Subscribers := AList fun _ : String => RegisteredSubscriber

/-- The worst level; green if there are no subscribers. -/
def worst (subs : Subscribers) : SignalLevel := (subs.entries.map (·.2.signal)).foldr max .green

theorem foldr_max_le_iff {levels : List SignalLevel} {level : SignalLevel} :
    levels.foldr max .green ≤ level ↔ ∀ l ∈ levels, l ≤ level := by
  induction levels with
  | nil => exact iff_of_true (SignalLevel.green_le level) fun l hl => nomatch hl
  | cons first rest ih => rw [List.foldr_cons, max_le_iff, ih, List.forall_mem_cons]

theorem worst_le_iff {subs : Subscribers} {level : SignalLevel} :
    worst subs ≤ level ↔ ∀ id sub, subs.lookup id = some sub → sub.signal ≤ level := by
  rw [worst, foldr_max_le_iff, List.forall_mem_map]
  constructor
  · intro h id sub hsub
    exact h ⟨id, sub⟩ (AList.mem_lookup_iff.mp hsub)
  · rintro h ⟨id, sub⟩ hmem
    exact h id sub (AList.mem_lookup_iff.mpr hmem)

section Lookup

variable {subs : Subscribers} {id : String} {sub : RegisteredSubscriber}

/-- All subscribers are one of them and the others. -/
theorem forall_lookup_iff {P : String → RegisteredSubscriber → Prop}
    (hsub : subs.lookup id = some sub) :
    (∀ other sub', subs.lookup other = some sub' → P other sub') ↔
      P id sub ∧ ∀ other, other ≠ id → ∀ sub', subs.lookup other = some sub' → P other sub' := by
  constructor
  · intro h
    exact ⟨h id sub hsub, fun other _ => h other⟩
  · rintro ⟨hown, hothers⟩ other sub' hsub'
    rcases eq_or_ne other id with rfl | hne
    · obtain rfl := Option.some.inj (hsub.symm.trans hsub')
      exact hown
    · exact hothers other hne sub' hsub'

/-- The worst level, with the level of one subscriber apart. -/
theorem worst_of_lookup (hsub : subs.lookup id = some sub) :
    worst subs = max sub.signal (worst (subs.erase id)) := by
  refine eq_of_forall_ge_iff fun level => ?_
  rw [max_le_iff, worst_le_iff, worst_le_iff, forall_lookup_iff hsub]
  refine and_congr_right fun _ => forall_congr' fun other => ?_
  rcases eq_or_ne other id with rfl | hne
  · simp
  · simp only [ne_eq, hne, not_false_eq_true, forall_true_left, AList.lookup_erase_ne hne]

/-- The worst level once a subscriber is put in. -/
theorem worst_insert : worst (subs.insert id sub) = max sub.signal (worst (subs.erase id)) := by
  have herase : (subs.insert id sub).erase id = subs.erase id :=
    AList.ext (List.kerase_cons_eq rfl)
  rw [worst_of_lookup (AList.lookup_insert subs), herase]

end Lookup

/-! ### The manager -/

/-- Manages per-subscriber backpressure channels. -/
structure BackpressureManager where
  subscribers : Subscribers
  cachedWorst : SignalLevel

namespace BackpressureManager

def new : BackpressureManager := ⟨∅, .green⟩

def setSub (m : BackpressureManager) (id : String) (sub : RegisteredSubscriber) :
    BackpressureManager :=
  { m with subscribers := m.subscribers.insert id sub }

/-- Recompute the worst signal from all subscribers. -/
def recomputeWorst (m : BackpressureManager) : BackpressureManager :=
  { m with cachedWorst := worst m.subscribers }

/-- Register a new subscriber.  A channel without room is refused by a panic. -/
def register (m : BackpressureManager) (id : String) (config : SubscriberConfig) :
    Option BackpressureManager :=
  if config.capacity = 0 then none else some (m.setSub id (.new config))

/-- Deliver an event to a specific subscriber, unless its channel is full. -/
def tryDeliver (m : BackpressureManager) (id : String) (event : List UInt8) :
    Bool × BackpressureManager :=
  match m.subscribers.lookup id with
  | none => (false, m)
  | some sub =>
      match sub.trySend event with
      | .ok sub =>
          let delivered := sub.metrics.delivered + 1
          -- the actual pending count, from the two counters
          let actualPending := delivered - sub.metrics.consumed
          let metrics := { sub.metrics with delivered := delivered, pending := actualPending }
          (true, (m.setSub id { sub with metrics := metrics }.updateSignal).recomputeWorst)
      | .error .full =>
          match sub.config.overflow with
          | .dropNewest => (false, m.setSub id sub.drop.updateSignal)
          | .dropOldest => (false, m.setSub id sub.drop.updateSignal)
          | .block => (false, m.setSub id sub.drop)
      | .error .closed => (false, m.setSub id sub.drop)

/-- Deliver an event, and wait for room if the strategy is to block; none as long as it waits. -/
def deliver (m : BackpressureManager) (id : String) (event : List UInt8) :
    Option (Bool × BackpressureManager) :=
  match m.subscribers.lookup id with
  | none => some (false, m)
  | some sub =>
      match sub.config.overflow with
      | .block =>
          match sub.trySend event with
          | .ok sub =>
              let metrics := { sub.metrics with
                delivered := sub.metrics.delivered + 1
                pending := sub.metrics.pending + 1 }
              some (true, m.setSub id { sub with metrics := metrics }.updateSignal)
          | .error .full => none
          | .error .closed => some (false, m.setSub id sub.drop)
      | _ => some (m.tryDeliver id event)

/-- Mark events as consumed by a subscriber. -/
def markConsumed (m : BackpressureManager) (id : String) (count : ℕ) : BackpressureManager :=
  match m.subscribers.lookup id with
  | none => m
  | some sub =>
      let metrics := { sub.metrics with pending := sub.metrics.pending - count }
      m.setSub id { sub with metrics := metrics }.updateSignal

end BackpressureManager

/-! ### Runs -/

/-- An operation, or what a subscriber does with its channel. -/
inductive BackpressureStep where
  | register (id : String) (config : SubscriberConfig)
  | tryDeliver (id : String) (event : List UInt8)
  | deliver (id : String) (event : List UInt8)
  | markConsumed (id : String) (count : ℕ)
  /-- The mark of a subscriber that has been replaced. -/
  | markLate (id : String) (count : ℕ)
  | take (id : String)
  | close (id : String)

/-- How many events a subscriber was sent, has taken and has marked. -/
structure Counts where
  sent : ℕ
  taken : ℕ
  marked : ℕ

/-- One more event was sent. -/
def Counts.succ (counts : Counts) : Counts := { counts with sent := counts.sent + 1 }

/-- The manager, the counts of its subscribers, and what those that were replaced may still
mark. -/
structure BackpressureState where
  manager : BackpressureManager
  counts : String → Counts
  late : String → ℕ

namespace BackpressureState

def new : BackpressureState := ⟨.new, fun _ => ⟨0, 0, 0⟩, fun _ => 0⟩

/-- An event was sent, if it was. -/
def countSent (st : BackpressureState) (id : String) (delivery : Bool × BackpressureManager) :
    BackpressureState :=
  { st with
    manager := delivery.2
    counts :=
      if delivery.1 then Function.update st.counts id (st.counts id).succ else st.counts }

/-- One step. -/
def step (st : BackpressureState) : BackpressureStep → BackpressureState
  | .register id config =>
      match st.manager.register id config with
      | none => st
      | some manager =>
          { manager := manager
            counts := Function.update st.counts id ⟨0, 0, 0⟩
            late := Function.update st.late id
              (st.late id + ((st.counts id).sent - (st.counts id).marked)) }
  | .tryDeliver id event => st.countSent id (st.manager.tryDeliver id event)
  | .deliver id event =>
      match st.manager.deliver id event with
      | none => st
      | some delivery => st.countSent id delivery
  | .markConsumed id count =>
      let counts := st.counts id
      { st with
        manager := st.manager.markConsumed id count
        counts := Function.update st.counts id { counts with marked := counts.marked + count } }
  | .markLate id count =>
      { st with
        manager := st.manager.markConsumed id count
        late := Function.update st.late id (st.late id - count) }
  | .take id =>
      match st.manager.subscribers.lookup id with
      | none => st
      | some sub =>
          match sub.queue with
          | [] => st
          | _ :: queue =>
              let counts := st.counts id
              { st with
                manager := st.manager.setSub id { sub with queue := queue }
                counts := Function.update st.counts id { counts with taken := counts.taken + 1 } }
  | .close id =>
      match st.manager.subscribers.lookup id with
      | none => st
      | some sub =>
          { st with manager := st.manager.setSub id { sub with queue := [], closed := true } }

/-- A subscriber marks what it has taken, each event once. -/
def Allowed (st : BackpressureState) : BackpressureStep → Prop
  | .markConsumed id count => (st.counts id).marked + count ≤ (st.counts id).taken
  | .markLate id count => count ≤ st.late id
  | _ => True

/-- The figures are right. -/
structure Faithful (st : BackpressureState) : Prop where
  pending : ∀ id sub, st.manager.subscribers.lookup id = some sub →
    sub.metrics.pending = (st.counts id).sent - (st.counts id).marked
  signal : ∀ id sub, st.manager.subscribers.lookup id = some sub →
    sub.signal = .ofFill sub.metrics.pending sub.config.capacity
  worst : st.manager.cachedWorst = worst st.manager.subscribers

/-- The figures are right after the step. -/
def Conforms (st : BackpressureState) (input : BackpressureStep) : Prop := Faithful (st.step input)

/-- The level of one subscriber may change to this one, and the worst level is the same. -/
def KeepsWorst (st : BackpressureState) (id : String) (level : SignalLevel) : Prop :=
  max level (Bus.worst (st.manager.subscribers.erase id)) = Bus.worst st.manager.subscribers

/-- The subscriber takes another event into its channel. -/
def Accepts (sub : RegisteredSubscriber) : Prop :=
  sub.closed = false ∧ sub.queue.length < sub.config.capacity

/-- A delivery that does not wait finds nothing marked; a delivery that may wait, a mark and a
registration leave the worst level as it is; and a late mark finds nothing pending. -/
def Regular (st : BackpressureState) : BackpressureStep → Prop
  | .register id config => 0 < config.capacity → st.KeepsWorst id .green
  | .tryDeliver id _ => ∀ sub, st.manager.subscribers.lookup id = some sub → Accepts sub →
      (st.counts id).marked = 0
  | .deliver id _ => ∀ sub, st.manager.subscribers.lookup id = some sub → Accepts sub →
      match sub.config.overflow with
      | .block => st.KeepsWorst id (.ofFill (sub.metrics.pending + 1) sub.config.capacity)
      | _ => (st.counts id).marked = 0
  | .markConsumed id count => ∀ sub, st.manager.subscribers.lookup id = some sub →
      st.KeepsWorst id (.ofFill (sub.metrics.pending - count) sub.config.capacity)
  | .markLate id count => ∀ sub, st.manager.subscribers.lookup id = some sub →
      sub.metrics.pending = 0 ∨ count = 0
  | _ => True

/-! ### One subscriber is put in -/

variable {st : BackpressureState} {id : String} {sub : RegisteredSubscriber} {counts : Counts}

/-- What holds whatever the figures say. -/
structure SubTracks (sub : RegisteredSubscriber) (counts : Counts) : Prop where
  capacity : 0 < sub.config.capacity
  consumed : sub.metrics.consumed = 0
  delivered : sub.metrics.delivered = counts.sent
  marked : counts.marked ≤ counts.taken
  queue : counts.taken + sub.queue.length ≤ counts.sent

/-- The same of every subscriber. -/
def Tracks (st : BackpressureState) : Prop :=
  ∀ id sub, st.manager.subscribers.lookup id = some sub → SubTracks sub (st.counts id)

theorem tracks_new : Tracks new := by
  intro id sub hsub
  cases hsub

theorem faithful_new : Faithful new where
  pending _ _ hsub := nomatch hsub
  signal _ _ hsub := nomatch hsub
  worst := rfl

/-- Only one subscriber and its counts are other than before. -/
structure Differs (st st' : BackpressureState) (id : String) (sub : RegisteredSubscriber)
    (counts : Counts) : Prop where
  subscribers : st'.manager.subscribers = st.manager.subscribers.insert id sub
  own : st'.counts id = counts
  others : ∀ other, other ≠ id → st'.counts other = st.counts other

variable {st' : BackpressureState}

theorem Differs.of_update
    (hsubscribers : st'.manager.subscribers = st.manager.subscribers.insert id sub)
    (hcounts : st'.counts = Function.update st.counts id counts) :
    Differs st st' id sub counts where
  subscribers := hsubscribers
  own := by rw [hcounts, Function.update_self]
  others other hne := by rw [hcounts, Function.update_of_ne hne]

theorem Differs.of_counts
    (hsubscribers : st'.manager.subscribers = st.manager.subscribers.insert id sub)
    (hcounts : st'.counts = st.counts) : Differs st st' id sub (st.counts id) where
  subscribers := hsubscribers
  own := by rw [hcounts]
  others _ _ := by rw [hcounts]

/-- What holds of the one subscriber, and held of the others. -/
theorem Differs.forall_iff (hdiffers : Differs st st' id sub counts)
    {P : RegisteredSubscriber → Counts → Prop}
    (hothers : ∀ other sub', st.manager.subscribers.lookup other = some sub' →
      P sub' (st.counts other)) :
    (∀ other sub', st'.manager.subscribers.lookup other = some sub' →
      P sub' (st'.counts other)) ↔ P sub counts := by
  rw [hdiffers.subscribers, forall_lookup_iff (AList.lookup_insert _), hdiffers.own]
  refine and_iff_left fun other hne sub' hsub' => ?_
  rw [hdiffers.others other hne]
  exact hothers other sub' ((AList.lookup_insert_ne hne).symm.trans hsub')

theorem Tracks.of_differs (htracks : Tracks st) (hdiffers : Differs st st' id sub counts)
    (hsub : SubTracks sub counts) : Tracks st' :=
  (hdiffers.forall_iff htracks).mpr hsub

/-- The figures are right again exactly if those of the one subscriber are, and the cache has the
worst level. -/
theorem Faithful.iff_of_differs (hfaithful : Faithful st)
    (hdiffers : Differs st st' id sub counts)
    (hsignal : sub.signal = .ofFill sub.metrics.pending sub.config.capacity) :
    Faithful st' ↔ sub.metrics.pending = counts.sent - counts.marked ∧
      st'.manager.cachedWorst = max sub.signal (Bus.worst (st.manager.subscribers.erase id)) := by
  have hpending := hdiffers.forall_iff (P := fun sub' counts' =>
    sub'.metrics.pending = counts'.sent - counts'.marked) hfaithful.pending
  have hsignals := (hdiffers.forall_iff (P := fun sub' _ =>
    sub'.signal = .ofFill sub'.metrics.pending sub'.config.capacity) hfaithful.signal).mpr hsignal
  have hworst : Bus.worst st'.manager.subscribers =
      max sub.signal (Bus.worst (st.manager.subscribers.erase id)) := by
    rw [hdiffers.subscribers, worst_insert]
  rw [← hpending, ← hworst]
  exact ⟨fun h => ⟨h.pending, h.worst⟩, fun h => ⟨h.1, hsignals, h.2⟩⟩

/-- Counts of a subscriber that there is not are of no matter. -/
theorem Tracks.of_manager (htracks : Tracks st) (hmanager : st'.manager = st.manager)
    (hcounts : ∀ other sub', st.manager.subscribers.lookup other = some sub' →
      st'.counts other = st.counts other) : Tracks st' := by
  rw [Tracks, hmanager]
  exact fun other sub' hother => hcounts other sub' hother ▸ htracks other sub' hother

theorem Faithful.of_manager (hfaithful : Faithful st) (hmanager : st'.manager = st.manager)
    (hcounts : ∀ other sub', st.manager.subscribers.lookup other = some sub' →
      st'.counts other = st.counts other) : Faithful st' := by
  refine ⟨?_, ?_, ?_⟩
  · rw [hmanager]
    exact fun other sub' hother => hcounts other sub' hother ▸ hfaithful.pending other sub' hother
  · rw [hmanager]
    exact hfaithful.signal
  · rw [hmanager]
    exact hfaithful.worst

/-- The figures stay right where those of the one subscriber stay the same. -/
theorem Faithful.of_same {old : RegisteredSubscriber} (hfaithful : Faithful st)
    (hdiffers : Differs st st' id sub counts) (hold : st.manager.subscribers.lookup id = some old)
    (hpending : sub.metrics.pending = old.metrics.pending) (hsignal : sub.signal = old.signal)
    (hconfig : sub.config = old.config) (hsent : counts.sent = (st.counts id).sent)
    (hmarked : counts.marked = (st.counts id).marked)
    (hcached : st'.manager.cachedWorst = st.manager.cachedWorst) : Faithful st' := by
  have hlevel : sub.signal = .ofFill sub.metrics.pending sub.config.capacity := by
    rw [hsignal, hpending, hconfig]
    exact hfaithful.signal id old hold
  rw [hfaithful.iff_of_differs hdiffers hlevel]
  constructor
  · rw [hpending, hsent, hmarked]
    exact hfaithful.pending id old hold
  · rw [hcached, hfaithful.worst, worst_of_lookup hold, hsignal]

/-! ### The steps -/

/-- A channel takes the event, or is full or closed. -/
theorem trySend_cases (sub : RegisteredSubscriber) (event : List UInt8) :
    (Accepts sub ∧ sub.trySend event = .ok { sub with queue := sub.queue ++ [event] }) ∨
      (¬ Accepts sub ∧ ∃ err, sub.trySend event = .error err) := by
  rw [RegisteredSubscriber.trySend, Accepts]
  cases sub.closed with
  | true => exact Or.inr ⟨fun h => Bool.noConfusion h.1, .closed, rfl⟩
  | false =>
      by_cases hfull : sub.config.capacity ≤ sub.queue.length
      · exact Or.inr ⟨fun h => absurd h.2 (not_lt.mpr hfull), .full, if_pos hfull⟩
      · exact Or.inl ⟨⟨rfl, not_le.mp hfull⟩, if_neg hfull⟩

/-- What has to be shown of a step. -/
def StepOk (st : BackpressureState) (input : BackpressureStep) : Prop :=
  Tracks (st.step input) ∧ (Conforms st input ↔ Regular st input)

/-- A step that changes nothing. -/
theorem stepOk_of_step_eq (htracks : Tracks st) (hfaithful : Faithful st)
    {input : BackpressureStep} (hstep : st.step input = st) (hregular : Regular st input) :
    StepOk st input := by
  rw [StepOk, Conforms, hstep]
  exact ⟨htracks, iff_of_true hfaithful hregular⟩

theorem register_ok (htracks : Tracks st) (hfaithful : Faithful st) (config : SubscriberConfig) :
    StepOk st (.register id config) := by
  by_cases hcapacity : config.capacity = 0
  · -- a channel without room is refused, and the old registration stays
    have hstep : st.step (.register id config) = st := by
      simp only [step, BackpressureManager.register, if_pos hcapacity]
    exact stepOk_of_step_eq htracks hfaithful hstep fun h => absurd hcapacity h.ne'
  · have hpos := Nat.pos_of_ne_zero hcapacity
    have hregister : st.manager.register id config = some (st.manager.setSub id (.new config)) :=
      if_neg hcapacity
    have hdiffers : Differs st (st.step (.register id config)) id (.new config) ⟨0, 0, 0⟩ := by
      simp only [step, hregister]
      exact .of_update rfl rfl
    refine ⟨htracks.of_differs hdiffers ⟨hpos, rfl, rfl, le_rfl, le_rfl⟩, ?_⟩
    have hcached :
        (st.step (.register id config)).manager.cachedWorst = st.manager.cachedWorst := by
      simp only [step, hregister]
      rfl
    rw [Conforms, hfaithful.iff_of_differs hdiffers (SignalLevel.ofFill_zero hpos).symm, hcached,
      hfaithful.worst]
    exact ⟨fun h _ => h.2.symm, fun h => ⟨rfl, (h hpos).symm⟩⟩

/-- One more event is dropped, and the level is left alone. -/
theorem drop_ok (htracks : Tracks st) (hfaithful : Faithful st)
    (hsub : st.manager.subscribers.lookup id = some sub)
    (hst : st' = { st with manager := st.manager.setSub id sub.drop }) :
    Tracks st' ∧ Faithful st' := by
  subst hst
  have hold := htracks id sub hsub
  have hdiffers : Differs st { st with manager := st.manager.setSub id sub.drop } id sub.drop
      (st.counts id) := .of_counts rfl rfl
  exact ⟨htracks.of_differs hdiffers
      ⟨hold.capacity, hold.consumed, hold.delivered, hold.marked, hold.queue⟩,
    hfaithful.of_same hdiffers hsub rfl rfl rfl rfl rfl rfl⟩

/-- The level computed anew from what is pending is the level there was. -/
theorem Faithful.updateSignal_drop (hfaithful : Faithful st)
    (hsub : st.manager.subscribers.lookup id = some sub) : sub.drop.updateSignal = sub.drop := by
  have hsignal := hfaithful.signal id sub hsub
  rw [RegisteredSubscriber.updateSignal]
  exact congrArg (fun level => { sub.drop with signal := level }) hsignal.symm

/-- A subscriber with one more event in its channel, and so many of its events pending. -/
def received (sub : RegisteredSubscriber) (event : List UInt8) (pending : ℕ) :
    RegisteredSubscriber :=
  RegisteredSubscriber.updateSignal
    { sub with
      queue := sub.queue ++ [event]
      metrics := { sub.metrics with
        delivered := sub.metrics.delivered + 1
        pending := pending } }

theorem received_tracks (htracks : Tracks st) (hsub : st.manager.subscribers.lookup id = some sub)
    {event : List UInt8} {pending : ℕ}
    (hdiffers : Differs st st' id (received sub event pending) (st.counts id).succ) :
    Tracks st' := by
  have hold := htracks id sub hsub
  have hdelivered : sub.metrics.delivered + 1 = (st.counts id).sent + 1 := by rw [hold.delivered]
  have hqueue : (received sub event pending).queue.length = sub.queue.length + 1 :=
    List.length_append
  refine htracks.of_differs hdiffers
    ⟨hold.capacity, hold.consumed, hdelivered, hold.marked, ?_⟩
  rw [Counts.succ, hqueue]
  exact Nat.succ_le_succ hold.queue

theorem tryDeliver_ok (htracks : Tracks st) (hfaithful : Faithful st) (event : List UInt8) :
    StepOk st (.tryDeliver id event) := by
  cases hsub : st.manager.subscribers.lookup id with
  | none =>
      have hstep : st.step (.tryDeliver id event) = st := by
        simp [step, BackpressureManager.tryDeliver, hsub, countSent]
      exact stepOk_of_step_eq htracks hfaithful hstep fun sub h => nomatch hsub.symm.trans h
  | some sub =>
      have hold := htracks id sub hsub
      rcases trySend_cases sub event with ⟨haccepts, hsend⟩ | ⟨hrefuses, err, hsend⟩
      · let new := received sub event (sub.metrics.delivered + 1 - sub.metrics.consumed)
        have hdiffers : Differs st (st.step (.tryDeliver id event)) id new (st.counts id).succ := by
          simp only [step, BackpressureManager.tryDeliver, hsub, hsend, countSent, if_true]
          exact .of_update rfl rfl
        have hcached : (st.step (.tryDeliver id event)).manager.cachedWorst =
            max new.signal (Bus.worst (st.manager.subscribers.erase id)) := by
          simp only [step, BackpressureManager.tryDeliver, hsub, hsend, countSent, if_true]
          exact worst_insert
        -- the counter for consumption stands at zero, so everything sent counts as pending
        have hpending : new.metrics.pending = (st.counts id).sent + 1 := by
          show sub.metrics.delivered + 1 - sub.metrics.consumed = _
          rw [hold.consumed, hold.delivered, Nat.sub_zero]
        refine ⟨received_tracks htracks hsub hdiffers, ?_⟩
        rw [Conforms, hfaithful.iff_of_differs hdiffers rfl, and_iff_left hcached, hpending,
          Regular]
        show _ = (st.counts id).sent + 1 - (st.counts id).marked ↔ _
        constructor
        · intro h sub' _ _
          omega
        · intro h
          rw [h sub hsub haccepts, Nat.sub_zero]
      · have hstep : st.step (.tryDeliver id event) =
            { st with manager := st.manager.setSub id sub.drop } := by
          cases err with
          | closed => simp [step, BackpressureManager.tryDeliver, hsub, hsend, countSent]
          | full =>
              simp only [step, BackpressureManager.tryDeliver, hsub, hsend]
              cases sub.config.overflow <;> simp [countSent, hfaithful.updateSignal_drop hsub]
        obtain ⟨htracks', hfaithful'⟩ := drop_ok htracks hfaithful hsub hstep
        refine ⟨htracks', iff_of_true hfaithful' fun sub' hsub' haccepts => absurd haccepts ?_⟩
        exact Option.some.inj (hsub.symm.trans hsub') ▸ hrefuses

theorem deliver_ok (htracks : Tracks st) (hfaithful : Faithful st) (event : List UInt8) :
    StepOk st (.deliver id event) := by
  cases hsub : st.manager.subscribers.lookup id with
  | none =>
      have hstep : st.step (.deliver id event) = st := by
        simp [step, BackpressureManager.deliver, hsub, countSent]
      exact stepOk_of_step_eq htracks hfaithful hstep fun sub h => nomatch hsub.symm.trans h
  | some sub =>
      by_cases hblock : sub.config.overflow = .block
      · -- this path counts on from the pending count, but leaves the cache alone
        have hregular : Regular st (.deliver id event) ↔ (Accepts sub → st.KeepsWorst id
            (.ofFill (sub.metrics.pending + 1) sub.config.capacity)) := by
          simp [Regular, hsub, hblock]
        rw [StepOk, hregular]
        rcases trySend_cases sub event with ⟨haccepts, hsend⟩ | ⟨hrefuses, err, hsend⟩
        · let new := received sub event (sub.metrics.pending + 1)
          have hstep : st.step (.deliver id event) =
              st.countSent id (true, st.manager.setSub id new) := by
            simp only [step, BackpressureManager.deliver, hsub, hblock, hsend]
            rfl
          have hdiffers : Differs st (st.step (.deliver id event)) id new (st.counts id).succ := by
            rw [hstep]
            exact .of_update rfl rfl
          have hcached : (st.step (.deliver id event)).manager.cachedWorst =
              Bus.worst st.manager.subscribers := by
            rw [hstep]
            exact hfaithful.worst
          have hpending : new.metrics.pending =
              (st.counts id).succ.sent - (st.counts id).succ.marked := by
            have hold := htracks id sub hsub
            have hbefore := hfaithful.pending id sub hsub
            have hmarked := hold.marked
            have hqueue := hold.queue
            show sub.metrics.pending + 1 = (st.counts id).sent + 1 - (st.counts id).marked
            omega
          refine ⟨received_tracks htracks hsub hdiffers, ?_⟩
          rw [Conforms, hfaithful.iff_of_differs hdiffers rfl, and_iff_right hpending, hcached,
            forall_prop_of_true haccepts]
          exact eq_comm
        · obtain ⟨htracks', hfaithful'⟩ :
              Tracks (st.step (.deliver id event)) ∧ Faithful (st.step (.deliver id event)) := by
            cases err with
            | full =>
                -- it waits, and nothing changes until there is room
                have hstep : st.step (.deliver id event) = st := by
                  simp only [step, BackpressureManager.deliver, hsub, hblock, hsend]
                rw [hstep]
                exact ⟨htracks, hfaithful⟩
            | closed =>
                refine drop_ok htracks hfaithful hsub ?_
                simp [step, BackpressureManager.deliver, hsub, hblock, hsend, countSent]
          exact ⟨htracks', iff_of_true hfaithful' fun h => absurd h hrefuses⟩
      · -- every other strategy delivers without waiting
        have hstep : st.step (.deliver id event) = st.step (.tryDeliver id event) := by
          simp only [step, BackpressureManager.deliver, hsub]
        have hregular : Regular st (.deliver id event) ↔ Regular st (.tryDeliver id event) := by
          simp [Regular, hsub]
        rw [StepOk, Conforms, hstep, hregular]
        exact tryDeliver_ok htracks hfaithful event

/-- A subscriber with some of its events marked. -/
def marked (sub : RegisteredSubscriber) (count : ℕ) : RegisteredSubscriber :=
  RegisteredSubscriber.updateSignal
    { sub with metrics := { sub.metrics with pending := sub.metrics.pending - count } }

theorem markConsumed_of_none {m : BackpressureManager} (hsub : m.subscribers.lookup id = none)
    (count : ℕ) : m.markConsumed id count = m := by
  simp only [BackpressureManager.markConsumed, hsub]

theorem markConsumed_of_some {m : BackpressureManager} (hsub : m.subscribers.lookup id = some sub)
    (count : ℕ) : m.markConsumed id count = m.setSub id (marked sub count) := by
  simp only [BackpressureManager.markConsumed, hsub]
  rfl

theorem markConsumed_ok (htracks : Tracks st) (hfaithful : Faithful st) {count : ℕ}
    (hallowed : Allowed st (.markConsumed id count)) : StepOk st (.markConsumed id count) := by
  cases hsub : st.manager.subscribers.lookup id with
  | none =>
      have hmanager : (st.step (.markConsumed id count)).manager = st.manager :=
        markConsumed_of_none hsub count
      have hcounts : ∀ other sub, st.manager.subscribers.lookup other = some sub →
          (st.step (.markConsumed id count)).counts other = st.counts other := by
        intro other sub hother
        refine Function.update_of_ne ?_ ..
        rintro rfl
        rw [hsub] at hother
        cases hother
      refine ⟨htracks.of_manager hmanager hcounts, ?_⟩
      exact iff_of_true (hfaithful.of_manager hmanager hcounts)
        fun sub h => nomatch hsub.symm.trans h
  | some sub =>
      have hold := htracks id sub hsub
      have hmanager : (st.step (.markConsumed id count)).manager =
          st.manager.setSub id (marked sub count) := markConsumed_of_some hsub count
      have hdiffers : Differs st (st.step (.markConsumed id count)) id (marked sub count)
          { st.counts id with marked := (st.counts id).marked + count } :=
        .of_update (congrArg BackpressureManager.subscribers hmanager) rfl
      -- both subtractions stop at zero alike
      have hpending : (marked sub count).metrics.pending =
          (st.counts id).sent - ((st.counts id).marked + count) := by
        rw [Nat.sub_add_eq, ← hfaithful.pending id sub hsub]
        rfl
      refine ⟨htracks.of_differs hdiffers
        ⟨hold.capacity, hold.consumed, hold.delivered, hallowed, hold.queue⟩, ?_⟩
      rw [Conforms, hfaithful.iff_of_differs hdiffers rfl, and_iff_right hpending, hmanager]
      show st.manager.cachedWorst = _ ↔ _
      simp only [hfaithful.worst, Regular, hsub, Option.some.injEq, forall_eq']
      exact eq_comm

theorem markLate_ok (htracks : Tracks st) (hfaithful : Faithful st) (count : ℕ) :
    StepOk st (.markLate id count) := by
  cases hsub : st.manager.subscribers.lookup id with
  | none =>
      have hmanager : (st.step (.markLate id count)).manager = st.manager :=
        markConsumed_of_none hsub count
      refine ⟨htracks.of_manager hmanager fun _ _ _ => rfl, ?_⟩
      exact iff_of_true (hfaithful.of_manager hmanager fun _ _ _ => rfl)
        fun sub h => nomatch hsub.symm.trans h
  | some sub =>
      have hold := htracks id sub hsub
      have hmanager : (st.step (.markLate id count)).manager =
          st.manager.setSub id (marked sub count) := markConsumed_of_some hsub count
      have hdiffers : Differs st (st.step (.markLate id count)) id (marked sub count)
          (st.counts id) := .of_counts (congrArg BackpressureManager.subscribers hmanager) rfl
      refine ⟨htracks.of_differs hdiffers
        ⟨hold.capacity, hold.consumed, hold.delivered, hold.marked, hold.queue⟩, ?_⟩
      have hregular : Regular st (.markLate id count) ↔
          sub.metrics.pending - count = sub.metrics.pending := by
        simp only [Regular, hsub, Option.some.injEq, forall_eq']
        omega
      rw [hregular]
      -- the counts are those of the new registration, so what is pending has to stay the same
      constructor
      · intro h
        have hpending := ((hfaithful.iff_of_differs hdiffers rfl).mp h).1
        exact hpending.trans (hfaithful.pending id sub hsub).symm
      · intro h
        refine hfaithful.of_same hdiffers hsub h ?_ rfl rfl rfl (by rw [hmanager]; rfl)
        rw [hfaithful.signal id sub hsub, ← h]
        rfl

theorem take_ok (htracks : Tracks st) (hfaithful : Faithful st) : StepOk st (.take id) := by
  cases hsub : st.manager.subscribers.lookup id with
  | none =>
      have hstep : st.step (.take id) = st := by simp only [step, hsub]
      exact stepOk_of_step_eq htracks hfaithful hstep trivial
  | some sub =>
      cases hqueue : sub.queue with
      | nil =>
          have hstep : st.step (.take id) = st := by simp only [step, hsub, hqueue]
          exact stepOk_of_step_eq htracks hfaithful hstep trivial
      | cons event queue =>
          have hold := htracks id sub hsub
          have hdiffers : Differs st (st.step (.take id)) id { sub with queue := queue }
              { st.counts id with taken := (st.counts id).taken + 1 } := by
            simp only [step, hsub, hqueue]
            exact .of_update rfl rfl
          have hcached : (st.step (.take id)).manager.cachedWorst = st.manager.cachedWorst := by
            simp only [step, hsub, hqueue]
            rfl
          have hroom : (st.counts id).taken + 1 + queue.length ≤ (st.counts id).sent := by
            have := hold.queue
            rw [hqueue, List.length_cons] at this
            omega
          refine ⟨htracks.of_differs hdiffers ⟨hold.capacity, hold.consumed, hold.delivered,
            Nat.le_succ_of_le hold.marked, hroom⟩, ?_⟩
          exact iff_of_true (hfaithful.of_same hdiffers hsub rfl rfl rfl rfl rfl hcached) trivial

theorem close_ok (htracks : Tracks st) (hfaithful : Faithful st) : StepOk st (.close id) := by
  cases hsub : st.manager.subscribers.lookup id with
  | none =>
      have hstep : st.step (.close id) = st := by simp only [step, hsub]
      exact stepOk_of_step_eq htracks hfaithful hstep trivial
  | some sub =>
      have hold := htracks id sub hsub
      have hdiffers : Differs st (st.step (.close id)) id { sub with queue := [], closed := true }
          (st.counts id) := by
        simp only [step, hsub]
        exact .of_counts rfl rfl
      have hcached : (st.step (.close id)).manager.cachedWorst = st.manager.cachedWorst := by
        simp only [step, hsub]
        rfl
      refine ⟨htracks.of_differs hdiffers ⟨hold.capacity, hold.consumed, hold.delivered,
        hold.marked, (Nat.le_add_right ..).trans hold.queue⟩, ?_⟩
      exact iff_of_true (hfaithful.of_same hdiffers hsub rfl rfl rfl rfl rfl hcached) trivial

theorem step_ok (htracks : Tracks st) (hfaithful : Faithful st) {input : BackpressureStep}
    (hallowed : Allowed st input) : StepOk st input := by
  cases input with
  | register id config => exact register_ok htracks hfaithful config
  | tryDeliver id event => exact tryDeliver_ok htracks hfaithful event
  | deliver id event => exact deliver_ok htracks hfaithful event
  | markConsumed id count => exact markConsumed_ok htracks hfaithful hallowed
  | markLate id count => exact markLate_ok htracks hfaithful count
  | take id => exact take_ok htracks hfaithful
  | close id => exact close_ok htracks hfaithful

/-- **The figures are right after every operation exactly if each step is regular.** -/
theorem figures_right_iff {inputs : List BackpressureStep}
    (hallowed : EachStep step new inputs Allowed) :
    EachStep step new inputs Conforms ↔ EachStep step new inputs Regular := by
  refine eachStep_congr (fun st => Tracks st ∧ Faithful st) hallowed
    ⟨tracks_new, faithful_new⟩ ?_ ?_
  · rintro st input ⟨htracks, hfaithful⟩ hinput hregular
    have hstep := step_ok htracks hfaithful hinput
    exact ⟨hstep.1, hstep.2.mpr hregular⟩
  · rintro st input ⟨htracks, hfaithful⟩ hinput
    exact (step_ok htracks hfaithful hinput).2

/-- A subscriber takes the one event it is sent, and marks it. -/
def consumed : List BackpressureStep :=
  [.register "a" ⟨4, .dropNewest⟩, .tryDeliver "a" [0], .take "a", .markConsumed "a" 1]

theorem allowed_consumed : EachStep step new consumed Allowed := by
  refine eachStep_cons.mpr ⟨trivial, eachStep_cons.mpr ⟨trivial, eachStep_cons.mpr ⟨trivial,
    eachStep_cons.mpr ⟨?_, eachStep_nil⟩⟩⟩⟩
  show _ ≤ _
  decide +kernel

theorem figures_right_iff_consumed :
    EachStep step new consumed Conforms ↔ EachStep step new consumed Regular :=
  figures_right_iff allowed_consumed

/-- **An event that was marked is pending again** with the next delivery. -/
theorem marked_pending_again :
    EachStep step new (consumed ++ [.tryDeliver "a" [1]]) Allowed ∧
      ¬ EachStep step new (consumed ++ [.tryDeliver "a" [1]]) Conforms := by
  refine ⟨eachStep_concat.mpr ⟨allowed_consumed, trivial⟩, fun h => ?_⟩
  let st := (consumed.foldl step new).step (.tryDeliver "a" [1])
  have hlast : Faithful st := (eachStep_concat.mp h).2
  obtain ⟨sub, hsub, hpending⟩ : ∃ sub, st.manager.subscribers.lookup "a" = some sub ∧
      sub.metrics.pending = 2 := ⟨_, rfl, by decide +kernel⟩
  have hright := hlast.pending "a" sub hsub
  rw [hpending] at hright
  revert hright
  decide +kernel

end BackpressureState

end ClawDesk.Bus
