import ClawDesk.Bus.Priority
import ClawDesk.Bus.Topic
import Mathlib.Data.List.AList

/-!
# Dispatching events to subscriptions

A subscription without a `*` in its patterns is indexed by each of them, once for every time it
lists it; the others are in one list.  Publishing looks at the topic's entry of the index and at
that list.

A pattern without a `*` matches no topic but itself, so nothing is missed, and what is triggered is
what a scan of all subscriptions finds, unless a subscription lists the topic more than once
(`publish_perm_iff`).
-/

namespace ClawDesk.Bus

/-! ### Events and subscriptions -/

/-- Typed event categories emitted by subsystems. -/
inductive EventKind where
  | messageReceived
  | messageSent
  | emailIngested
  | calendarEvent
  | transcriptReady
  | contactInteraction
  | socialMetricSnapshot
  | approvalRequested
  | approvalResolved
  | pipelineCompleted
  | heartbeatFired
  | cronExecuted
  | memoryStored
  | relationshipAlert
  | digestWindowClosed
  | backupCompleted
  | skillInstalled
  | skillUninstalled
  | skillUpdated
  | skillActivated
  | skillDeactivated
  | skillEligibilityChanged
  | catalogSynced
  | skillInstallProgress
  | toolMediaEmitted
  | custom (name : String)
  deriving DecidableEq

/-- The number of a priority class. -/
def Priority.toNat : Priority → ℕ
  | urgent => 0
  | standard => 1
  | batch => 2

/-- What dispatch reads of an event besides its topic. -/
structure EventBody where
  kind : EventKind
  priority : Priority

/-- A subscription pattern that filters events for a pipeline. -/
structure Subscription where
  id : String
  topicPatterns : List String
  eventKinds : List EventKind
  minPriority : Option Priority
  pipelineId : String
  enabled : Bool

/-- The segments of a pattern or a topic. -/
def segments (s : String) : List (List Char) := s.toList.splitOn '.'

/-- Simple glob matching: `*` matches any single segment. -/
def topicMatches (pattern topic : String) : Bool :=
  if pattern = "*" then true
  else
    let patParts := segments pattern
    let topParts := segments topic
    if patParts.length ≠ topParts.length then false
    else (patParts.zip topParts).all fun (p, t) => p = ['*'] || p = t

namespace Subscription

/-- Check whether an event matches this subscription's filters. -/
def accepts (s : Subscription) (topic : String) (kind : EventKind) (priority : Priority) : Bool :=
  if !s.enabled then false
  else if s.minPriority.any fun minP => minP.toNat < priority.toNat then false
  else if !s.eventKinds.isEmpty && !s.eventKinds.contains kind then false
  else s.topicPatterns.any fun pat => topicMatches pat topic

/-- Some pattern contains a `*`. -/
def hasGlob (s : Subscription) : Bool := s.topicPatterns.any fun p => p.toList.contains '*'

end Subscription

/-! ### The bus -/

/-- Item enqueued into the WFQ scheduler for priority dispatch. -/
structure DispatchItem where
  topic : String
  offset : ℕ
  pipelineIds : List String
  priority : Priority

/-- Central event bus dispatcher. -/
structure EventBus where
  topics : AList fun _ : String => Topic EventBody
  topicSubs : String → List Subscription
  globSubs : List Subscription
  wfq : ShardedWfqScheduler DispatchItem
  wfqClock : ℕ
  defaultCapacity : ℕ

namespace EventBus

/-- Create a new event bus. -/
def new (defaultCapacity : ℕ) : EventBus := ⟨∅, fun _ => [], [], .new, 0, defaultCapacity⟩

/-- Create or retrieve a topic by name. -/
def topic (bus : EventBus) (name : String) : Topic EventBody :=
  (bus.topics.lookup name).getD (.new name bus.defaultCapacity)

/-- Register a subscription. -/
def subscribe (bus : EventBus) (sub : Subscription) : EventBus :=
  if sub.hasGlob then { bus with globSubs := bus.globSubs ++ [sub] }
  else
    { bus with
      topicSubs := sub.topicPatterns.foldl
        (fun subs pat => Function.update subs pat (subs pat ++ [sub])) bus.topicSubs }

/-- Remove a subscription by ID. -/
def unsubscribe (bus : EventBus) (subId : String) : EventBus :=
  { bus with
    topicSubs := fun topic => (bus.topicSubs topic).filter (·.id ≠ subId)
    globSubs := bus.globSubs.filter (·.id ≠ subId) }

/-- The pipelines that an event triggers. -/
def triggered (bus : EventBus) (event : Event EventBody) : List String :=
  let hit : Subscription → Bool := fun s =>
    s.accepts event.topic event.payload.kind event.payload.priority
  ((bus.topicSubs event.topic).filter hit).map (·.pipelineId) ++
    (bus.globSubs.filter hit).map (·.pipelineId)

/-- Publish an event to its topic and return the pipelines of the matching subscriptions. -/
def publish (bus : EventBus) (event : Event EventBody) : List String × EventBus :=
  let (stamped, topic) := (bus.topic event.topic).takeOffset event
  let bus := { bus with topics := bus.topics.insert event.topic (topic.insert stamped) }
  let pipelineIds := bus.triggered event
  if pipelineIds.isEmpty then (pipelineIds, bus)
  else
    let item : DispatchItem := ⟨event.topic, stamped.offset, pipelineIds, event.payload.priority⟩
    (pipelineIds,
      { bus with
        wfqClock := bus.wfqClock + 1
        wfq := bus.wfq.enqueue item event.payload.priority bus.wfqClock })

end EventBus

/-- A call of the bus. -/
inductive BusCall where
  | subscribe (sub : Subscription)
  | unsubscribe (subId : String)
  | publish (event : Event EventBody)
  | drainPrioritized (max : ℕ)

/-- The calls on a new bus, the last one first, and the bus they lead to. -/
inductive EventBus.Run : List BusCall → EventBus → Prop
  | new (defaultCapacity : ℕ) : Run [] (.new defaultCapacity)
  | subscribe {calls : List BusCall} {bus : EventBus} (run : Run calls bus) (sub : Subscription) :
      Run (.subscribe sub :: calls) (bus.subscribe sub)
  | unsubscribe {calls : List BusCall} {bus : EventBus} (run : Run calls bus) (subId : String) :
      Run (.unsubscribe subId :: calls) (bus.unsubscribe subId)
  | publish {calls : List BusCall} {bus : EventBus} (run : Run calls bus)
      (event : Event EventBody) : Run (.publish event :: calls) (bus.publish event).2
  | drainPrioritized {calls : List BusCall} {bus : EventBus} (run : Run calls bus) {max : ℕ}
      {items : List (PriorityItem DispatchItem)} {wfq : ShardedWfqScheduler DispatchItem}
      (drain : ShardedWfqScheduler.Drain max bus.wfq items wfq) :
      Run (.drainPrioritized max :: calls) { bus with wfq := wfq }

/-! ### The linear scan -/

/-- The subscriptions that are registered after some calls. -/
def registered : List BusCall → List Subscription
  | [] => []
  | .subscribe sub :: calls => registered calls ++ [sub]
  | .unsubscribe subId :: calls => (registered calls).filter (·.id ≠ subId)
  | .publish _ :: calls | .drainPrioritized _ :: calls => registered calls

/-- The subscription is triggered by the event. -/
def Subscription.hits (s : Subscription) (event : Event EventBody) : Bool :=
  s.accepts event.topic event.payload.kind event.payload.priority

/-- Copies of the members of a list. -/
def copies {α : Type} (f : α → ℕ) (l : List α) : List α := l.flatMap fun a => List.replicate (f a) a

/-- What is in the index under a topic: each subscription as often as it lists it. -/
def indexed (subs : List Subscription) (topic : String) : List Subscription :=
  copies (fun s => s.topicPatterns.count topic) (subs.filter fun s => !s.hasGlob)

variable {calls : List BusCall} {bus : EventBus} {event : Event EventBody} {sub : Subscription}
  {subs : List Subscription}

theorem indexed_append (subs subs' : List Subscription) (topic : String) :
    indexed (subs ++ subs') topic = indexed subs topic ++ indexed subs' topic := by
  rw [indexed, List.filter_append, copies, List.flatMap_append]
  rfl

theorem indexed_filter (keep : Subscription → Bool) (subs : List Subscription) (topic : String) :
    indexed (subs.filter keep) topic = (indexed subs topic).filter keep := by
  rw [indexed, indexed, List.filter_comm, copies, copies, List.filter_flatMap]
  induction subs.filter fun s => !s.hasGlob with
  | nil => rfl
  | cons s plain ih =>
      rw [List.filter_cons, List.flatMap_cons, List.filter_replicate, ← ih]
      split
      · rw [List.flatMap_cons]
      · rfl

/-- One subscription is pushed once for each of its patterns. -/
theorem foldl_push (pats : List String) (subs : String → List Subscription) (topic : String) :
    (pats.foldl (fun subs pat => Function.update subs pat (subs pat ++ [sub])) subs) topic =
      subs topic ++ List.replicate (pats.count topic) sub := by
  induction pats generalizing subs with
  | nil => simp
  | cons pat pats ih =>
      rw [List.foldl_cons, ih]
      rcases eq_or_ne topic pat with rfl | hne
      · rw [Function.update_self, List.count_cons_self, List.append_assoc, List.replicate_succ]
        rfl
      · rw [Function.update_of_ne hne, List.count_cons_of_ne hne.symm]

/-- **The index and the list hold what is registered.** -/
theorem EventBus.Run.subs_eq (h : EventBus.Run calls bus) :
    (∀ topic, bus.topicSubs topic = indexed (registered calls) topic) ∧
      bus.globSubs = (registered calls).filter (·.hasGlob) := by
  induction h with
  | new => exact ⟨fun _ => rfl, rfl⟩
  | @subscribe calls bus _ sub ih =>
      obtain ⟨htopic, hglob⟩ := ih
      have hone : ∀ topic, indexed [sub] topic =
          if sub.hasGlob then [] else List.replicate (sub.topicPatterns.count topic) sub := by
        intro topic
        rw [indexed, copies]
        cases hsub : sub.hasGlob <;> simp [hsub]
      rw [EventBus.subscribe, registered]
      cases hsub : sub.hasGlob with
      | true =>
          refine ⟨fun topic => ?_, ?_⟩
          · rw [indexed_append, hone, hsub]
            simpa using htopic topic
          · simp [List.filter_append, hglob, hsub]
      | false =>
          refine ⟨fun topic => ?_, ?_⟩
          · rw [indexed_append, hone, hsub, ← htopic]
            exact foldl_push _ _ _
          · simp [List.filter_append, hglob, hsub]
  | unsubscribe _ subId ih =>
      obtain ⟨htopic, hglob⟩ := ih
      refine ⟨fun topic => ?_, ?_⟩
      · show (_ : List Subscription).filter _ = _
        rw [htopic, registered, indexed_filter]
      · show (_ : List Subscription).filter _ = _
        rw [hglob, registered, List.filter_comm]
  | publish _ event ih =>
      have hsubs : ∀ bus : EventBus, (bus.publish event).2.topicSubs = bus.topicSubs ∧
          (bus.publish event).2.globSubs = bus.globSubs := by
        intro bus
        rw [EventBus.publish]
        dsimp only
        split
        · exact ⟨rfl, rfl⟩
        · exact ⟨rfl, rfl⟩
      rw [(hsubs _).1, (hsubs _).2]
      exact ih
  | drainPrioritized _ _ ih => exact ih

/-! ### Patterns without a wildcard -/

/-- What is in a segment is in the text. -/
theorem mem_of_mem_segments {s : String} {part : List Char} {c : Char} (hpart : part ∈ segments s)
    (hc : c ∈ part) : c ∈ s.toList := by
  have hjoin : ∀ parts : List (List Char), part ∈ parts → c ∈ ['.'].intercalate parts := by
    intro parts hmem
    induction parts with
    | nil => exact absurd hmem List.not_mem_nil
    | cons first parts ih =>
        cases parts with
        | nil =>
            rw [List.intercalate_singleton]
            exact List.mem_singleton.mp hmem ▸ hc
        | cons second parts =>
            rw [List.intercalate_cons_cons, List.mem_append, List.mem_append]
            rcases List.mem_cons.mp hmem with rfl | hmem
            · exact Or.inl (Or.inl hc)
            · exact Or.inr (ih hmem)
  have hjoined : ['.'].intercalate (segments s) = s.toList := List.intercalate_splitOn '.'
  exact hjoined ▸ hjoin _ hpart

theorem segments_injective {s t : String} (h : segments s = segments t) : s = t := by
  have hjoin := congrArg (['.'].intercalate) h
  rw [segments, segments, List.intercalate_splitOn, List.intercalate_splitOn] at hjoin
  exact String.toList_inj.mp hjoin

/-- A pattern without a `*` matches itself and nothing else. -/
theorem topicMatches_of_plain {pattern topic : String} (hplain : '*' ∉ pattern.toList) :
    topicMatches pattern topic = true ↔ pattern = topic := by
  have hstar : pattern ≠ "*" := by
    rintro rfl
    exact hplain (by decide)
  have hpart : ∀ part ∈ segments pattern, part ≠ ['*'] := by
    rintro part hmem rfl
    exact hplain (mem_of_mem_segments hmem List.mem_cons_self)
  have hzip : ∀ parts parts' : List (List Char), (∀ part ∈ parts, part ≠ ['*']) →
      ((parts.length = parts'.length ∧
        (parts.zip parts').all (fun (p, t) => p = ['*'] || p = t) = true) ↔ parts = parts') := by
    intro parts
    induction parts with
    | nil =>
        intro parts' _
        cases parts' <;> simp
    | cons part parts ih =>
        intro parts' hparts
        obtain ⟨hpart, hrest⟩ := List.forall_mem_cons.mp hparts
        cases parts' with
        | nil => simp
        | cons part' parts' =>
            have hih := ih parts' hrest
            simp only [List.length_cons, List.zip_cons_cons, List.all_cons, Bool.and_eq_true,
              Bool.or_eq_true, decide_eq_true_eq, List.cons.injEq, hpart, false_or,
              Nat.add_right_cancel_iff]
            rw [← hih]
            tauto
  have hiff := hzip (segments pattern) (segments topic) hpart
  rw [topicMatches, if_neg hstar]
  constructor
  · intro h
    dsimp only at h
    split at h
    · cases h
    · rename_i hlength
      exact segments_injective (hiff.mp ⟨not_not.mp hlength, h⟩)
  · rintro rfl
    obtain ⟨-, hall⟩ := hiff.mpr rfl
    simpa using hall

/-- A subscription without a `*` is triggered by topics that it lists. -/
theorem mem_topicPatterns_of_hits (hplain : sub.hasGlob = false) (hhits : sub.hits event = true) :
    event.topic ∈ sub.topicPatterns := by
  rw [Subscription.hits, Subscription.accepts] at hhits
  split at hhits
  · cases hhits
  · split at hhits
    · cases hhits
    · split at hhits
      · cases hhits
      · obtain ⟨pat, hpat, hmatch⟩ := List.any_eq_true.mp hhits
        have hstar : '*' ∉ pat.toList := by
          simpa using List.any_eq_false.mp hplain pat hpat
        rwa [(topicMatches_of_plain hstar).mp hmatch] at hpat

/-! ### What publishing triggers -/

theorem copies_cons {α : Type} (f : α → ℕ) (a : α) (l : List α) :
    copies f (a :: l) = List.replicate (f a) a ++ copies f l := rfl

theorem copies_eq_self {α : Type} {f : α → ℕ} {l : List α} (h : ∀ a ∈ l, f a = 1) :
    copies f l = l := by
  induction l with
  | nil => rfl
  | cons a l ih =>
      obtain ⟨ha, hrest⟩ := List.forall_mem_cons.mp h
      rw [copies_cons, ha, ih hrest]
      rfl

theorem length_le_copies {α : Type} {f : α → ℕ} {l : List α} (h : ∀ a ∈ l, 1 ≤ f a) :
    l.length ≤ (copies f l).length := by
  induction l with
  | nil => exact Nat.le_refl _
  | cons a l ih =>
      obtain ⟨ha, hrest⟩ := List.forall_mem_cons.mp h
      have hle := ih hrest
      rw [copies_cons, List.length_append, List.length_replicate, List.length_cons]
      omega

/-- With no fewer than one of each there are as many copies only with one of each. -/
theorem le_one_of_copies {α : Type} {f : α → ℕ} {l : List α} (h : ∀ a ∈ l, 1 ≤ f a)
    (hlength : (copies f l).length = l.length) : ∀ a ∈ l, f a ≤ 1 := by
  induction l with
  | nil => exact fun a ha => absurd ha List.not_mem_nil
  | cons a l ih =>
      obtain ⟨ha, hrest⟩ := List.forall_mem_cons.mp h
      have hle := length_le_copies hrest
      rw [copies_cons, List.length_append, List.length_replicate, List.length_cons] at hlength
      exact List.forall_mem_cons.mpr ⟨by omega, ih hrest (by omega)⟩

theorem publish_fst (bus : EventBus) (event : Event EventBody) :
    (bus.publish event).1 = bus.triggered event := by
  rw [EventBus.publish]
  dsimp only
  split <;> rfl

/-- The plain subscriptions that are hit, each as often as it lists the topic, and the others. -/
theorem EventBus.Run.triggered_eq (h : EventBus.Run calls bus) (event : Event EventBody) :
    bus.triggered event =
      (copies (fun sub => sub.topicPatterns.count event.topic)
          (((registered calls).filter (·.hits event)).filter fun sub => !sub.hasGlob) ++
        ((registered calls).filter (·.hits event)).filter (·.hasGlob)).map (·.pipelineId) := by
  obtain ⟨htopic, hglob⟩ := h.subs_eq
  rw [List.map_append]
  show ((bus.topicSubs event.topic).filter (·.hits event)).map (·.pipelineId) ++
    (bus.globSubs.filter (·.hits event)).map (·.pipelineId) = _
  rw [htopic, hglob, ← indexed_filter, List.filter_comm]
  rfl

theorem EventBus.Run.triggered_eq_nil_iff (h : EventBus.Run calls bus) (event : Event EventBody) :
    bus.triggered event = [] ↔ (registered calls).any (·.hits event) = false := by
  have hany : (registered calls).any (·.hits event) = false ↔
      (registered calls).filter (·.hits event) = [] := by
    rw [List.any_eq_false, List.filter_eq_nil_iff]
  rw [h.triggered_eq, hany]
  constructor
  · intro hnone
    refine List.eq_nil_iff_forall_not_mem.mpr fun sub hsub => ?_
    obtain ⟨hplain, hglob⟩ := List.append_eq_nil_iff.mp (List.map_eq_nil_iff.mp hnone)
    cases hstar : sub.hasGlob with
    | true => exact List.filter_eq_nil_iff.mp hglob sub hsub hstar
    | false =>
        -- a plain one is there as often as it lists the topic
        have hcopy : sub ∈ copies (fun sub => sub.topicPatterns.count event.topic)
            (((registered calls).filter (·.hits event)).filter fun sub => !sub.hasGlob) := by
          refine List.mem_flatMap.mpr ⟨sub, List.mem_filter.mpr ⟨hsub, by rw [hstar]; rfl⟩, ?_⟩
          refine List.mem_replicate.mpr ⟨?_, rfl⟩
          have hlisted := mem_topicPatterns_of_hits hstar (List.mem_filter.mp hsub).2
          exact (List.count_pos_iff.mpr hlisted).ne'
        rw [hplain] at hcopy
        exact List.not_mem_nil hcopy
  · intro hnone
    rw [hnone]
    rfl

/-- **An event triggers one entry for each registered subscription that it matches**, exactly if no
such subscription lists the topic, without any `*`, more than once. -/
theorem publish_perm_iff (h : EventBus.Run calls bus) (event : Event EventBody) :
    (bus.publish event).1.Perm (((registered calls).filter (·.hits event)).map (·.pipelineId)) ↔
      ∀ sub ∈ registered calls, sub.hits event = true → sub.hasGlob = false →
        sub.topicPatterns.count event.topic ≤ 1 := by
  obtain ⟨hit, hhit⟩ : ∃ hit, hit = (registered calls).filter (·.hits event) := ⟨_, rfl⟩
  have hsplit : ((hit.filter fun sub => !sub.hasGlob) ++ hit.filter (·.hasGlob)).Perm hit := by
    refine List.perm_append_comm.trans ?_
    exact List.filter_append_perm (·.hasGlob) hit
  have hlisted : ∀ sub ∈ hit.filter fun sub => !sub.hasGlob,
      1 ≤ sub.topicPatterns.count event.topic := by
    intro sub hsub
    obtain ⟨hmem, hplain⟩ := List.mem_filter.mp hsub
    rw [hhit] at hmem
    exact List.count_pos_iff.mpr
      (mem_topicPatterns_of_hits (by simpa using hplain) (List.mem_filter.mp hmem).2)
  rw [publish_fst, h.triggered_eq, ← hhit]
  constructor
  · intro hperm sub hsub hhits hplain
    have hlength := (hperm.trans (hsplit.map (·.pipelineId)).symm).length_eq
    simp only [List.length_map, List.length_append, Nat.add_right_cancel_iff] at hlength
    refine le_one_of_copies hlisted hlength sub (List.mem_filter.mpr ⟨?_, by rw [hplain]; rfl⟩)
    exact hhit ▸ List.mem_filter.mpr ⟨hsub, hhits⟩
  · intro honce
    rw [copies_eq_self]
    · exact hsplit.map (·.pipelineId)
    · intro sub hsub
      refine Nat.le_antisymm ?_ (hlisted sub hsub)
      obtain ⟨hmem, hplain⟩ := List.mem_filter.mp hsub
      rw [hhit] at hmem
      obtain ⟨hmem, hhits⟩ := List.mem_filter.mp hmem
      exact honce sub hmem hhits (by simpa using hplain)

/-- A subscription with some patterns. -/
def alertSub (topicPatterns : List String) : Subscription :=
  ⟨"s", topicPatterns, [], none, "triage", true⟩

def alert : Event EventBody := ⟨"alerts", 0, ⟨.messageReceived, .urgent⟩⟩

theorem publish_perm_iff_alert : ((EventBus.new 8).subscribe (alertSub ["alerts"]) |>.publish
    alert).1.Perm (([alertSub ["alerts"]].filter (·.hits alert)).map (·.pipelineId)) :=
  (publish_perm_iff (.subscribe (.new 8) (alertSub ["alerts"])) alert).mpr (by decide +kernel)

/-- **A pattern that is listed twice triggers the pipeline twice.** -/
theorem publish_twice : ∃ calls bus, EventBus.Run calls bus ∧
    (registered calls).map (·.id) = ["s"] ∧ (bus.publish alert).1 = ["triage", "triage"] ∧
    ¬ (bus.publish alert).1.Perm (((registered calls).filter (·.hits alert)).map (·.pipelineId)) :=
  ⟨_, _, .subscribe (.new 8) (alertSub ["alerts", "alerts"]), by decide, by decide +kernel,
    by decide +kernel⟩

end ClawDesk.Bus
