import ClawDesk.Foundations.Fold
import Mathlib.Data.Int.Notation
import Mathlib.Data.List.AList

/-!
# The announce store

Announcements are queued until they are delivered.  `dequeue_ready` takes one out of
the pending list, and `retry` is to put it back when the delivery did not succeed;
but `retry` looks for it in the pending list, where it is not.

An announcement is pending, or in flight, or marked as long as nobody asks for a retry
of one that is in flight.  Those retries are refused, every one of them, and the
announcement is in neither place afterwards (`lossless_iff`).
-/

namespace ClawDesk.Acp

open Foundations

/-! ### Announcements -/

/-- Delivery target: channels, webhooks, and agents. -/
inductive DurableDeliveryTarget where
  | channel (channelId sessionId : String)
  | webhook (url : String) (headers : AList fun _ : String => String)
  | agent (agentId taskId : String)

/-- Payload types for delivery. -/
inductive DurablePayload where
  | taskCompleted (result : String)
  | taskFailed (error : String)
  | inputRequired (prompt : String)
  | progress (message : String) (percent : Option Float)
  | artifactReady (artifactId name : String)

/-- A durable announcement queued for delivery. -/
structure DurableAnnouncement where
  id : String
  taskId : String
  sourceAgent : String
  target : DurableDeliveryTarget
  payload : DurablePayload
  attempts : UInt32
  maxAttempts : UInt32
  readyAt : ℤ
  createdAt : ℤ
  lineageNodeId : Option String

/-- Record of a completed delivery. -/
structure DeliveryRecord where
  announcementId : String
  deliveredAt : ℤ
  targetSummary : String
  attemptsUsed : UInt32

inductive AnnounceStoreError where
  | storage (e : String)
  | notFound (e : String)
  | serialization (e : String)
  deriving DecidableEq

/-! ### The store -/

/-- In-memory announce store. -/
structure InMemoryAnnounceStore where
  pending : List DurableAnnouncement
  delivered : AList fun _ : String => DeliveryRecord

/-- What an operation answers.  Only `dequeue_ready` has something to return. -/
abbrev Answer := Except AnnounceStoreError (Option DurableAnnouncement)

namespace InMemoryAnnounceStore

def new : InMemoryAnnounceStore where
  pending := []
  delivered := ∅

def enqueue (store : InMemoryAnnounceStore) (announcement : DurableAnnouncement) :
    Answer × InMemoryAnnounceStore :=
  (.ok none, { store with pending := store.pending ++ [announcement] })

/-- Dequeue the next ready announcement. -/
def dequeueReady (store : InMemoryAnnounceStore) (now : ℤ) : Answer × InMemoryAnnounceStore :=
  match store.pending.find? fun a => a.readyAt ≤ now with
  | some a => (.ok (some a),
      { store with pending := store.pending.eraseP fun a => a.readyAt ≤ now })
  | none => (.ok none, store)

/-- Mark an announcement as delivered. -/
def markDelivered (store : InMemoryAnnounceStore) (announcementId : String) (now : ℤ) :
    Answer × InMemoryAnnounceStore :=
  (.ok none,
    { pending := store.pending.filter fun a => a.id ≠ announcementId
      delivered := store.delivered.insert announcementId
        { announcementId := announcementId
          deliveredAt := now
          targetSummary := "delivered"
          attemptsUsed := 1 } })

/-- `iter_mut().find(..)` and the two assignments: the first announcement with the id is
due again at the given time, after one more attempt. -/
def retryFirst (announcementId : String) (nextReadyAt : ℤ) :
    List DurableAnnouncement → Option (List DurableAnnouncement)
  | [] => none
  | a :: rest =>
      if a.id = announcementId then
        some ({ a with attempts := a.attempts + 1, readyAt := nextReadyAt } :: rest)
      else (retryFirst announcementId nextReadyAt rest).map (a :: ·)

/-- Return an announcement to the queue with an incremented attempt count. -/
def retry (store : InMemoryAnnounceStore) (announcementId : String) (nextReadyAt : ℤ) :
    Answer × InMemoryAnnounceStore :=
  match retryFirst announcementId nextReadyAt store.pending with
  | some pending => (.ok none, { store with pending := pending })
  | none => (.error (.notFound announcementId), store)

/-- Mark an announcement as permanently failed. -/
def markFailed (store : InMemoryAnnounceStore) (announcementId _error : String) :
    Answer × InMemoryAnnounceStore :=
  (.ok none, { store with pending := store.pending.filter fun a => a.id ≠ announcementId })

end InMemoryAnnounceStore

/-! ### Calls and what they should do -/

/-- A call, with the time it reads. -/
inductive AnnounceCall where
  | enqueue (announcement : DurableAnnouncement)
  | dequeueReady (now : ℤ)
  | retry (announcementId : String) (nextReadyAt : ℤ)
  | markDelivered (announcementId : String) (now : ℤ)
  | markFailed (announcementId error : String)

namespace InMemoryAnnounceStore

def perform (store : InMemoryAnnounceStore) : AnnounceCall → Answer × InMemoryAnnounceStore
  | .enqueue announcement => store.enqueue announcement
  | .dequeueReady now => store.dequeueReady now
  | .retry announcementId nextReadyAt => store.retry announcementId nextReadyAt
  | .markDelivered announcementId now => store.markDelivered announcementId now
  | .markFailed announcementId error => store.markFailed announcementId error

/-- Calls and their answers, the last one first. -/
abbrev Log := List (AnnounceCall × Answer)

/-- One more call. -/
def feed (st : InMemoryAnnounceStore × Log) (call : AnnounceCall) : InMemoryAnnounceStore × Log :=
  let (answer, store) := st.1.perform call
  (store, (call, answer) :: st.2)

variable {id : String} {log : Log} {call : AnnounceCall} {answer : Answer}

def Enqueued (id : String) (log : Log) : Prop := ∃ e ∈ log, ∃ a, e.1 = .enqueue a ∧ a.id = id

def Delivered (id : String) (log : Log) : Prop := ∃ e ∈ log, ∃ now, e.1 = .markDelivered id now

def Failed (id : String) (log : Log) : Prop := ∃ e ∈ log, ∃ error, e.1 = .markFailed id error

/-- The announcement has neither been marked delivered nor failed. -/
def Unmarked (id : String) (log : Log) : Prop := ¬ Delivered id log ∧ ¬ Failed id log

/-- The announcement with the id, as `dequeue_ready` returned it, until a retry is asked
for. -/
def inFlight (id : String) : Log → Option DurableAnnouncement
  | [] => none
  | (.dequeueReady _, .ok (some a)) :: log => if a.id = id then some a else inFlight id log
  | (.retry announcementId _, _) :: log => if announcementId = id then none else inFlight id log
  | _ :: log => inFlight id log

/-- The announcement was enqueued although its id had been marked delivered. -/
def Late (id : String) : Log → Prop
  | [] => False
  | e :: log => ((∃ a, e.1 = .enqueue a ∧ a.id = id) ∧ Delivered id log) ∨ Late id log

/-- What is enqueued and not marked is pending or in flight. -/
def Kept (st : InMemoryAnnounceStore × Log) : Prop :=
  ∀ id, Enqueued id st.2 → Unmarked id st.2 →
    id ∈ st.1.pending.map (·.id) ∨ (inFlight id st.2).isSome = true

/-- What a call is to keep. -/
structure AtLeastOnce (st : InMemoryAnnounceStore × Log) (call : AnnounceCall) : Prop where
  kept : Kept (feed st call)
  retried : ∀ id next a, call = .retry id next → Unmarked id st.2 → inFlight id st.2 = some a →
    (st.1.perform call).1 = .ok none ∧
      { a with attempts := a.attempts + 1, readyAt := next } ∈ (feed st call).1.pending
  quiet : ∀ now a, call = .dequeueReady now → (st.1.perform call).1 = .ok (some a) →
    ¬ Delivered a.id st.2

/-- No retry is asked for an announcement that is in flight, and none is due whose id
was marked delivered before it was enqueued. -/
def Regular (st : InMemoryAnnounceStore × Log) : AnnounceCall → Prop
  | .retry id _ => Unmarked id st.2 → inFlight id st.2 = none
  | .dequeueReady now =>
      ∀ a, st.1.pending.find? (fun a => a.readyAt ≤ now) = some a → ¬ Late a.id st.2
  | _ => True

/-! ### What the operations do -/

variable {store : InMemoryAnnounceStore} {now next : ℤ}

/-- `dequeue_ready` takes one announcement out of the list, if any is ready. -/
theorem dequeueReady_cases (store : InMemoryAnnounceStore) (now : ℤ) :
    store.dequeueReady now = (.ok none, store) ∨
    ∃ before a after, store.pending.find? (fun a => a.readyAt ≤ now) = some a ∧
      store.pending = before ++ a :: after ∧
      store.dequeueReady now = (.ok (some a), { store with pending := before ++ after }) := by
  unfold dequeueReady
  split
  · next a hfind =>
      obtain ⟨hready, before, after, hpending, hearlier⟩ := List.find?_eq_some_iff_append.mp hfind
      refine .inr ⟨before, a, after, hfind, hpending, ?_⟩
      have hfirst : (a :: after).eraseP (fun a => a.readyAt ≤ now) = after :=
        List.eraseP_cons_of_pos hready
      rw [hpending, List.eraseP_append_right _ fun b hb => by simpa using hearlier b hb, hfirst]
  · exact .inl rfl

/-- `retry` finds the announcement in the list, or answers that there is none. -/
theorem retry_cases (store : InMemoryAnnounceStore) (id : String) (next : ℤ) :
    (id ∉ store.pending.map (·.id) ∧ store.retry id next = (.error (.notFound id), store)) ∨
    ∃ pending, id ∈ store.pending.map (·.id) ∧ pending.map (·.id) = store.pending.map (·.id) ∧
      store.retry id next = (.ok none, { store with pending := pending }) := by
  have hfirst (pending : List DurableAnnouncement) :
      (id ∉ pending.map (·.id) ∧ retryFirst id next pending = none) ∨
      ∃ pending', id ∈ pending.map (·.id) ∧ pending'.map (·.id) = pending.map (·.id) ∧
        retryFirst id next pending = some pending' := by
    induction pending with
    | nil => exact .inl ⟨List.not_mem_nil, rfl⟩
    | cons a rest ih =>
        unfold retryFirst
        by_cases ha : a.id = id
        · rw [if_pos ha]
          exact .inr ⟨_, by simp [ha], by simp, rfl⟩
        · rw [if_neg ha]
          rcases ih with ⟨hout, hnone⟩ | ⟨rest', hin, hids, hsome⟩
          · rw [hnone]
            exact .inl ⟨by simpa [Ne.symm ha] using hout, rfl⟩
          · rw [hsome]
            exact .inr ⟨a :: rest', List.mem_cons_of_mem _ hin, by simp [hids], rfl⟩
  unfold retry
  rcases hfirst store.pending with ⟨hout, hnone⟩ | ⟨pending, hin, hids, hsome⟩
  · rw [hnone]
    exact .inl ⟨hout, rfl⟩
  · rw [hsome]
    exact .inr ⟨pending, hin, hids, rfl⟩

/-! ### The log -/

theorem enqueued_cons : Enqueued id ((call, answer) :: log) ↔
    (∃ a, call = .enqueue a ∧ a.id = id) ∨ Enqueued id log :=
  List.exists_mem_cons_iff ..

theorem delivered_cons : Delivered id ((call, answer) :: log) ↔
    (∃ now, call = .markDelivered id now) ∨ Delivered id log :=
  List.exists_mem_cons_iff ..

theorem failed_cons : Failed id ((call, answer) :: log) ↔
    (∃ error, call = .markFailed id error) ∨ Failed id log :=
  List.exists_mem_cons_iff ..

theorem Unmarked.of_cons (h : Unmarked id ((call, answer) :: log)) : Unmarked id log :=
  ⟨fun hd => h.1 (delivered_cons.mpr (.inr hd)), fun hf => h.2 (failed_cons.mpr (.inr hf))⟩

/-- Only what was marked before is late. -/
theorem Late.delivered (h : Late id log) : Delivered id log := by
  induction log with
  | nil => exact h.elim
  | cons e log ih =>
      rcases h with ⟨-, hdelivered⟩ | hlate
      · exact delivered_cons.mpr (.inr hdelivered)
      · exact delivered_cons.mpr (.inr (ih hlate))

/-! ### What every call keeps -/

variable {st : InMemoryAnnounceStore × Log}

/-- The ids of the announcements that are pending. -/
def ids (store : InMemoryAnnounceStore) : List String := store.pending.map (·.id)

/-- An announcement that is in flight is not pending, and ids are pending once. -/
structure Tracks (st : InMemoryAnnounceStore × Log) : Prop where
  nodup : st.1.ids.Nodup
  enqueued : ∀ id ∈ st.1.ids, Enqueued id st.2
  away : ∀ id, (inFlight id st.2).isSome = true → Enqueued id st.2 ∧ id ∉ st.1.ids
  late : ∀ id ∈ st.1.ids, Delivered id st.2 → Late id st.2

theorem tracks_new : Tracks (new, []) where
  nodup := List.nodup_nil
  enqueued _ h := absurd h List.not_mem_nil
  away _ h := absurd h Bool.false_ne_true
  late _ h := absurd h List.not_mem_nil

/-- A call that leaves the ids as they are, or removes some. -/
theorem Tracks.sublist (h : Tracks st) (hids : store.ids.Sublist st.1.ids)
    (hflight : ∀ id, inFlight id ((call, answer) :: st.2) = none ∨
      inFlight id ((call, answer) :: st.2) = inFlight id st.2 ∨
      id ∈ st.1.ids ∧ id ∉ store.ids)
    (hmark : ∀ id now, call = .markDelivered id now → id ∉ store.ids) :
    Tracks (store, (call, answer) :: st.2) where
  nodup := hids.nodup h.nodup
  enqueued id hid := enqueued_cons.mpr (.inr (h.enqueued id (hids.subset hid)))
  away id hsome := by
    rcases hflight id with hnone | hsame | ⟨hin, hout⟩
    · rw [hnone] at hsome
      exact absurd hsome Bool.false_ne_true
    · rw [hsame] at hsome
      obtain ⟨henqueued, hout⟩ := h.away id hsome
      exact ⟨enqueued_cons.mpr (.inr henqueued), fun hid => hout (hids.subset hid)⟩
    · exact ⟨enqueued_cons.mpr (.inr (h.enqueued id hin)), hout⟩
  late id hid hdelivered := by
    rcases delivered_cons.mp hdelivered with ⟨now, rfl⟩ | hdelivered
    · exact absurd hid (hmark id now rfl)
    · exact .inr (h.late id (hids.subset hid) hdelivered)

theorem ids_enqueue (store : InMemoryAnnounceStore) (a : DurableAnnouncement) :
    (store.enqueue a).2.ids = store.ids ++ [a.id] := List.map_append

theorem ids_retry (store : InMemoryAnnounceStore) (id : String) (next : ℤ) :
    (store.retry id next).2.ids = store.ids := by
  rcases retry_cases store id next with ⟨-, heq⟩ | ⟨pending, -, hids, heq⟩
  · rw [heq]
  · rw [heq]
    exact hids

theorem ids_filter (store : InMemoryAnnounceStore) (id : String) :
    (store.pending.filter fun a => a.id ≠ id).map (·.id) = store.ids.filter fun i => i ≠ id := by
  unfold ids
  rw [List.filter_map]
  rfl

/-- A fresh id joins the others. -/
theorem Tracks.onEnqueue {a : DurableAnnouncement} (h : Tracks st) (hfresh : ¬ Enqueued a.id st.2) :
    Tracks (feed st (.enqueue a)) := by
  have hnew : a.id ∉ st.1.ids := fun hid => hfresh (h.enqueued _ hid)
  have hmem (id : String) : id ∈ (st.1.enqueue a).2.ids ↔ id ∈ st.1.ids ∨ id = a.id := by
    rw [ids_enqueue, List.mem_append, List.mem_singleton]
  refine ⟨?_, fun id hid => ?_, fun id hsome => ?_, fun id hid hdelivered => ?_⟩
  · show (st.1.enqueue a).2.ids.Nodup
    rw [ids_enqueue]
    exact List.nodup_append.mpr ⟨h.nodup, List.nodup_singleton _, by grind⟩
  · rcases (hmem id).mp hid with hid | rfl
    · exact enqueued_cons.mpr (.inr (h.enqueued id hid))
    · exact enqueued_cons.mpr (.inl ⟨a, rfl, rfl⟩)
  · obtain ⟨henqueued, hout⟩ := h.away id hsome
    refine ⟨enqueued_cons.mpr (.inr henqueued), fun hid => ?_⟩
    rcases (hmem id).mp hid with hid | rfl
    · exact hout hid
    · exact hfresh henqueued
  · have hbefore : Delivered id st.2 := by
      rcases delivered_cons.mp hdelivered with ⟨now, hcall⟩ | hbefore
      · cases hcall
      · exact hbefore
    rcases (hmem id).mp hid with hid | rfl
    · exact .inr (h.late id hid hbefore)
    · exact .inl ⟨⟨a, rfl, rfl⟩, hbefore⟩

/-- What is handed out is in flight. -/
theorem Tracks.onDequeueReady (h : Tracks st) (now : ℤ) : Tracks (feed st (.dequeueReady now)) := by
  unfold feed perform
  dsimp only
  rcases dequeueReady_cases st.1 now with hnone | ⟨before, a, after, -, hpending, hsome⟩
  · rw [hnone]
    exact h.sublist (List.Sublist.refl _) (fun _ => .inr (.inl rfl))
      (fun _ _ hcall => by cases hcall)
  · rw [hsome]
    have hids : st.1.ids = before.map (·.id) ++ a.id :: after.map (·.id) := by
      rw [ids, hpending, List.map_append, List.map_cons]
    have hafter : ids { st.1 with pending := before ++ after } =
        before.map (·.id) ++ after.map (·.id) := List.map_append
    refine h.sublist ?_ (fun id => ?_) (fun _ _ hcall => by cases hcall)
    · rw [hids, hafter]
      exact (List.Sublist.refl _).append (List.sublist_cons_self _ _)
    · by_cases hid : a.id = id
      · subst hid
        have hnodup := h.nodup
        rw [hids, List.nodup_middle, List.nodup_cons] at hnodup
        exact .inr (.inr ⟨by simp [hids], hafter ▸ hnodup.1⟩)
      · exact .inr (.inl (if_neg hid))

/-- **One call** with a fresh id, if it enqueues. -/
theorem Tracks.step (h : Tracks st) (hfresh : ∀ a, call = .enqueue a → ¬ Enqueued a.id st.2) :
    Tracks (feed st call) := by
  cases call with
  | enqueue a => exact h.onEnqueue (hfresh a rfl)
  | dequeueReady now => exact h.onDequeueReady now
  | retry id next =>
      refine h.sublist ?_ (fun i => ?_) fun _ _ hcall => by cases hcall
      · exact (ids_retry st.1 id next).symm ▸ List.Sublist.refl _
      · by_cases hid : id = i
        · exact .inl (if_pos hid)
        · exact .inr (.inl (if_neg hid))
  | markDelivered id now =>
      refine h.sublist ?_ (fun _ => .inr (.inl rfl)) fun i _ hcall => ?_
      · rw [ids, ids_filter]
        exact List.filter_sublist
      · cases hcall
        rw [ids, ids_filter]
        simp
  | markFailed id error =>
      refine h.sublist ?_ (fun _ => .inr (.inl rfl)) fun _ _ hcall => by cases hcall
      rw [ids, ids_filter]
      exact List.filter_sublist

/-- A call that is no `enqueue`, seen from an announcement that stays unmarked. -/
theorem Kept.elim (h : Kept st) (hcall : ∀ a, call ≠ .enqueue a)
    (henqueued : Enqueued id ((call, answer) :: st.2))
    (hunmarked : Unmarked id ((call, answer) :: st.2)) :
    id ∈ st.1.ids ∨ (inFlight id st.2).isSome = true := by
  rcases enqueued_cons.mp henqueued with ⟨a, heq, -⟩ | hbefore
  · exact absurd heq (hcall a)
  · exact h id hbefore hunmarked.of_cons

/-- **A regular call loses nothing.** -/
theorem Kept.step (h : Kept st) (hregular : Regular st call) : Kept (feed st call) := by
  intro id henqueued hunmarked
  cases call with
  | enqueue a =>
      show id ∈ (st.1.pending ++ [a]).map (·.id) ∨ (inFlight id st.2).isSome = true
      rw [List.map_append, List.mem_append]
      rcases enqueued_cons.mp henqueued with ⟨a', heq, rfl⟩ | hbefore
      · cases heq
        exact .inl (.inr (List.mem_singleton_self _))
      · exact (h id hbefore hunmarked.of_cons).imp_left .inl
  | dequeueReady now =>
      have hbefore := h.elim (by simp) henqueued hunmarked
      unfold feed perform
      dsimp only
      rcases dequeueReady_cases st.1 now with hnone | ⟨before, a, after, -, hpending, hsome⟩
      · rw [hnone]
        exact hbefore
      · rw [hsome]
        show id ∈ (before ++ after).map (·.id) ∨
          (if a.id = id then some a else inFlight id st.2).isSome = true
        by_cases hid : a.id = id
        · rw [if_pos hid]
          exact .inr rfl
        · rw [if_neg hid]
          refine hbefore.imp_left fun hin => ?_
          rw [ids, hpending] at hin
          simpa [Ne.symm hid] using hin
  | retry i next =>
      have hbefore := h.elim (by simp) henqueued hunmarked
      -- the list keeps its ids, and what is in flight is not asked for
      show id ∈ (st.1.retry i next).2.ids ∨
        (if i = id then none else inFlight id st.2).isSome = true
      rw [ids_retry]
      by_cases hid : i = id
      · subst hid
        refine .inl (hbefore.resolve_right fun hsome => ?_)
        rw [hregular hunmarked.of_cons] at hsome
        exact Bool.false_ne_true hsome
      · rw [if_neg hid]
        exact hbefore
  | markDelivered i now =>
      refine (h.elim (by simp) henqueued hunmarked).imp_left fun hin => ?_
      have hne : id ≠ i := fun heq => hunmarked.1 (delivered_cons.mpr (.inl ⟨now, by rw [heq]⟩))
      show id ∈ List.map _ (List.filter _ _)
      rw [ids_filter]
      exact List.mem_filter.mpr ⟨hin, decide_eq_true hne⟩
  | markFailed i error =>
      refine (h.elim (by simp) henqueued hunmarked).imp_left fun hin => ?_
      have hne : id ≠ i := fun heq => hunmarked.2 (failed_cons.mpr (.inl ⟨error, by rw [heq]⟩))
      show id ∈ List.map _ (List.filter _ _)
      rw [ids_filter]
      exact List.mem_filter.mpr ⟨hin, decide_eq_true hne⟩

/-- **A retry of what is in flight is refused.** -/
theorem Tracks.retry_of_inFlight (h : Tracks st) (hflight : (inFlight id st.2).isSome = true)
    (next : ℤ) : st.1.retry id next = (.error (.notFound id), st.1) := by
  rcases retry_cases st.1 id next with ⟨-, heq⟩ | ⟨-, hin, -⟩
  · exact heq
  · exact absurd hin (h.away id hflight).2

theorem Tracks.atLeastOnce_iff (h : Tracks st) (hkept : Kept st) :
    AtLeastOnce st call ↔ Regular st call := by
  constructor
  · intro hcall
    cases call with
    | retry id next =>
        intro hunmarked
        by_contra hsome
        obtain ⟨a, ha⟩ := Option.ne_none_iff_exists'.mp hsome
        obtain ⟨hok, -⟩ := hcall.retried id next a rfl hunmarked ha
        have hrefused := h.retry_of_inFlight (by rw [ha]; rfl) next
        rw [perform, hrefused] at hok
        cases hok
    | dequeueReady now =>
        intro a hfind hlate
        refine hcall.quiet now a rfl ?_ hlate.delivered
        rw [perform, dequeueReady, hfind]
    | _ => trivial
  · intro hregular
    refine ⟨hkept.step hregular, ?_, ?_⟩
    · rintro id next a rfl hunmarked hsome
      rw [hregular hunmarked] at hsome
      cases hsome
    · rintro now a rfl hanswer hdelivered
      rcases dequeueReady_cases st.1 now with hnone | ⟨before, a', after, hfind, hpending, hsome⟩
      · rw [perform, hnone] at hanswer
        cases hanswer
      · rw [perform, hsome] at hanswer
        cases hanswer
        exact hregular a hfind (h.late a.id (by simp [ids, hpending]) hdelivered)

/-! ### Every sequence of calls -/

section Runs

variable {calls : List AnnounceCall}

/-- No two announcements are enqueued under one id. -/
def UniqueIds (calls : List AnnounceCall) : Prop :=
  calls.Pairwise fun c d => ∀ a b, c = .enqueue a → d = .enqueue b → a.id ≠ b.id

theorem enqueued_foldl (h : Enqueued id (calls.foldl feed st).2) :
    (∃ a, .enqueue a ∈ calls ∧ a.id = id) ∨ Enqueued id st.2 := by
  induction calls generalizing st with
  | nil => exact .inr h
  | cons call calls ih =>
      rcases ih h with ⟨a, ha, hid⟩ | hfed
      · exact .inl ⟨a, List.mem_cons_of_mem _ ha, hid⟩
      · rcases enqueued_cons.mp hfed with ⟨a, rfl, hid⟩ | hbefore
        · exact .inl ⟨a, List.mem_cons_self, hid⟩
        · exact .inr hbefore

/-- Ids that are unique are fresh when they are enqueued. -/
theorem UniqueIds.fresh (h : UniqueIds calls) : EachStep feed (new, []) calls
    fun st call => ∀ a, call = .enqueue a → ¬ Enqueued a.id st.2 := by
  rintro before call after rfl a rfl henqueued
  rcases enqueued_foldl henqueued with ⟨b, hb, hid⟩ | ⟨e, he, -⟩
  · exact (List.pairwise_append.mp h).2.2 _ hb _ List.mem_cons_self b a rfl rfl hid
  · exact absurd he List.not_mem_nil

/-- **Nothing is lost, and nothing comes back, exactly when no retry is asked for what is
in flight**, and nothing is due that was marked delivered before it was enqueued. -/
theorem lossless_iff (hunique : UniqueIds calls) :
    EachStep feed (new, []) calls AtLeastOnce ↔ EachStep feed (new, []) calls Regular :=
  eachStep_congr (fun st => Tracks st ∧ Kept st) hunique.fresh
    ⟨tracks_new, fun _ ⟨_, he, _⟩ => absurd he List.not_mem_nil⟩
    (fun _ _ ⟨htracks, hkept⟩ hfresh hregular => ⟨htracks.step hfresh, hkept.step hregular⟩)
    fun _ _ ⟨htracks, hkept⟩ _ => htracks.atLeastOnce_iff hkept

/-- An announcement that is due at once. -/
def anAnnouncement : DurableAnnouncement where
  id := "a"
  taskId := "t"
  sourceAgent := "agent"
  target := .agent "b" "t"
  payload := .taskCompleted "done"
  attempts := 0
  maxAttempts := 3
  readyAt := 0
  createdAt := 0
  lineageNodeId := none

/-- A delivery that succeeds is regular. -/
theorem lossless_delivered : EachStep feed (new, [])
    [.enqueue anAnnouncement, .dequeueReady 1, .markDelivered "a" 2] AtLeastOnce := by
  refine (lossless_iff (by simp [UniqueIds])).mpr ?_
  refine eachStep_cons.mpr
    ⟨trivial, eachStep_cons.mpr ⟨?_, eachStep_cons.mpr ⟨trivial, eachStep_nil⟩⟩⟩
  rintro a - (⟨-, e, he, -⟩ | hlate)
  · exact absurd he List.not_mem_nil
  · exact hlate

/-- **The retry is refused, and the announcement is lost.** -/
theorem retry_lost : ¬ EachStep feed (new, [])
    [.enqueue anAnnouncement, .dequeueReady 1, .retry "a" 2] AtLeastOnce := by
  intro h
  have hcall := h [.enqueue anAnnouncement, .dequeueReady 1] (.retry "a" 2) [] rfl
  obtain ⟨hok, -⟩ := hcall.retried "a" 2 anAnnouncement rfl
    ⟨by simp [feed, Delivered], by simp [feed, Failed]⟩ rfl
  cases hok

end Runs

end InMemoryAnnounceStore

end ClawDesk.Acp
