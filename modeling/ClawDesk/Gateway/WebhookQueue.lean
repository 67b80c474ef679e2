import ClawDesk.Foundations.Fold
import ClawDesk.Foundations.Json
import ClawDesk.Foundations.Program
import Mathlib.Algebra.Group.Nat.Defs
import Mathlib.Data.Int.Notation
import Mathlib.Data.List.AList

/-!
# The webhook delivery queue

Envelopes wait under `webhook:outbox:` until they are acknowledged, and under
`webhook:dlq:` when their attempts are exhausted.  A call is a program over the
operations of the store, each of which is atomic, may fail, and may be the last one
before the process stops.

An envelope that is neither acknowledged nor purged is under one of the two prefixes
after every call and after every stop, as long as no stop and no failure comes between
the two operations of `dead_letter`, which deletes before it puts (`intact_iff`).
`retry_from_dlq` moves in the other order.
-/

namespace ClawDesk.Gateway

open Foundations

/-! ### Envelopes -/

/-- A webhook delivery envelope. -/
structure DeliveryEnvelope where
  deliveryId : String
  url : String
  secret : String
  payload : Json
  eventType : String
  attempts : UInt32
  maxAttempts : UInt32
  createdAt : ℤ
  nextAttemptAt : ℤ
  lastError : Option String
  lastStatus : Option ℕ

/-- Compute the next retry time, in seconds: `min(base × 2^attempt, max_backoff)` and a
jitter from the length of the id. -/
def DeliveryEnvelope.computeBackoff (envelope : DeliveryEnvelope) : ℕ :=
  let exp := 5 * 2 ^ (min envelope.attempts.toNat 6)
  let capped := min exp 300
  let jitterPct := envelope.deliveryId.utf8ByteSize % 20
  capped + capped * jitterPct / 100

/-- The two key prefixes, `webhook:outbox:` and `webhook:dlq:`. -/
inductive Place where
  | outbox
  | dlq
  deriving DecidableEq

/-! ### Operations -/

/-- What the queue and its worker ask for. -/
inductive QueueOp where
  | get (place : Place) (deliveryId : String)
  | put (place : Place) (envelope : DeliveryEnvelope)
  | delete (place : Place) (deliveryId : String)
  | deletePrefix (place : Place)
  /-- The HTTP request. -/
  | send (envelope : DeliveryEnvelope)

@[reducible] def QueueOp.Res : QueueOp → Type
  | get _ _ => Except String (Option DeliveryEnvelope)
  | put _ _ => Except String Unit
  | delete _ _ => Except String Unit
  | deletePrefix _ => Except String ℕ
  | send _ => Except String ℕ

abbrev QueueProc (α : Type) := Prog QueueOp QueueOp.Res α

namespace WebhookDeliveryQueue

/-- Enqueue a new delivery. -/
def enqueue (envelope : DeliveryEnvelope) : QueueProc (Except String Unit) :=
  Prog.mapError (.ask (QueueOp.put .outbox envelope)) ("persist: " ++ ·)

/-- Acknowledge successful delivery: remove from outbox. -/
def ack (deliveryId : String) : QueueProc (Except String Unit) :=
  (Prog.ask (QueueOp.delete .outbox deliveryId)).bind fun _ => .ret (.ok ())

/-- Update an envelope after a failed attempt. -/
def retry (envelope : DeliveryEnvelope) (now : ℤ) : QueueProc (Except String Unit) :=
  let envelope := { envelope with attempts := envelope.attempts + 1 }
  let envelope := { envelope with nextAttemptAt := now + envelope.computeBackoff }
  Prog.mapError (.ask (QueueOp.put .outbox envelope)) ("persist: " ++ ·)

/-- Move an envelope to the dead letter queue. -/
def deadLetter (envelope : DeliveryEnvelope) : QueueProc (Except String Unit) :=
  -- remove from outbox
  (Prog.ask (QueueOp.delete .outbox envelope.deliveryId)).bind fun _ =>
  -- persist to DLQ
  Prog.mapError (.ask (QueueOp.put .dlq envelope)) ("persist: " ++ ·)

/-- The end of `retry_from_dlq`. -/
def moveToOutbox (deliveryId : String) (envelope : DeliveryEnvelope) :
    QueueProc (Except String Unit) :=
  (Prog.mapError (.ask (QueueOp.put .outbox envelope)) ("persist: " ++ ·)).andThen fun _ =>
  (Prog.ask (QueueOp.delete .dlq deliveryId)).bind fun _ => .ret (.ok ())

/-- Retry a dead-lettered delivery (move back to outbox). -/
def retryFromDlq (deliveryId : String) (now : ℤ) : QueueProc (Except String Unit) :=
  (Prog.mapError (.ask (QueueOp.get .dlq deliveryId)) ("read: " ++ ·)).andThen fun
    | none => .ret (.error ("DLQ entry not found: " ++ deliveryId))
    | some envelope => moveToOutbox deliveryId { envelope with
        attempts := 0
        nextAttemptAt := now
        lastError := none
        lastStatus := none }

/-- Purge all dead-lettered entries. -/
def purgeDlq : QueueProc (Except String ℕ) :=
  Prog.mapError (.ask (QueueOp.deletePrefix .dlq)) ("purge: " ++ ·)

/-- The end of `deliver_one` when the delivery has failed. -/
def deliverFailed (envelope : DeliveryEnvelope) (now : ℤ) : QueueProc Unit :=
  if envelope.maxAttempts ≤ envelope.attempts + 1 then
    (deadLetter { envelope with attempts := envelope.attempts + 1 }).bind fun _ => .ret ()
  else (retry envelope now).bind fun _ => .ret ()

/-- A 2xx status. -/
def Success (status : ℕ) : Prop := 200 ≤ status ∧ status < 300

instance (status : ℕ) : Decidable (Success status) := inferInstanceAs (Decidable (_ ∧ _))

/-- Attempt to deliver one envelope. -/
def deliverOne (envelope : DeliveryEnvelope) (now : ℤ) : QueueProc Unit :=
  (Prog.ask (QueueOp.send envelope)).bind fun
    | .ok status =>
        if Success status then (ack envelope.deliveryId).bind fun _ => .ret ()
        else deliverFailed { envelope with
          lastError := some ("HTTP " ++ toString status)
          lastStatus := some status } now
    | .error e => deliverFailed { envelope with lastError := some e, lastStatus := none } now

/-! ### The store, and what happened -/

/-- The store, with the ids that were put into the outbox, for which a 2xx came back, and
that were in the DLQ when it was purged. -/
structure Memory where
  store : Place → AList fun _ : String => DeliveryEnvelope
  enqueued : List String
  acked : List String
  purged : List String

namespace Memory

def empty : Memory where
  store := fun _ => ∅
  enqueued := []
  acked := []
  purged := []

def put (m : Memory) (place : Place) (envelope : DeliveryEnvelope) : Memory :=
  { m with
    store := Function.update m.store place ((m.store place).insert envelope.deliveryId envelope)
    enqueued := if place = .outbox then envelope.deliveryId :: m.enqueued else m.enqueued }

def delete (m : Memory) (place : Place) (deliveryId : String) : Memory :=
  { m with store := Function.update m.store place ((m.store place).erase deliveryId) }

def deletePrefix (m : Memory) (place : Place) : Memory :=
  { m with
    store := Function.update m.store place ∅
    purged := (m.store place).keys ++ m.purged }

/-- The answer to a delivery has come. -/
def answered (m : Memory) (deliveryId : String) : Except String ℕ → Memory
  | .ok status => if Success status then { m with acked := deliveryId :: m.acked } else m
  | .error _ => m

/-- Serve an operation, which fails when there is a fault.  An operation that fails
changes nothing.  Requests are answered with the given response. -/
def serve (response : Except String ℕ) (fault : Option String) :
    (e : QueueOp) → Memory → e.Res × Memory
  | .get place deliveryId, m =>
      match fault with
      | none => (.ok ((m.store place).lookup deliveryId), m)
      | some err => (.error err, m)
  | .put place envelope, m =>
      match fault with
      | none => (.ok (), m.put place envelope)
      | some err => (.error err, m)
  | .delete place deliveryId, m =>
      match fault with
      | none => (.ok (), m.delete place deliveryId)
      | some err => (.error err, m)
  | .deletePrefix place, m =>
      match fault with
      | none => (.ok (m.store place).keys.length, m.deletePrefix place)
      | some err => (.error err, m)
  | .send envelope, m => (response, m.answered envelope.deliveryId response)

end Memory

/-- A call.  The worker takes envelopes from a scan of the outbox; here they may be any. -/
inductive QueueCall where
  | enqueue (envelope : DeliveryEnvelope)
  | deliver (envelope : DeliveryEnvelope) (response : Except String ℕ) (now : ℤ)
  | retryFromDlq (deliveryId : String) (now : ℤ)
  | purgeDlq

/-- A call with a fault, or none, for each of its operations, until it is done or the
process stops. -/
structure Attempt where
  call : QueueCall
  faults : List (Option String)

/-- What is left in the store. -/
def feed (m : Memory) (a : Attempt) : Memory :=
  match a.call with
  | .enqueue envelope => (enqueue envelope).evalFor (Memory.serve (.ok 200)) a.faults m
  | .deliver envelope response now =>
      (deliverOne envelope now).evalFor (Memory.serve response) a.faults m
  | .retryFromDlq deliveryId now =>
      (retryFromDlq deliveryId now).evalFor (Memory.serve (.ok 200)) a.faults m
  | .purgeDlq => purgeDlq.evalFor (Memory.serve (.ok 200)) a.faults m

/-- The envelope is neither acknowledged nor purged. -/
def Live (m : Memory) (id : String) : Prop := id ∈ m.enqueued ∧ id ∉ m.acked ∧ id ∉ m.purged

/-- Nothing is lost, and nothing is tried too often. -/
structure Intact (m : Memory) : Prop where
  present : ∀ id, Live m id → ∃ place, id ∈ m.store place
  attempts : ∀ place id envelope, (m.store place).lookup id = some envelope →
    envelope.attempts ≤ envelope.maxAttempts

/-- The delivery has failed. -/
def Failed (response : Except String ℕ) : Prop := ∀ status, response = .ok status → ¬ Success status

/-- What is enqueued has attempts left; a delivery that fails for the last time has not
been tried too often, and once `dead_letter` has deleted the envelope its put goes through, unless
the envelope is in the DLQ already. -/
def Regular (m : Memory) (a : Attempt) : Prop :=
  match a.call with
  | .enqueue envelope =>
      (∃ rest, a.faults = none :: rest) → envelope.attempts ≤ envelope.maxAttempts
  | .deliver envelope response _ =>
      Failed response → envelope.maxAttempts ≤ envelope.attempts + 1 →
        ((∃ s d rest, a.faults = s :: d :: none :: rest) →
          envelope.attempts + 1 ≤ envelope.maxAttempts) ∧
        ((∃ s rest, a.faults = s :: none :: rest) →
          (∃ s d rest, a.faults = s :: d :: none :: rest) ∨
            (Live m envelope.deliveryId → envelope.deliveryId ∈ m.store .dlq))
  | _ => True

/-! ### What an operation leaves -/

section

variable {m : Memory} {a : Attempt} {place other : Place} {id : String}
  {envelope : DeliveryEnvelope} {response : Except String ℕ} {now : ℤ}
  {signal fault : Option String} {faults rest : List (Option String)}

theorem Memory.mem_store : id ∈ m.store place ↔ ∃ e, (m.store place).lookup id = some e := by
  rw [← AList.lookup_isSome, Option.isSome_iff_exists]

theorem Memory.lookup_put : ((m.put place envelope).store other).lookup id =
    if other = place ∧ id = envelope.deliveryId then some envelope
    else (m.store other).lookup id := by
  unfold put
  dsimp only
  by_cases hother : other = place
  · subst hother
    rw [Function.update_self]
    by_cases hid : id = envelope.deliveryId
    · rw [if_pos ⟨rfl, hid⟩, hid, AList.lookup_insert]
    · rw [if_neg fun h => hid h.2, AList.lookup_insert_ne hid]
  · rw [Function.update_of_ne hother, if_neg fun h => hother h.1]

theorem Memory.lookup_delete {deliveryId : String} :
    ((m.delete place deliveryId).store other).lookup id =
      if other = place ∧ id = deliveryId then none else (m.store other).lookup id := by
  unfold delete
  dsimp only
  by_cases hother : other = place
  · subst hother
    rw [Function.update_self]
    by_cases hid : id = deliveryId
    · rw [if_pos ⟨rfl, hid⟩, hid, AList.lookup_erase]
    · rw [if_neg fun h => hid h.2, AList.lookup_erase_ne hid]
  · rw [Function.update_of_ne hother, if_neg fun h => hother h.1]

theorem Memory.lookup_deletePrefix :
    ((m.deletePrefix place).store other).lookup id =
      if other = place then none else (m.store other).lookup id := by
  unfold deletePrefix
  dsimp only
  by_cases hother : other = place
  · subst hother
    rw [Function.update_self, if_pos rfl, AList.lookup_empty]
  · rw [Function.update_of_ne hother, if_neg hother]

/-- What the queue keeps, with every envelope under its own id. -/
structure Sound (m : Memory) : Prop extends Intact m where
  keyed : ∀ place id envelope, (m.store place).lookup id = some envelope →
    envelope.deliveryId = id

theorem sound_empty : Sound Memory.empty where
  present _ hlive := absurd hlive.1 List.not_mem_nil
  attempts _ _ _ hlookup := absurd hlookup (by simp [Memory.empty])
  keyed _ _ _ hlookup := absurd hlookup (by simp [Memory.empty])

theorem Sound.put (h : Sound m) (hattempts : envelope.attempts ≤ envelope.maxAttempts) :
    Sound (m.put place envelope) where
  present id hlive := by
    by_cases hid : id = envelope.deliveryId
    · exact ⟨place, Memory.mem_store.mpr ⟨envelope, by rw [Memory.lookup_put, if_pos ⟨rfl, hid⟩]⟩⟩
    · have hbefore : Live m id := by
        refine ⟨?_, hlive.2⟩
        have hmem := hlive.1
        unfold Memory.put at hmem
        dsimp only at hmem
        split at hmem
        · exact (List.mem_cons.mp hmem).resolve_left hid
        · exact hmem
      obtain ⟨other, hother⟩ := h.present id hbefore
      refine ⟨other, ?_⟩
      rw [Memory.mem_store, Memory.lookup_put, if_neg fun hc => hid hc.2]
      exact Memory.mem_store.mp hother
  attempts other id e hlookup := by
    rw [Memory.lookup_put] at hlookup
    split at hlookup
    · cases hlookup
      exact hattempts
    · exact h.attempts other id e hlookup
  keyed other id e hlookup := by
    rw [Memory.lookup_put] at hlookup
    split at hlookup
    · next hc =>
        cases hlookup
        exact hc.2.symm
    · exact h.keyed other id e hlookup

/-- An entry may go when it is done with, or when there is another one. -/
theorem Sound.delete (h : Sound m)
    (helsewhere : Live m id → ∃ other, other ≠ place ∧ id ∈ m.store other) :
    Sound (m.delete place id) where
  present i hlive := by
    have hbefore : Live m i := hlive
    by_cases hid : i = id
    · subst hid
      obtain ⟨other, hother, hmem⟩ := helsewhere hbefore
      refine ⟨other, ?_⟩
      rw [Memory.mem_store, Memory.lookup_delete, if_neg fun hc => hother hc.1]
      exact Memory.mem_store.mp hmem
    · obtain ⟨other, hmem⟩ := h.present i hbefore
      refine ⟨other, ?_⟩
      rw [Memory.mem_store, Memory.lookup_delete, if_neg fun hc => hid hc.2]
      exact Memory.mem_store.mp hmem
  attempts other i e hlookup := by
    rw [Memory.lookup_delete] at hlookup
    split at hlookup
    · cases hlookup
    · exact h.attempts other i e hlookup
  keyed other i e hlookup := by
    rw [Memory.lookup_delete] at hlookup
    split at hlookup
    · cases hlookup
    · exact h.keyed other i e hlookup

theorem Sound.deletePrefix (h : Sound m) : Sound (m.deletePrefix place) where
  present i hlive := by
    have hout : i ∉ (m.store place).keys ∧ i ∉ m.purged := by
      simpa [Memory.deletePrefix] using hlive.2.2
    obtain ⟨other, hmem⟩ := h.present i ⟨hlive.1, hlive.2.1, hout.2⟩
    have hother : other ≠ place := by
      rintro rfl
      exact hout.1 (AList.mem_keys.mpr hmem)
    refine ⟨other, ?_⟩
    rw [Memory.mem_store, Memory.lookup_deletePrefix, if_neg hother]
    exact Memory.mem_store.mp hmem
  attempts other i e hlookup := by
    rw [Memory.lookup_deletePrefix] at hlookup
    split at hlookup
    · cases hlookup
    · exact h.attempts other i e hlookup
  keyed other i e hlookup := by
    rw [Memory.lookup_deletePrefix] at hlookup
    split at hlookup
    · cases hlookup
    · exact h.keyed other i e hlookup

/-- A success ends the life of the envelope. -/
theorem Sound.answered_success {status : ℕ} (h : Sound m) (id : String)
    (hsuccess : Success status) :
    Sound (m.answered id (.ok status)) ∧ ¬ Live (m.answered id (.ok status)) id := by
  have heq : m.answered id (.ok status) = { m with acked := id :: m.acked } := if_pos hsuccess
  rw [heq]
  refine ⟨⟨⟨fun i hlive => ?_, h.attempts⟩, h.keyed⟩, fun hlive => ?_⟩
  · exact h.present i ⟨hlive.1, fun hacked => hlive.2.1 (List.mem_cons_of_mem _ hacked), hlive.2.2⟩
  · exact hlive.2.1 (List.mem_cons_self ..)

/-! ### What is left of a call -/

/-- A call that asks for one operation of the store, which may have been done. -/
theorem Sound.once {α : Type} {p : QueueProc α} {e : QueueOp} {f : e.Res → α} (h : Sound m)
    (hp : p = .op e fun r => .ret (f r))
    (hfault : ∀ err, (Memory.serve response (some err) e m).2 = m)
    (hdone : (∃ rest, faults = none :: rest) → Sound (Memory.serve response none e m).2) :
    Sound (p.evalFor (Memory.serve response) faults m) := by
  subst hp
  rcases faults with _ | ⟨_ | err, rest⟩
  · exact h
  · rw [Prog.evalFor_op, Prog.evalFor_ret]
    exact hdone ⟨rest, rfl⟩
  · rw [Prog.evalFor_op, Prog.evalFor_ret, hfault]
    exact h

/-- A delivery that has failed goes on with the same id and the same numbers. -/
theorem deliverOne_failed (m : Memory) (envelope : DeliveryEnvelope) (now : ℤ)
    (hfailed : Failed response) :
    ∃ e, e.deliveryId = envelope.deliveryId ∧ e.attempts = envelope.attempts ∧
      e.maxAttempts = envelope.maxAttempts ∧ ∀ signal rest,
      (deliverOne envelope now).evalFor (Memory.serve response) (signal :: rest) m =
        (deliverFailed e now).evalFor (Memory.serve response) rest m := by
  cases hresponse : response with
  | error err =>
      exact ⟨{ envelope with lastError := some err, lastStatus := none }, rfl, rfl, rfl,
        fun _ _ => rfl⟩
  | ok status =>
      refine ⟨{ envelope with
        lastError := some ("HTTP " ++ toString status)
        lastStatus := some status }, rfl, rfl, rfl, fun signal rest => ?_⟩
      have hstatus : ¬ Success status := hfailed status hresponse
      have hsame : m.answered envelope.deliveryId (.ok status) = m := if_neg hstatus
      unfold deliverOne
      rw [Prog.ask_bind, Prog.evalFor_op]
      unfold Memory.serve
      dsimp only
      rw [if_neg hstatus, hsame]

theorem deliverOne_success {status : ℕ} (hsuccess : Success status) :
    (deliverOne envelope now).evalFor (Memory.serve (.ok status)) (signal :: rest) m =
      ((ack envelope.deliveryId).bind fun _ => .ret ()).evalFor (Memory.serve (.ok status)) rest
        (m.answered envelope.deliveryId (.ok status)) := by
  unfold deliverOne
  rw [Prog.ask_bind, Prog.evalFor_op]
  unfold Memory.serve
  dsimp only
  rw [if_pos hsuccess]

/-- The first operation of `dead_letter` has been done, or has failed. -/
def cleared (m : Memory) (envelope : DeliveryEnvelope) : Option String → Memory
  | none => m.delete .outbox envelope.deliveryId
  | some _ => m

/-- The last attempt: `dead_letter`, with one more attempt counted. -/
theorem deliverFailed_last (hlast : envelope.maxAttempts ≤ envelope.attempts + 1) :
    (deliverFailed envelope now).evalFor (Memory.serve response) (fault :: rest) m =
      match rest with
      | none :: _ => (cleared m envelope fault).put .dlq
          { envelope with attempts := envelope.attempts + 1 }
      | _ => cleared m envelope fault := by
  unfold deliverFailed
  rw [if_pos hlast]
  rcases fault with _ | err
  · rcases rest with _ | ⟨_ | err', rest⟩ <;>
      simp [deadLetter, Prog.mapError, Memory.serve, cleared]
  · rcases rest with _ | ⟨_ | err', rest⟩ <;>
      simp [deadLetter, Prog.mapError, Memory.serve, cleared]

/-- An attempt before the last. -/
theorem Sound.deliverFailed_retry (h : Sound m)
    (hmore : ¬ envelope.maxAttempts ≤ envelope.attempts + 1) :
    Sound ((deliverFailed envelope now).evalFor (Memory.serve response) faults m) := by
  unfold deliverFailed
  rw [if_neg hmore]
  refine h.once rfl (fun _ => rfl) fun _ => h.put ?_
  exact UInt32.le_of_lt (UInt32.not_le.mp hmore)

/-- `retry_from_dlq` puts before it deletes. -/
theorem Sound.moveToOutbox (h : Sound m) (hattempts : envelope.attempts ≤ envelope.maxAttempts)
    (hid : envelope.deliveryId = id) :
    Sound ((moveToOutbox id envelope).evalFor (Memory.serve response) faults m) := by
  have hput : Sound (m.put .outbox envelope) := h.put hattempts
  have hmem : id ∈ (m.put .outbox envelope).store .outbox :=
    Memory.mem_store.mpr ⟨envelope, by rw [Memory.lookup_put, if_pos ⟨rfl, hid.symm⟩]⟩
  rcases faults with _ | ⟨_ | err, _ | ⟨_ | err', rest⟩⟩
  · exact h
  · exact hput
  · show Sound (Prog.evalFor _ rest (.ret _) ((m.put .outbox envelope).delete .dlq id))
    rw [Prog.evalFor_ret]
    exact hput.delete fun _ => ⟨.outbox, by decide, hmem⟩
  · show Sound (Prog.evalFor _ rest (.ret _) (m.put .outbox envelope))
    rwa [Prog.evalFor_ret]
  · exact h
  · exact h
  · exact h

theorem Sound.retryFromDlq (h : Sound m) :
    Sound ((retryFromDlq id now).evalFor (Memory.serve response) faults m) := by
  rcases faults with _ | ⟨_ | err, faults⟩
  · exact h
  · unfold WebhookDeliveryQueue.retryFromDlq
    rw [Prog.mapError, Prog.ask_bind, Prog.andThen, Prog.op_bind, Prog.evalFor_op]
    unfold Memory.serve
    dsimp only [Prog.ret_bind]
    cases hlookup : (m.store .dlq).lookup id with
    | none =>
        show Sound (Prog.evalFor (Memory.serve response) faults (.ret _) m)
        rwa [Prog.evalFor_ret]
    | some e =>
        have hid : e.deliveryId = id := h.keyed _ _ _ hlookup
        exact h.moveToOutbox (UInt32.zero_le ..) hid
  · exact (Prog.evalFor_ret (Memory.serve response) faults _ m).symm ▸ h

/-- The first operation of `dead_letter` leaves no envelope without a place, if there is
another one. -/
theorem Sound.cleared (h : Sound m)
    (hdlq : fault = none → Live m envelope.deliveryId → envelope.deliveryId ∈ m.store .dlq) :
    Sound (cleared m envelope fault) := by
  cases fault with
  | none => exact h.delete fun hlive => ⟨.dlq, by decide, hdlq rfl hlive⟩
  | some err => exact h

/-- Two prefixes do not meet, and so the operations of `dead_letter` commute. -/
theorem Memory.delete_put : (m.delete .outbox id).put .dlq envelope =
    (m.put .dlq envelope).delete .outbox id := by
  have hne : Place.dlq ≠ Place.outbox := by decide
  unfold put delete
  simp only [Function.update_of_ne hne, Function.update_of_ne hne.symm,
    Function.update_comm hne]

/-- The second one makes up for the first. -/
theorem Sound.cleared_put (h : Sound m) {e : DeliveryEnvelope}
    (hid : e.deliveryId = envelope.deliveryId) (hattempts : e.attempts ≤ e.maxAttempts) :
    Sound ((WebhookDeliveryQueue.cleared m envelope fault).put .dlq e) := by
  have hput : Sound (m.put .dlq e) := h.put hattempts
  cases fault with
  | none =>
      have hmem : envelope.deliveryId ∈ (m.put .dlq e).store .dlq :=
        Memory.mem_store.mpr ⟨e, by rw [Memory.lookup_put, if_pos ⟨rfl, hid.symm⟩]⟩
      show Sound ((m.delete .outbox envelope.deliveryId).put .dlq e)
      rw [Memory.delete_put]
      exact hput.delete fun _ => ⟨.dlq, by decide, hmem⟩
  | some err => exact hput

/-- The last attempt: no second operation, the second one done, or failed. -/
theorem Sound.deliverFailed_last (h : Sound m)
    (hlast : envelope.maxAttempts ≤ envelope.attempts + 1)
    (hput : (∃ fault rest, faults = fault :: none :: rest) →
      envelope.attempts + 1 ≤ envelope.maxAttempts)
    (hgap : (∃ rest, faults = none :: rest) → (∃ fault rest, faults = fault :: none :: rest) ∨
      (Live m envelope.deliveryId → envelope.deliveryId ∈ m.store .dlq)) :
    Sound ((deliverFailed envelope now).evalFor (Memory.serve response) faults m) := by
  rcases faults with _ | ⟨fault, faults⟩
  · exact (Prog.evalFor_nil (Memory.serve response) _ m).symm ▸ h
  rw [WebhookDeliveryQueue.deliverFailed_last hlast]
  rcases faults with _ | ⟨_ | err, faults⟩
  · apply h.cleared
    rintro rfl
    exact (hgap ⟨[], rfl⟩).resolve_left (by simp)
  · exact h.cleared_put rfl (hput ⟨fault, faults, rfl⟩)
  · apply h.cleared
    rintro rfl
    exact (hgap ⟨some err :: faults, rfl⟩).resolve_left (by simp)

/-- A delivery that has failed. -/
theorem Sound.deliverOne_failed (h : Sound m) (hfailed : Failed response)
    (hregular : Regular m ⟨.deliver envelope response now, faults⟩) :
    Sound (feed m ⟨.deliver envelope response now, faults⟩) := by
  rcases faults with _ | ⟨signal, faults⟩
  · exact h
  show Sound ((deliverOne envelope now).evalFor _ (signal :: faults) m)
  obtain ⟨e, hid, hattempts, hmax, hrun⟩ :=
    WebhookDeliveryQueue.deliverOne_failed m envelope now hfailed
  rw [hrun]
  by_cases hlast : e.maxAttempts ≤ e.attempts + 1
  · obtain ⟨hput, hgap⟩ := hregular hfailed (by rwa [← hmax, ← hattempts])
    apply h.deliverFailed_last hlast
    · rintro ⟨fault, rest, rfl⟩
      rw [hattempts, hmax]
      exact hput ⟨signal, fault, rest, rfl⟩
    · rintro ⟨rest, rfl⟩
      rw [hid]
      refine (hgap ⟨signal, rest, rfl⟩).imp_left ?_
      rintro ⟨signal', fault, rest', hfaults⟩
      exact ⟨fault, rest', (List.cons.inj hfaults).2⟩
  · exact h.deliverFailed_retry hlast

/-- A delivery that has succeeded. -/
theorem Sound.deliverOne_success {status : ℕ} (h : Sound m) (hsuccess : Success status) :
    Sound (feed m ⟨.deliver envelope (.ok status) now, faults⟩) := by
  rcases faults with _ | ⟨signal, faults⟩
  · exact h
  obtain ⟨hsound, hdone⟩ := h.answered_success envelope.deliveryId hsuccess
  show Sound ((deliverOne envelope now).evalFor _ (signal :: faults) m)
  rw [WebhookDeliveryQueue.deliverOne_success hsuccess]
  exact hsound.once rfl (fun _ => rfl) fun _ => hsound.delete fun hlive => absurd hlive hdone

/-- **One call.** -/
theorem Sound.step (h : Sound m) (hregular : Regular m a) : Sound (feed m a) := by
  obtain ⟨call, faults⟩ := a
  cases call with
  | enqueue envelope => exact h.once rfl (fun _ => rfl) fun hbegun => h.put (hregular hbegun)
  | deliver envelope response now =>
      by_cases hfailed : Failed response
      · exact h.deliverOne_failed hfailed hregular
      · unfold Failed at hfailed
        push Not at hfailed
        obtain ⟨status, rfl, hsuccess⟩ := hfailed
        exact h.deliverOne_success hsuccess
  | retryFromDlq deliveryId now => exact h.retryFromDlq
  | purgeDlq => exact h.once rfl (fun _ => rfl) fun _ => h.deletePrefix

/-- **What a call that is not regular leaves** is not intact. -/
theorem Intact.regular (h : Intact (feed m a)) : Regular m a := by
  obtain ⟨call, faults⟩ := a
  cases call with
  | enqueue envelope =>
      rintro ⟨rest, rfl⟩
      have hfeed : feed m ⟨.enqueue envelope, none :: rest⟩ = m.put .outbox envelope :=
        Prog.evalFor_ret ..
      rw [hfeed] at h
      exact h.attempts .outbox envelope.deliveryId envelope
        (by rw [Memory.lookup_put, if_pos ⟨rfl, rfl⟩])
  | deliver envelope response now =>
      intro hfailed hlast
      obtain ⟨e, hid, hattempts, hmax, hrun⟩ := deliverOne_failed m envelope now hfailed
      rw [← hattempts, ← hmax] at hlast
      have hfeed (signal fault : Option String) (rest : List (Option String)) :
          feed m ⟨.deliver envelope response now, signal :: fault :: rest⟩ =
            match rest with
            | none :: _ => (cleared m e fault).put .dlq { e with attempts := e.attempts + 1 }
            | _ => cleared m e fault :=
        (hrun signal (fault :: rest)).trans (deliverFailed_last hlast)
      constructor
      · rintro ⟨signal, fault, rest, rfl⟩
        rw [hfeed] at h
        rw [← hattempts, ← hmax]
        exact h.attempts .dlq e.deliveryId { e with attempts := e.attempts + 1 }
          (by rw [Memory.lookup_put, if_pos ⟨rfl, rfl⟩])
      · rintro ⟨signal, rest, rfl⟩
        rw [hfeed] at h
        -- the second operation is done, or the envelope has left the outbox
        have hgone (hcleared : Intact (m.delete .outbox e.deliveryId))
            (hlive : Live m envelope.deliveryId) : envelope.deliveryId ∈ m.store .dlq := by
          rw [← hid] at hlive ⊢
          obtain ⟨place, hmem⟩ := hcleared.present e.deliveryId hlive
          obtain ⟨e', hlookup⟩ := Memory.mem_store.mp hmem
          rw [Memory.lookup_delete] at hlookup
          cases place with
          | outbox =>
              rw [if_pos ⟨rfl, rfl⟩] at hlookup
              cases hlookup
          | dlq =>
              rw [if_neg (by simp)] at hlookup
              exact Memory.mem_store.mpr ⟨e', hlookup⟩
        rcases rest with _ | ⟨_ | err, rest⟩
        · exact .inr (hgone h)
        · exact .inl ⟨signal, none, rest, rfl⟩
        · exact .inr (hgone h)
  | retryFromDlq deliveryId now => trivial
  | purgeDlq => trivial

/-- **At least once.**  In runs of calls that may each stop after any operation, and whose
operations may fail, every envelope that is neither acknowledged nor purged is in the
outbox or in the DLQ after each call, and no envelope has been tried too often, if and only if
every call is regular. -/
theorem intact_iff (attempts : List Attempt) :
    EachStep feed Memory.empty attempts (fun m a => Intact (feed m a)) ↔
      EachStep feed Memory.empty attempts Regular := by
  have hany : EachStep feed Memory.empty attempts fun _ _ => True := fun _ _ _ _ => trivial
  apply eachStep_congr Sound hany sound_empty
  · intro m a hsound _ hregular
    exact hsound.step hregular
  · intro m a hsound _
    exact ⟨fun hintact => hintact.regular, fun hregular => (hsound.step hregular).toIntact⟩

/-- The only attempt is answered with 500, and the process stops between the two
operations of `dead_letter`. -/
def stoppedBetween : List Attempt :=
  let envelope : DeliveryEnvelope :=
    { deliveryId := "d", url := "http://localhost", secret := "", payload := .null
      eventType := "cron.run", attempts := 0, maxAttempts := 1, createdAt := 0
      nextAttemptAt := 0, lastError := none, lastStatus := none }
  [⟨.enqueue envelope, [none]⟩, ⟨.deliver envelope (.ok 500) 0, [none, none]⟩]

/-- The envelope is in neither place. -/
theorem dead_letter_lost :
    ¬ EachStep feed Memory.empty stoppedBetween fun m a => Intact (feed m a) := by
  intro h
  obtain ⟨place, hmem⟩ := (h [stoppedBetween[0]] stoppedBetween[1] [] rfl).present "d"
    ⟨by decide, by decide, by decide⟩
  revert hmem
  cases place <;> decide

end

end WebhookDeliveryQueue

end ClawDesk.Gateway
