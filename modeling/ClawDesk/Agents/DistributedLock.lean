import ClawDesk.Agents.TransactionalLane
import ClawDesk.Foundations.Interleaving
import ClawDesk.Runtime.Types
import Mathlib.Data.List.AList

/-!
# Distributed advisory locks

Sessions are locked across nodes by entries in a shared key-value store.  An
entry names its holder, runs out by itself, and carries a fencing token by which
a stale holder is to be told from the current one.

Every instance numbers its tokens with a counter of its own.  The store has no
compare-and-swap: acquiring and renewing are a read followed by a write.  A store
operation that fails changes nothing, and time never runs backwards.
-/

namespace ClawDesk.Agents

open ClawDesk.Foundations
open ClawDesk.Runtime (Instant durationSeconds)

/-- A distributed advisory lock entry. -/
structure DistributedLockEntry where
  holderId : String
  fencingToken : ℕ
  acquiredAt : Instant
  expiresAt : Instant
  purpose : String
  deriving DecidableEq

/-- What is stored under a key, as `serde_json::from_slice` reads it: an entry, or
the error of a text that is none. -/
abbrev LockBytes := Except String DistributedLockEntry

/-- `locks/sessions/{session_id}`. -/
def lockKey (sessionId : String) : String := "locks/sessions/" ++ sessionId

/-! ### The shared store -/

/-- The operations a lock manager asks for. -/
inductive LockOp where
  | get (key : String)
  | put (key : String) (entry : DistributedLockEntry)
  | delete (key : String)
  | scan (pre : String)
  /-- `Utc::now()`. -/
  | clock
  /-- Count up the `fencing_counter` of an instance. -/
  | nextToken (instanceId : String)
  deriving DecidableEq

@[reducible] def LockOp.Res : LockOp → Type
  | get _ => Except String (Option LockBytes)
  | put _ _ => Except String Unit
  | delete _ => Except String Unit
  | scan _ => Except String (List (String × LockBytes))
  | clock => Instant
  | nextToken _ => ℕ

/-- A procedure of a lock manager. -/
abbrev LockProc (α : Type) : Type := Prog LockOp LockOp.Res α

/-- Ask one operation. -/
abbrev askLock (e : LockOp) : LockProc e.Res := Prog.ask e

/-- What the lock managers share: the store, the time, and the counters of the
instances. -/
structure LockWorld where
  store : AList fun _ : String => LockBytes
  now : Instant
  fencingCounter : String → ℕ

namespace LockWorld

/-- Nothing locked, no token drawn. -/
def initial (now : Instant) : LockWorld where
  store := ∅
  now := now
  fencingCounter := fun _ => 0

/-- The entries whose keys start with `pre`. -/
def scan (w : LockWorld) (pre : String) : List (String × LockBytes) :=
  (w.store.entries.map fun e => (e.1, e.2)).filter fun e => pre.toList.isPrefixOf e.1.toList

/-- How an operation is answered. -/
def exec : (e : LockOp) → LockWorld → e.Res → LockWorld → Prop
  | .get key, w, r, w' => w' = w ∧ (r = .ok (w.store.lookup key) ∨ ∃ err, r = .error err)
  | .put key entry, w, r, w' =>
      (r = .ok () ∧ w' = { w with store := w.store.insert key (.ok entry) }) ∨
        ((∃ err, r = .error err) ∧ w' = w)
  | .delete key, w, r, w' =>
      (r = .ok () ∧ w' = { w with store := w.store.erase key }) ∨
        ((∃ err, r = .error err) ∧ w' = w)
  | .scan pre, w, r, w' =>
      w' = w ∧ ((∃ found, r = .ok found ∧ found.Perm (w.scan pre)) ∨ ∃ err, r = .error err)
  | .clock, w, r, w' => r = w.now ∧ w' = w
  | .nextToken I, w, r, w' =>
      r = w.fencingCounter I + 1 ∧
        w' = { w with
          fencingCounter := Function.update w.fencingCounter I (w.fencingCounter I + 1) }

/-- Time passes. -/
def passes (w w' : LockWorld) : Prop := ∃ t, w.now ≤ t ∧ w' = { w with now := t }

end LockWorld

/-- The lock managers' system. -/
def lockSystem : System LockOp LockOp.Res LockWorld := ⟨LockWorld.exec, LockWorld.passes⟩

/-! ### The lock manager -/

/-- Distributed lock manager: the time to live of its locks, and the identifier of
the instance, whose `fencing_counter` it counts up. -/
structure DistributedLockManager where
  ttlSecs : ℕ
  instanceId : String
  deriving DecidableEq

namespace DistributedLockManager

/-- Create a new distributed lock manager, with `DEFAULT_LOCK_TTL_SECS`. -/
def new (instanceId : String) : DistributedLockManager := ⟨30, instanceId⟩

def withTtl (instanceId : String) (ttlSecs : ℕ) : DistributedLockManager := ⟨ttlSecs, instanceId⟩

variable (m : DistributedLockManager)

/-- The holder that keeps this instance from the lock.  A failed read, and a text
that is no entry, are treated as an absent lock. -/
def conflict (now : Instant) : Except String (Option LockBytes) → Option String
  | .ok (some (.ok existing)) =>
      if existing.expiresAt > now ∧ existing.holderId ≠ m.instanceId then some existing.holderId
      else none
  | _ => none

/-- The entry of a lock acquired now. -/
def entry (now : Instant) (fencingToken : ℕ) (purpose : String) : DistributedLockEntry where
  holderId := m.instanceId
  fencingToken := fencingToken
  acquiredAt := now
  expiresAt := now + durationSeconds m.ttlSecs
  purpose := purpose

/-- `kv_put`, with the error converted. -/
def store (what : String) (key : String) (entry : DistributedLockEntry) :
    LockProc (Except TransactionalLaneError DistributedLockEntry) :=
  (askLock (.put key entry)).bind fun
    | .ok () => .ret (.ok entry)
    | .error e => .ret (.error (.commitFailed (what ++ ": " ++ e)))

/-- Try to acquire a distributed lock for a session. -/
def tryAcquire (sessionId purpose : String) :
    LockProc (Except TransactionalLaneError DistributedLockEntry) :=
  (askLock .clock).bind fun now =>
    (askLock (.get (lockKey sessionId))).bind fun found =>
      match m.conflict now found with
      | some holder => .ret (.error (.lockConflict sessionId holder))
      | none =>
          (askLock (.nextToken m.instanceId)).bind fun fencingToken =>
            store "write lock entry" (lockKey sessionId) (m.entry now fencingToken purpose)

/-- The last part of `release`. -/
def deleteEntry (key : String) : LockProc (Except TransactionalLaneError Unit) :=
  (askLock (.delete key)).bind fun
    | .ok () => .ret (.ok ())
    | .error e => .ret (.error (.commitFailed ("delete lock entry: " ++ e)))

/-- Release a distributed lock.  The lock of another instance is left alone, which
is not an error. -/
def release (sessionId : String) : LockProc (Except TransactionalLaneError Unit) :=
  (askLock (.get (lockKey sessionId))).bind fun
    | .ok (some (.ok existing)) =>
        if existing.holderId ≠ m.instanceId then .ret (.ok ()) else deleteEntry (lockKey sessionId)
    | _ => deleteEntry (lockKey sessionId)

/-- Renew (extend) a lock's time to live. -/
def renew (sessionId : String) : LockProc (Except TransactionalLaneError DistributedLockEntry) :=
  (askLock .clock).bind fun now =>
    (askLock (.get (lockKey sessionId))).bind fun
      | .error e => .ret (.error (.commitFailed ("read lock for renewal: " ++ e)))
      | .ok none =>
          .ret (.error (.commitFailed ("no lock to renew for session '" ++ sessionId ++ "'")))
      | .ok (some (.error e)) => .ret (.error (.commitFailed ("deserialize lock: " ++ e)))
      | .ok (some (.ok existing)) =>
          if existing.holderId ≠ m.instanceId then
            .ret (.error (.lockConflict sessionId existing.holderId))
          else
            store "write renewed lock" (lockKey sessionId)
              { existing with expiresAt := now + durationSeconds m.ttlSecs }

/-- The loop of `gc_expired`; whether a deletion succeeds is not looked at. -/
def cleanUp (now : Instant) : List (String × LockBytes) → ℕ → LockProc ℕ
  | [], cleaned => .ret cleaned
  | (key, .ok entry) :: rest, cleaned =>
      if entry.expiresAt ≤ now then
        (askLock (.delete key)).bind fun _ => cleanUp now rest (cleaned + 1)
      else cleanUp now rest cleaned
  | (_, .error _) :: rest, cleaned => cleanUp now rest cleaned

/-- Garbage-collect expired locks. -/
def gcExpired : LockProc (Except TransactionalLaneError ℕ) :=
  (askLock (.scan "locks/sessions/")).bind fun
    | .error e => .ret (.error (.commitFailed ("scan locks: " ++ e)))
    | .ok entries =>
        (askLock .clock).bind fun now => (cleanUp now entries 0).bind fun cleaned =>
          .ret (.ok cleaned)

end DistributedLockManager

/-- Validate a fencing token against the current lock state. -/
def validateFencingToken (sessionId : String) (token : ℕ) : LockProc Bool :=
  (askLock (.get (lockKey sessionId))).bind fun
    | .ok (some (.ok entry)) => .ret (decide (entry.fencingToken = token))
    | _ => .ret false

/-! ### Calls -/

/-- A request to the lock manager of an instance. -/
inductive LockRequest where
  | tryAcquire (manager : DistributedLockManager) (sessionId purpose : String)
  | release (manager : DistributedLockManager) (sessionId : String)
  | renew (manager : DistributedLockManager) (sessionId : String)
  | gcExpired (manager : DistributedLockManager)
  deriving DecidableEq

namespace LockRequest

def manager : LockRequest → DistributedLockManager
  | tryAcquire manager _ _ => manager
  | release manager _ => manager
  | renew manager _ => manager
  | gcExpired manager => manager

/-- Serve the request. -/
def serve : LockRequest → LockProc Unit
  | tryAcquire manager sessionId purpose =>
      (manager.tryAcquire sessionId purpose).bind fun _ => .ret ()
  | release manager sessionId => (manager.release sessionId).bind fun _ => .ret ()
  | renew manager sessionId => (manager.renew sessionId).bind fun _ => .ret ()
  | gcExpired _ => DistributedLockManager.gcExpired.bind fun _ => .ret ()

end LockRequest

/-- One call: the request it serves, and a number that tells it from other calls
with the same request. -/
structure LockCall where
  serial : ℕ
  request : LockRequest
  deriving DecidableEq

/-- The instance a call is made on. -/
def LockCall.instanceId (c : LockCall) : String := c.request.manager.instanceId

end ClawDesk.Agents
