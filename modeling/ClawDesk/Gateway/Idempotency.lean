import ClawDesk.Foundations.ExpiringQueue
import ClawDesk.Foundations.Fold
import ClawDesk.Gateway.Fnv
import Mathlib.Algebra.BigOperators.Fin
import Mathlib.Algebra.Order.BigOperators.Group.Finset
import Mathlib.Data.List.AList

/-!
# Request idempotency

A shard tracks keys in a map, and beside it their order.  Keys that have run out are
dropped when the shard is swept, and then the first ones in the order as long as there are too
many.

A run is a sequence of calls with their readings of the clock.  `Conforms` is what each call
should do, `Regular` what it takes.
-/

namespace ClawDesk.Gateway.Idempotency

open Foundations
open Foundations.ExpiringQueue (Event lastRegistered)

/-! ### Entries -/

/-- Cached response for idempotent replay. -/
structure CachedResponse where
  body : String
  status : ℕ
  generatedAt : ℕ

/-- Tracks a previously seen request. -/
structure IdempotencyEntry where
  firstSeen : ℕ
  response : Option CachedResponse
  duplicateCount : UInt32
  source : String

/-- Result of checking an idempotency key. -/
inductive DeduplicationResult where
  | new
  | duplicate (firstSeen : ℕ) (duplicateCount : UInt32) (cachedResponse : Option CachedResponse)

/-- Maximum entries before forced eviction. -/
def maxEntries : ℕ := 10000

/-- Number of shards. -/
abbrev shardCount : ℕ := 16

def perShardCap : ℕ := maxEntries / shardCount

abbrev Entries := AList fun _ : String => IdempotencyEntry

namespace Entries

def len (entries : Entries) : ℕ := entries.keys.length

/-- `HashMap::retain`. -/
def retain (entries : Entries) (p : IdempotencyEntry → Bool) : Entries where
  entries := entries.entries.filter fun s => p s.2
  nodupKeys := List.NodupKeys.sublist List.filter_sublist entries.nodupKeys

end Entries

/-! ### Shards -/

/-- Shard of the deduplication map. -/
structure Shard where
  entries : Entries
  order : List String

/-- The loop that removes the keys in front as long as there are too many. -/
def evictOldest : List String → Entries → Shard
  | [], entries => ⟨entries, []⟩
  | oldest :: order, entries =>
      if perShardCap < entries.len then evictOldest order (entries.erase oldest)
      else ⟨entries, oldest :: order⟩

namespace Shard

def new : Shard := ⟨∅, []⟩

/-- Remove expired entries. -/
def retainFresh (shard : Shard) (ttl now : ℕ) : Shard :=
  let entries := shard.entries.retain fun entry => now - entry.firstSeen < ttl
  ⟨entries, shard.order.filter (· ∈ entries)⟩

/-- Evict expired entries and enforce the per-shard capacity. -/
def evict (shard : Shard) (ttl now : ℕ) : Shard :=
  evictOldest (shard.retainFresh ttl now).order (shard.retainFresh ttl now).entries

/-- Periodic eviction. -/
def swept (shard : Shard) (ttl now : ℕ) : Shard :=
  if shard.entries.len % 100 = 99 then shard.evict ttl now else shard

/-- `check_and_insert`, which reads the clock for the eviction and once more after it. -/
def checkAndInsert (shard : Shard) (ttl : ℕ) (key source : String) (evictedAt now : ℕ) :
    DeduplicationResult × Shard :=
  let shard := shard.swept ttl evictedAt
  match shard.entries.lookup key with
  | some entry =>
      if ttl ≤ now - entry.firstSeen then
        -- expired, treat as new
        (.new, { shard with entries := shard.entries.insert key ⟨now, none, 0, source⟩ })
      else
        let entry := { entry with duplicateCount := entry.duplicateCount + 1 }
        (.duplicate entry.firstSeen entry.duplicateCount entry.response,
          { shard with entries := shard.entries.insert key entry })
  | none => (.new, ⟨shard.entries.insert key ⟨now, none, 0, source⟩, shard.order ++ [key]⟩)

def storeResponse (shard : Shard) (key body : String) (status now : ℕ) : Shard :=
  match shard.entries.lookup key with
  | some entry =>
      { shard with
        entries := shard.entries.insert key { entry with response := some ⟨body, status, now⟩ } }
  | none => shard

def remove (shard : Shard) (key : String) : Shard :=
  ⟨shard.entries.erase key, shard.order.filter (· ≠ key)⟩

end Shard

/-! ### The deduplicator -/

/-- Sharded request deduplicator with TTL-based expiry. -/
structure RequestDeduplicator where
  shards : Fin shardCount → Shard
  ttl : ℕ

namespace RequestDeduplicator

def withTtl (ttl : ℕ) : RequestDeduplicator := ⟨fun _ => .new, ttl⟩

/-- Create a new deduplicator, with a TTL of 300 s in nanoseconds. -/
def new : RequestDeduplicator := withTtl (300 * 10 ^ 9)

/-- Determine which shard a key maps to. -/
def shardIndex (key : String) : Fin shardCount := Fin.ofNat 16 (fnv1aHash (keyBytes key)).toNat

variable (d : RequestDeduplicator)

def setShard (i : Fin shardCount) (shard : Shard) : RequestDeduplicator :=
  { d with shards := Function.update d.shards i shard }

/-- Check whether a request key has been seen before. -/
def checkAndInsert (key source : String) (evictedAt now : ℕ) :
    DeduplicationResult × RequestDeduplicator :=
  let r := (d.shards (shardIndex key)).checkAndInsert d.ttl key source evictedAt now
  (r.1, d.setShard (shardIndex key) r.2)

/-- Store the response for a completed request. -/
def storeResponse (key body : String) (status now : ℕ) : RequestDeduplicator :=
  d.setShard (shardIndex key) ((d.shards (shardIndex key)).storeResponse key body status now)

/-- Remove a specific key. -/
def remove (key : String) : RequestDeduplicator :=
  d.setShard (shardIndex key) ((d.shards (shardIndex key)).remove key)

/-- Total number of tracked entries across all shards. -/
def entryCount : ℕ := ∑ i, (d.shards i).entries.len

/-- Force eviction across all shards, each at its own reading of the clock. -/
def evictAll (now : Fin shardCount → ℕ) : RequestDeduplicator :=
  { d with shards := fun i => (d.shards i).evict d.ttl (now i) }

end RequestDeduplicator

open RequestDeduplicator (shardIndex)

/-! ### Runs -/

/-- The deduplicator, the last reading of the clock, and what was registered and removed in each
shard. -/
structure Session where
  dedup : RequestDeduplicator
  clock : ℕ
  logs : Fin shardCount → List (Event String)

def Session.start (ttl : ℕ) : Session := ⟨.withTtl ttl, 0, fun _ => []⟩

/-- A call, with its readings of the clock. -/
inductive Call where
  | checkAndInsert (key source : String) (evictedAt now : ℕ)
  | storeResponse (key body : String) (status now : ℕ)
  | remove (key : String)
  | evictAll (now : Fin shardCount → ℕ)

/-- Add an event to the log of the shard of its key. -/
def Session.logged (s : Session) (key : String) (event : Event String) :
    Fin shardCount → List (Event String) :=
  Function.update s.logs (shardIndex key) (event :: s.logs (shardIndex key))

def feed (s : Session) : Call → Session
  | .checkAndInsert key source evictedAt now =>
      let r := s.dedup.checkAndInsert key source evictedAt now
      ⟨r.2, now, match r.1 with
        | .new => s.logged key (.registered key now)
        | .duplicate _ _ _ => s.logs⟩
  | .storeResponse key body status now => ⟨s.dedup.storeResponse key body status now, now, s.logs⟩
  | .remove key => ⟨s.dedup.remove key, s.clock, s.logged key (.removed key)⟩
  | .evictAll now => ⟨s.dedup.evictAll now, now (Fin.last 15), s.logs⟩

/-- The clock never runs backwards. -/
def Timed (s : Session) : Call → Prop
  | .checkAndInsert _ _ evictedAt now => s.clock ≤ evictedAt ∧ evictedAt ≤ now
  | .storeResponse _ _ _ now => s.clock ≤ now
  | .remove _ => True
  | .evictAll now => s.clock ≤ now 0 ∧ Monotone now

/-- The loop removes one key after the other, and each has the oldest `first_seen`. -/
def OldestFirst : List String → Entries → Prop
  | [], _ => True
  | oldest :: order, entries => perShardCap < entries.len →
      (∃ entry, entries.lookup oldest = some entry ∧
        ∀ key other, entries.lookup key = some other → entry.firstSeen ≤ other.firstSeen) ∧
      OldestFirst order (entries.erase oldest)

/-- The call evicts from a shard. -/
def Evicts (s : Session) (call : Call) (i : Fin shardCount) (time : ℕ) : Prop :=
  match call with
  | .checkAndInsert key _ evictedAt _ =>
      i = shardIndex key ∧ time = evictedAt ∧ (s.dedup.shards i).entries.len % 100 = 99
  | .evictAll now => time = now i
  | _ => False

/-- What a call should do. -/
structure Conforms (s : Session) (call : Call) : Prop where
  once : ∀ i, ((feed s call).dedup.shards i).order.Perm ((feed s call).dedup.shards i).entries.keys
  bounded : (feed s call).dedup.entryCount ≤ maxEntries
  oldest : ∀ i now, Evicts s call i now →
    OldestFirst ((s.dedup.shards i).retainFresh s.dedup.ttl now).order
      ((s.dedup.shards i).retainFresh s.dedup.ttl now).entries
  duplicate : ∀ key source evictedAt now, call = .checkAndInsert key source evictedAt now →
    ∀ time since, lastRegistered key (s.logs (shardIndex key)) = some (time, since) →
      now - time < s.dedup.ttl → since.card < maxEntries / shardCount →
      ∃ count cached,
        (s.dedup.checkAndInsert key source evictedAt now).1 = .duplicate time count cached

/-- A key that is not tracked, after the eviction that its check may trigger, finds less
entries than the maximum; one that is tracked and has run out is the last in the order of its
shard. -/
def Regular (s : Session) : Call → Prop
  | .checkAndInsert key _ evictedAt now =>
      let shard := (s.dedup.shards (shardIndex key)).swept s.dedup.ttl evictedAt
      match shard.entries.lookup key with
      | none => (s.dedup.setShard (shardIndex key) shard).entryCount < maxEntries
      | some entry => s.dedup.ttl ≤ now - entry.firstSeen → shard.order.getLast? = some key
  | _ => True

instance (s : Session) : (call : Call) → Decidable (Regular s call)
  | .checkAndInsert key _ evictedAt now =>
      match h : ((s.dedup.shards (shardIndex key)).swept s.dedup.ttl evictedAt).entries.lookup
          key with
      | none => decidable_of_iff ((s.dedup.setShard (shardIndex key)
          ((s.dedup.shards (shardIndex key)).swept s.dedup.ttl evictedAt)).entryCount < maxEntries)
          (by rw [Regular, h])
      | some entry => decidable_of_iff (s.dedup.ttl ≤ now - entry.firstSeen →
          ((s.dedup.shards (shardIndex key)).swept s.dedup.ttl evictedAt).order.getLast? = some key)
          (by rw [Regular, h])
  | .storeResponse _ _ _ _ | .remove _ | .evictAll _ => isTrue trivial

/-! ### Numbers of entries -/

section

variable {shard : Shard} {entries : Entries} {key source : String} {ttl now evictedAt : ℕ}
  {entry : IdempotencyEntry}

namespace Entries

theorem len_erase_le : len (entries.erase key) ≤ entries.len := by
  unfold len
  rw [AList.keys_erase]
  exact List.length_erase_le

theorem len_insert_of_mem (h : key ∈ entries) : len (entries.insert key entry) = entries.len := by
  unfold len
  rw [AList.keys_insert, List.length_cons, List.length_erase_of_mem h]
  exact Nat.sub_add_cancel (List.length_pos_of_mem h)

theorem len_insert_le : len (entries.insert key entry) ≤ entries.len + 1 := by
  unfold len
  rw [AList.keys_insert, List.length_cons]
  exact Nat.succ_le_succ List.length_erase_le

theorem len_retain_le {p : IdempotencyEntry → Bool} : (entries.retain p).len ≤ entries.len := by
  have hlen (entries : Entries) : entries.len = entries.entries.length := List.length_map _
  rw [hlen, hlen]
  exact List.length_filter_le _ _

end Entries

theorem len_evictOldest_le (order : List String) (entries : Entries) :
    (evictOldest order entries).entries.len ≤ entries.len := by
  induction order generalizing entries with
  | nil => exact le_refl _
  | cons oldest order ih =>
      rw [evictOldest]
      split
      · exact (ih _).trans Entries.len_erase_le
      · exact le_refl _

namespace Shard

theorem len_evict_le : (shard.evict ttl now).entries.len ≤ shard.entries.len :=
  (len_evictOldest_le _ _).trans Entries.len_retain_le

theorem len_swept_le : (shard.swept ttl now).entries.len ≤ shard.entries.len := by
  unfold swept
  split
  · exact len_evict_le
  · exact le_refl _

/-- Only a key that is not tracked adds an entry. -/
theorem len_checkAndInsert_le :
    (shard.checkAndInsert ttl key source evictedAt now).2.entries.len ≤
      (shard.swept ttl evictedAt).entries.len +
        if (shard.swept ttl evictedAt).entries.lookup key = none then 1 else 0 := by
  unfold checkAndInsert
  dsimp only
  cases hlookup : (shard.swept ttl evictedAt).entries.lookup key with
  | none => exact Entries.len_insert_le
  | some entry =>
      have hmem : key ∈ (shard.swept ttl evictedAt).entries := by
        rw [← AList.lookup_isSome, hlookup]
        rfl
      dsimp only
      split
      · exact (Entries.len_insert_of_mem hmem).le
      · exact (Entries.len_insert_of_mem hmem).le

theorem len_storeResponse {body : String} {status : ℕ} :
    (shard.storeResponse key body status now).entries.len = shard.entries.len := by
  unfold storeResponse
  split
  · next entry hlookup =>
      apply Entries.len_insert_of_mem
      rw [← AList.lookup_isSome, hlookup]
      rfl
  · rfl

end Shard

variable {d : RequestDeduplicator} {i : Fin shardCount}

theorem entryCount_setShard_le {n : ℕ} (h : shard.entries.len ≤ (d.shards i).entries.len + n) :
    (d.setShard i shard).entryCount ≤ d.entryCount + n := by
  have hcount (shard : Shard) : (d.setShard i shard).entryCount =
      shard.entries.len + ∑ j ∈ Finset.univ.erase i, (d.shards j).entries.len := by
    unfold RequestDeduplicator.entryCount RequestDeduplicator.setShard
    rw [← Finset.add_sum_erase _ _ (Finset.mem_univ i)]
    congr 1
    · show (Function.update d.shards i shard i).entries.len = _
      rw [Function.update_self]
    · refine Finset.sum_congr rfl fun j hj => ?_
      show (Function.update d.shards i shard j).entries.len = _
      rw [Function.update_of_ne (Finset.ne_of_mem_erase hj)]
  have hself : d.setShard i (d.shards i) = d := by
    unfold RequestDeduplicator.setShard
    rw [Function.update_eq_self]
  have hd : d.entryCount = _ := hself ▸ hcount (d.shards i)
  rw [hcount, hd]
  omega

theorem entryCount_setShard_le_self (h : shard.entries.len ≤ (d.shards i).entries.len) :
    (d.setShard i shard).entryCount ≤ d.entryCount := by
  have hle : shard.entries.len ≤ (d.shards i).entries.len + 0 := by rwa [Nat.add_zero]
  have hcount := entryCount_setShard_le hle
  rwa [Nat.add_zero] at hcount

end

end ClawDesk.Gateway.Idempotency
