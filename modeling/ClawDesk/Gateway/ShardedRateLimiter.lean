import ClawDesk.Foundations.Fold
import ClawDesk.Foundations.TokenBucket
import ClawDesk.Gateway.Fnv
import Mathlib.Algebra.Order.Field.Rat
import Mathlib.Algebra.Order.Floor.Semiring
import Mathlib.Data.Rat.Floor
import Mathlib.Logic.Function.Basic

/-!
# The sharded rate limiter

A client has a slot in the shard of its hash, and the slot a token bucket that is packed
into one word: a referenced bit, the tokens in thousandths, and the milliseconds of
the last refill.  A full shard gives up a slot that was not referenced lately.

Calls are sequential, so that every compare-and-exchange succeeds.  The numbers of
tokens are rational, and the words are what the code packs them into.
-/

namespace ClawDesk.Gateway

open Foundations

/-! ### Buckets -/

/-- `x as u32`, which truncates and saturates. -/
def asU32 (x : ℚ) : BitVec 32 := BitVec.ofNat 32 (min ⌊x⌋₊ (2 ^ 32 - 1))

def referencedBit : BitVec 64 := 1#64 <<< 63

/-- Pack a token bucket: thousandths of tokens in bits 62–32, the timestamp below. -/
def packBucket (tokens : ℚ) (tsMs : BitVec 32) : BitVec 64 :=
  let tok := asU32 (tokens * 1000)
  ((tok.setWidth 64 &&& 0x7FFFFFFF#64) <<< 32) ||| tsMs.setWidth 64

/-- Unpack a word into tokens and timestamp, ignoring the referenced bit. -/
def unpackBucket (val : BitVec 64) : ℚ × BitVec 32 :=
  let tok := ((val &&& ~~~referencedBit) >>> 32).setWidth 32
  ((tok.toNat : ℚ) / 1000, val.setWidth 32)

/-! ### The limiter -/

/-- A slot.  The hash 0 means that it is empty. -/
structure Entry where
  ipHash : BitVec 64
  bucket : BitVec 64

/-- Each shard is an independent open-addressing hash table. -/
structure Shard where
  entries : Fin 64 → Entry
  hand : ℕ

/-- Sharded atomic rate limiter. -/
structure ShardedRateLimiter where
  shards : Fin 256 → Shard
  capacity : ℚ
  refillPerSec : ℚ

namespace ShardedRateLimiter

def new (capacity : ℕ) (refillPerSec : ℚ) : ShardedRateLimiter where
  shards := fun _ => { entries := fun _ => { ipHash := 0, bucket := 0 }, hand := 0 }
  capacity := capacity
  refillPerSec := refillPerSec

/-- The refilled tokens of a bucket.  Elapsed time is capped at one hour. -/
def refilled (limiter : ShardedRateLimiter) (bucket : BitVec 64) (nowMs : BitVec 32) : ℚ :=
  let (tokens, lastMs) := unpackBucket bucket
  let elapsedMs := min (nowMs - lastMs).toNat 3600000
  let elapsedSecs := (elapsedMs : ℚ) / 1000
  min (tokens + elapsedSecs * limiter.refillPerSec) limiter.capacity

/-- Try to consume one token from a bucket. -/
def tryConsume (limiter : ShardedRateLimiter) (bucket : BitVec 64) (nowMs : BitVec 32) :
    Bool × BitVec 64 :=
  let tokens := limiter.refilled bucket nowMs
  if tokens < 1 then (false, bucket)
  else (true, packBucket (tokens - 1) nowMs ||| referencedBit)

/-- Consume from a slot, for the client with the given hash. -/
def consumeAt (limiter : ShardedRateLimiter) (shard : Shard) (idx : Fin 64)
    (ipHash bucket : BitVec 64) (nowMs : BitVec 32) : Bool × Shard :=
  let (allowed, bucket) := limiter.tryConsume bucket nowMs
  (allowed, { shard with
    entries := Function.update shard.entries idx { ipHash := ipHash, bucket := bucket } })

/-- Evict an entry in a full shard using the CLOCK algorithm and insert a new one, in at
most the given number of steps. -/
def evictAndInsert (limiter : ShardedRateLimiter) (ipHash : BitVec 64) (nowMs : BitVec 32) :
    ℕ → Shard → Bool × Shard
  | 0, shard => (false, shard)
  | steps + 1, shard =>
      let idx := Fin.ofNat 64 shard.hand
      let entry := shard.entries idx
      let shard := { shard with hand := shard.hand + 1 }
      if entry.bucket &&& referencedBit ≠ 0 then
        -- second chance: clear the bit
        evictAndInsert limiter ipHash nowMs steps { shard with
          entries := Function.update shard.entries idx
            { entry with bucket := entry.bucket &&& ~~~referencedBit } }
      else if entry.ipHash = 0 then evictAndInsert limiter ipHash nowMs steps shard
      else limiter.consumeAt shard idx ipHash (packBucket limiter.capacity nowMs) nowMs

/-- The slots in the order in which they are probed. -/
def probe (ipHash : BitVec 64) (i : ℕ) : Fin 64 :=
  Fin.ofNat 64 (((ipHash >>> 8) &&& 63#64).toNat + i)

/-- The check within a shard: the first slot that is the client's or empty. -/
def checkShard (limiter : ShardedRateLimiter) (shard : Shard) (ipHash : BitVec 64)
    (nowMs : BitVec 32) : Bool × Shard :=
  match (List.range 64).find? fun i =>
      (shard.entries (probe ipHash i)).ipHash = ipHash ∨
        (shard.entries (probe ipHash i)).ipHash = 0 with
  | some i =>
      let idx := probe ipHash i
      let entry := shard.entries idx
      if entry.ipHash = ipHash then limiter.consumeAt shard idx ipHash entry.bucket nowMs
      -- an empty slot is claimed, with a full bucket
      else limiter.consumeAt shard idx ipHash (packBucket limiter.capacity nowMs) nowMs
  | none => limiter.evictAndInsert ipHash nowMs 128 shard

/-- The shard of a client. -/
def shardIdx (clientId : String) : Fin 256 :=
  Fin.ofNat 256 (fnv1aHash (keyBytes clientId) &&& 255#64).toNat

/-- Try to consume one token for the given client identifier, at the given number of
milliseconds since the limiter was created. -/
def check (limiter : ShardedRateLimiter) (clientId : String) (elapsedMs : ℕ) :
    Bool × ShardedRateLimiter :=
  let ipHash := fnv1aHash (keyBytes clientId)
  let nowMs := BitVec.ofNat 32 elapsedMs
  let (allowed, shard) := limiter.checkShard (limiter.shards (shardIdx clientId)) ipHash nowMs
  (allowed, { limiter with shards := Function.update limiter.shards (shardIdx clientId) shard })

end ShardedRateLimiter

/-! ### Runs -/

/-- A check of a client, at a time since the limiter was created. -/
structure Check where
  clientId : String
  nowMs : ℕ

/-- The clock in seconds. -/
def seconds (ms : ℕ) : ℚ := ms / 1000

namespace ShardedRateLimiter

/-- The limiter, and the checks it has answered, the last one first. -/
abbrev History := ShardedRateLimiter × List (Check × Bool)

/-- One more check. -/
def feed (st : History) (c : Check) : History :=
  let (allowed, limiter) := st.1.check c.clientId c.nowMs
  (limiter, (c, allowed) :: st.2)

/-- The times at which a client was checked. -/
def checks (clientId : String) : List (Check × Bool) → List ℕ
  | [] => []
  | (c, _) :: log => if c.clientId = clientId then c.nowMs :: checks clientId log
      else checks clientId log

/-- The times at which it was accepted, in seconds. -/
def accepts (clientId : String) : List (Check × Bool) → List ℚ
  | [] => []
  | (c, allowed) :: log =>
      if c.clientId = clientId ∧ allowed = true then seconds c.nowMs :: accepts clientId log
      else accepts clientId log

/-- The client is alone in its shard, and the clock neither goes back nor wraps. -/
structure Solo (clientId : String) (calls : List Check) : Prop where
  sorted : calls.Pairwise (·.nowMs ≤ ·.nowMs)
  clock : ∀ c ∈ calls, c.nowMs < 2 ^ 32
  alone : ∀ c ∈ calls, shardIdx c.clientId = shardIdx clientId → c.clientId = clientId

/-- What a token bucket does for a check of the client.  The rounding is what a refill may
take longer. -/
structure Conforms (capacity : ℕ) (rate rounding : ℚ) (st : History) (c : Check) : Prop where
  burst : (∀ s ∈ checks c.clientId st.2, s = c.nowMs) →
    ((st.1.check c.clientId c.nowMs).1 = true ↔ (checks c.clientId st.2).length < capacity)
  bounded : ∀ s t, s ≤ t →
    (((accepts c.clientId (feed st c).2).countP fun u => s ≤ u ∧ u ≤ t : ℕ) : ℚ) ≤
      capacity + rate * (t - s)
  refilled : ∀ t₀ ∈ (accepts c.clientId st.2).head?,
    t₀ + 1 / rate + rounding ≤ seconds c.nowMs → (st.1.check c.clientId c.nowMs).1 = true

/-- In every run the client gets what a token bucket gives. -/
def AlwaysConforms (capacity : ℕ) (rate rounding : ℚ) (clientId : String) : Prop :=
  ∀ calls, Solo clientId calls → EachStep feed (new capacity rate, []) calls
    fun st c => c.clientId = clientId → Conforms capacity rate rounding st c

/-- The hash of a client. -/
def hashOf (clientId : String) : BitVec 64 := fnv1aHash (keyBytes clientId)

/-- The hash does not mark an empty slot, the capacity fits into the word, and a token is
refilled in an hour, or else not as long as the clock goes. -/
structure Fits (capacity : ℕ) (rate rounding : ℚ) (clientId : String) : Prop where
  hash : hashOf clientId ≠ 0
  capacity : capacity ≤ 2147483
  rate : 1 ≤ 3600 * rate ∨ seconds (2 ^ 32 - 1) < 1 / rate + rounding

end ShardedRateLimiter

/-! ### Words -/

section Words

variable {x : ℚ}

theorem toNat_packBucket (x : ℚ) (ts : BitVec 32) : (packBucket x ts).toNat =
    (asU32 (x * 1000)).toNat % 2 ^ 31 * 2 ^ 32 + ts.toNat := by
  have htok := (asU32 (x * 1000)).isLt
  have hts := ts.isLt
  have hmask : ((asU32 (x * 1000)).setWidth 64 &&& 0x7FFFFFFF#64).toNat =
      (asU32 (x * 1000)).toNat % 2 ^ 31 := by
    rw [BitVec.toNat_and, BitVec.toNat_setWidth, Nat.mod_eq_of_lt (htok.trans (by decide))]
    exact Nat.and_two_pow_sub_one_eq_mod _ 31
  have hshift : (((asU32 (x * 1000)).setWidth 64 &&& 0x7FFFFFFF#64) <<< 32).toNat =
      ((asU32 (x * 1000)).toNat % 2 ^ 31) <<< 32 := by
    rw [BitVec.toNat_shiftLeft, hmask, Nat.mod_eq_of_lt]
    rw [Nat.shiftLeft_eq]
    omega
  unfold packBucket
  dsimp only
  have htime : (ts.setWidth 64).toNat = ts.toNat := by
    rw [BitVec.toNat_setWidth, Nat.mod_eq_of_lt (hts.trans (by decide))]
  rw [BitVec.toNat_or, hshift, htime, ← Nat.shiftLeft_add_eq_or_of_lt hts, Nat.shiftLeft_eq]

theorem unpackBucket_eq (val : BitVec 64) : unpackBucket val =
    (((val.toNat % 2 ^ 63 / 2 ^ 32 : ℕ) : ℚ) / 1000, val.setWidth 32) := by
  have hmask : (val &&& ~~~referencedBit).toNat = val.toNat % 2 ^ 63 := by
    rw [BitVec.toNat_and]
    exact Nat.and_two_pow_sub_one_eq_mod _ 63
  have htok : (((val &&& ~~~referencedBit) >>> 32).setWidth 32).toNat =
      val.toNat % 2 ^ 63 / 2 ^ 32 := by
    rw [BitVec.toNat_setWidth, BitVec.toNat_ushiftRight, hmask, Nat.shiftRight_eq_div_pow]
    omega
  unfold unpackBucket
  dsimp only
  rw [htok]

/-- What the mask leaves of the thousandths. -/
def packed (x : ℚ) : ℕ := min ⌊x * 1000⌋₊ (2 ^ 32 - 1) % 2 ^ 31

theorem unpack_pack (x : ℚ) (ts : BitVec 32) :
    unpackBucket (packBucket x ts) = ((packed x : ℚ) / 1000, ts) := by
  have htok : (asU32 (x * 1000)).toNat % 2 ^ 31 = packed x := by
    rw [asU32, BitVec.toNat_ofNat, packed]
    omega
  have hts := ts.isLt
  have hpacked : packed x < 2 ^ 31 := Nat.mod_lt _ (by decide)
  rw [unpackBucket_eq, toNat_packBucket, htok]
  congr 3
  · omega
  · apply BitVec.eq_of_toNat_eq
    rw [BitVec.toNat_setWidth, toNat_packBucket]
    omega

theorem unpack_referenced (val : BitVec 64) :
    unpackBucket (val ||| referencedBit) = unpackBucket val := by
  have htok : (val ||| referencedBit).toNat % 2 ^ 63 = val.toNat % 2 ^ 63 := by
    have hzero : referencedBit.toNat % 2 ^ 63 = 0 := by decide
    rw [BitVec.toNat_or, Nat.or_mod_two_pow, hzero, Nat.or_zero]
  have htime : (val ||| referencedBit).setWidth 32 = val.setWidth 32 := by
    have hzero : referencedBit.setWidth 32 = 0#32 := by decide
    rw [BitVec.setWidth_or, hzero, BitVec.or_zero]
  rw [unpackBucket_eq, unpackBucket_eq, htok, htime]

/-- Packing loses what is below a thousandth. -/
theorem packed_le (hx : 0 ≤ x) : (packed x : ℚ) / 1000 ≤ x := by
  have hnat : packed x ≤ ⌊x * 1000⌋₊ := (Nat.mod_le _ _).trans (min_le_left _ _)
  have hfloor : (⌊x * 1000⌋₊ : ℚ) ≤ x * 1000 := Nat.floor_le (by linarith)
  have hcast : (packed x : ℚ) ≤ ⌊x * 1000⌋₊ := by exact_mod_cast hnat
  linarith

/-- Thousandths are packed exactly, as long as they fit… -/
theorem packed_div {n : ℕ} (h : n < 2 ^ 31) : packed ((n : ℚ) / 1000) = n := by
  rw [packed, div_mul_cancel₀ _ (by norm_num), Nat.floor_natCast]
  omega

/-- …and so are whole tokens. -/
theorem packed_natCast {n : ℕ} (h : n ≤ 2147483) : packed n = n * 1000 := by
  have hn : ((n * 1000 : ℕ) : ℚ) / 1000 = n := by
    rw [Nat.cast_mul]
    exact mul_div_cancel_right₀ _ (by norm_num)
  rw [← packed_div (n := n * 1000) (by omega), hn]

theorem toNat_sub_ofNat {last now : ℕ} (hle : last ≤ now) (hnow : now < 2 ^ 32) :
    (BitVec.ofNat 32 now - BitVec.ofNat 32 last).toNat = now - last := by
  rw [BitVec.toNat_sub_of_le]
  · rw [BitVec.toNat_ofNat, BitVec.toNat_ofNat, Nat.mod_eq_of_lt hnow, Nat.mod_eq_of_lt (by omega)]
  · rw [BitVec.le_def, BitVec.toNat_ofNat, BitVec.toNat_ofNat, Nat.mod_eq_of_lt hnow,
      Nat.mod_eq_of_lt (by omega)]
    exact hle

end Words

/-! ### The slot of a client -/

namespace ShardedRateLimiter

variable {limiter : ShardedRateLimiter} {clientId other : String} {nowMs : BitVec 32}
  {bucket : BitVec 64} {level : ℚ} {last now : ℕ}

/-- The first slot that is probed for the client. -/
def slot (limiter : ShardedRateLimiter) (clientId : String) : Entry :=
  (limiter.shards (shardIdx clientId)).entries (probe (hashOf clientId) 0)

/-- The slot is the client's, or empty. -/
def Free (limiter : ShardedRateLimiter) (clientId : String) : Prop :=
  (limiter.slot clientId).ipHash = hashOf clientId ∨ (limiter.slot clientId).ipHash = 0

/-- The bucket that a check works on. -/
def bucketFor (limiter : ShardedRateLimiter) (clientId : String) (nowMs : BitVec 32) : BitVec 64 :=
  if (limiter.slot clientId).ipHash = hashOf clientId then (limiter.slot clientId).bucket
  else packBucket limiter.capacity nowMs

theorem checkShard_of_free {shard : Shard} {ipHash : BitVec 64}
    (h : (shard.entries (probe ipHash 0)).ipHash = ipHash ∨
      (shard.entries (probe ipHash 0)).ipHash = 0) :
    limiter.checkShard shard ipHash nowMs = limiter.consumeAt shard (probe ipHash 0) ipHash
      (if (shard.entries (probe ipHash 0)).ipHash = ipHash
        then (shard.entries (probe ipHash 0)).bucket
        else packBucket limiter.capacity nowMs) nowMs := by
  have hfirst : ((List.range 64).find? fun i =>
      (shard.entries (probe ipHash i)).ipHash = ipHash ∨
        (shard.entries (probe ipHash i)).ipHash = 0) = some 0 := by
    rw [List.range_succ_eq_map]
    exact List.find?_cons_of_pos (decide_eq_true h)
  unfold checkShard
  rw [hfirst]
  dsimp only
  split_ifs <;> rfl

/-- **A check of the client** consumes from its bucket. -/
theorem check_of_free (h : limiter.Free clientId) (now : ℕ) :
    (limiter.check clientId now).1 =
      (limiter.tryConsume (limiter.bucketFor clientId (.ofNat 32 now)) (.ofNat 32 now)).1 ∧
    (limiter.check clientId now).2.slot clientId =
      { ipHash := hashOf clientId
        bucket := (limiter.tryConsume (limiter.bucketFor clientId (.ofNat 32 now))
          (.ofNat 32 now)).2 } := by
  have hshard : limiter.checkShard (limiter.shards (shardIdx clientId)) (hashOf clientId)
      (.ofNat 32 now) = limiter.consumeAt (limiter.shards (shardIdx clientId))
        (probe (hashOf clientId) 0) (hashOf clientId)
        (limiter.bucketFor clientId (.ofNat 32 now)) (.ofNat 32 now) := checkShard_of_free h
  have hfst : (limiter.check clientId now).1 = (limiter.checkShard
      (limiter.shards (shardIdx clientId)) (hashOf clientId) (.ofNat 32 now)).1 := rfl
  have hsnd : (limiter.check clientId now).2.shards (shardIdx clientId) = (limiter.checkShard
      (limiter.shards (shardIdx clientId)) (hashOf clientId) (.ofNat 32 now)).2 :=
    Function.update_self ..
  rw [slot, hfst, hsnd, hshard]
  exact ⟨rfl, Function.update_self ..⟩

/-- A check of a client of another shard does not matter. -/
theorem check_slot_of_ne (h : shardIdx other ≠ shardIdx clientId) (now : ℕ) :
    (limiter.check other now).2.slot clientId = limiter.slot clientId := by
  unfold check slot
  dsimp only
  rw [Function.update_of_ne h.symm]

/-- The tokens that a check finds. -/
theorem refilled_eq (h : unpackBucket bucket = (level, .ofNat 32 last)) (hle : last ≤ now)
    (hnow : now < 2 ^ 32) : limiter.refilled bucket (.ofNat 32 now) =
      min (level + ((min (now - last) 3600000 : ℕ) : ℚ) / 1000 * limiter.refillPerSec)
        limiter.capacity := by
  unfold refilled
  rw [h]
  dsimp only
  rw [toNat_sub_ofNat hle hnow]

/-- The refill is not more than the time that passed allows. -/
theorem refilled_le (h : unpackBucket bucket = (level, .ofNat 32 last)) (hle : last ≤ now)
    (hnow : now < 2 ^ 32) (hrate : 0 ≤ limiter.refillPerSec) :
    limiter.refilled bucket (.ofNat 32 now) ≤
      level + limiter.refillPerSec * (seconds now - seconds last) := by
  rw [refilled_eq h hle hnow]
  refine (min_le_left _ _).trans ?_
  have hcap : ((min (now - last) 3600000 : ℕ) : ℚ) ≤ ((now - last : ℕ) : ℚ) := by
    exact_mod_cast min_le_left _ _
  rw [Nat.cast_sub hle] at hcap
  have helapsed : ((min (now - last) 3600000 : ℕ) : ℚ) / 1000 ≤ seconds now - seconds last := by
    unfold seconds
    linarith
  have hrefill := mul_le_mul_of_nonneg_right helapsed hrate
  linarith

/-- Nothing is refilled at once. -/
theorem refilled_self (h : unpackBucket bucket = (level, .ofNat 32 now)) (hnow : now < 2 ^ 32)
    (hle : level ≤ limiter.capacity) : limiter.refilled bucket (.ofNat 32 now) = level := by
  rw [refilled_eq h le_rfl hnow, Nat.sub_self, Nat.zero_min, Nat.cast_zero, zero_div, zero_mul,
    add_zero, min_eq_left hle]

/-- A token is refilled in time. -/
theorem one_le_refilled (h : unpackBucket bucket = (level, .ofNat 32 last)) (hle : last ≤ now)
    (hnow : now < 2 ^ 32) (hlevel : 0 ≤ level) (hcapacity : 1 ≤ limiter.capacity)
    (hrate : 1 ≤ 3600 * limiter.refillPerSec)
    (htime : 1 ≤ (seconds now - seconds last) * limiter.refillPerSec) :
    1 ≤ limiter.refilled bucket (.ofNat 32 now) := by
  rw [refilled_eq h hle hnow]
  refine le_min ?_ hcapacity
  rcases Nat.le_total (now - last) 3600000 with hshort | hlong
  · have helapsed : ((min (now - last) 3600000 : ℕ) : ℚ) / 1000 = seconds now - seconds last := by
      rw [min_eq_left hshort, Nat.cast_sub hle]
      unfold seconds
      ring
    rw [helapsed]
    linarith
  · rw [min_eq_right hlong]
    push_cast
    linarith

theorem tryConsume_of_lt (h : limiter.refilled bucket nowMs < 1) :
    limiter.tryConsume bucket nowMs = (false, bucket) := if_pos h

theorem tryConsume_of_le (h : 1 ≤ limiter.refilled bucket nowMs) :
    limiter.tryConsume bucket nowMs =
      (true, packBucket (limiter.refilled bucket nowMs - 1) nowMs ||| referencedBit) :=
  if_neg (not_lt.mpr h)

theorem tryConsume_fst_iff :
    (limiter.tryConsume bucket nowMs).1 = true ↔ 1 ≤ limiter.refilled bucket nowMs := by
  rcases lt_or_ge (limiter.refilled bucket nowMs) 1 with hlt | hle
  · rw [tryConsume_of_lt hlt]
    exact iff_of_false Bool.false_ne_true (not_le.mpr hlt)
  · rw [tryConsume_of_le hle]
    exact iff_of_true rfl hle

end ShardedRateLimiter

end ClawDesk.Gateway
