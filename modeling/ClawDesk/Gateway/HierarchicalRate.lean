import ClawDesk.Gateway.ShardedRateLimiter

/-!
# The hierarchical rate limiter

A request passes through tiers, each a sharded rate limiter of its own, and is denied by
the first one that refuses.  A check that is refused leaves the tokens of the client as they
were; one that is granted takes a token, and nobody gives it back when a later tier refuses
(`check_denied`).
-/

namespace ClawDesk.Gateway

open Foundations

/-! ### The tokens of a client -/

namespace ShardedRateLimiter

variable {limiter : ShardedRateLimiter} {shard : Shard} {ipHash bucket : BitVec 64}
  {nowMs : BitVec 32} {i j : ℕ}

/-- The slot that is probed `i`-th is the client's or empty. -/
def FreeAt (shard : Shard) (ipHash : BitVec 64) (i : ℕ) : Prop :=
  (shard.entries (probe ipHash i)).ipHash = ipHash ∨ (shard.entries (probe ipHash i)).ipHash = 0

instance : Decidable (FreeAt shard ipHash i) := inferInstanceAs (Decidable (_ ∨ _))

/-- The bucket that a check of the client works on: its own, or a full one. -/
def bucketIn (limiter : ShardedRateLimiter) (shard : Shard) (ipHash : BitVec 64)
    (nowMs : BitVec 32) : BitVec 64 :=
  match (List.range 64).find? (FreeAt shard ipHash ·) with
  | some i =>
      if (shard.entries (probe ipHash i)).ipHash = ipHash then
        (shard.entries (probe ipHash i)).bucket
      else packBucket limiter.capacity nowMs
  | none => packBucket limiter.capacity nowMs

/-- Two of the 64 probes never meet. -/
theorem probe_injective (hi : i < 64) (hj : j < 64) (h : probe ipHash i = probe ipHash j) :
    i = j := by
  have hval := congrArg Fin.val h
  simp only [probe, Fin.ofNat] at hval
  omega

/-- Every slot is probed. -/
theorem exists_probe (ipHash : BitVec 64) (idx : Fin 64) : ∃ i < 64, probe ipHash i = idx := by
  have hidx := idx.isLt
  refine ⟨(idx.val + 64 - ((ipHash >>> 8) &&& 63#64).toNat % 64) % 64, by omega, ?_⟩
  apply Fin.ext
  simp only [probe, Fin.ofNat]
  omega

/-- A bucket that is put where the client is looked for is the client's. -/
theorem bucketIn_update (hi : i < 64) (h : ∀ j < i, ¬ FreeAt shard ipHash j) (hand : ℕ) :
    limiter.bucketIn ⟨Function.update shard.entries (probe ipHash i) ⟨ipHash, bucket⟩, hand⟩ ipHash
      nowMs = bucket := by
  generalize hshard : (⟨Function.update shard.entries (probe ipHash i) ⟨ipHash, bucket⟩, hand⟩ :
    Shard) = shard'
  have hslot : shard'.entries (probe ipHash i) = ⟨ipHash, bucket⟩ := by
    rw [← hshard]
    exact Function.update_self ..
  have hfind : (List.range 64).find? (FreeAt shard' ipHash ·) = some i := by
    refine List.find?_range_eq_some.mpr ⟨?_, List.mem_range.mpr hi, fun j hj => ?_⟩
    · rw [decide_eq_true_iff, FreeAt, hslot]
      exact .inl rfl
    · have hne : probe ipHash j ≠ probe ipHash i := fun heq =>
        hj.ne (probe_injective (hj.trans hi) hi heq)
      have hother : shard'.entries (probe ipHash j) = shard.entries (probe ipHash j) := by
        rw [← hshard]
        exact Function.update_of_ne hne ..
      rw [Bool.not_eq_true', decide_eq_false_iff_not, FreeAt, hother]
      exact h j hj
  unfold bucketIn
  rw [hfind]
  show (if (shard'.entries (probe ipHash i)).ipHash = ipHash then _ else _) = bucket
  rw [hslot, if_pos rfl]

/-- The client has no slot and finds none. -/
theorem bucketIn_of_full (h : ∀ i < 64, ¬ FreeAt shard ipHash i) :
    limiter.bucketIn shard ipHash nowMs = packBucket limiter.capacity nowMs := by
  have hfind : (List.range 64).find? (FreeAt shard ipHash ·) = none := by
    refine List.find?_range_eq_none.mpr fun i hi => ?_
    rw [Bool.not_eq_true', decide_eq_false_iff_not]
    exact h i hi
  unfold bucketIn
  rw [hfind]

/-- **What a check does to the bucket of the client**: it consumes from it, or refuses and
leaves it. -/
def Consumes (limiter : ShardedRateLimiter) (bucket : BitVec 64) (nowMs : BitVec 32)
    (allowed : Bool) (bucket' : BitVec 64) : Prop :=
  (allowed, bucket') = limiter.tryConsume bucket nowMs ∨ (allowed = false ∧ bucket' = bucket)

theorem consumeAt_spec (hi : i < 64) (h : ∀ j < i, ¬ FreeAt shard ipHash j)
    (bucket : BitVec 64) :
    limiter.Consumes bucket nowMs
      (limiter.consumeAt shard (probe ipHash i) ipHash bucket nowMs).1
      (limiter.bucketIn (limiter.consumeAt shard (probe ipHash i) ipHash bucket nowMs).2 ipHash
        nowMs) :=
  .inl (congrArg (Prod.mk _) (bucketIn_update hi h shard.hand))

/-- A full shard gives up a slot, or does not. -/
theorem evictAndInsert_spec (steps : ℕ) (h : ∀ i < 64, ¬ FreeAt shard ipHash i) :
    limiter.Consumes (packBucket limiter.capacity nowMs) nowMs
      (limiter.evictAndInsert ipHash nowMs steps shard).1
      (limiter.bucketIn (limiter.evictAndInsert ipHash nowMs steps shard).2 ipHash nowMs) := by
  induction steps generalizing shard with
  | zero => exact .inr ⟨rfl, bucketIn_of_full h⟩
  | succ steps ih =>
      have hmoved : ∀ i < 64, ¬ FreeAt { shard with hand := shard.hand + 1 } ipHash i := h
      unfold evictAndInsert
      dsimp only
      split_ifs with hreferenced hempty
      · -- the bit is cleared, and no slot changes its client
        refine ih fun i hi hfree => h i hi ?_
        have hsame : (Function.update shard.entries (Fin.ofNat 64 shard.hand)
            { shard.entries (Fin.ofNat 64 shard.hand) with
              bucket := (shard.entries (Fin.ofNat 64 shard.hand)).bucket &&& ~~~referencedBit }
            (probe ipHash i)).ipHash = (shard.entries (probe ipHash i)).ipHash := by
          by_cases hidx : probe ipHash i = Fin.ofNat 64 shard.hand
          · rw [hidx, Function.update_self]
          · rw [Function.update_of_ne hidx]
        unfold FreeAt at hfree ⊢
        rwa [hsame] at hfree
      · exact ih hmoved
      · obtain ⟨i, hi, hprobe⟩ := exists_probe ipHash (Fin.ofNat 64 shard.hand)
        rw [← hprobe]
        exact consumeAt_spec hi (fun j hj => hmoved j (hj.trans hi)) _

/-- The check within a shard. -/
theorem checkShard_spec (limiter : ShardedRateLimiter) (shard : Shard) (ipHash : BitVec 64)
    (nowMs : BitVec 32) :
    limiter.Consumes (limiter.bucketIn shard ipHash nowMs) nowMs
      (limiter.checkShard shard ipHash nowMs).1
      (limiter.bucketIn (limiter.checkShard shard ipHash nowMs).2 ipHash nowMs) := by
  cases hfind : (List.range 64).find? (FreeAt shard ipHash ·) with
  | none =>
      have hfull : ∀ i < 64, ¬ FreeAt shard ipHash i := fun i hi hfree => by
        have hnone := List.find?_range_eq_none.mp hfind i hi
        rw [Bool.not_eq_true', decide_eq_false_iff_not] at hnone
        exact hnone hfree
      have hcheck : limiter.checkShard shard ipHash nowMs =
          limiter.evictAndInsert ipHash nowMs 128 shard := by
        have hprobes : ((List.range 64).find? fun i =>
            (shard.entries (probe ipHash i)).ipHash = ipHash ∨
              (shard.entries (probe ipHash i)).ipHash = 0) = none := hfind
        unfold checkShard
        rw [hprobes]
      rw [hcheck, bucketIn_of_full hfull]
      exact evictAndInsert_spec 128 hfull
  | some i =>
      obtain ⟨hfree, hmem, hbefore⟩ := List.find?_range_eq_some.mp hfind
      have hi : i < 64 := List.mem_range.mp hmem
      have hnone : ∀ j < i, ¬ FreeAt shard ipHash j := fun j hj hfree => by
        have hnot := hbefore j hj
        rw [Bool.not_eq_true', decide_eq_false_iff_not] at hnot
        exact hnot hfree
      have hcheck : limiter.checkShard shard ipHash nowMs =
          limiter.consumeAt shard (probe ipHash i) ipHash (limiter.bucketIn shard ipHash nowMs)
            nowMs := by
        have hprobes : ((List.range 64).find? fun i =>
            (shard.entries (probe ipHash i)).ipHash = ipHash ∨
              (shard.entries (probe ipHash i)).ipHash = 0) = some i := hfind
        unfold checkShard bucketIn
        rw [hprobes, hfind]
        dsimp only
        split_ifs <;> rfl
      rw [hcheck]
      exact consumeAt_spec hi hnone _

/-! ### A check -/

variable {clientId : String} {elapsedMs : ℕ}

/-- The tokens that a check of the client finds. -/
def tokensOf (limiter : ShardedRateLimiter) (clientId : String) (elapsedMs : ℕ) : ℚ :=
  limiter.refilled (limiter.bucketIn (limiter.shards (shardIdx clientId)) (hashOf clientId)
    (.ofNat 32 elapsedMs)) (.ofNat 32 elapsedMs)

/-- A number of tokens as a bucket stores it, in thousandths. -/
def stored (tokens : ℚ) : ℚ := (packed tokens : ℚ) / 1000

/-- The check takes a token. -/
def Granted (limiter limiter' : ShardedRateLimiter) (clientId : String) (elapsedMs : ℕ) : Prop :=
  1 ≤ limiter.tokensOf clientId elapsedMs ∧
    limiter'.tokensOf clientId elapsedMs = stored (limiter.tokensOf clientId elapsedMs - 1)

/-- The check leaves the tokens of the client as they were. -/
def Refused (limiter limiter' : ShardedRateLimiter) (clientId : String) (elapsedMs : ℕ) : Prop :=
  limiter'.tokensOf clientId elapsedMs = limiter.tokensOf clientId elapsedMs

/-- What is stored is not refilled at once. -/
theorem refilled_stored {tokens : ℚ} (hnonneg : 0 ≤ tokens) (hle : tokens ≤ limiter.capacity) :
    limiter.refilled (packBucket tokens nowMs ||| referencedBit) nowMs = stored tokens := by
  have hunpack : unpackBucket (packBucket tokens nowMs ||| referencedBit) =
      (stored tokens, nowMs) := by
    rw [unpack_referenced, unpack_pack, stored]
  have hstored : stored tokens ≤ limiter.capacity := (packed_le hnonneg).trans hle
  unfold refilled
  rw [hunpack]
  dsimp only
  rw [BitVec.sub_self, BitVec.toNat_zero, Nat.zero_min, Nat.cast_zero, zero_div, zero_mul,
    add_zero, min_eq_left hstored]

/-- **A check takes one token when it is granted, and none when it is refused**, in every state of
the limiter. -/
theorem check_spec (limiter : ShardedRateLimiter) (clientId : String) (elapsedMs : ℕ) :
    if (limiter.check clientId elapsedMs).1 = true then
      limiter.Granted (limiter.check clientId elapsedMs).2 clientId elapsedMs
    else limiter.Refused (limiter.check clientId elapsedMs).2 clientId elapsedMs := by
  obtain ⟨allowed, shard', hshard⟩ : ∃ allowed shard', limiter.checkShard
      (limiter.shards (shardIdx clientId)) (hashOf clientId) (.ofNat 32 elapsedMs) =
        (allowed, shard') := ⟨_, _, rfl⟩
  have hallowed : (limiter.check clientId elapsedMs).1 = allowed := congrArg Prod.fst hshard
  have hshards : (limiter.check clientId elapsedMs).2.shards (shardIdx clientId) = shard' :=
    (Function.update_self ..).trans (congrArg Prod.snd hshard)
  have hspec := limiter.checkShard_spec (limiter.shards (shardIdx clientId)) (hashOf clientId)
    (.ofNat 32 elapsedMs)
  have htokens : (limiter.check clientId elapsedMs).2.tokensOf clientId elapsedMs =
      limiter.refilled (limiter.bucketIn shard' (hashOf clientId) (.ofNat 32 elapsedMs))
        (.ofNat 32 elapsedMs) := by
    unfold tokensOf
    rw [hshards]
    rfl
  rw [hshard] at hspec
  rw [hallowed, Granted, Refused, htokens]
  rcases hspec with hconsume | ⟨rfl, hbucket⟩
  · rcases lt_or_ge (limiter.tokensOf clientId elapsedMs) 1 with hlt | hle
    · rw [tryConsume_of_lt hlt] at hconsume
      obtain ⟨rfl, hbucket⟩ := Prod.mk.inj hconsume
      exact congrArg (limiter.refilled · _) hbucket
    · rw [tryConsume_of_le hle] at hconsume
      obtain ⟨rfl, hbucket⟩ := Prod.mk.inj hconsume
      refine ⟨hle, ?_⟩
      have hcapacity : limiter.tokensOf clientId elapsedMs ≤ limiter.capacity := min_le_right _ _
      show limiter.refilled (limiter.bucketIn shard' _ _) _ = _
      rw [hbucket]
      exact refilled_stored (sub_nonneg.mpr hle) ((sub_le_self _ zero_le_one).trans hcapacity)
  · exact congrArg (limiter.refilled · _) hbucket

end ShardedRateLimiter

/-! ### Tiers -/

/-- Configuration for a single tier in the hierarchy. -/
structure TierConfig where
  name : String
  /-- Maximum burst size. -/
  capacity : ℕ
  /-- Tokens refilled per second. -/
  refillPerSec : ℚ

/-- A tier: its name and its limiter. -/
abbrev Tier := String × ShardedRateLimiter

/-- Enforces limits at multiple tiers. -/
structure HierarchicalRateLimiter where
  tiers : List Tier

namespace HierarchicalRateLimiter

def new (configs : List TierConfig) : HierarchicalRateLimiter where
  tiers := configs.map fun c => (c.name, .new c.capacity c.refillPerSec)

/-- The loop over the tiers, from the `i`-th on.  The key of a tier is found by its place or by its
name; each tier has a clock of its own. -/
def checkFrom (key : ℕ → String → String) (clock : ℕ → ℕ) :
    ℕ → List Tier → Option String × List Tier
  | _, [] => (none, [])
  | i, (name, limiter) :: rest =>
      let (allowed, limiter) := limiter.check (key i name) (clock i)
      if allowed = false then (some name, (name, limiter) :: rest)
      else
        let (blocked, rest) := checkFrom key clock (i + 1) rest
        (blocked, (name, limiter) :: rest)

/-- The i-th key is used for the i-th tier; if there are fewer, the last key is reused. -/
def keyAt (keys : List String) (i : ℕ) (_name : String) : String :=
  keys[i]?.getD (keys.getLast?.getD "unknown")

/-- The key of the name; of several pairs with one name the last one counts.  Unmatched tiers use
"global". -/
def keyNamed (namedKeys : List (String × String)) (_i : ℕ) (name : String) : String :=
  (namedKeys.reverse.lookup name).getD "global"

/-- Check rate limits across all tiers: the name of the tier that blocked the request, or none. -/
def check (limiter : HierarchicalRateLimiter) (keys : List String) (clock : ℕ → ℕ) :
    Option String × HierarchicalRateLimiter :=
  let (blocked, tiers) := checkFrom (keyAt keys) clock 0 limiter.tiers
  (blocked, ⟨tiers⟩)

/-- Check with named keys: pairs of a tier's name and a key. -/
def checkNamed (limiter : HierarchicalRateLimiter) (namedKeys : List (String × String))
    (clock : ℕ → ℕ) : Option String × HierarchicalRateLimiter :=
  let (blocked, tiers) := checkFrom (keyNamed namedKeys) clock 0 limiter.tiers
  (blocked, ⟨tiers⟩)

/-! ### What a denied request leaves -/

/-- From the `i`-th tier on, `k` tiers have given a token each, the next one has given none, and
those behind it are as they were. -/
structure StoppedAt (key : ℕ → String → String) (clock : ℕ → ℕ) (i : ℕ) (tiers tiers' : List Tier)
    (k : ℕ) : Prop where
  length : tiers'.length = tiers.length
  tier : ∀ (j : ℕ) (name : String) (limiter : ShardedRateLimiter),
    tiers[j]? = some (name, limiter) → ∃ limiter', tiers'[j]? = some (name, limiter') ∧
      (j < k → limiter.Granted limiter' (key (i + j) name) (clock (i + j))) ∧
      (j = k → limiter.Refused limiter' (key (i + j) name) (clock (i + j))) ∧
      (k < j → limiter' = limiter)

/-- The request was denied by a tier of this name. -/
def DeniedBy (key : ℕ → String → String) (clock : ℕ → ℕ) (tiers tiers' : List Tier)
    (name : String) : Prop :=
  ∃ (k : ℕ) (limiter : ShardedRateLimiter), tiers[k]? = some (name, limiter) ∧
    StoppedAt key clock 0 tiers tiers' k

section Denied

variable {key : ℕ → String → String} {clock : ℕ → ℕ} {i k : ℕ} {name : String}
  {limiter limiter' : ShardedRateLimiter} {rest rest' : List Tier}

/-- A tier that grants, before those that come behind it. -/
theorem StoppedAt.cons (hgranted : limiter.Granted limiter' (key i name) (clock i))
    (h : StoppedAt key clock (i + 1) rest rest' k) :
    StoppedAt key clock i ((name, limiter) :: rest) ((name, limiter') :: rest') (k + 1) where
  length := congrArg Nat.succ h.length
  tier j other l hj := by
    cases j with
    | zero =>
        obtain ⟨rfl, rfl⟩ := Prod.mk.inj (Option.some.inj hj)
        exact ⟨limiter', rfl, fun _ => hgranted, fun heq => absurd heq (Nat.succ_ne_zero k).symm,
          fun hlt => absurd hlt (Nat.not_lt_zero _)⟩
    | succ j =>
        obtain ⟨l', hl', hbefore, hat, hbehind⟩ := h.tier j other l hj
        have hplace : i + (j + 1) = i + 1 + j := by omega
        rw [hplace]
        exact ⟨l', hl', fun hlt => hbefore (Nat.lt_of_succ_lt_succ hlt),
          fun heq => hat (Nat.succ.inj heq), fun hlt => hbehind (Nat.lt_of_succ_lt_succ hlt)⟩

/-- A tier that refuses. -/
theorem stoppedAt_zero (hrefused : limiter.Refused limiter' (key i name) (clock i)) :
    StoppedAt key clock i ((name, limiter) :: rest) ((name, limiter') :: rest) 0 where
  length := rfl
  tier j other l hj := by
    cases j with
    | zero =>
        obtain ⟨rfl, rfl⟩ := Prod.mk.inj (Option.some.inj hj)
        exact ⟨limiter', rfl, fun hlt => absurd hlt (Nat.lt_irrefl 0), fun _ => hrefused,
          fun hlt => absurd hlt (Nat.lt_irrefl 0)⟩
    | succ j =>
        exact ⟨l, hj, fun hlt => absurd hlt (Nat.not_lt_zero _),
          fun heq => absurd heq (Nat.succ_ne_zero j), fun _ => rfl⟩

/-- **The loop** stops at a tier that refuses, or goes through all of them. -/
theorem checkFrom_spec (key : ℕ → String → String) (clock : ℕ → ℕ) (i : ℕ) (tiers : List Tier) :
    ((checkFrom key clock i tiers).1 = none ∧
      StoppedAt key clock i tiers (checkFrom key clock i tiers).2 tiers.length) ∨
    ∃ (k : ℕ) (name : String) (limiter : ShardedRateLimiter), tiers[k]? = some (name, limiter) ∧
      (checkFrom key clock i tiers).1 = some name ∧
      StoppedAt key clock i tiers (checkFrom key clock i tiers).2 k := by
  induction tiers generalizing i with
  | nil => exact .inl ⟨rfl, rfl, fun j _ _ hj => nomatch hj⟩
  | cons tier rest ih =>
      obtain ⟨name, limiter⟩ := tier
      have hspec := limiter.check_spec (key i name) (clock i)
      by_cases hallowed : (limiter.check (key i name) (clock i)).1 = true
      · rw [if_pos hallowed] at hspec
        have hloop : checkFrom key clock i ((name, limiter) :: rest) =
            ((checkFrom key clock (i + 1) rest).1,
              (name, (limiter.check (key i name) (clock i)).2) ::
                (checkFrom key clock (i + 1) rest).2) := by
          simp only [checkFrom]
          exact if_neg (by simp [hallowed])
        rw [hloop]
        rcases ih (i + 1) with ⟨hnone, hstopped⟩ | ⟨k, blocker, l, hk, hsome, hstopped⟩
        · exact .inl ⟨hnone, hstopped.cons hspec⟩
        · exact .inr ⟨k + 1, blocker, l, hk, hsome, hstopped.cons hspec⟩
      · rw [if_neg hallowed] at hspec
        have hloop : checkFrom key clock i ((name, limiter) :: rest) =
            (some name, (name, (limiter.check (key i name) (clock i)).2) :: rest) := by
          simp only [checkFrom]
          exact if_pos (Bool.eq_false_iff.mpr hallowed)
        rw [hloop]
        exact .inr ⟨0, name, limiter, rfl, rfl, stoppedAt_zero hspec⟩

theorem checkFrom_denied {tiers : List Tier} (h : (checkFrom key clock 0 tiers).1 = some name) :
    DeniedBy key clock tiers (checkFrom key clock 0 tiers).2 name := by
  rcases checkFrom_spec key clock 0 tiers with ⟨hnone, -⟩ | ⟨k, other, l, hk, hsome, hstopped⟩
  · rw [hnone] at h
    cases h
  · obtain rfl : other = name := Option.some.inj (hsome.symm.trans h)
    exact ⟨k, l, hk, hstopped⟩

end Denied

/-- **A request that is denied has taken one token from every tier before the one that denied it**,
none from that one, and has not touched the tiers behind. -/
theorem check_denied (limiter : HierarchicalRateLimiter) (keys : List String)
    (namedKeys : List (String × String)) (clock : ℕ → ℕ) (name : String) :
    ((limiter.check keys clock).1 = some name → DeniedBy (keyAt keys) clock limiter.tiers
      (limiter.check keys clock).2.tiers name) ∧
    ((limiter.checkNamed namedKeys clock).1 = some name → DeniedBy (keyNamed namedKeys) clock
      limiter.tiers (limiter.checkNamed namedKeys clock).2.tiers name) :=
  ⟨checkFrom_denied, checkFrom_denied⟩

/-- Two tiers without refill, the second one for a single request. -/
def twoTiers : HierarchicalRateLimiter := new [⟨"global", 100, 0⟩, ⟨"channel", 1, 0⟩]

/-- The two tiers after one request. -/
def used : HierarchicalRateLimiter := (twoTiers.check ["ip1", "telegram"] fun _ => 0).2

theorem check_denied_used :
    DeniedBy (keyAt ["ip1", "telegram"]) (fun _ => 1) used.tiers
        (used.check ["ip1", "telegram"] fun _ => 1).2.tiers "channel" ∧
      DeniedBy (keyNamed [("global", "ip1"), ("channel", "telegram")]) (fun _ => 1) used.tiers
        (used.checkNamed [("global", "ip1"), ("channel", "telegram")] fun _ => 1).2.tiers
          "channel" := by
  have hspec := check_denied used ["ip1", "telegram"] [("global", "ip1"), ("channel", "telegram")]
    (fun _ => 1) "channel"
  exact ⟨hspec.1 (by decide +kernel), hspec.2 (by decide +kernel)⟩

/-- The tokens of a client at a tier. -/
def tokensAt (limiter : HierarchicalRateLimiter) (i : ℕ) (clientId : String) (elapsedMs : ℕ) :
    Option ℚ :=
  limiter.tiers[i]?.map fun tier => tier.2.tokensOf clientId elapsedMs

/-- **A request that the second tier denies takes a token from the first.** -/
theorem denied_takes_token :
    (used.check ["ip1", "telegram"] fun _ => 1).1 = some "channel" ∧
      used.tokensAt 0 "ip1" 1 = some 99 ∧
      (used.check ["ip1", "telegram"] fun _ => 1).2.tokensAt 0 "ip1" 1 = some 98 := by
  decide +kernel

end HierarchicalRateLimiter

end ClawDesk.Gateway
