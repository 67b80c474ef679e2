import ClawDesk.Gateway.ShardedRateLimiter

/-!
# The rate of one client

A client that is alone in its shard is let through as by a token bucket when the
capacity fits into the 31 bits for the tokens, when one hour is enough to refill a
token, and when its hash is not the mark of an empty slot, and only then
(`alwaysConforms_iff`).
-/

namespace ClawDesk.Gateway.ShardedRateLimiter

open Foundations

variable {limiter : ShardedRateLimiter} {clientId other : String} {nowMs : BitVec 32}
  {bucket : BitVec 64} {level : ℚ} {last now : ℕ}

/-! ### What a run keeps -/

variable {st : History} {capacity : ℕ} {rate rounding : ℚ} {c : Check}

/-- A check that the run may go on with. -/
structure Next (clientId : String) (st : History) (c : Check) : Prop where
  alone : c.clientId = clientId ∨ shardIdx c.clientId ≠ shardIdx clientId
  clock : c.nowMs < 2 ^ 32
  later : ∀ s ∈ checks clientId st.2, s ≤ c.nowMs

/-- The bucket agrees with what the client was let through. -/
structure Sees (capacity : ℕ) (rate : ℚ) (clientId : String) (log : List (Check × Bool))
    (bucket : BitVec 64) (now : ℕ) (level : ℚ) (last : ℕ) : Prop where
  unpack : unpackBucket bucket = (level, .ofNat 32 last)
  past : last ≤ now
  metered : Metered rate capacity (accepts clientId log) (seconds last) level
  latest : ∀ t₀ ∈ (accepts clientId log).head?, t₀ = seconds last
  burst : (∀ s ∈ checks clientId log, s = now) →
    last = now ∧ level = ((capacity - (checks clientId log).length : ℕ) : ℚ)

/-- Until the client is checked its slot is empty; then it is the client's. -/
structure Tracks (capacity : ℕ) (rate : ℚ) (clientId : String) (st : History) : Prop where
  sameCapacity : st.1.capacity = capacity
  sameRate : st.1.refillPerSec = rate
  slot : ((st.1.slot clientId).ipHash = 0 ∧ checks clientId st.2 = [] ∧
      accepts clientId st.2 = []) ∨
    (st.1.slot clientId).ipHash = hashOf clientId ∧
      ∃ level, ∃ last ∈ checks clientId st.2, ∀ now, last ≤ now →
        Sees capacity rate clientId st.2 (st.1.slot clientId).bucket now level last

variable {log : List (Check × Bool)} {answer : Bool}

theorem checks_cons_self (h : c.clientId = clientId) :
    checks clientId ((c, answer) :: log) = c.nowMs :: checks clientId log := if_pos h

theorem checks_cons_of_ne (h : c.clientId ≠ clientId) :
    checks clientId ((c, answer) :: log) = checks clientId log := if_neg h

theorem accepts_cons_true (h : c.clientId = clientId) :
    accepts clientId ((c, true) :: log) = seconds c.nowMs :: accepts clientId log :=
  if_pos ⟨h, rfl⟩

theorem accepts_cons_false : accepts clientId ((c, false) :: log) = accepts clientId log :=
  if_neg fun h => Bool.false_ne_true h.2

theorem accepts_cons_of_ne (h : c.clientId ≠ clientId) :
    accepts clientId ((c, answer) :: log) = accepts clientId log := if_neg fun hc => h hc.1

theorem seconds_mono {s t : ℕ} (h : s ≤ t) : seconds s ≤ seconds t :=
  div_le_div_of_nonneg_right (Nat.cast_le.mpr h) (by norm_num)

theorem tracks_new (capacity : ℕ) (rate : ℚ) (clientId : String) :
    Tracks capacity rate clientId (new capacity rate, []) :=
  ⟨rfl, rfl, .inl ⟨rfl, rfl, rfl⟩⟩

theorem Tracks.free (h : Tracks capacity rate clientId st) : st.1.Free clientId :=
  h.slot.elim (fun hfresh => .inr hfresh.1) fun hknown => .inl hknown.1

/-- What a check of the client finds. -/
theorem Tracks.sees (h : Tracks capacity rate clientId st) (hrate : 0 ≤ rate)
    (hhash : hashOf clientId ≠ 0) (hfits : capacity ≤ 2147483) {now : ℕ}
    (hlater : ∀ s ∈ checks clientId st.2, s ≤ now) :
    ∃ level, ∃ last ∈ now :: checks clientId st.2, Sees capacity rate clientId st.2
      (st.1.bucketFor clientId (.ofNat 32 now)) now level last := by
  rcases h.slot with ⟨hempty, hchecks, haccepts⟩ | ⟨hown, level, last, hlast, hsees⟩
  · -- the slot is claimed with a full bucket
    have hbucket : st.1.bucketFor clientId (.ofNat 32 now) =
        packBucket capacity (.ofNat 32 now) := by
      rw [bucketFor, if_neg (by rw [hempty]; exact hhash.symm), h.sameCapacity]
    refine ⟨capacity, now, List.mem_cons_self, ?_, le_rfl, ?_, ?_, fun _ => ⟨rfl, ?_⟩⟩
    · rw [hbucket, unpack_pack, packed_natCast hfits]
      push_cast
      rw [mul_div_assoc, div_self (by norm_num), mul_one]
    · rw [haccepts]
      exact metered_nil hrate (Nat.cast_nonneg _) le_rfl _
    · rw [haccepts]
      exact fun _ ht => nomatch ht
    · rw [hchecks]
      rfl
  · have hbucket : st.1.bucketFor clientId (.ofNat 32 now) = (st.1.slot clientId).bucket :=
      if_pos hown
    rw [hbucket]
    exact ⟨level, last, List.mem_cons_of_mem _ hlast, hsees now (hlater last hlast)⟩

/-- The tokens of a bucket that was not refilled since are counted exactly. -/
theorem Sees.refilled_of_burst (h : Sees capacity rate clientId log bucket now level last)
    (hcapacity : limiter.capacity = capacity) (hnow : now < 2 ^ 32)
    (hburst : ∀ s ∈ checks clientId log, s = now) : limiter.refilled bucket (.ofNat 32 now) =
      ((capacity - (checks clientId log).length : ℕ) : ℚ) := by
  obtain ⟨rfl, hlevel⟩ := h.burst hburst
  rw [refilled_self h.unpack hnow (hcapacity ▸ h.metered.level_le), hlevel]

/-- A check that is denied. -/
theorem Sees.denied (h : Sees capacity rate clientId log bucket now level last)
    (hcapacity : limiter.capacity = capacity) (hc : c.clientId = clientId) (hnow : c.nowMs = now)
    (hclock : now < 2 ^ 32) (hlt : limiter.refilled bucket (.ofNat 32 now) < 1) {now' : ℕ}
    (hle : last ≤ now') :
    Sees capacity rate clientId ((c, false) :: log) bucket now' level last where
  unpack := h.unpack
  past := hle
  metered := by
    rw [accepts_cons_false]
    exact h.metered
  latest := by
    rw [accepts_cons_false]
    exact h.latest
  burst hall := by
    rw [checks_cons_self hc] at hall ⊢
    obtain rfl : now = now' := hnow ▸ hall _ List.mem_cons_self
    have hburst : ∀ s ∈ checks clientId log, s = now := fun s hs =>
      hall s (List.mem_cons_of_mem _ hs)
    rw [h.refilled_of_burst hcapacity hclock hburst, Nat.cast_lt_one] at hlt
    obtain ⟨hlast, hlevel⟩ := h.burst hburst
    refine ⟨hlast, ?_⟩
    rw [hlevel, List.length_cons]
    congr 1
    omega

/-- A check that is allowed. -/
theorem Sees.allowed (h : Sees capacity rate clientId log bucket now level last)
    (hcapacity : limiter.capacity = capacity) (hrate : limiter.refillPerSec = rate)
    (hfits : capacity ≤ 2147483) (hc : c.clientId = clientId) (hnow : c.nowMs = now)
    (hclock : now < 2 ^ 32) (hone : 1 ≤ limiter.refilled bucket (.ofNat 32 now)) {now' : ℕ}
    (hle : now ≤ now') :
    Sees capacity rate clientId ((c, true) :: log)
      (packBucket (limiter.refilled bucket (.ofNat 32 now) - 1) (.ofNat 32 now) ||| referencedBit)
      now' ((packed (limiter.refilled bucket (.ofNat 32 now) - 1) : ℚ) / 1000) now where
  unpack := by rw [unpack_referenced, unpack_pack]
  past := hle
  metered := by
    have hpacked := packed_le (sub_nonneg.mpr hone)
    have hrefilled : limiter.refilled bucket (.ofNat 32 now) ≤ _ :=
      refilled_le h.unpack h.past hclock (hrate ▸ h.metered.rate_nonneg)
    have hfull : limiter.refilled bucket (.ofNat 32 now) ≤ capacity :=
      hcapacity ▸ min_le_right _ _
    rw [hrate] at hrefilled
    rw [accepts_cons_true hc, hnow]
    refine h.metered.spend (seconds_mono h.past) (by positivity) ?_ ?_ <;> linarith
  latest := by
    rw [accepts_cons_true hc, hnow]
    rintro t₀ ht
    exact (Option.mem_some_iff.mp ht).symm
  burst hall := by
    rw [checks_cons_self hc] at hall ⊢
    obtain rfl : now = now' := hnow ▸ hall _ List.mem_cons_self
    refine ⟨rfl, ?_⟩
    have htokens := h.refilled_of_burst hcapacity hclock fun s hs =>
      hall s (List.mem_cons_of_mem _ hs)
    rw [htokens] at hone ⊢
    have hroom : 1 ≤ capacity - (checks clientId log).length := by exact_mod_cast hone
    rw [← Nat.cast_one, ← Nat.cast_sub hroom, packed_natCast (by omega), List.length_cons,
      Nat.sub_sub]
    push_cast
    rw [mul_div_assoc, div_self (by norm_num), mul_one]

/-- A check of another client. -/
theorem Sees.skip (h : Sees capacity rate clientId log bucket now level last)
    (hc : c.clientId ≠ clientId) :
    Sees capacity rate clientId ((c, answer) :: log) bucket now level last where
  unpack := h.unpack
  past := h.past
  metered := by
    rw [accepts_cons_of_ne hc]
    exact h.metered
  latest := by
    rw [accepts_cons_of_ne hc]
    exact h.latest
  burst := by
    rw [checks_cons_of_ne hc]
    exact h.burst

/-- **One check** keeps the bucket of the client. -/
theorem Tracks.step (h : Tracks capacity rate clientId st) (hrate : 0 ≤ rate)
    (hhash : hashOf clientId ≠ 0) (hfits : capacity ≤ 2147483) (hnext : Next clientId st c) :
    Tracks capacity rate clientId (feed st c) := by
  refine ⟨h.sameCapacity, h.sameRate, ?_⟩
  show (((st.1.check c.clientId c.nowMs).2.slot clientId).ipHash = 0 ∧ _) ∨ _ ∧ _
  by_cases hc : c.clientId = clientId
  · -- the slot is the client's from now on
    obtain ⟨hanswer, hslot⟩ := check_of_free h.free c.nowMs
    obtain ⟨level, last, hlast, hsees⟩ := h.sees hrate hhash hfits hnext.later
    subst hc
    refine .inr ⟨by rw [feed, hslot], ?_⟩
    show ∃ level, ∃ last ∈ checks c.clientId ((c, (st.1.check c.clientId c.nowMs).1) :: st.2), _
    rw [checks_cons_self rfl]
    unfold feed
    dsimp only
    rw [hslot, hanswer]
    rcases lt_or_ge (st.1.refilled (st.1.bucketFor c.clientId (.ofNat 32 c.nowMs))
      (.ofNat 32 c.nowMs)) 1 with hlt | hone
    · rw [tryConsume_of_lt hlt]
      exact ⟨level, last, hlast, fun _ =>
        hsees.denied h.sameCapacity rfl rfl hnext.clock hlt⟩
    · rw [tryConsume_of_le hone]
      exact ⟨_, c.nowMs, List.mem_cons_self, fun _ =>
        hsees.allowed h.sameCapacity h.sameRate hfits rfl rfl hnext.clock hone⟩
  · have hshard := hnext.alone.resolve_left hc
    unfold feed
    dsimp only
    rw [check_slot_of_ne hshard, checks_cons_of_ne hc, accepts_cons_of_ne hc]
    refine h.slot.imp_right fun ⟨hown, level, last, hlast, hsees⟩ => ?_
    exact ⟨hown, level, last, hlast, fun now hle => (hsees now hle).skip hc⟩

/-- **…and is what a token bucket does.** -/
theorem Tracks.conforms (h : Tracks capacity rate clientId st) (hrate : 0 < rate)
    (hcapacity : 1 ≤ capacity) (hrounding : 0 ≤ rounding)
    (hfits : Fits capacity rate rounding clientId) (hnext : Next clientId st c)
    (hc : c.clientId = clientId) : Conforms capacity rate rounding st c := by
  have hstep := h.step hrate.le hfits.hash hfits.capacity hnext
  obtain ⟨hanswer, -⟩ := check_of_free h.free c.nowMs
  obtain ⟨level, last, -, hsees⟩ := h.sees hrate.le hfits.hash hfits.capacity hnext.later
  subst hc
  refine ⟨fun hburst => ?_, fun s t hst => ?_, fun t₀ ht htime => ?_⟩
  · rw [hanswer, tryConsume_fst_iff,
      hsees.refilled_of_burst h.sameCapacity hnext.clock hburst]
    rw [← Nat.cast_one, Nat.cast_le]
    omega
  · rcases hstep.slot with ⟨-, -, hnone⟩ | ⟨-, level, last, -, hsees⟩
    · rw [hnone, List.countP_nil, Nat.cast_zero]
      have hrefill := mul_nonneg hrate.le (sub_nonneg.mpr hst)
      positivity
    · exact (hsees last le_rfl).metered.within s t hst
  · obtain rfl := hsees.latest t₀ ht
    rw [hanswer, tryConsume_fst_iff]
    have hrate' := h.sameRate
    have hclock : seconds c.nowMs ≤ seconds (2 ^ 32 - 1) :=
      seconds_mono (Nat.le_sub_one_of_lt hnext.clock)
    have hstart : 0 ≤ seconds last := by
      unfold seconds
      positivity
    have hhour : 1 ≤ 3600 * rate := by
      refine hfits.rate.resolve_right fun hlate => ?_
      have hend := hclock.trans_lt hlate
      linarith
    refine one_le_refilled hsees.unpack hsees.past hnext.clock hsees.metered.level_nonneg ?_
      (by rw [hrate']; exact hhour) ?_
    · rw [h.sameCapacity]
      exact_mod_cast hcapacity
    · rw [hrate']
      have hlong : 1 / rate ≤ seconds c.nowMs - seconds last := by linarith
      have hmul := mul_le_mul_of_nonneg_right hlong hrate.le
      rwa [one_div, inv_mul_cancel₀ hrate.ne'] at hmul

/-! ### Every run -/

theorem mem_checks_foldl {calls : List Check} {s : ℕ}
    (h : s ∈ checks clientId (calls.foldl feed st).2) :
    s ∈ checks clientId st.2 ∨ ∃ c ∈ calls, c.nowMs = s := by
  induction calls generalizing st with
  | nil => exact .inl h
  | cons c calls ih =>
      rcases ih h with hfed | ⟨d, hd, heq⟩
      · by_cases hc : c.clientId = clientId
        · rw [feed, checks_cons_self hc] at hfed
          rcases List.mem_cons.mp hfed with rfl | hbefore
          · exact .inr ⟨c, List.mem_cons_self, rfl⟩
          · exact .inl hbefore
        · rw [feed, checks_cons_of_ne hc] at hfed
          exact .inl hfed
      · exact .inr ⟨d, List.mem_cons_of_mem _ hd, heq⟩

theorem Solo.next {calls : List Check} (h : Solo clientId calls) :
    EachStep feed (new capacity rate, []) calls (Next clientId) := by
  rintro before c after rfl
  have hmem : c ∈ before ++ c :: after := by simp
  refine ⟨?_, h.clock c hmem, fun s hs => ?_⟩
  · by_cases hshard : shardIdx c.clientId = shardIdx clientId
    · exact .inl (h.alone c hmem hshard)
    · exact .inr hshard
  · rcases mem_checks_foldl hs with hnone | ⟨d, hd, rfl⟩
    · exact absurd hnone List.not_mem_nil
    · exact (List.pairwise_append.mp h.sorted).2.2 d hd c List.mem_cons_self

theorem alwaysConforms_of_fits (hrate : 0 < rate) (hcapacity : 1 ≤ capacity)
    (hrounding : 0 ≤ rounding) (hfits : Fits capacity rate rounding clientId) :
    AlwaysConforms capacity rate rounding clientId := fun _ hsolo =>
  (Solo.next hsolo).imp (tracks_new capacity rate clientId)
    (fun _ _ h hnext => h.step hrate.le hfits.hash hfits.capacity hnext)
    fun _ _ h hnext => h.conforms hrate hcapacity hrounding hfits hnext

/-! ### Where the bucket goes wrong -/

/-- The limiter after some checks of the client at the beginning. -/
def afterBurst (capacity : ℕ) (rate : ℚ) (clientId : String) (k : ℕ) : History :=
  (List.replicate k ⟨clientId, 0⟩).foldl feed (new capacity rate, [])

theorem afterBurst_succ (capacity : ℕ) (rate : ℚ) (clientId : String) (k : ℕ) :
    afterBurst capacity rate clientId (k + 1) =
      feed (afterBurst capacity rate clientId k) ⟨clientId, 0⟩ := by
  rw [afterBurst, List.replicate_succ', List.foldl_append]
  rfl

theorem AlwaysConforms.afterBurst (h : AlwaysConforms capacity rate rounding clientId) (k : ℕ)
    (hnow : now < 2 ^ 32) :
    Conforms capacity rate rounding (afterBurst capacity rate clientId k) ⟨clientId, now⟩ := by
  have hsolo : Solo clientId (List.replicate k ⟨clientId, 0⟩ ++ [⟨clientId, now⟩]) := by
    refine ⟨?_, fun c hc => ?_, fun c hc _ => ?_⟩
    · rw [List.pairwise_append]
      refine ⟨List.pairwise_replicate.mpr (.inr le_rfl), List.pairwise_singleton _ _, ?_⟩
      intro c hc d _
      rw [List.eq_of_mem_replicate hc]
      exact Nat.zero_le _
    · rcases List.mem_append.mp hc with hc | hc
      · rw [List.eq_of_mem_replicate hc]
        exact Nat.two_pow_pos 32
      · rw [List.mem_singleton.mp hc]
        exact hnow
    · rcases List.mem_append.mp hc with hc | hc
      · rw [List.eq_of_mem_replicate hc]
      · rw [List.mem_singleton.mp hc]
  exact h _ hsolo _ _ [] rfl rfl

/-- A bucket that is drained token by token from what was packed into it. -/
structure Drained (capacity : ℕ) (rate : ℚ) (clientId : String) (k : ℕ) : Prop where
  sameCapacity : (afterBurst capacity rate clientId k).1.capacity = capacity
  sameRate : (afterBurst capacity rate clientId k).1.refillPerSec = rate
  free : (afterBurst capacity rate clientId k).1.Free clientId
  unpack : ∀ now, k = 0 ∧ now = 0 ∨ 0 < k →
    unpackBucket ((afterBurst capacity rate clientId k).1.bucketFor clientId (.ofNat 32 now)) =
      (((packed capacity - k * 1000 : ℕ) : ℚ) / 1000, .ofNat 32 0)
  checks : checks clientId (afterBurst capacity rate clientId k).2 = List.replicate k 0
  accepts : accepts clientId (afterBurst capacity rate clientId k).2 =
    List.replicate k (seconds 0)

theorem packed_lt (x : ℚ) : packed x < 2 ^ 31 := Nat.mod_lt _ (by decide)

/-- What is left fits into the bucket. -/
theorem Drained.le_capacity {k : ℕ} (h : Drained capacity rate clientId k) :
    ((packed capacity - k * 1000 : ℕ) : ℚ) / 1000 ≤
      (afterBurst capacity rate clientId k).1.capacity := by
  have hpacked := packed_le (Nat.cast_nonneg (α := ℚ) capacity)
  have hleft : ((packed capacity - k * 1000 : ℕ) : ℚ) ≤ packed capacity := by
    exact_mod_cast Nat.sub_le _ _
  rw [h.sameCapacity]
  linarith

/-- A whole token is taken. -/
theorem Drained.succ {k : ℕ} (h : Drained capacity rate clientId k)
    (hk : (k + 1) * 1000 ≤ packed capacity) : Drained capacity rate clientId (k + 1) := by
  have hlevel := h.unpack 0 (by omega)
  have htokens := refilled_self hlevel (Nat.two_pow_pos 32) h.le_capacity
  have hone : 1 ≤ ((packed capacity - k * 1000 : ℕ) : ℚ) / 1000 := by
    rw [le_div_iff₀ (by norm_num), one_mul]
    exact_mod_cast (by omega : 1000 ≤ packed capacity - k * 1000)
  obtain ⟨hanswer, hslot⟩ := check_of_free h.free 0
  have hallowed := tryConsume_of_le (htokens.symm ▸ hone)
  have hfirst : ((afterBurst capacity rate clientId k).1.check clientId 0).1 = true := by
    rw [hanswer, hallowed]
  have hleft : ((packed capacity - k * 1000 : ℕ) : ℚ) / 1000 - 1 =
      ((packed capacity - (k + 1) * 1000 : ℕ) : ℚ) / 1000 := by
    have hsub : packed capacity - (k + 1) * 1000 = packed capacity - k * 1000 - 1000 := by omega
    rw [hsub, Nat.cast_sub (by omega : 1000 ≤ packed capacity - k * 1000)]
    push_cast
    ring
  rw [hallowed, htokens, hleft] at hslot
  constructor
  · rw [afterBurst_succ]
    exact h.sameCapacity
  · rw [afterBurst_succ]
    exact h.sameRate
  · rw [afterBurst_succ]
    refine .inl ?_
    show (((afterBurst capacity rate clientId k).1.check clientId 0).2.slot clientId).ipHash = _
    rw [hslot]
  · intro now _
    have hbucket : (afterBurst capacity rate clientId (k + 1)).1.bucketFor clientId
        (.ofNat 32 now) = packBucket (((packed capacity - (k + 1) * 1000 : ℕ) : ℚ) / 1000)
          (.ofNat 32 0) ||| referencedBit := by
      rw [afterBurst_succ]
      show (((afterBurst capacity rate clientId k).1.check clientId 0).2).bucketFor
        clientId _ = _
      rw [bucketFor, hslot, if_pos rfl]
    have hfits := packed_lt capacity
    rw [hbucket, unpack_referenced, unpack_pack, packed_div (by omega)]
  · rw [afterBurst_succ, List.replicate_succ, ← h.checks]
    exact checks_cons_self rfl
  · rw [afterBurst_succ, List.replicate_succ, ← h.accepts]
    unfold feed
    dsimp only
    rw [hfirst]
    exact accepts_cons_true rfl

theorem drained (hhash : hashOf clientId ≠ 0) {k : ℕ} (hk : k ≤ packed capacity / 1000) :
    Drained capacity rate clientId k := by
  induction k with
  | zero =>
      refine ⟨rfl, rfl, .inr rfl, fun now hnow => ?_, rfl, rfl⟩
      obtain rfl : now = 0 := by omega
      have hbucket : (new capacity rate).bucketFor clientId (.ofNat 32 0) =
          packBucket capacity (.ofNat 32 0) := if_neg hhash.symm
      show unpackBucket ((new capacity rate).bucketFor clientId (.ofNat 32 0)) = _
      rw [hbucket, unpack_pack, Nat.zero_mul, Nat.sub_zero]
  | succ k ih =>
      have h := ih (by omega)
      exact h.succ (by omega)

theorem not_alwaysConforms_of_hash (hhash : hashOf clientId = 0) (hcapacity : 1 ≤ capacity) :
    ¬ AlwaysConforms capacity rate rounding clientId := by
  intro h
  -- the empty slot is taken for the client's, with the empty word in it
  have hconforms := h.afterBurst 0 (Nat.two_pow_pos 32)
  have hown : (new capacity rate).Free clientId := .inr rfl
  have hbucket : (new capacity rate).bucketFor clientId (.ofNat 32 0) = 0 := if_pos hhash.symm
  have hunpack : unpackBucket 0 = (0, .ofNat 32 0) := by
    rw [unpackBucket_eq]
    simp
  have htokens : (new capacity rate).refilled 0 (.ofNat 32 0) = 0 :=
    refilled_self hunpack (Nat.two_pow_pos 32) (Nat.cast_nonneg capacity)
  have hdenied : ((new capacity rate).check clientId 0).1 = false := by
    rw [(check_of_free hown 0).1, hbucket, tryConsume_of_lt (htokens ▸ zero_lt_one)]
  have hallowed := (hconforms.burst fun s hs => absurd hs List.not_mem_nil).mpr hcapacity
  exact Bool.false_ne_true (hdenied.symm.trans hallowed)

/-- Less than a token is left of what was packed when all whole tokens are taken. -/
theorem not_alwaysConforms_of_capacity (hhash : hashOf clientId ≠ 0)
    (hlarge : 2147483 < capacity) : ¬ AlwaysConforms capacity rate rounding clientId := by
  intro h
  have hdrained : Drained capacity rate clientId (packed capacity / 1000) := drained hhash le_rfl
  have hfits := packed_lt capacity
  have hzero : packed capacity / 1000 = 0 ∧ 0 = 0 ∨ 0 < packed capacity / 1000 := by omega
  have htokens := refilled_self (hdrained.unpack 0 hzero) (Nat.two_pow_pos 32) hdrained.le_capacity
  have hrest : ((packed capacity - packed capacity / 1000 * 1000 : ℕ) : ℚ) / 1000 < 1 := by
    rw [div_lt_iff₀ (by norm_num), one_mul]
    exact_mod_cast (by omega : packed capacity - packed capacity / 1000 * 1000 < 1000)
  have hdenied := (check_of_free hdrained.free 0).1
  rw [tryConsume_of_lt (htokens.symm ▸ hrest)] at hdenied
  have hburst := (h.afterBurst (packed capacity / 1000) (Nat.two_pow_pos 32)).burst
  rw [hdrained.checks] at hburst
  have hallowed := (hburst fun s hs => List.eq_of_mem_replicate hs).mpr (by
    rw [List.length_replicate]
    omega)
  exact Bool.false_ne_true (hdenied.symm.trans hallowed)

/-- A drained bucket that an hour does not refill is not refilled later either. -/
theorem not_alwaysConforms_of_rate (hhash : hashOf clientId ≠ 0) (hcapacity : 1 ≤ capacity)
    (hfits : capacity ≤ 2147483) (hslow : 3600 * rate < 1)
    (htime : 1 / rate + rounding ≤ seconds (2 ^ 32 - 1)) :
    ¬ AlwaysConforms capacity rate rounding clientId := by
  intro h
  have hpacked := packed_natCast hfits
  have hdrained : Drained capacity rate clientId capacity := drained hhash (by omega)
  have hunpack := hdrained.unpack (2 ^ 32 - 1) (.inr hcapacity)
  rw [hpacked, Nat.sub_self, Nat.cast_zero, zero_div] at hunpack
  have htokens : (afterBurst capacity rate clientId capacity).1.refilled
      ((afterBurst capacity rate clientId capacity).1.bucketFor clientId (.ofNat 32 (2 ^ 32 - 1)))
      (.ofNat 32 (2 ^ 32 - 1)) < 1 := by
    rw [refilled_eq hunpack (Nat.zero_le _) (by decide), hdrained.sameRate]
    refine (min_le_left _ _).trans_lt ?_
    norm_num
    linarith
  have hdenied := (check_of_free hdrained.free (2 ^ 32 - 1)).1
  rw [tryConsume_of_lt htokens] at hdenied
  have hrefilled := (h.afterBurst capacity (by decide : 2 ^ 32 - 1 < 2 ^ 32)).refilled
  rw [hdrained.accepts] at hrefilled
  have hallowed := hrefilled (seconds 0) (by
    obtain ⟨k, rfl⟩ := Nat.exists_eq_add_of_le' hcapacity
    rfl) (by
    have hstart : seconds 0 = 0 := by norm_num [seconds]
    rw [hstart, zero_add]
    exact htime)
  exact Bool.false_ne_true (hdenied.symm.trans hallowed)

/-- **A client gets what a token bucket gives exactly when its bucket fits.** -/
theorem alwaysConforms_iff (hrate : 0 < rate) (hcapacity : 1 ≤ capacity)
    (hrounding : 0 ≤ rounding) :
    AlwaysConforms capacity rate rounding clientId ↔ Fits capacity rate rounding clientId := by
  refine ⟨fun h => ?_, alwaysConforms_of_fits hrate hcapacity hrounding⟩
  have hhash : hashOf clientId ≠ 0 := fun hzero => not_alwaysConforms_of_hash hzero hcapacity h
  have hfits : capacity ≤ 2147483 := by
    by_contra hlarge
    exact not_alwaysConforms_of_capacity hhash (not_le.mp hlarge) h
  refine ⟨hhash, hfits, ?_⟩
  by_contra hslow
  rw [not_or, not_le, not_lt] at hslow
  exact not_alwaysConforms_of_rate hhash hcapacity hfits hslow.1 hslow.2 h

/-- Sixty tokens, and one a second. -/
theorem conforms_localhost : AlwaysConforms 60 1 0 "127.0.0.1" :=
  (alwaysConforms_iff zero_lt_one (by decide) le_rfl).mpr
    ⟨by decide +kernel, by decide, .inl (by norm_num)⟩

/-- **A token in two hours is never refilled**, a large capacity does not fit, and a client
may have the hash of an empty slot. -/
theorem tokens_lost : ¬ AlwaysConforms 1 (1 / 7200) 0 "127.0.0.1" ∧
    ¬ AlwaysConforms 3000000 1 0 "127.0.0.1" ∧ ¬ AlwaysConforms 10 1 0 "77kepQFQ8Kl" := by
  have hhash : hashOf "127.0.0.1" ≠ 0 := by decide +kernel
  refine ⟨?_, not_alwaysConforms_of_capacity hhash (by decide), ?_⟩
  · refine not_alwaysConforms_of_rate hhash le_rfl (by decide) (by norm_num) ?_
    norm_num [seconds]
  · exact not_alwaysConforms_of_hash (by decide +kernel) (by decide)

end ClawDesk.Gateway.ShardedRateLimiter
