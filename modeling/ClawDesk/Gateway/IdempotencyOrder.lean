import ClawDesk.Gateway.Idempotency

/-!
# Keys are forgotten in order

The order of a shard is that of the first insertions: a key that has run out and comes again gets
a new entry but keeps its place.  In runs in which this happens to keys in the last place only,
and which register a key only where the total is below the maximum, a shard is a queue that expires
(`Holds`), and keys are forgotten in the order in which they were registered
(`conforms_of_regular`).
-/

namespace ClawDesk.Gateway.Idempotency

open Foundations
open Foundations.ExpiringQueue (Event Tracks lastRegistered expire trim)
open RequestDeduplicator (shardIndex)

/-! ### A shard is a queue -/

section

variable {shard : Shard} {entries : Entries} {queue before : List (String × ℕ)}
  {key k source : String} {ttl now time old : ℕ} {entry : IdempotencyEntry}

theorem lookup_retain {p : IdempotencyEntry → Bool} :
    (entries.retain p).lookup key = some entry ↔
      entries.lookup key = some entry ∧ p entry = true := by
  have hmem {entries : Entries} :
      entries.lookup key = some entry ↔ ⟨key, entry⟩ ∈ entries.entries := AList.mem_lookup_iff
  rw [hmem, hmem]
  exact List.mem_filter

/-- The shard tracks the keys of the queue, in this order, with these times. -/
structure Holds (shard : Shard) (queue : List (String × ℕ)) : Prop where
  order : shard.order = queue.map Prod.fst
  nodup : (queue.map Prod.fst).Nodup
  entries : ∀ key time, (key, time) ∈ queue ↔
    ∃ entry, shard.entries.lookup key = some entry ∧ entry.firstSeen = time

theorem holds_new : Holds .new [] where
  order := rfl
  nodup := List.nodup_nil
  entries key time := by simp [Shard.new]

theorem Holds.mem_entries (h : Holds shard queue) :
    key ∈ shard.entries ↔ key ∈ queue.map Prod.fst := by
  rw [← AList.lookup_isSome, Option.isSome_iff_exists, List.mem_map]
  constructor
  · rintro ⟨entry, hentry⟩
    exact ⟨(key, entry.firstSeen), (h.entries _ _).mpr ⟨entry, hentry, rfl⟩, rfl⟩
  · rintro ⟨⟨k, time⟩, hmem, rfl⟩
    obtain ⟨entry, hentry, -⟩ := (h.entries _ _).mp hmem
    exact ⟨entry, hentry⟩

theorem Holds.perm (h : Holds shard queue) : shard.order.Perm shard.entries.keys := by
  rw [h.order]
  refine (List.perm_ext_iff_of_nodup h.nodup shard.entries.keys_nodup).mpr fun key => ?_
  rw [← h.mem_entries]
  exact AList.mem_keys

theorem Holds.len (h : Holds shard queue) : shard.entries.len = queue.length := by
  rw [Entries.len, ← h.perm.length_eq, h.order, List.length_map]

/-- The first key of the queue. -/
theorem Holds.tail {rest : List (String × ℕ)} {order : List String}
    (h : Holds ⟨entries, order⟩ ((key, time) :: rest)) :
    Holds ⟨entries.erase key, rest.map Prod.fst⟩ rest := by
  have hnodup := h.nodup
  rw [List.map_cons, List.nodup_cons] at hnodup
  refine ⟨rfl, hnodup.2, fun k t => ?_⟩
  by_cases hk : k = key
  · subst hk
    rw [AList.lookup_erase]
    have hout : k ∉ rest.map Prod.fst := hnodup.1
    refine iff_of_false (fun hmem => hout (List.mem_map_of_mem hmem)) ?_
    rintro ⟨entry, hentry, -⟩
    cases hentry
  · rw [AList.lookup_erase_ne hk, ← h.entries k t, List.mem_cons, or_iff_right]
    rintro heq
    exact hk (congrArg Prod.fst heq)

/-- Sweeping drops what has run out. -/
theorem Holds.retainFresh (h : Holds shard queue) :
    Holds (shard.retainFresh ttl now) (expire ttl now queue) := by
  have hentries key time : (key, time) ∈ expire ttl now queue ↔
      ∃ entry, (shard.retainFresh ttl now).entries.lookup key = some entry ∧
        entry.firstSeen = time := by
    unfold expire
    rw [List.mem_filter, h.entries]
    constructor
    · rintro ⟨⟨entry, hentry, rfl⟩, hfresh⟩
      exact ⟨entry, lookup_retain.mpr ⟨hentry, hfresh⟩, rfl⟩
    · rintro ⟨entry, hentry, rfl⟩
      obtain ⟨hentry, hfresh⟩ := lookup_retain.mp hentry
      exact ⟨⟨entry, hentry, rfl⟩, hfresh⟩
  refine ⟨?_, h.nodup.sublist (List.filter_sublist.map _), hentries⟩
  show shard.order.filter _ = _
  rw [h.order, List.filter_map]
  congr 1
  apply List.filter_congr
  intro p hp
  obtain ⟨entry, hentry, htime⟩ := (h.entries p.1 p.2).mp hp
  have hfresh : p.1 ∈ (shard.retainFresh ttl now).entries ↔ now - p.2 < ttl := by
    rw [← AList.lookup_isSome, Option.isSome_iff_exists, ← htime]
    constructor
    · rintro ⟨other, hother⟩
      obtain ⟨hother, hlt⟩ := lookup_retain.mp hother
      rw [hentry] at hother
      cases hother
      exact of_decide_eq_true hlt
    · intro hlt
      exact ⟨entry, lookup_retain.mpr ⟨hentry, decide_eq_true hlt⟩⟩
  exact decide_eq_decide.mpr hfresh

/-- The loop drops the keys in front for which there is no room. -/
theorem Holds.evictOldest (h : Holds ⟨entries, queue.map Prod.fst⟩ queue) :
    Holds (evictOldest (queue.map Prod.fst) entries) (trim perShardCap queue) := by
  induction queue generalizing entries with
  | nil => exact h
  | cons p rest ih =>
      have hlen : entries.len = rest.length + 1 := h.len
      rw [List.map_cons, Idempotency.evictOldest]
      by_cases hroom : perShardCap < entries.len
      · have htrim : trim perShardCap (p :: rest) = trim perShardCap rest := by
          have hsub : (p :: rest).length - perShardCap = rest.length - perShardCap + 1 := by
            rw [List.length_cons]
            omega
          unfold trim
          rw [hsub, List.drop_succ_cons]
        rw [if_pos hroom, htrim]
        exact ih h.tail
      · have htrim : trim perShardCap (p :: rest) = p :: rest := by
          unfold trim
          rw [List.length_cons, Nat.sub_eq_zero_of_le (by omega), List.drop_zero]
        rw [if_neg hroom, htrim]
        exact h

theorem Holds.evict (h : Holds shard queue) :
    Holds (shard.evict ttl now) (trim perShardCap (expire ttl now queue)) := by
  have hfresh : Holds (shard.retainFresh ttl now) (expire ttl now queue) := h.retainFresh
  unfold Shard.evict
  rw [hfresh.order]
  exact Holds.evictOldest (hfresh.order ▸ hfresh)

/-- When the times are in order, the loop finds the oldest key in front. -/
theorem Holds.oldestFirst (h : Holds ⟨entries, queue.map Prod.fst⟩ queue)
    (hsorted : queue.Pairwise fun a b => a.2 ≤ b.2) :
    OldestFirst (queue.map Prod.fst) entries := by
  induction queue generalizing entries with
  | nil => trivial
  | cons p rest ih =>
      intro _
      rw [List.pairwise_cons] at hsorted
      refine ⟨?_, ih h.tail hsorted.2⟩
      obtain ⟨entry, hentry, htime⟩ := (h.entries p.1 p.2).mp List.mem_cons_self
      refine ⟨entry, hentry, fun key other hother => ?_⟩
      rw [htime]
      rcases List.mem_cons.mp ((h.entries key other.firstSeen).mpr ⟨other, hother, rfl⟩)
        with heq | hmem
      · exact (congrArg Prod.snd heq).ge
      · exact hsorted.1 _ hmem

/-- A new key. -/
theorem Holds.insert (h : Holds shard queue) (hnew : shard.entries.lookup key = none) :
    Holds ⟨shard.entries.insert key entry, shard.order ++ [key]⟩
      (queue ++ [(key, entry.firstSeen)]) := by
  have hout : key ∉ queue.map Prod.fst := by
    rw [← h.mem_entries]
    exact AList.lookup_eq_none.mp hnew
  refine ⟨by rw [h.order, List.map_append, List.map_singleton], ?_, fun k t => ?_⟩
  · rw [List.map_append, List.map_singleton, List.nodup_append]
    refine ⟨h.nodup, List.nodup_singleton _, ?_⟩
    rintro k hk _ hlast rfl
    obtain rfl : k = key := List.mem_singleton.mp hlast
    exact hout hk
  · rw [List.mem_append, List.mem_singleton]
    by_cases hk : k = key
    · subst hk
      rw [AList.lookup_insert, or_iff_right fun hmem => hout (List.mem_map_of_mem hmem)]
      simp [eq_comm]
    · rw [AList.lookup_insert_ne hk, ← h.entries, or_iff_left fun heq => hk (congrArg Prod.fst heq)]

/-- An entry changes, but not when it was first seen. -/
theorem Holds.update {entry' : IdempotencyEntry} (h : Holds shard queue)
    (hentry : shard.entries.lookup key = some entry) (hsame : entry'.firstSeen = entry.firstSeen) :
    Holds { shard with entries := shard.entries.insert key entry' } queue := by
  refine ⟨h.order, h.nodup, fun k t => ?_⟩
  by_cases hk : k = key
  · subst hk
    rw [h.entries, AList.lookup_insert, hentry]
    simp [hsame]
  · rw [h.entries, AList.lookup_insert_ne hk]

/-- A key gets a new entry, and keeps its place. -/
theorem Holds.refresh {rest : List (String × ℕ)}
    (h : Holds shard (before ++ (key, old) :: rest)) :
    Holds { shard with entries := shard.entries.insert key entry }
      (before ++ (key, entry.firstSeen) :: rest) := by
  have hkeys (time : ℕ) : (before ++ (key, time) :: rest).map Prod.fst =
      before.map Prod.fst ++ key :: rest.map Prod.fst := by
    rw [List.map_append, List.map_cons]
  have hnodup := h.nodup
  rw [hkeys, List.nodup_middle, List.nodup_cons, ← List.map_append] at hnodup
  refine ⟨by rw [h.order, hkeys, hkeys], by rw [hkeys, ← hkeys old]; exact h.nodup, fun k t => ?_⟩
  have hmem (time : ℕ) : (k, t) ∈ before ++ (key, time) :: rest ↔
      (k, t) = (key, time) ∨ (k, t) ∈ before ++ rest := by
    rw [List.mem_append, List.mem_cons, List.mem_append]
    exact or_left_comm
  rw [hmem]
  by_cases hk : k = key
  · subst hk
    rw [AList.lookup_insert, or_iff_left fun hmem => hnodup.1 (List.mem_map_of_mem hmem)]
    simp [eq_comm]
  · have hold := h.entries k t
    rw [hmem, or_iff_right fun heq => hk (congrArg Prod.fst heq)] at hold
    rw [AList.lookup_insert_ne hk, ← hold, or_iff_right fun heq => hk (congrArg Prod.fst heq)]

theorem Holds.remove (h : Holds shard queue) :
    Holds (shard.remove key) (ExpiringQueue.remove key queue) := by
  refine ⟨?_, h.nodup.sublist (List.filter_sublist.map _), fun k t => ?_⟩
  · show shard.order.filter _ = _
    rw [h.order, List.filter_map]
    rfl
  · unfold ExpiringQueue.remove Shard.remove
    rw [List.mem_filter, h.entries]
    by_cases hk : k = key
    · subst hk
      simp
    · rw [AList.lookup_erase_ne hk]
      simp [hk]

/-! ### Sound shards -/

variable {clock evictedAt : ℕ} {log : List (Event String)}

/-- The shard is a queue, and the queue is what is left of the log. -/
def Sound (ttl clock : ℕ) (shard : Shard) (log : List (Event String)) : Prop :=
  ∃ queue, Holds shard queue ∧ Tracks ttl perShardCap clock log queue

theorem Sound.mono (h : Sound ttl clock shard log) (hclock : clock ≤ now) :
    Sound ttl now shard log := by
  obtain ⟨queue, hholds, htracks⟩ := h
  exact ⟨queue, hholds, htracks.mono hclock⟩

theorem Sound.evict (h : Sound ttl clock shard log) :
    Sound ttl clock (shard.evict ttl clock) log := by
  obtain ⟨queue, hholds, htracks⟩ := h
  exact ⟨_, hholds.evict, htracks.expire.trim⟩

theorem Sound.swept (h : Sound ttl clock shard log) :
    Sound ttl clock (shard.swept ttl clock) log := by
  unfold Shard.swept
  split
  · exact h.evict
  · exact h

theorem Sound.oldestFirst (h : Sound ttl clock shard log) :
    OldestFirst (shard.retainFresh ttl now).order (shard.retainFresh ttl now).entries := by
  obtain ⟨queue, hholds, htracks⟩ := h
  have hfresh : Holds (shard.retainFresh ttl now) (expire ttl now queue) := hholds.retainFresh
  rw [hfresh.order]
  exact Holds.oldestFirst (hfresh.order ▸ hfresh) (htracks.sorted.sublist List.filter_sublist)

/-- A registration that has not run out, and after which there have not been too many others, is
in the entry. -/
theorem Sound.lookup (h : Sound ttl clock shard log) {since : Finset String}
    (hlast : lastRegistered key log = some (time, since)) (hfresh : ¬ time + ttl ≤ clock)
    (hroom : since.card < perShardCap) :
    ∃ entry, shard.entries.lookup key = some entry ∧ entry.firstSeen = time := by
  obtain ⟨queue, hholds, htracks⟩ := h
  rcases htracks.kept key time since hlast with hmem | hle | hcard
  · exact (hholds.entries key time).mp hmem
  · exact absurd hle hfresh
  · exact absurd hcard (not_le.mpr hroom)

/-- **One check.** -/
theorem Sound.checkAndInsert (h : Sound ttl clock shard log) (source : String)
    (hclock : clock ≤ evictedAt) (hnow : evictedAt ≤ now)
    (hregular : ∀ entry, (shard.swept ttl evictedAt).entries.lookup key = some entry →
      ttl ≤ now - entry.firstSeen → (shard.swept ttl evictedAt).order.getLast? = some key) :
    Sound ttl now (shard.checkAndInsert ttl key source evictedAt now).2
      (match (shard.checkAndInsert ttl key source evictedAt now).1 with
        | .new => .registered key now :: log
        | .duplicate _ _ _ => log) := by
  obtain ⟨queue, hholds, htracks⟩ := ((h.mono hclock).swept).mono hnow
  unfold Shard.checkAndInsert
  dsimp only
  cases hlookup : (shard.swept ttl evictedAt).entries.lookup key with
  | none =>
      refine ⟨_, hholds.insert hlookup, htracks.register (.inl rfl) ?_⟩
      rw [← hholds.mem_entries]
      exact AList.lookup_eq_none.mp hlookup
  | some entry =>
      by_cases hexpired : ttl ≤ now - entry.firstSeen
      · dsimp only
        rw [if_pos hexpired]
        have hlast := hregular entry hlookup hexpired
        rw [hholds.order, List.getLast?_map, Option.map_eq_some_iff] at hlast
        obtain ⟨⟨k, old⟩, hlast, rfl⟩ := hlast
        obtain ⟨before, rfl⟩ := List.getLast?_eq_some_iff.mp hlast
        have hnodup := htracks.nodup
        rw [List.map_append, List.map_singleton] at hnodup
        refine ⟨_, hholds.refresh, htracks.register (.inr ⟨old, rfl⟩) fun hmem => ?_⟩
        exact (List.nodup_append.mp hnodup).2.2 k hmem k (List.mem_singleton_self _) rfl
      · dsimp only
        rw [if_neg hexpired]
        exact ⟨queue, hholds.update hlookup rfl, htracks⟩

theorem Sound.storeResponse (h : Sound ttl clock shard log) {body : String} {status : ℕ} :
    Sound ttl clock (shard.storeResponse key body status now) log := by
  obtain ⟨queue, hholds, htracks⟩ := h
  unfold Shard.storeResponse
  split
  · next entry hlookup => exact ⟨queue, hholds.update hlookup rfl, htracks⟩
  · exact ⟨queue, hholds, htracks⟩

theorem Sound.remove (h : Sound ttl clock shard log) :
    Sound ttl clock (shard.remove key) (.removed key :: log) := by
  obtain ⟨queue, hholds, htracks⟩ := h
  exact ⟨_, hholds.remove, htracks.remove⟩

/-! ### What every call keeps -/

variable {i : Fin shardCount} {s : Session} {call : Call}

/-- What a regular run keeps. -/
structure Inv (s : Session) : Prop where
  sound : ∀ i, Sound s.dedup.ttl s.clock (s.dedup.shards i) (s.logs i)
  bounded : s.dedup.entryCount ≤ maxEntries

theorem inv_start (ttl : ℕ) : Inv (.start ttl) where
  sound _ := ⟨[], holds_new, ExpiringQueue.tracks_nil⟩
  bounded := by
    show ∑ _ : Fin shardCount, 0 ≤ maxEntries
    rw [Finset.sum_const_zero]
    exact Nat.zero_le _

/-- A call on one shard. -/
theorem Inv.set (h : Inv s) {log : List (Event String)} (hclock : s.clock ≤ now)
    (hsound : Sound s.dedup.ttl now shard log)
    (hbounded : (s.dedup.setShard i shard).entryCount ≤ maxEntries) :
    Inv ⟨s.dedup.setShard i shard, now, Function.update s.logs i log⟩ := by
  refine ⟨fun j => ?_, hbounded⟩
  show Sound s.dedup.ttl now (Function.update s.dedup.shards i shard j)
    (Function.update s.logs i log j)
  by_cases hj : j = i
  · subst hj
    rwa [Function.update_self, Function.update_self]
  · rw [Function.update_of_ne hj, Function.update_of_ne hj]
    exact (h.sound j).mono hclock

/-- A regular check finds room for a new entry. -/
theorem Inv.entryCount_checkAndInsert_le (h : Inv s)
    (hregular : Regular s (.checkAndInsert key source evictedAt now)) :
    (s.dedup.checkAndInsert key source evictedAt now).2.entryCount ≤ maxEntries := by
  let i := shardIndex key
  let swept := (s.dedup.shards i).swept s.dedup.ttl evictedAt
  let checked := ((s.dedup.shards i).checkAndInsert s.dedup.ttl key source evictedAt now).2
  have htwice : s.dedup.setShard i checked = (s.dedup.setShard i swept).setShard i checked := by
    unfold RequestDeduplicator.setShard
    rw [Function.update_idem]
  have hswept : (s.dedup.setShard i swept).shards i = swept := Function.update_self ..
  have hlen : checked.entries.len ≤ ((s.dedup.setShard i swept).shards i).entries.len +
      if swept.entries.lookup key = none then 1 else 0 := by
    rw [hswept]
    exact Shard.len_checkAndInsert_le
  show (s.dedup.setShard i checked).entryCount ≤ maxEntries
  rw [htwice]
  have hcount := entryCount_setShard_le hlen
  by_cases hlookup : swept.entries.lookup key = none
  · have hroom : (s.dedup.setShard i swept).entryCount < maxEntries := by
      unfold Regular at hregular
      dsimp only at hregular
      rw [show ((s.dedup.shards (shardIndex key)).swept s.dedup.ttl evictedAt).entries.lookup key =
        none from hlookup] at hregular
      exact hregular
    rw [if_pos hlookup] at hcount
    exact hcount.trans hroom
  · rw [if_neg hlookup, Nat.add_zero] at hcount
    exact hcount.trans ((entryCount_setShard_le_self Shard.len_swept_le).trans h.bounded)

/-- **One call.** -/
theorem Inv.step (h : Inv s) (htimed : Timed s call) (hregular : Regular s call) :
    Inv (feed s call) := by
  cases call with
  | checkAndInsert key source evictedAt now =>
      obtain ⟨hclock, hnow⟩ := htimed
      have hsound := (h.sound (shardIndex key)).checkAndInsert source hclock hnow
        fun entry hlookup hexpired => by
          unfold Regular at hregular
          dsimp only at hregular
          rw [hlookup] at hregular
          exact hregular hexpired
      have hset := h.set (hclock.trans hnow) hsound (h.entryCount_checkAndInsert_le hregular)
      unfold feed RequestDeduplicator.checkAndInsert
      dsimp only
      split
      · next hanswer =>
          rw [hanswer] at hset
          exact hset
      · next hanswer =>
          rw [hanswer] at hset
          dsimp only at hset
          rwa [Function.update_eq_self] at hset
  | storeResponse key body status now =>
      have hcount : (s.dedup.storeResponse key body status now).entryCount ≤ s.dedup.entryCount :=
        entryCount_setShard_le_self Shard.len_storeResponse.le
      have hset := h.set htimed ((h.sound (shardIndex key)).mono htimed).storeResponse
        (hcount.trans h.bounded)
      rwa [Function.update_eq_self] at hset
  | remove key =>
      have hcount : (s.dedup.remove key).entryCount ≤ s.dedup.entryCount :=
        entryCount_setShard_le_self Entries.len_erase_le
      exact h.set (le_refl _) (h.sound _).remove (hcount.trans h.bounded)
  | evictAll now =>
      obtain ⟨hclock, hmono⟩ := htimed
      refine ⟨fun i => ?_, (Finset.sum_le_sum fun i _ => Shard.len_evict_le).trans h.bounded⟩
      have hsound := (h.sound i).mono (hclock.trans (hmono (Fin.zero_le i)))
      exact hsound.evict.mono (hmono (Fin.le_last i))

/-- A key is a duplicate of its last registration. -/
theorem Sound.duplicate (h : Sound ttl clock shard log) (source : String)
    (hclock : clock ≤ evictedAt) (hnow : evictedAt ≤ now) {since : Finset String}
    (hlast : lastRegistered key log = some (time, since)) (hfresh : now - time < ttl)
    (hroom : since.card < perShardCap) :
    ∃ count cached, (shard.checkAndInsert ttl key source evictedAt now).1 =
      .duplicate time count cached := by
  obtain ⟨entry, hlookup, rfl⟩ :=
    ((h.mono hclock).swept).lookup hlast (by omega) hroom
  refine ⟨entry.duplicateCount + 1, entry.response, ?_⟩
  unfold Shard.checkAndInsert
  dsimp only
  rw [hlookup]
  dsimp only
  rw [if_neg (not_le.mpr hfresh)]

theorem Inv.conforms (h : Inv s) (htimed : Timed s call) (hregular : Regular s call) :
    Conforms s call where
  once i := by
    obtain ⟨queue, hholds, -⟩ := (h.step htimed hregular).sound i
    exact hholds.perm
  bounded := (h.step htimed hregular).bounded
  oldest i _ _ := (h.sound i).oldestFirst
  duplicate key source evictedAt now hcall time since hlast hfresh hroom := by
    subst hcall
    exact (h.sound _).duplicate source htimed.1 htimed.2 hlast hfresh hroom

/-- **Keys are forgotten in order.**  In every run at non-decreasing times whose calls are all
regular: the order of a shard holds each tracked key once, the total never exceeds the
maximum, the keys removed for want of room are the oldest, and a key that was registered, and not
removed since, is reported as a duplicate for its TTL unless at least `MAX_ENTRIES / SHARD_COUNT`
keys were registered in its shard after it. -/
theorem conforms_of_regular (ttl : ℕ) (calls : List Call)
    (htimed : EachStep feed (.start ttl) calls Timed)
    (hregular : EachStep feed (.start ttl) calls Regular) :
    EachStep feed (.start ttl) calls Conforms :=
  (htimed.and hregular).imp (inv_start ttl) (fun _ _ hinv h => hinv.step h.1 h.2)
    fun _ _ hinv h => hinv.conforms h.1 h.2

/-- The key is a duplicate when it comes for the second time. -/
theorem conforms_of_regular_twice :
    ∃ count cached, ((feed (.start 10) (.checkAndInsert "k" "http" 0 0)).dedup.checkAndInsert
      "k" "http" 1 1).1 = .duplicate 0 count cached := by
  let first : Call := .checkAndInsert "k" "http" 0 0
  let second : Call := .checkAndInsert "k" "http" 1 1
  have htimed : EachStep feed (.start 10) [first, second] Timed :=
    eachStep_cons.mpr ⟨⟨by decide, by decide⟩,
      eachStep_cons.mpr ⟨⟨by decide, by decide⟩, eachStep_nil⟩⟩
  have hregular : EachStep feed (.start 10) [first, second] Regular :=
    eachStep_cons.mpr ⟨by decide +kernel,
      eachStep_cons.mpr ⟨by decide +kernel, eachStep_nil⟩⟩
  exact (conforms_of_regular 10 [first, second] htimed hregular [first] second [] rfl).duplicate
    "k" "http" 1 1 rfl 0 ∅ (by decide +kernel) (by decide) (by decide)

/-! ### A run of the code -/

/-- When nothing has run out and there is room, nothing is dropped. -/
theorem Holds.swept_same (h : Holds shard queue) (hfresh : ∀ p ∈ queue, now - p.2 < ttl)
    (hroom : queue.length ≤ perShardCap) : Holds (shard.swept ttl now) queue := by
  have hexpire : expire ttl now queue = queue :=
    List.filter_eq_self.mpr fun p hp => decide_eq_true (hfresh p hp)
  have htrim : trim perShardCap queue = queue := by
    unfold trim
    rw [Nat.sub_eq_zero_of_le hroom, List.drop_zero]
  unfold Shard.swept
  split
  · have hevict : Holds (shard.evict ttl now) _ := h.evict
    rwa [hexpire, htrim] at hevict
  · exact h

/-- A key that is not tracked is new. -/
theorem Holds.checkAndInsert_new (h : Holds (shard.swept ttl evictedAt) queue)
    (hnew : key ∉ queue.map Prod.fst) :
    (shard.checkAndInsert ttl key source evictedAt now).1 = .new ∧
      Holds (shard.checkAndInsert ttl key source evictedAt now).2 (queue ++ [(key, now)]) := by
  have hlookup : (shard.swept ttl evictedAt).entries.lookup key = none := by
    rw [AList.lookup_eq_none, h.mem_entries]
    exact hnew
  unfold Shard.checkAndInsert
  dsimp only
  rw [hlookup]
  exact ⟨rfl, h.insert hlookup⟩

/-- A key that has run out is new, and keeps its place. -/
theorem Holds.checkAndInsert_expired {rest : List (String × ℕ)}
    (h : Holds (shard.swept ttl evictedAt) (before ++ (key, old) :: rest))
    (hexpired : ttl ≤ now - old) :
    (shard.checkAndInsert ttl key source evictedAt now).1 = .new ∧
      Holds (shard.checkAndInsert ttl key source evictedAt now).2
        (before ++ (key, now) :: rest) := by
  obtain ⟨entry, hlookup, rfl⟩ := (h.entries key old).mp (by simp)
  unfold Shard.checkAndInsert
  dsimp only
  rw [hlookup]
  dsimp only
  rw [if_pos hexpired]
  exact ⟨rfl, h.refresh⟩

/-- The letter `b`, `n` times. -/
def letters (n : ℕ) : String := String.ofList (List.replicate n 'b')

theorem letters_injective : Function.Injective letters := by
  intro n m h
  have hlength := congrArg String.length h
  simpa [letters] using hlength

/-- Another `b` keeps the last digit of the hash at 5. -/
theorem fnv1aStep_b {hash : BitVec 64} (h : hash.toNat % 16 = 5) :
    (fnv1aStep hash 98).toNat % 16 = 5 := by
  have hxor : (hash.toNat ^^^ 98) % 16 = 7 := by
    rw [show 16 = 2 ^ 4 from rfl, Nat.xor_mod_two_pow, show 2 ^ 4 = 16 from rfl, h]
    rfl
  have hbyte : (BitVec.setWidth 64 (UInt8.toBitVec 98)).toNat = 98 := rfl
  have hprime : (0x100000001b3#64).toNat = 0x100000001b3 := rfl
  unfold fnv1aStep
  rw [BitVec.toNat_mul, BitVec.toNat_xor, hbyte, hprime]
  omega

theorem fnv1aHash_replicate (n : ℕ) : (fnv1aHash (List.replicate n 98)).toNat % 16 = 5 := by
  unfold fnv1aHash
  induction n with
  | zero => rfl
  | succ n ih =>
      rw [List.replicate_succ', List.foldl_append]
      exact fnv1aStep_b ih

theorem shardIndex_letters (n : ℕ) : shardIndex (letters n) = 5 := by
  have hbytes : keyBytes (letters n) = List.replicate n 98 := by
    unfold letters
    rw [keyBytes_ofList]
    induction n with
    | zero => rfl
    | succ n ih =>
        rw [List.replicate_succ, List.flatMap_cons, ih]
        rfl
  unfold shardIndex
  rw [hbytes]
  apply Fin.ext
  exact fnv1aHash_replicate n

/-- The first key, then 625 others before it has run out. -/
def filling (n : ℕ) : List Call :=
  .checkAndInsert (letters 0) "" 0 0 ::
    (List.range n).map fun i => .checkAndInsert (letters (i + 1)) "" 1 1

/-- The shard of the letters, filled. -/
def filled (n : ℕ) : List (String × ℕ) :=
  (letters 0, 0) :: (List.range n).map fun i => (letters (i + 1), 1)

/-- What the filling leaves. -/
structure Filled (n : ℕ) (s : Session) : Prop where
  ttl : s.dedup.ttl = 2
  clock : s.clock ≤ 1
  holds : Holds (s.dedup.shards 5) (filled n)

/-- A check of letters, seen from their shard. -/
theorem feed_letters (s : Session) (n : ℕ) :
    (feed s (.checkAndInsert (letters n) source evictedAt now)).dedup.shards 5 =
      ((s.dedup.shards 5).checkAndInsert s.dedup.ttl (letters n) source evictedAt now).2 := by
  unfold feed RequestDeduplicator.checkAndInsert RequestDeduplicator.setShard
  dsimp only
  rw [shardIndex_letters, Function.update_self]

theorem not_mem_filled {n : ℕ} : letters (n + 1) ∉ (filled n).map Prod.fst := by
  intro hmem
  unfold filled at hmem
  rw [List.map_cons, List.map_map, List.mem_cons] at hmem
  rcases hmem with heq | hmem
  · exact Nat.succ_ne_zero n (letters_injective heq)
  · obtain ⟨i, hi, heq⟩ := List.mem_map.mp hmem
    have hin : i + 1 = n + 1 := letters_injective heq
    have hlt : i < n := List.mem_range.mp hi
    omega

theorem filled_filling {n : ℕ} (hn : n ≤ perShardCap) :
    EachStep feed (.start 2) (filling n) Timed ∧ Filled n ((filling n).foldl feed (.start 2)) := by
  induction n with
  | zero =>
      have hstart : Holds ((Session.start 2).dedup.shards 5) [] := holds_new
      have hswept : Holds (((Session.start 2).dedup.shards 5).swept 2 0) [] :=
        hstart.swept_same (by simp) (by decide)
      have htimed : EachStep feed (.start 2) (filling 0) Timed :=
        eachStep_cons.mpr ⟨⟨Nat.le_refl 0, Nat.le_refl 0⟩, eachStep_nil⟩
      refine ⟨htimed, rfl, Nat.zero_le 1, ?_⟩
      show Holds ((feed (.start 2) (.checkAndInsert (letters 0) "" 0 0)).dedup.shards 5) _
      rw [feed_letters]
      exact (hswept.checkAndInsert_new (by simp)).2
  | succ n ih =>
      obtain ⟨htimed, hfilled⟩ := ih (Nat.le_of_succ_le hn)
      have hsucc : filling (n + 1) = filling n ++ [.checkAndInsert (letters (n + 1)) "" 1 1] := by
        unfold filling
        rw [List.range_succ, List.map_append, List.map_singleton, List.cons_append]
      have hlast : filled (n + 1) = filled n ++ [(letters (n + 1), 1)] := by
        unfold filled
        rw [List.range_succ, List.map_append, List.map_singleton, List.cons_append]
      have hlen : (filled n).length = n + 1 := by simp [filled]
      have hswept : Holds (Shard.swept _ 2 1) (filled n) :=
        hfilled.holds.swept_same (fun p _ => by omega) (hlen.trans_le hn)
      rw [hsucc, eachStep_concat, List.foldl_append]
      refine ⟨⟨htimed, hfilled.clock, Nat.le_refl 1⟩, hfilled.ttl, Nat.le_refl 1, ?_⟩
      show Holds ((feed _ (.checkAndInsert (letters (n + 1)) "" 1 1)).dedup.shards 5) _
      rw [feed_letters, hfilled.ttl, hlast]
      exact (hswept.checkAndInsert_new not_mem_filled).2

/-- The 625 others. -/
def others : List (String × ℕ) := (List.range 625).map fun i => (letters (i + 1), 1)

theorem not_mem_others : letters 0 ∉ others.map Prod.fst := by
  intro hmem
  unfold others at hmem
  rw [List.map_map] at hmem
  obtain ⟨i, -, heq⟩ := List.mem_map.mp hmem
  exact Nat.succ_ne_zero i (letters_injective heq)

theorem length_others : others.length = 625 := by
  unfold others
  rw [List.length_map, List.length_range]

/-- The first key gives way to the others, although it came last. -/
theorem trim_expire_others :
    trim perShardCap (expire 2 2 ((letters 0, 2) :: others)) = others := by
  have hexpire : expire 2 2 ((letters 0, 2) :: others) = (letters 0, 2) :: others := by
    refine List.filter_eq_self.mpr fun p hp => decide_eq_true ?_
    rcases List.mem_cons.mp hp with rfl | hp
    · decide
    · obtain ⟨i, -, rfl⟩ := List.mem_map.mp hp
      exact Nat.lt_succ_self 1
  have hlen : ((letters 0, 2) :: others).length - perShardCap = 1 := by
    rw [List.length_cons, length_others]
    rfl
  rw [hexpire, trim, hlen, List.drop_succ_cons, List.drop_zero]

/-- No check is due for a sweep when the length does not end in 99. -/
theorem Holds.swept_of_length (h : Holds shard queue) (hlen : queue.length % 100 ≠ 99) :
    shard.swept ttl now = shard := if_neg (h.len ▸ hlen)

/-- The first key comes once more. -/
def again : Call := .checkAndInsert (letters 0) "" 2 2

/-- The shards are swept. -/
def sweep : Call := .evictAll fun _ => 2

/-- The first key has run out and is registered again, at its place. -/
theorem feed_again (h : Filled 625 s) : (feed s again).dedup.ttl = 2 ∧
    Holds ((feed s again).dedup.shards 5) ((letters 0, 2) :: others) ∧
    (feed s again).logs 5 = .registered (letters 0) 2 :: s.logs 5 := by
  have hlen : (filled 625).length % 100 ≠ 99 := by
    rw [show (filled 625).length = others.length + 1 from rfl, length_others]
    decide
  have hswept : Holds ((s.dedup.shards 5).swept 2 2) ([] ++ (letters 0, 0) :: others) :=
    (h.holds.swept_of_length hlen).symm ▸ h.holds
  have hcheck : ((s.dedup.shards 5).checkAndInsert 2 (letters 0) "" 2 2).1 = .new ∧
      Holds ((s.dedup.shards 5).checkAndInsert 2 (letters 0) "" 2 2).2
        ([] ++ (letters 0, 2) :: others) :=
    hswept.checkAndInsert_expired (le_refl 2)
  refine ⟨h.ttl, ?_, ?_⟩
  · rw [again, feed_letters, h.ttl]
    exact hcheck.2
  · have hanswer : (s.dedup.checkAndInsert (letters 0) "" 2 2).1 = .new := by
      unfold RequestDeduplicator.checkAndInsert
      dsimp only
      rw [shardIndex_letters, h.ttl]
      exact hcheck.1
    unfold again feed
    dsimp only
    rw [hanswer]
    dsimp only
    unfold Session.logged
    rw [shardIndex_letters, Function.update_self]

/-- The first key is the first to go. -/
theorem feed_sweep (httl : s.dedup.ttl = 2)
    (h : Holds (s.dedup.shards 5) ((letters 0, 2) :: others)) :
    Holds ((feed s sweep).dedup.shards 5) others := by
  have hevict : Holds ((s.dedup.shards 5).evict 2 2) _ := h.evict
  rw [trim_expire_others] at hevict
  show Holds ((s.dedup.shards 5).evict s.dedup.ttl 2) others
  rwa [httl]

/-- It is new for the third time. -/
theorem checkAndInsert_again (httl : s.dedup.ttl = 2) (h : Holds (s.dedup.shards 5) others) :
    (s.dedup.checkAndInsert (letters 0) "" 2 2).1 = .new := by
  have hlen : others.length % 100 ≠ 99 := by
    rw [length_others]
    decide
  have hswept : Holds ((s.dedup.shards 5).swept 2 2) others :=
    (h.swept_of_length hlen).symm ▸ h
  unfold RequestDeduplicator.checkAndInsert
  dsimp only
  rw [shardIndex_letters, httl]
  exact (hswept.checkAndInsert_new not_mem_others).1

/-- Nothing was registered after it, and it is not reported as a duplicate. -/
theorem not_conforms_again (h : Filled 625 s) :
    ¬ Conforms (feed (feed s again) sweep) again := by
  intro hconforms
  obtain ⟨httl, hholds, hlog⟩ := feed_again h
  have hsweep := feed_sweep httl hholds
  have hlast : lastRegistered (letters 0)
      ((feed (feed s again) sweep).logs (shardIndex (letters 0))) = some (2, ∅) := by
    rw [shardIndex_letters]
    show lastRegistered (letters 0) ((feed s again).logs 5) = some (2, ∅)
    rw [hlog]
    exact if_pos rfl
  have httl : (feed (feed s again) sweep).dedup.ttl = 2 := httl
  have hfresh : 2 - 2 < (feed (feed s again) sweep).dedup.ttl := by
    rw [httl]
    exact Nat.zero_lt_two
  obtain ⟨count, cached, hduplicate⟩ :=
    hconforms.duplicate (letters 0) "" 2 2 rfl 2 ∅ hlast hfresh (by decide)
  rw [checkAndInsert_again httl hsweep] at hduplicate
  cases hduplicate

def comingAgain : List Call := filling 625 ++ [again] ++ [sweep] ++ [again]

/-- **The newest key gives way**: it comes again after it has been dropped for want of room, and
is new, although nothing was registered after it. -/
theorem fresh_key_evicted :
    EachStep feed (.start 2) comingAgain Timed ∧
      ¬ EachStep feed (.start 2) comingAgain Conforms := by
  have hroom : 625 ≤ perShardCap := by decide
  obtain ⟨htimed, hfilled⟩ := filled_filling hroom
  unfold comingAgain
  simp only [eachStep_concat, List.foldl_append, List.foldl_cons, List.foldl_nil]
  generalize (filling 625).foldl feed (.start 2) = s at hfilled
  refine ⟨⟨⟨⟨htimed, ?_⟩, ?_⟩, ?_⟩, fun h => not_conforms_again hfilled h.2⟩
  · exact ⟨hfilled.clock.trans (Nat.le_succ 1), le_refl 2⟩
  · exact ⟨le_refl 2, fun _ _ _ => le_refl 2⟩
  · exact ⟨le_refl 2, le_refl 2⟩

end

end ClawDesk.Gateway.Idempotency
