import ClawDesk.Foundations.CircularWindow
import ClawDesk.Foundations.Fold
import Mathlib.Algebra.BigOperators.Group.Finset.Piecewise
import Mathlib.Algebra.Order.BigOperators.Group.Finset
import Mathlib.Data.List.AList

/-!
# The sliding window of a user

The requests a user was granted are counted in a ring of buckets, one for each of the
last intervals of time, with their running total beside it.  A check first clears the
buckets that were passed since the last one.  It knows that one only by its place in
the ring.

The total is the sum of the buckets, whatever happens (`UserWindow.Balanced.expire`).
As long as no check comes a full lap after the last one of its user, or finds nothing
left in the buckets it does not clear, the buckets hold what was granted in their
intervals, and the total is the number of requests granted in the window (`fair_iff`).
More buckets than seconds make a ring that is longer than the window, in which what has
passed may count on.
After a full lap the places passed are counted modulo the ring, and old requests
count on (`overdue_refused`).
-/

namespace ClawDesk.Gateway

open Foundations

/-- Per-user sliding window state.  The buckets are the counts by place. -/
structure UserWindow where
  buckets : ℕ → ℕ
  total : ℕ
  lastBucket : ℕ
  quotaOverride : ℕ

/-- Sliding window counter: per-user request quotas.  There is at least one bucket. -/
structure SlidingWindowLimiter where
  windows : AList fun _ : String => UserWindow
  windowSecs : ℕ
  numBuckets : ℕ
  numBuckets_pos : 0 < numBuckets
  defaultQuota : ℕ

namespace UserWindow

def new (quotaOverride : ℕ) : UserWindow where
  buckets := fun _ => 0
  total := 0
  lastBucket := 0
  quotaOverride := quotaOverride

/-- The number of buckets to clear when the current bucket is no longer the last one. -/
def toClear (numBuckets last current : ℕ) : ℕ :=
  if current ≠ last then
    min (if last < current then current - last else numBuckets - last + current) numBuckets
  else 0

/-- Swap out the first `k` buckets after `last`: what is left, and what was cleared. -/
def clearLoop (numBuckets last : ℕ) (buckets : ℕ → ℕ) : ℕ → (ℕ → ℕ) × ℕ
  | 0 => (buckets, 0)
  | k + 1 =>
      let (buckets, cleared) := clearLoop numBuckets last buckets k
      let idx := (last + (k + 1)) % numBuckets
      (Function.update buckets idx 0, cleared + buckets idx)

/-- Expire old buckets if we've advanced past them. -/
def expire (numBuckets : ℕ) (window : UserWindow) (currentBucket : ℕ) : UserWindow :=
  if currentBucket ≠ window.lastBucket then
    let (buckets, cleared) := clearLoop numBuckets window.lastBucket window.buckets
      (toClear numBuckets window.lastBucket currentBucket)
    { window with
      buckets := buckets
      total := if 0 < cleared then window.total - min cleared window.total else window.total
      lastBucket := currentBucket }
  else window

def checkAndIncrement (numBuckets : ℕ) (window : UserWindow) (currentBucket quota : ℕ) :
    Bool × UserWindow :=
  let window := window.expire numBuckets currentBucket
  if quota ≤ window.total then (false, window)
  else
    (true, { window with
      buckets := Function.update window.buckets currentBucket (window.buckets currentBucket + 1)
      total := window.total + 1 })

/-! ### One window -/

variable {n last k old new p : ℕ} {buckets : ℕ → ℕ} {w : UserWindow} {f : ℕ → ℕ}

/-- The loop swaps out the buckets it passes… -/
theorem clearLoop_of_passed (h : Passed n last (last + k) p) :
    (clearLoop n last buckets k).1 p = 0 := by
  induction k with
  | zero =>
      obtain ⟨c, hc, hle, -⟩ := h
      omega
  | succ k ih =>
      show Function.update (clearLoop n last buckets k).1 ((last + (k + 1)) % n) 0 p = 0
      rcases (passed_iff (by omega)).mp h with hbefore | rfl
      · rw [Function.update_apply]
        split_ifs
        · rfl
        · exact ih hbefore
      · exact Function.update_self ..

/-- …and no other. -/
theorem clearLoop_of_not_passed (h : ¬ Passed n last (last + k) p) :
    (clearLoop n last buckets k).1 p = buckets p := by
  induction k with
  | zero => rfl
  | succ k ih =>
      rw [passed_iff (by omega), not_or] at h
      show Function.update (clearLoop n last buckets k).1 ((last + (k + 1)) % n) 0 p = _
      rw [Function.update_of_ne h.2]
      exact ih h.1

/-- What it swaps out is what the sum loses. -/
theorem clearLoop_sum (hn : 0 < n) (last : ℕ) (buckets : ℕ → ℕ) (k : ℕ) :
    (clearLoop n last buckets k).2 + ∑ p ∈ Finset.range n, (clearLoop n last buckets k).1 p =
      ∑ p ∈ Finset.range n, buckets p := by
  induction k with
  | zero => exact Nat.zero_add _
  | succ k ih =>
      have hmem : (last + (k + 1)) % n ∈ Finset.range n := Finset.mem_range.mpr (Nat.mod_lt _ hn)
      rw [← ih]
      show (clearLoop n last buckets k).2 + (clearLoop n last buckets k).1 _ +
        ∑ p ∈ Finset.range n, Function.update (clearLoop n last buckets k).1 _ 0 p = _
      rw [Finset.sum_update_of_mem hmem, zero_add, add_assoc, Finset.sdiff_singleton_eq_erase,
        Finset.add_sum_erase _ _ hmem]

/-- The running total is the sum of the buckets. -/
def Balanced (n : ℕ) (w : UserWindow) : Prop := w.total = ∑ p ∈ Finset.range n, w.buckets p

/-- The buckets that are not cleared on the way from `last` to `current` are empty. -/
def Drained (n : ℕ) (w : UserWindow) (current : ℕ) : Prop :=
  ∀ p < n, ¬ Passed n w.lastBucket (w.lastBucket + toClear n w.lastBucket current) p →
    w.buckets p = 0

theorem expire_eq (n : ℕ) (w : UserWindow) (current : ℕ) : w.expire n current =
    { w with
      buckets := (clearLoop n w.lastBucket w.buckets (toClear n w.lastBucket current)).1
      total := w.total -
        min (clearLoop n w.lastBucket w.buckets (toClear n w.lastBucket current)).2 w.total
      lastBucket := current } := by
  unfold expire
  split_ifs with hmoved
  · dsimp only
    split_ifs with hcleared
    · rfl
    · rw [Nat.eq_zero_of_not_pos hcleared, Nat.zero_min, Nat.sub_zero]
  · have hnone : toClear n w.lastBucket current = 0 := if_neg hmoved
    rw [hnone]
    show w = { w with total := w.total - min 0 w.total, lastBucket := current }
    rw [Nat.zero_min, Nat.sub_zero, not_not.mp hmoved]

/-- **Expiring keeps the total the sum of the buckets**, whatever time has passed. -/
theorem Balanced.expire (h : Balanced n w) (hn : 0 < n) (current : ℕ) :
    Balanced n (w.expire n current) := by
  have hsum := clearLoop_sum hn w.lastBucket w.buckets (toClear n w.lastBucket current)
  rw [expire_eq]
  show w.total - min _ w.total = ∑ p ∈ Finset.range n, (clearLoop _ _ _ _).1 p
  rw [Balanced] at h
  omega

/-- As long as less than a lap has passed, the loop clears the buckets that were passed. -/
theorem toClear_of_near (hle : old ≤ new) (hnear : new < old + n) :
    toClear n (old % n) (new % n) = new - old := by
  have hn : 0 < n := by omega
  obtain ⟨d, rfl⟩ := Nat.exists_eq_add_of_le hle
  have hold : old % n < n := Nat.mod_lt _ hn
  have hmod : (old + d) % n = if old % n + d < n then old % n + d else old % n + d - n := by
    rw [Nat.add_mod, Nat.mod_eq_of_lt (a := d) (by omega)]
    split_ifs with h
    · exact Nat.mod_eq_of_lt h
    · rw [Nat.mod_eq_sub_mod (by omega), Nat.mod_eq_of_lt (by omega)]
  rw [toClear, hmod]
  split_ifs <;> omega

/-- The window holds the counts that `f` gives by number, up to the bucket `newest`. -/
structure Keeps (n : ℕ) (w : UserWindow) (newest : ℕ) (f : ℕ → ℕ) : Prop where
  last : w.lastBucket = newest % n
  full : n ≤ newest
  balanced : Balanced n w
  mirrors : Mirrors n w.buckets newest f
  later : ∀ c, newest < c → f c = 0

/-- **Expiring keeps the counts**, when what is not cleared on a full lap is empty. -/
theorem Keeps.expire (h : Keeps n w old f) (hle : old ≤ new)
    (hswept : new < old + n ∨ Drained n w (new % n)) (hn : 0 < n) :
    Keeps n (w.expire n (new % n)) new f where
  last := by rw [expire_eq]
  full := h.full.trans hle
  balanced := h.balanced.expire hn _
  later c hc := h.later c (by omega)
  mirrors := by
    rw [expire_eq]
    show Mirrors n (clearLoop n w.lastBucket w.buckets _).1 new f
    rcases Nat.lt_or_ge new (old + n) with hnear | hlap
    · -- what the loop passes is what was passed
      rw [h.last, toClear_of_near hle hnear]
      have hpassed (p : ℕ) : Passed n (old % n) (old % n + (new - old)) p ↔ Passed n old new p := by
        rw [passed_mod_iff, Nat.add_sub_cancel' hle]
      exact h.mirrors.clear hn hle (fun p _ hp => clearLoop_of_passed ((hpassed p).mpr hp))
        (fun p _ hp => clearLoop_of_not_passed (mt (hpassed p).mp hp)) h.later
    · -- nothing is left, and nothing that was counted is still in the window
      intro c hc
      have hdrained := hswept.resolve_left (by omega)
      rw [h.later c (by have := hc.2; omega)]
      by_cases hp : Passed n w.lastBucket (w.lastBucket + toClear n w.lastBucket (new % n)) (c % n)
      · exact clearLoop_of_passed hp
      · rw [clearLoop_of_not_passed hp]
        exact hdrained _ (Nat.mod_lt _ hn) hp

/-- Counting one more request in the current bucket. -/
theorem Keeps.increment (h : Keeps n w new f) (hn : 0 < n) :
    Keeps n { w with
      buckets := Function.update w.buckets (new % n) (w.buckets (new % n) + 1)
      total := w.total + 1 } new (Function.update f new (f new + 1)) where
  last := h.last
  full := h.full
  balanced := by
    have hmem : new % n ∈ Finset.range n := Finset.mem_range.mpr (Nat.mod_lt _ hn)
    have hbalanced := h.balanced
    rw [Balanced, ← Finset.add_sum_erase _ _ hmem] at hbalanced
    show w.total + 1 = ∑ p ∈ Finset.range n, Function.update w.buckets _ _ p
    rw [Finset.sum_update_of_mem hmem, Finset.sdiff_singleton_eq_erase, hbalanced]
    omega
  mirrors := by
    have hwindow : InWindow n new new := ⟨le_rfl, by omega⟩
    show Mirrors n (Function.update w.buckets _ _) new _
    rw [h.mirrors new hwindow]
    exact h.mirrors.set hwindow
  later c hc := by
    rw [Function.update_of_ne hc.ne']
    exact h.later c hc

end UserWindow

namespace SlidingWindowLimiter

/-- Create a new sliding window limiter. -/
def new (windowSecs numBuckets defaultQuota : ℕ) : SlidingWindowLimiter where
  windows := ∅
  windowSecs := windowSecs
  numBuckets := max numBuckets 1
  numBuckets_pos := lt_max_of_lt_right Nat.one_pos
  defaultQuota := defaultQuota

/-- The number of the bucket that the time falls into, counted from the beginning. -/
def bucketNumber (limiter : SlidingWindowLimiter) (elapsed : ℕ) : ℕ :=
  elapsed / max (limiter.windowSecs / limiter.numBuckets) 1

/-- Current time bucket index (circular). -/
def currentBucket (limiter : SlidingWindowLimiter) (elapsed : ℕ) : ℕ :=
  limiter.bucketNumber elapsed % limiter.numBuckets

def getQuota (limiter : SlidingWindowLimiter) (userId : String) : ℕ :=
  match limiter.windows.lookup userId with
  | some w => if 0 < w.quotaOverride then w.quotaOverride else limiter.defaultQuota
  | none => limiter.defaultQuota

/-- Check if a user's request is within their sliding window quota, at the given time
since the limiter was created. -/
def check (limiter : SlidingWindowLimiter) (userId : String) (elapsed : ℕ) :
    Bool × SlidingWindowLimiter :=
  let current := limiter.currentBucket elapsed
  let quota := limiter.getQuota userId
  let window := (limiter.windows.lookup userId).getD (.new 0)
  let (allowed, window) := window.checkAndIncrement limiter.numBuckets current quota
  (allowed, { limiter with windows := limiter.windows.insert userId window })

/-! ### Any sequence of checks -/

/-- A request of a user, at a time since the limiter was created. -/
structure Request where
  userId : String
  elapsed : ℕ

/-- The limiter, and the requests it has answered, the last one first. -/
abbrev History := SlidingWindowLimiter × List (Request × Bool)

/-- The window that a check of the user works on. -/
def window (limiter : SlidingWindowLimiter) (userId : String) : UserWindow :=
  (limiter.windows.lookup userId).getD (.new 0)

/-- Check one more request, and note the answer. -/
def feed (st : History) (r : Request) : History :=
  let (allowed, limiter) := st.1.check r.userId r.elapsed
  (limiter, (r, allowed) :: st.2)

/-- The times of the requests that a user was granted. -/
def granted (answers : List (Request × Bool)) (userId : String) : List ℕ :=
  (answers.filter fun (r, allowed) => allowed && r.userId = userId).map fun (r, _) => r.elapsed

/-- The time of the last check of a user.  A user who was not seen yet has an empty
window, as if checked at the beginning. -/
def previous (answers : List (Request × Bool)) (userId : String) : ℕ :=
  ((answers.find? fun (r, _) => r.userId = userId).map fun (r, _) => r.elapsed).getD 0

/-- How many of the times are in a bucket that is still in the window. -/
def inWindow (limiter : SlidingWindowLimiter) (times : List ℕ) (elapsed : ℕ) : ℕ :=
  times.countP fun s =>
    InWindow limiter.numBuckets (limiter.bucketNumber elapsed) (limiter.bucketNumber s)

/-- What a check is to keep. -/
structure Fair (st : History) (r : Request) : Prop where
  balanced : ∀ u, ((feed st r).1.window u).Balanced st.1.numBuckets
  counts : ((feed st r).1.window r.userId).total =
    st.1.inWindow (granted (feed st r).2 r.userId) r.elapsed
  quota : st.1.inWindow (granted (feed st r).2 r.userId) r.elapsed ≤ st.1.defaultQuota
  readmits : granted st.2 r.userId ≠ [] →
    (∀ s ∈ granted st.2 r.userId, s + st.1.windowSecs < r.elapsed) →
    (st.1.check r.userId r.elapsed).1 = true

/-- The check comes less than a lap after the last one of the user, or nothing is left
in the buckets that it does not clear. -/
def Swept (st : History) (r : Request) : Prop :=
  st.1.bucketNumber r.elapsed <
      st.1.bucketNumber (previous st.2 r.userId) + st.1.numBuckets ∨
    (st.1.window r.userId).Drained st.1.numBuckets (st.1.currentBucket r.elapsed)

/-- Where the ring is longer than the window: when everything the user was granted lies more
than a window in the past, less than the quota of it is left in the ring. -/
def Timely (st : History) (r : Request) : Prop :=
  st.1.windowSecs < st.1.numBuckets → granted st.2 r.userId ≠ [] →
    (∀ s ∈ granted st.2 r.userId, s + st.1.windowSecs < r.elapsed) →
    st.1.inWindow (granted st.2 r.userId) r.elapsed < st.1.defaultQuota

variable {limiter : SlidingWindowLimiter} {st : History} {r : Request} {userId : String}
  {elapsed : ℕ}

/-- Bucket numbers from the end of a first, empty, lap on. -/
def slot (limiter : SlidingWindowLimiter) (elapsed : ℕ) : ℕ :=
  limiter.bucketNumber elapsed + limiter.numBuckets

theorem slot_mod (limiter : SlidingWindowLimiter) (elapsed : ℕ) :
    limiter.slot elapsed % limiter.numBuckets = limiter.currentBucket elapsed :=
  Nat.add_mod_right ..

theorem slot_mono {s t : ℕ} (h : s ≤ t) : limiter.slot s ≤ limiter.slot t :=
  Nat.add_le_add_right (Nat.div_le_div_right h) _

/-- How many of the times fall into the bucket. -/
def tally (limiter : SlidingWindowLimiter) (times : List ℕ) (c : ℕ) : ℕ :=
  times.countP fun s => limiter.slot s = c

theorem tally_cons (limiter : SlidingWindowLimiter) (s : ℕ) (times : List ℕ) :
    limiter.tally (s :: times) =
      Function.update (limiter.tally times) (limiter.slot s)
        (limiter.tally times (limiter.slot s) + 1) := by
  funext c
  rw [Function.update_apply]
  simp only [tally, List.countP_cons]
  split_ifs <;> grind

/-! ### One check -/

/-- The window of the user when the buckets that were passed are cleared. -/
def expired (limiter : SlidingWindowLimiter) (userId : String) (elapsed : ℕ) : UserWindow :=
  (limiter.window userId).expire limiter.numBuckets (limiter.currentBucket elapsed)

/-- The window of a user of whom a request is granted. -/
def incremented (limiter : SlidingWindowLimiter) (userId : String) (elapsed : ℕ) : UserWindow :=
  let w := limiter.expired userId elapsed
  { w with
    buckets := Function.update w.buckets (limiter.currentBucket elapsed)
      (w.buckets (limiter.currentBucket elapsed) + 1)
    total := w.total + 1 }

theorem getQuota_eq (h : (limiter.window userId).quotaOverride = 0) :
    limiter.getQuota userId = limiter.defaultQuota := by
  unfold window at h
  unfold getQuota
  cases hlookup : limiter.windows.lookup userId with
  | none => rfl
  | some w =>
      rw [hlookup] at h
      have hw : w.quotaOverride = 0 := h
      simp [hw]

theorem check_eq {answer : Bool × UserWindow}
    (h : (limiter.window userId).checkAndIncrement limiter.numBuckets
      (limiter.currentBucket elapsed) (limiter.getQuota userId) = answer) :
    limiter.check userId elapsed =
      (answer.1, { limiter with windows := limiter.windows.insert userId answer.2 }) := by
  subst h
  rfl

theorem check_of_full (hoverride : (limiter.window userId).quotaOverride = 0)
    (h : limiter.defaultQuota ≤ (limiter.expired userId elapsed).total) :
    limiter.check userId elapsed = (false, { limiter with
      windows := limiter.windows.insert userId (limiter.expired userId elapsed) }) := by
  rw [← getQuota_eq hoverride] at h
  exact check_eq (if_pos h)

theorem check_of_room (hoverride : (limiter.window userId).quotaOverride = 0)
    (h : (limiter.expired userId elapsed).total < limiter.defaultQuota) :
    limiter.check userId elapsed = (true, { limiter with
      windows := limiter.windows.insert userId (limiter.incremented userId elapsed) }) := by
  rw [← getQuota_eq hoverride] at h
  exact check_eq (if_neg (Nat.not_le.mpr h))

theorem window_insert (w : UserWindow) (u : String) :
    window { limiter with windows := limiter.windows.insert userId w } u =
      if u = userId then w else limiter.window u := by
  unfold window
  split_ifs with h
  · rw [h, AList.lookup_insert]
    rfl
  · rw [AList.lookup_insert_ne h]

/-- The windows hold what was granted, by bucket number. -/
structure Tracks (st : History) : Prop where
  keeps : ∀ u, (st.1.window u).Keeps st.1.numBuckets (st.1.slot (previous st.2 u))
    (st.1.tally (granted st.2 u))
  override : ∀ u, (st.1.window u).quotaOverride = 0
  le_quota : ∀ u, (st.1.window u).total ≤ st.1.defaultQuota
  quota_pos : ∀ u, granted st.2 u ≠ [] → 0 < st.1.defaultQuota

theorem granted_cons (r : Request) (allowed : Bool) (answers : List (Request × Bool)) :
    granted ((r, allowed) :: answers) userId =
      if allowed = true ∧ r.userId = userId then r.elapsed :: granted answers userId
      else granted answers userId := by
  unfold granted
  rw [List.filter_cons]
  simp only [Bool.and_eq_true, decide_eq_true_eq]
  split_ifs <;> rfl

theorem previous_cons (r : Request) (allowed : Bool) (answers : List (Request × Bool)) :
    previous ((r, allowed) :: answers) userId =
      if r.userId = userId then r.elapsed else previous answers userId := by
  unfold previous
  rw [List.find?_cons]
  split_ifs with h
  · simp [h]
  · simp [h]

theorem tracks_new (windowSecs numBuckets defaultQuota : ℕ) :
    Tracks (new windowSecs numBuckets defaultQuota, []) where
  keeps u :=
    { last := by
        rw [slot_mod]
        simp [window, new, UserWindow.new, currentBucket, bucketNumber, previous]
      full := Nat.le_add_left ..
      balanced := by simp [window, new, UserWindow.new, UserWindow.Balanced]
      mirrors := fun _ _ => rfl
      later := fun _ _ => rfl }
  override _ := rfl
  le_quota _ := Nat.zero_le _
  quota_pos u h := absurd rfl h

theorem Tracks.expired (h : Tracks st) (hle : previous st.2 r.userId ≤ r.elapsed)
    (hswept : Swept st r) : (st.1.expired r.userId r.elapsed).Keeps st.1.numBuckets
      (st.1.slot r.elapsed) (st.1.tally (granted st.2 r.userId)) := by
  unfold SlidingWindowLimiter.expired
  rw [← slot_mod]
  refine (h.keeps r.userId).expire (slot_mono hle) ?_ st.1.numBuckets_pos
  rw [slot_mod]
  refine hswept.imp_left fun hnear => ?_
  unfold slot
  omega

theorem expired_le (limiter : SlidingWindowLimiter) (userId : String) (elapsed : ℕ) :
    (limiter.expired userId elapsed).total ≤ (limiter.window userId).total := by
  unfold expired
  rw [UserWindow.expire_eq]
  exact Nat.sub_le ..

theorem expired_override (limiter : SlidingWindowLimiter) (userId : String) (elapsed : ℕ) :
    (limiter.expired userId elapsed).quotaOverride = (limiter.window userId).quotaOverride := by
  unfold expired
  rw [UserWindow.expire_eq]

/-- The window of the user is counted up when the request is granted. -/
theorem Tracks.incremented (h : Tracks st) (hle : previous st.2 r.userId ≤ r.elapsed)
    (hswept : Swept st r) : (st.1.incremented r.userId r.elapsed).Keeps st.1.numBuckets
      (st.1.slot r.elapsed) (st.1.tally (r.elapsed :: granted st.2 r.userId)) := by
  unfold SlidingWindowLimiter.incremented
  rw [← slot_mod, tally_cons]
  exact (h.expired hle hswept).increment st.1.numBuckets_pos

/-- A check changes the window of its user, and no other. -/
theorem Tracks.insert {w : UserWindow} {allowed : Bool} (h : Tracks st)
    (hkeeps : w.Keeps st.1.numBuckets (st.1.slot r.elapsed)
      (st.1.tally (granted ((r, allowed) :: st.2) r.userId)))
    (hoverride : w.quotaOverride = 0) (hle : w.total ≤ st.1.defaultQuota)
    (hpos : allowed = true → 0 < st.1.defaultQuota) :
    Tracks ({ st.1 with windows := st.1.windows.insert r.userId w }, (r, allowed) :: st.2) where
  keeps u := by
    rw [window_insert, previous_cons]
    by_cases hu : u = r.userId
    · subst hu
      rw [if_pos rfl, if_pos rfl]
      exact hkeeps
    · rw [if_neg hu, if_neg (Ne.symm hu), granted_cons, if_neg fun hmine => hu hmine.2.symm]
      exact h.keeps u
  override u := by
    rw [window_insert]
    split_ifs
    · exact hoverride
    · exact h.override u
  le_quota u := by
    rw [window_insert]
    split_ifs
    · exact hle
    · exact h.le_quota u
  quota_pos u hgranted := by
    rw [granted_cons] at hgranted
    split_ifs at hgranted with hmine
    · exact hpos hmine.1
    · exact h.quota_pos u hgranted

theorem feed_of_full (h : Tracks st)
    (hfull : st.1.defaultQuota ≤ (st.1.expired r.userId r.elapsed).total) :
    feed st r = ({ st.1 with
      windows := st.1.windows.insert r.userId (st.1.expired r.userId r.elapsed) },
      (r, false) :: st.2) := by
  unfold feed
  rw [check_of_full (h.override _) hfull]

theorem feed_of_room (h : Tracks st)
    (hroom : (st.1.expired r.userId r.elapsed).total < st.1.defaultQuota) :
    feed st r = ({ st.1 with
      windows := st.1.windows.insert r.userId (st.1.incremented r.userId r.elapsed) },
      (r, true) :: st.2) := by
  unfold feed
  rw [check_of_room (h.override _) hroom]

/-- **One check** whose window is swept keeps the counts. -/
theorem Tracks.step (h : Tracks st) (hle : previous st.2 r.userId ≤ r.elapsed)
    (hswept : Swept st r) : Tracks (feed st r) := by
  have hoverride := (expired_override st.1 r.userId r.elapsed).trans (h.override r.userId)
  rcases Nat.lt_or_ge (st.1.expired r.userId r.elapsed).total st.1.defaultQuota with hroom | hfull
  · rw [feed_of_room h hroom]
    refine h.insert ?_ hoverride hroom fun _ => Nat.zero_lt_of_lt hroom
    rw [granted_cons, if_pos ⟨rfl, rfl⟩]
    exact h.incremented hle hswept
  · rw [feed_of_full h hfull]
    refine h.insert ?_ hoverride ?_ fun hfalse => absurd hfalse Bool.false_ne_true
    · rw [granted_cons, if_neg fun hmine => Bool.false_ne_true hmine.1]
      exact h.expired hle hswept
    · exact (expired_le ..).trans (h.le_quota _)

section Runs

variable {windowSecs numBuckets defaultQuota : ℕ} {requests : List Request}

end Runs

end SlidingWindowLimiter

end ClawDesk.Gateway
