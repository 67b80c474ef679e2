import ClawDesk.Foundations.CircularWindow
import ClawDesk.Foundations.Simulation
import Mathlib.Data.BitVec

/-!
# The ring between publisher and drain

A ring of a power of two many slots, shared by one thread that pushes and one thread that pops or
drains what is stale.  There is no lock: the pusher alone stores the tail and the popper alone the
head, both 64-bit counters that wrap around, and a slot is found by masking a counter.

Every access to memory is a step of its own, and the two threads take steps in any order.  A load
of the other thread's counter is an acquire and need not return the newest value; it never goes
back behind one that the same thread has read already.  What each thread can know of the other is
therefore part of the specification, a `Channel` whose ends learn late of each other.

The ring is such a channel (`ring_simulated`): what is popped is what was pushed, in order, nothing
twice and nothing left out, and a push is refused only when a full ring of elements is ahead of the
newest pop that the pusher has seen.  No slot is ever touched by one thread while the other is
about to touch it, and whoever touches it has seen that the other is through with it
(`slots_disjoint`).

Both rest on the contract that the ring's own comment states, that there is one pusher and one
popper.  `len` and `is_full`, which any thread may call, take no part in it.
-/

namespace ClawDesk.Acp

open Foundations

namespace SpscRing

abbrev Word := BitVec 64

variable {α : Type}

/-! ### What the ring is for -/

/-- What the calls answer. -/
inductive Answer (α : Type) where
  | pushed (a : α)
  | full (a : α)
  | popped (a : Option α)
  | empty
  /-- `drain_stale` stops at the slot. -/
  | kept (slot : Option α)

/-- A queue whose two ends learn late of each other. -/
structure Channel (α : Type) where
  sent : List α
  received : ℕ
  /-- How many receptions the sender knows of. -/
  freed : ℕ
  /-- How much of what was sent the receiver knows of. -/
  known : ℕ

namespace Channel

def start : Channel α := ⟨[], 0, 0, 0⟩

inductive Step (cap : ℕ) (c : Channel α) : Option (Answer α) → Channel α → Prop
  | learnFreed {n} (hlo : c.freed ≤ n) (hhi : n ≤ c.received) :
      Step cap c none { c with freed := n }
  | learnKnown {n} (hlo : c.known ≤ n) (hhi : n ≤ c.sent.length) :
      Step cap c none { c with known := n }
  | push {a} (hroom : c.sent.length < c.freed + cap) :
      Step cap c (some (.pushed a)) { c with sent := c.sent ++ [a] }
  | full {a} (hfull : c.sent.length = c.freed + cap) : Step cap c (some (.full a)) c
  | pop {a} (hknown : c.received < c.known) (ha : c.sent[c.received]? = some a) :
      Step cap c (some (.popped (some a))) { c with received := c.received + 1 }
  | empty (hempty : c.known = c.received) : Step cap c (some .empty) c
  | kept {a} (hknown : c.received < c.known) (ha : c.sent[c.received]? = some a) :
      Step cap c (some (.kept (some a))) c

/-- Nobody knows more than there is, and what was sent and is not known to be received fits. -/
structure Valid (cap : ℕ) (c : Channel α) : Prop where
  freed : c.freed ≤ c.received
  received : c.received ≤ c.known
  known : c.known ≤ c.sent.length
  room : c.sent.length ≤ c.freed + cap

variable {cap : ℕ} {c c' : Channel α} {shown : Option (Answer α)} {trace : List (Answer α)}

theorem valid_start : Valid cap (start : Channel α) :=
  ⟨le_rfl, le_rfl, le_rfl, Nat.zero_le _⟩

theorem Step.valid (hstep : Step cap c shown c') (h : c.Valid cap) : c'.Valid cap := by
  obtain ⟨hfreed, hreceived, hknown, hroom⟩ := h
  cases hstep with
  | learnFreed hlo hhi => exact ⟨hhi, hreceived, hknown, hroom.trans (Nat.add_le_add_right hlo _)⟩
  | learnKnown hlo hhi => exact ⟨hfreed, hreceived.trans hlo, hhi, hroom⟩
  | push hlt =>
      refine ⟨hfreed, hreceived, ?_, ?_⟩ <;> rw [List.length_append, List.length_singleton]
      · exact hknown.trans (Nat.le_succ _)
      · exact hlt
  | pop hlt _ => exact ⟨hfreed.trans (Nat.le_succ _), hlt, hknown, hroom⟩
  | full | empty | kept => exact ⟨hfreed, hreceived, hknown, hroom⟩

end Channel

/-- What was pushed in a trace. -/
def pushes (trace : List (Answer α)) : List α :=
  trace.filterMap fun | .pushed a => some a | _ => none

/-- What the calls that popped an element returned. -/
def pops (trace : List (Answer α)) : List (Option α) :=
  trace.filterMap fun | .popped a => some a | _ => none

namespace Channel

variable {cap : ℕ} {c : Channel α} {trace : List (Answer α)}

/-- The trace tells what was sent, and what was received. -/
theorem run_spec (hrun : LabelledRun (Step cap) start trace c) :
    c.Valid cap ∧ pushes trace = c.sent ∧ pops trace = (c.sent.take c.received).map some := by
  refine hrun.induct (P := fun trace c => c.Valid cap ∧ pushes trace = c.sent ∧
    pops trace = (c.sent.take c.received).map some) ⟨valid_start, rfl, rfl⟩ ?_
  rintro trace c shown c' ⟨hvalid, hpushes, hpops⟩ hstep
  refine ⟨hstep.valid hvalid, ?_⟩
  rw [pushes, pops, List.filterMap_append, List.filterMap_append, ← pushes, ← pops, hpushes, hpops]
  have hreceived : c.received ≤ c.sent.length := hvalid.received.trans hvalid.known
  cases hstep with
  | learnFreed | learnKnown | full | empty | kept => exact ⟨by simp, by simp⟩
  | push => exact ⟨by simp, by simp [List.take_append_of_le_length hreceived]⟩
  | pop _ ha => exact ⟨by simp, by simp [List.take_add_one, ha]⟩

end Channel

/-! ### Memory and threads -/

/-- `min_capacity.next_power_of_two().max(2)`, where a power that does not fit in a word is 0. -/
def capacityFor (minCapacity : Word) : Word :=
  let power := BitVec.ofNat 64 minCapacity.toNat.nextPowerOfTwo
  if power ≤ 2 then 2 else power

/-- An atomic counter: the values it has had, which of them is the newest, and which of them the
thread that does not store it has read last. -/
structure Counter where
  values : ℕ → Word
  newest : ℕ
  seen : ℕ

namespace Counter

def new : Counter := ⟨fun _ => 0, 0, 0⟩

/-- What the thread that stores it loads. -/
def own (k : Counter) : Word := k.values k.newest

def store (k : Counter) (value : Word) : Counter :=
  { k with values := Function.update k.values (k.newest + 1) value, newest := k.newest + 1 }

/-- The other thread may load this value. -/
def Acquires (k : Counter) (value : Word) (k' : Counter) : Prop :=
  ∃ i, k.seen ≤ i ∧ i ≤ k.newest ∧ value = k.values i ∧ k' = { k with seen := i }

end Counter

/-- What the consumer has called: `try_pop`, or a round of the loop in `drain_stale`. -/
inductive Call (α : Type) where
  | tryPop
  | drain (stale : α → Bool)

/-- How far a `try_push` has come. -/
inductive Producer (α : Type) where
  | idle
  | loadedTail (event : α) (tail : Word)
  | admitted (event : α) (tail : Word)
  | written (event : α) (tail : Word)

/-- How far a call of the consumer has come. -/
inductive Consumer (α : Type) where
  | idle
  | loadedHead (call : Call α) (head : Word)
  | occupied (call : Call α) (head : Word)
  | taken (event : Option α) (head : Word)

structure State (α : Type) where
  slots : ℕ → Option α
  mask : Word
  tail : Counter
  head : Counter
  producer : Producer α
  consumer : Consumer α

namespace State

def new (minCapacity : Word) : State α where
  slots _ := none
  mask := capacityFor minCapacity - 1
  tail := .new
  head := .new
  producer := .idle
  consumer := .idle

def capacity (s : State α) : Word := s.mask + 1

/-- The slot of a counter. -/
def slot (s : State α) (counter : Word) : ℕ := (counter &&& s.mask).toNat

def setSlot (s : State α) (counter : Word) (value : Option α) : ℕ → Option α :=
  Function.update s.slots (s.slot counter) value

end State

open Producer Consumer

/-- One access to memory of one of the two threads, and what its call answers if it ends there. -/
inductive Step (s : State α) : Option (Answer α) → State α → Prop
  | loadTail {event} (hidle : s.producer = .idle) :
      Step s none { s with producer := .loadedTail event s.tail.own }
  | full {event tail head head'} (hpc : s.producer = .loadedTail event tail)
      (hload : s.head.Acquires head head') (hfull : s.capacity ≤ tail - head) :
      Step s (some (.full event)) { s with head := head', producer := .idle }
  | notFull {event tail head head'} (hpc : s.producer = .loadedTail event tail)
      (hload : s.head.Acquires head head') (hroom : ¬ s.capacity ≤ tail - head) :
      Step s none { s with head := head', producer := .admitted event tail }
  | write {event tail} (hpc : s.producer = .admitted event tail) :
      Step s none
        { s with slots := s.setSlot tail (some event), producer := .written event tail }
  | storeTail {event tail} (hpc : s.producer = .written event tail) :
      Step s (some (.pushed event)) { s with tail := s.tail.store (tail + 1), producer := .idle }
  | loadHead {call} (hidle : s.consumer = .idle) :
      Step s none { s with consumer := .loadedHead call s.head.own }
  | empty {call head tail tail'} (hpc : s.consumer = .loadedHead call head)
      (hload : s.tail.Acquires tail tail') (heq : head = tail) :
      Step s (some .empty) { s with tail := tail', consumer := .idle }
  | occupied {call head tail tail'} (hpc : s.consumer = .loadedHead call head)
      (hload : s.tail.Acquires tail tail') (hne : head ≠ tail) :
      Step s none { s with tail := tail', consumer := .occupied call head }
  | stale {stale event head} (hpc : s.consumer = .occupied (.drain stale) head)
      (hslot : s.slots (s.slot head) = some event) (hstale : stale event) :
      Step s none { s with consumer := .occupied .tryPop head }
  | kept {stale head} (hpc : s.consumer = .occupied (.drain stale) head)
      (hkept : ∀ event, s.slots (s.slot head) = some event → ¬ stale event) :
      Step s (some (.kept (s.slots (s.slot head)))) { s with consumer := .idle }
  | take {head} (hpc : s.consumer = .occupied .tryPop head) :
      Step s none
        { s with slots := s.setSlot head none, consumer := .taken (s.slots (s.slot head)) head }
  | storeHead {event head} (hpc : s.consumer = .taken event head) :
      Step s (some (.popped event)) { s with head := s.head.store (head + 1), consumer := .idle }

/-! ### Counters that wrap around -/

/-- What the ring's capacity is: a power of two that fits in a word with room to spare. -/
def Capacity (cap : ℕ) : Prop := ∃ k < 64, cap = 2 ^ k

variable {cap n m i : ℕ}

theorem Capacity.pos (h : Capacity cap) : 0 < cap := by
  obtain ⟨k, -, rfl⟩ := h
  exact Nat.two_pow_pos k

theorem Capacity.lt (h : Capacity cap) : cap < 2 ^ 64 := by
  obtain ⟨k, hk, rfl⟩ := h
  exact Nat.pow_lt_pow_right (by omega) hk

theorem capacity_capacityFor (minCapacity : Word) : Capacity (capacityFor minCapacity).toNat := by
  obtain ⟨k, hpower⟩ := Nat.isPowerOfTwo_nextPowerOfTwo minCapacity.toNat
  unfold capacityFor
  rw [hpower]
  dsimp only
  split
  next => exact ⟨1, by omega, rfl⟩
  next hlarge =>
    have hk : k < 64 := by
      by_contra hk
      have hzero : 2 ^ k % 2 ^ 64 = 0 := Nat.mod_eq_zero_of_dvd (Nat.pow_dvd_pow 2 (by omega))
      rw [BitVec.le_def, BitVec.toNat_ofNat, hzero] at hlarge
      exact hlarge (Nat.zero_le _)
    exact ⟨k, hk, by rw [BitVec.toNat_ofNat, Nat.mod_eq_of_lt (Nat.pow_lt_pow_right (by omega) hk)]⟩

theorem two_le_capacityFor (minCapacity : Word) : 2 ≤ capacityFor minCapacity := by
  unfold capacityFor
  dsimp only
  split
  next => exact BitVec.le_refl _
  next hlarge => exact BitVec.le_of_lt (BitVec.not_le.mp hlarge)

/-- The counters are as far apart as the numbers. -/
theorem toNat_sub_ofNat (hle : m ≤ n) (hlt : n < m + 2 ^ 64) :
    (BitVec.ofNat 64 n - BitVec.ofNat 64 m).toNat = n - m := by
  obtain ⟨d, rfl⟩ := Nat.exists_eq_add_of_le hle
  rw [BitVec.ofNat_add, BitVec.add_comm, BitVec.add_sub_cancel, BitVec.toNat_ofNat,
    Nat.add_sub_cancel_left]
  exact Nat.mod_eq_of_lt (by omega)

theorem ofNat_injOn (hle : m ≤ n) (hlt : n < m + 2 ^ 64)
    (h : BitVec.ofNat 64 m = BitVec.ofNat 64 n) : m = n := by
  have hsub := toNat_sub_ofNat hle hlt
  rw [h, BitVec.sub_self, BitVec.toNat_zero] at hsub
  omega

theorem toNat_and_mask (h : Capacity cap) (n : ℕ) :
    (BitVec.ofNat 64 n &&& BitVec.ofNat 64 (cap - 1)).toNat = n % cap := by
  obtain ⟨k, hk, rfl⟩ := h
  have hmask : 2 ^ k - 1 < 2 ^ 64 := Nat.sub_lt_of_lt (Nat.pow_lt_pow_right (by omega) hk)
  rw [BitVec.toNat_and, BitVec.toNat_ofNat, BitVec.toNat_ofNat, Nat.mod_eq_of_lt hmask,
    Nat.and_two_pow_sub_one_eq_mod, Nat.mod_mod_of_dvd _ (Nat.pow_dvd_pow 2 hk.le)]

theorem ofNat_succ (n : ℕ) : BitVec.ofNat 64 n + 1 = BitVec.ofNat 64 (n + 1) := by
  rw [BitVec.ofNat_add]
  rfl

theorem toNat_capacity (h : Capacity cap) : (BitVec.ofNat 64 (cap - 1) + 1).toNat = cap := by
  rw [ofNat_succ, Nat.sub_add_cancel h.pos, BitVec.toNat_ofNat, Nat.mod_eq_of_lt h.lt]

/-! ### The ring is a channel -/

/-- The counter has had the numbers up to `last` as its values, and the other thread has seen
those up to `seen`. -/
structure Counts (k : Counter) (last seen : ℕ) : Prop where
  newest : k.newest = last
  seen : k.seen = seen
  values : ∀ i ≤ last, k.values i = BitVec.ofNat 64 i

section Counts

variable {k k' : Counter} {last seen : ℕ} {value : Word}

theorem Counts.own (h : Counts k last seen) : k.own = BitVec.ofNat 64 last := by
  rw [Counter.own, h.newest]
  exact h.values last le_rfl

theorem Counts.store (h : Counts k last seen) :
    Counts (k.store (BitVec.ofNat 64 last + 1)) (last + 1) seen where
  newest := by rw [Counter.store, h.newest]
  seen := h.seen
  values i hi := by
    simp only [Counter.store, h.newest]
    rcases Nat.lt_or_ge last i with hlt | hle
    · obtain rfl : i = last + 1 := Nat.le_antisymm hi hlt
      rw [Function.update_self, ofNat_succ]
    · rw [Function.update_of_ne (by omega)]
      exact h.values i hle

theorem Counts.acquires (h : Counts k last seen) (hload : k.Acquires value k') :
    ∃ i, seen ≤ i ∧ i ≤ last ∧ value = BitVec.ofNat 64 i ∧ Counts k' last i := by
  obtain ⟨i, hlo, hhi, rfl, rfl⟩ := hload
  rw [h.seen] at hlo
  rw [h.newest] at hhi
  exact ⟨i, hlo, hhi, h.values i hhi, h.newest, rfl, h.values⟩

end Counts

/-- What was written, without the first `n`. -/
def content (written : List α) (n : ℕ) (i : ℕ) : Option α := if i < n then none else written[i]?

theorem content_concat {written : List α} (h : n ≤ written.length) (a : α) :
    content (written ++ [a]) n = Function.update (content written n) written.length (some a) := by
  funext i
  rcases eq_or_ne i written.length with rfl | hne
  · rw [Function.update_self, content, if_neg (Nat.not_lt.mpr h), List.getElem?_concat_length]
  · rw [Function.update_of_ne hne, content, content, List.getElem?_append]
    split_ifs with hlt hin
    · rfl
    · rfl
    · have hend : written.length ≤ i := Nat.not_lt.mp hin
      have hbeyond : [a].length ≤ i - written.length := by
        rw [List.length_singleton]
        omega
      rw [List.getElem?_eq_none hbeyond, List.getElem?_eq_none hend]

/-- The slots hold what was written and is not taken. -/
def Holds (cap : ℕ) (slots : ℕ → Option α) (written : List α) (taken : ℕ) : Prop :=
  Mirrors cap slots (taken + cap - 1) (content written taken)

section Holds

variable {slots : ℕ → Option α} {written : List α} {taken : ℕ}

theorem holds_start (cap : ℕ) : Holds cap (fun _ => none) ([] : List α) 0 := by
  intro c _
  simp [content]

theorem Holds.get (h : Holds cap slots written taken) (hi : taken ≤ i) (hlt : i < taken + cap) :
    slots (i % cap) = written[i]? := by
  rw [h i ⟨by omega, by omega⟩, content, if_neg (by omega)]

theorem Holds.write (h : Holds cap slots written taken) (hle : taken ≤ written.length)
    (hroom : written.length < taken + cap) (a : α) :
    Holds cap (Function.update slots (written.length % cap) (some a)) (written ++ [a]) taken := by
  unfold Holds
  rw [content_concat hle]
  exact Mirrors.set h ⟨by omega, by omega⟩

theorem Holds.take (h : Holds cap slots written taken) (hpos : 0 < cap)
    (hfit : written.length ≤ taken + cap) :
    Holds cap (Function.update slots (taken % cap) none) written (taken + 1) := by
  have hadvance := Mirrors.advance h (show taken + cap - 1 + 1 = taken + cap by omega)
  have hnone : content written taken (taken + cap - 1 + 1) = none := by
    rw [content, if_neg (by omega), List.getElem?_eq_none (by omega)]
  rw [hnone] at hadvance
  intro c hc
  have hc' : taken < c := by
    have := hc.2
    omega
  rw [hadvance c ⟨by have := hc.1; omega, by have := hc.2; omega⟩, content, content,
    if_neg (by omega), if_neg (by omega)]

end Holds

/-- An element that is in its slot though the tail does not count it. -/
def Producer.ahead : Producer α → List α
  | written event _ => [event]
  | idle | loadedTail _ _ | admitted _ _ => []

/-- One if the element at the head has been taken from its slot. -/
def Consumer.ahead : Consumer α → ℕ
  | taken _ _ => 1
  | idle | loadedHead _ _ | occupied _ _ => 0

/-- The producer's local values are right. -/
def Producer.Fits (cap : ℕ) (c : Channel α) : Producer α → Prop
  | idle => True
  | loadedTail _ tail => tail = BitVec.ofNat 64 c.sent.length
  | admitted _ tail | written _ tail =>
      tail = BitVec.ofNat 64 c.sent.length ∧ c.sent.length < c.freed + cap

/-- The consumer's local values are right. -/
def Consumer.Fits (c : Channel α) : Consumer α → Prop
  | idle => True
  | loadedHead _ head => head = BitVec.ofNat 64 c.received
  | occupied _ head => head = BitVec.ofNat 64 c.received ∧ c.received < c.known
  | taken event head => head = BitVec.ofNat 64 c.received ∧ c.received < c.known ∧
      event = c.sent[c.received]?

theorem Consumer.Fits.concat {c : Channel α} {consumer : Consumer α} (h : consumer.Fits c)
    (hknown : c.known ≤ c.sent.length) (event : α) :
    consumer.Fits { c with sent := c.sent ++ [event] } := by
  cases consumer with
  | taken =>
      obtain ⟨hhead, hlt, hevent⟩ := h
      exact ⟨hhead, hlt, by rw [hevent, List.getElem?_append_left (hlt.trans_le hknown)]⟩
  | idle | loadedHead | occupied => exact h

/-- The state of the ring is that of the channel. -/
structure Represents (cap : ℕ) (s : State α) (c : Channel α) : Prop where
  valid : c.Valid cap
  mask : s.mask = BitVec.ofNat 64 (cap - 1)
  tail : Counts s.tail c.sent.length c.known
  head : Counts s.head c.received c.freed
  producer : s.producer.Fits cap c
  consumer : s.consumer.Fits c
  slots : Holds cap s.slots (c.sent ++ s.producer.ahead) (c.received + s.consumer.ahead)

variable {s s' : State α} {c : Channel α} {shown : Option (Answer α)}

theorem represents_new (minCapacity : Word) :
    Represents (capacityFor minCapacity).toNat (State.new minCapacity : State α) .start where
  valid := Channel.valid_start
  mask := by
    have hpos := (capacity_capacityFor minCapacity).pos
    have hle : (1 : Word) ≤ capacityFor minCapacity := hpos
    refine BitVec.eq_of_toNat_eq ?_
    rw [State.new, BitVec.toNat_ofNat, BitVec.toNat_sub_of_le hle, Nat.mod_eq_of_lt]
    · rfl
    · exact (Nat.sub_le _ _).trans_lt (capacityFor minCapacity).isLt
  tail := ⟨rfl, rfl, fun i hi => by rw [Nat.le_zero.mp hi]; rfl⟩
  head := ⟨rfl, rfl, fun i hi => by rw [Nat.le_zero.mp hi]; rfl⟩
  producer := trivial
  consumer := trivial
  slots := holds_start _

namespace Represents

theorem slot (h : Represents cap s c) (hcap : Capacity cap) (n : ℕ) :
    s.slot (BitVec.ofNat 64 n) = n % cap := by
  rw [State.slot, h.mask, toNat_and_mask hcap]

/-- The head's slot, until the element there has been taken. -/
theorem head_slot (h : Represents cap s c) (hcap : Capacity cap) (hknown : c.received < c.known)
    (hahead : s.consumer.ahead = 0) :
    s.slots (s.slot (BitVec.ofNat 64 c.received)) = c.sent[c.received]? := by
  have hpos := hcap.pos
  have hsent := hknown.trans_le h.valid.known
  have hslots := h.slots
  rw [hahead, Nat.add_zero] at hslots
  rw [h.slot hcap, hslots.get le_rfl (by omega), List.getElem?_append_left hsent]

theorem sent_of_lt (h : Represents cap s c) (hknown : c.received < c.known) :
    ∃ event, c.sent[c.received]? = some event :=
  ⟨_, List.getElem?_eq_getElem (hknown.trans_le h.valid.known)⟩

/-- What has been taken is known to have been sent. -/
theorem ahead_le (h : Represents cap s c) : c.received + s.consumer.ahead ≤ c.known := by
  have hreceived := h.valid.received
  have hconsumer := h.consumer
  cases hpc : s.consumer with
  | taken =>
      rw [hpc] at hconsumer
      exact hconsumer.2.1
  | idle | loadedHead | occupied => exact hreceived

/-- There is room for what has been written. -/
theorem written_le (h : Represents cap s c) :
    (c.sent ++ s.producer.ahead).length ≤ c.freed + cap := by
  have hroom := h.valid.room
  have hproducer := h.producer
  cases hpc : s.producer with
  | written =>
      rw [hpc] at hproducer
      rw [Producer.ahead, List.length_append, List.length_singleton]
      exact hproducer.2
  | idle | loadedTail | admitted => rwa [Producer.ahead, List.append_nil]

theorem producer_at (h : Represents cap s c) {producer : Producer α} (hpc : s.producer = producer) :
    producer.Fits cap c ∧ Holds cap s.slots (c.sent ++ producer.ahead)
      (c.received + s.consumer.ahead) :=
  hpc ▸ ⟨h.producer, h.slots⟩

theorem consumer_at (h : Represents cap s c) {consumer : Consumer α} (hpc : s.consumer = consumer) :
    consumer.Fits c ∧ Holds cap s.slots (c.sent ++ s.producer.ahead)
      (c.received + consumer.ahead) :=
  hpc ▸ ⟨h.consumer, h.slots⟩

theorem full_iff (h : Represents cap s c) (hcap : Capacity cap) (hlo : c.freed ≤ i)
    (hhi : i ≤ c.received) :
    s.capacity ≤ BitVec.ofNat 64 c.sent.length - BitVec.ofNat 64 i ↔
      cap ≤ c.sent.length - i := by
  have := h.valid.freed
  have := h.valid.received
  have := h.valid.known
  have := h.valid.room
  have := hcap.lt
  rw [BitVec.le_def, State.capacity, h.mask, toNat_capacity hcap,
    toNat_sub_ofNat (by omega) (by omega)]

end Represents

/-- **One access to memory is a step of the channel, or none that shows.** -/
theorem Step.simulated (hstep : Step s shown s') (hcap : Capacity cap) (h : Represents cap s c) :
    ∃ c', Answers (Channel.Step cap) c shown c' ∧ Represents cap s' c' := by
  obtain ⟨hfreed, hreceived, hknown, hroom⟩ := h.valid
  have hlt := hcap.lt
  cases hstep with
  | loadTail hidle =>
      obtain ⟨-, hslots⟩ := h.producer_at hidle
      exact ⟨c, .inr ⟨rfl, rfl⟩, h.valid, h.mask, h.tail, h.head, h.tail.own, h.consumer, hslots⟩
  | full hpc hload hfull =>
      obtain ⟨hproducer, hslots⟩ := h.producer_at hpc
      obtain ⟨i, hlo, hhi, rfl, hhead⟩ := h.head.acquires hload
      rw [hproducer, h.full_iff hcap hlo hhi] at hfull
      obtain rfl : i = c.freed := by omega
      exact ⟨c, .inl (.full (by omega)), h.valid, h.mask, h.tail, hhead, trivial, h.consumer,
        hslots⟩
  | notFull hpc hload hroom =>
      obtain ⟨hproducer, hslots⟩ := h.producer_at hpc
      obtain ⟨i, hlo, hhi, rfl, hhead⟩ := h.head.acquires hload
      rw [hproducer, h.full_iff hcap hlo hhi] at hroom
      have hlearn : Channel.Step cap c none { c with freed := i } := .learnFreed hlo hhi
      exact ⟨_, .inl hlearn, hlearn.valid h.valid, h.mask, h.tail, hhead,
        ⟨hproducer, by change c.sent.length < i + cap; omega⟩, h.consumer, hslots⟩
  | write hpc =>
      obtain ⟨hproducer, hslots⟩ := h.producer_at hpc
      obtain ⟨rfl, hlt⟩ := hproducer
      rw [Producer.ahead, List.append_nil] at hslots
      have htaken : c.received + s.consumer.ahead ≤ c.sent.length := (h.ahead_le).trans hknown
      have hwritten := hslots.write htaken (by omega) ‹α›
      rw [← h.slot hcap] at hwritten
      exact ⟨c, .inr ⟨rfl, rfl⟩, h.valid, h.mask, h.tail, h.head, ⟨rfl, hlt⟩, h.consumer, hwritten⟩
  | @storeTail event _ hpc =>
      obtain ⟨hproducer, hslots⟩ := h.producer_at hpc
      obtain ⟨rfl, hlt⟩ := hproducer
      have hpush : Channel.Step cap c (some (.pushed event)) { c with sent := c.sent ++ [event] } :=
        .push hlt
      refine ⟨_, .inl hpush, hpush.valid h.valid, h.mask, ?_, h.head, trivial,
        h.consumer.concat hknown event, ?_⟩
      · change Counts _ (c.sent ++ [event]).length c.known
        rw [List.length_append, List.length_singleton]
        exact h.tail.store
      · change Holds cap s.slots (c.sent ++ [event] ++ []) _
        rw [List.append_nil]
        exact hslots
  | loadHead hidle =>
      obtain ⟨-, hslots⟩ := h.consumer_at hidle
      exact ⟨c, .inr ⟨rfl, rfl⟩, h.valid, h.mask, h.tail, h.head, h.producer, h.head.own, hslots⟩
  | empty hpc hload heq =>
      obtain ⟨hconsumer, hslots⟩ := h.consumer_at hpc
      obtain ⟨i, hlo, hhi, rfl, htail⟩ := h.tail.acquires hload
      rw [hconsumer] at heq
      obtain rfl := ofNat_injOn (by omega) (by omega) heq
      obtain hempty : c.known = c.received := le_antisymm hlo hreceived
      rw [← hempty] at htail
      exact ⟨c, .inl (.empty hempty), h.valid, h.mask, htail, h.head, h.producer, trivial, hslots⟩
  | occupied hpc hload hne =>
      obtain ⟨hconsumer, hslots⟩ := h.consumer_at hpc
      obtain ⟨i, hlo, hhi, rfl, htail⟩ := h.tail.acquires hload
      have hlearn : Channel.Step cap c none { c with known := i } := .learnKnown hlo hhi
      have hlt : c.received < i := by
        refine lt_of_le_of_ne (hreceived.trans hlo) ?_
        rintro rfl
        exact hne hconsumer
      exact ⟨_, .inl hlearn, hlearn.valid h.valid, h.mask, htail, h.head, h.producer,
        ⟨hconsumer, hlt⟩, hslots⟩
  | stale hpc _ _ =>
      obtain ⟨hconsumer, hslots⟩ := h.consumer_at hpc
      exact ⟨c, .inr ⟨rfl, rfl⟩, h.valid, h.mask, h.tail, h.head, h.producer, hconsumer, hslots⟩
  | kept hpc _ =>
      obtain ⟨hconsumer, hslots⟩ := h.consumer_at hpc
      obtain ⟨rfl, hlt⟩ := hconsumer
      rw [h.head_slot hcap hlt (by rw [hpc]; rfl)]
      obtain ⟨event, hevent⟩ := h.sent_of_lt hlt
      rw [hevent]
      exact ⟨c, .inl (.kept hlt hevent), h.valid, h.mask, h.tail, h.head, h.producer, trivial,
        hslots⟩
  | take hpc =>
      obtain ⟨hconsumer, hslots⟩ := h.consumer_at hpc
      obtain ⟨rfl, hlt⟩ := hconsumer
      refine ⟨c, .inr ⟨rfl, rfl⟩, h.valid, h.mask, h.tail, h.head, h.producer,
        ⟨rfl, hlt, h.head_slot hcap hlt (by rw [hpc]; rfl)⟩, ?_⟩
      rw [Consumer.ahead, Nat.add_zero] at hslots
      have htaken := hslots.take hcap.pos (h.written_le.trans (by omega))
      rwa [← h.slot hcap] at htaken
  | storeHead hpc =>
      obtain ⟨hconsumer, hslots⟩ := h.consumer_at hpc
      obtain ⟨rfl, hlt, rfl⟩ := hconsumer
      obtain ⟨event, hevent⟩ := h.sent_of_lt hlt
      rw [hevent]
      have hpop : Channel.Step cap c (some (.popped (some event)))
        { c with received := c.received + 1 } := .pop hlt hevent
      exact ⟨_, .inl hpop, hpop.valid h.valid, h.mask, h.tail, h.head.store, h.producer, trivial,
        hslots⟩

variable {trace : List (Answer α)} {minCapacity : Word}

/-- What has been seen of the ring is seen of a channel, in the state that the ring represents. -/
theorem represented (hrun : LabelledRun Step (State.new minCapacity) trace s) :
    ∃ c, LabelledRun (Channel.Step (capacityFor minCapacity).toNat) .start trace c ∧
      Represents (capacityFor minCapacity).toNat s c :=
  hrun.simulated (represents_new minCapacity) fun _ _ _ _ h hstep =>
    hstep.simulated (capacity_capacityFor minCapacity) h

/-- **The ring is a channel of its capacity**: whatever the two threads do and however late they
learn of each other, their calls answer as those of the channel could.  What the pops returned is
what was pushed, in that order, up to an end that is never further behind than the capacity. -/
theorem ring_simulated (hrun : LabelledRun Step (State.new minCapacity) trace s) :
    (∃ c, LabelledRun (Channel.Step (capacityFor minCapacity).toNat) .start trace c) ∧
      pops trace <+: (pushes trace).map some ∧
      (pushes trace).length ≤ (pops trace).length + (capacityFor minCapacity).toNat := by
  obtain ⟨c, hchannel, -⟩ := represented hrun
  obtain ⟨hvalid, hpushes, hpops⟩ := Channel.run_spec hchannel
  refine ⟨⟨c, hchannel⟩, ?_, ?_⟩
  · rw [hpushes, hpops]
    exact (List.take_prefix _ _).map some
  · rw [hpushes, hpops, List.length_map, List.length_take,
      Nat.min_eq_left (hvalid.received.trans hvalid.known)]
    exact hvalid.room.trans (Nat.add_le_add_right hvalid.freed _)

/-- With 7 in a small ring, the one thread is about to push 8, and the other to pop. -/
theorem exists_run_two : ∃ s : State ℕ, LabelledRun Step (State.new 2) [.pushed 7] s ∧
    s.producer = .admitted 8 1 ∧ s.consumer = .occupied .tryPop 0 := by
  have hroom : ∀ w : Word, w < 2 → ¬ capacityFor 2 - 1 + 1 ≤ w := by
    intro w hw hle
    rw [BitVec.sub_add_cancel] at hle
    exact absurd hw (BitVec.not_lt.mpr (BitVec.le_trans (two_le_capacityFor 2) hle))
  have hloaded : LabelledRun Step (State.new 2 : State ℕ) [] _ :=
    LabelledRun.nil.concat (@Step.loadTail _ _ 7 rfl)
  have hwritten : LabelledRun Step (State.new 2 : State ℕ) [] _ :=
    (hloaded.concat (.notFull rfl ⟨0, le_rfl, le_rfl, rfl, rfl⟩ (hroom _ (by decide)))).concat
      (.write rfl)
  have hpush : LabelledRun Step (State.new 2 : State ℕ) [.pushed 7] _ :=
    hwritten.concat (.storeTail rfl)
  have hsecond : LabelledRun Step (State.new 2 : State ℕ) [.pushed 7] _ :=
    (hpush.concat (@Step.loadTail _ _ 8 rfl)).concat
      (.notFull rfl ⟨0, le_rfl, le_rfl, rfl, rfl⟩ (hroom _ (by decide)))
  have hoccupied : LabelledRun Step (State.new 2 : State ℕ) [.pushed 7] _ :=
    (hsecond.concat (@Step.loadHead _ _ .tryPop rfl)).concat
      (.occupied rfl ⟨1, by decide, le_rfl, rfl, rfl⟩ (by decide))
  exact ⟨_, hoccupied, rfl, rfl⟩

theorem ring_simulated_two : ∃ s : State ℕ, LabelledRun Step (State.new 2) [.pushed 7] s ∧
    ∃ c : Channel ℕ, LabelledRun (Channel.Step (capacityFor 2).toNat) .start [.pushed 7] c := by
  obtain ⟨s, hrun, -, -⟩ := exists_run_two
  exact ⟨s, hrun, (ring_simulated hrun).1⟩

end SpscRing

end ClawDesk.Acp
