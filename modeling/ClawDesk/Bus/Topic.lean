import ClawDesk.Foundations.Fold
import Mathlib.Algebra.Order.Group.Nat
import Mathlib.Data.List.Sort
import Mathlib.Logic.Function.Basic

/-!
# Topics

A topic is a ring buffer of events, and consumers read it by offset.  A publisher draws the next
offset and inserts its event afterwards, under the lock of the buffer.

As long as the events are inserted in the order of their offsets, the buffer holds consecutive
offsets, and an index into it is an offset less the offset of its oldest event.  Then a consumer
gets every event once, in order, unless the event is evicted before the consumer has reached it
(`lossless_of_inOrder`).  A publisher that is overtaken between its two steps breaks this.

Offsets do not wrap around.
-/

namespace ClawDesk.Bus

open Foundations

/-! ### The topic -/

/-- The core event envelope, as far as a topic reads and writes it. -/
structure Event (α : Type) where
  topic : String
  offset : ℕ
  payload : α
  deriving DecidableEq

/-- A single topic ring buffer. -/
structure Topic (α : Type) where
  name : String
  capacity : ℕ
  buffer : List (Event α)
  writeOffset : ℕ
  cursors : String → Option ℕ
  baseOffset : ℕ

variable {α : Type}

namespace Topic

/-- Create a new topic. -/
def new (name : String) (capacity : ℕ) : Topic α := ⟨name, capacity, [], 0, fun _ => none, 0⟩

/-- `publish`, up to the lock. -/
def takeOffset (topic : Topic α) (event : Event α) : Event α × Topic α :=
  let offset := topic.writeOffset
  ({ event with offset := offset, topic := topic.name },
    { topic with writeOffset := topic.writeOffset + 1 })

/-- `publish`, under the lock. -/
def insert (topic : Topic α) (event : Event α) : Topic α :=
  let topic :=
    if topic.capacity ≤ topic.buffer.length then
      { topic with
        buffer := topic.buffer.tail
        baseOffset := event.offset - (topic.capacity - 1) }
    else topic
  { topic with buffer := topic.buffer ++ [event] }

/-- The position of a consumer; one that has not been registered starts at the beginning. -/
def cursor (topic : Topic α) (consumerId : String) : ℕ := (topic.cursors consumerId).getD 0

/-- Read events from the cursor on. -/
def consume (topic : Topic α) (consumerId : String) (maxCount : ℕ) :
    (List (Event α) × ℕ) × Topic α :=
  let cursor := topic.cursor consumerId
  if topic.writeOffset ≤ cursor ∨ topic.buffer = [] then (([], cursor), topic)
  else
    let base := topic.baseOffset
    let effectiveCursor := max cursor base
    let startIdx := effectiveCursor - base
    let events := (topic.buffer.drop startIdx).take maxCount
    let newCursor := (events.getLast?.map (·.offset + 1)).getD cursor
    ((events, newCursor),
      { topic with cursors := Function.update topic.cursors consumerId (some newCursor) })

end Topic

/-! ### Publishers and a consumer -/

/-- A step of a publisher, or a call of the consumer. -/
inductive TopicStep (α : Type) where
  | take (event : Event α)
  | insert (offset : ℕ)
  | consume (maxCount : ℕ)

/-- The topic and the events that have an offset and are not inserted yet; and what has happened:
which events were inserted, which were evicted before the consumer had reached them, and which the
consumer got. -/
structure TopicState (α : Type) where
  topic : Topic α
  inFlight : List (Event α)
  inserted : List (Event α)
  missed : List (Event α)
  returned : List (Event α)

namespace TopicState

def new (topic : Topic α) : TopicState α := ⟨topic, [], [], [], []⟩

/-- One step. -/
def step (consumer : String) (st : TopicState α) : TopicStep α → TopicState α
  | .take event =>
      let (event, topic) := st.topic.takeOffset event
      { st with topic := topic, inFlight := st.inFlight ++ [event] }
  | .insert offset =>
      match st.inFlight.find? (·.offset = offset) with
      | none => st
      | some event =>
          let evicted :=
            if st.topic.capacity ≤ st.topic.buffer.length then st.topic.buffer.take 1 else []
          { st with
            topic := st.topic.insert event
            inFlight := st.inFlight.filter (·.offset ≠ offset)
            inserted := st.inserted ++ [event]
            missed := st.missed ++ evicted.filter (st.topic.cursor consumer ≤ ·.offset) }
  | .consume maxCount =>
      let ((events, _), topic) := st.topic.consume consumer maxCount
      { st with topic := topic, returned := st.returned ++ events }

/-- Each event is returned once and in order, unless it has not been reached yet or was evicted
before; and when nothing is in flight, the base is the offset of the oldest event. -/
structure Sound (consumer : String) (start : ℕ) (st : TopicState α) : Prop where
  increasing : (st.returned.map (·.offset)).Pairwise (· < ·)
  genuine : ∀ event ∈ st.returned, event ∈ st.inserted
  accounted : ∀ event ∈ st.inserted, start ≤ event.offset →
    event ∈ st.returned ∨ event ∈ st.missed ∨
      event ∈ st.topic.buffer ∧ st.topic.cursor consumer ≤ event.offset
  oldest : st.inFlight = [] → ∀ event, st.topic.buffer.head? = some event →
    st.topic.baseOffset = event.offset

/-- The next events in the buffer that the consumer has not reached. -/
def unread (topic : Topic α) (consumer : String) (maxCount : ℕ) : List (Event α) :=
  (topic.buffer.filter (topic.cursor consumer ≤ ·.offset)).take maxCount

/-- What a step is to do. -/
structure Conforms (consumer : String) (start : ℕ) (st : TopicState α) (input : TopicStep α) :
    Prop where
  sound : Sound consumer start (st.step consumer input)
  next : ∀ maxCount, input = .consume maxCount →
    (st.topic.consume consumer maxCount).1.1 = unread st.topic consumer maxCount
  behind : ∀ event ∈ st.inFlight, input = .insert event.offset → start ≤ event.offset →
    st.topic.cursor consumer ≤ event.offset

/-- An event is inserted before those with later offsets. -/
def InOrder (st : TopicState α) : TopicStep α → Prop
  | .insert offset => ∀ event ∈ st.inFlight, offset ≤ event.offset
  | _ => True

/-! ### Consecutive offsets -/

/-- The offsets count up from `first`. -/
def Consecutive (first : ℕ) (events : List (Event α)) : Prop :=
  events.map (·.offset) = List.range' first events.length

variable {first n c : ℕ} {events : List (Event α)} {event : Event α}

theorem consecutive_nil : Consecutive first ([] : List (Event α)) := rfl

theorem consecutive_cons : Consecutive first (event :: events) ↔
    event.offset = first ∧ Consecutive (first + 1) events := by
  rw [Consecutive, List.map_cons, List.length_cons, List.range'_succ, List.cons.injEq, Consecutive]

theorem Consecutive.concat (h : Consecutive first events)
    (hevent : event.offset = first + events.length) : Consecutive first (events ++ [event]) := by
  rw [Consecutive, List.map_append, h, List.length_append, List.map_singleton, hevent,
    List.length_singleton, List.range'_1_concat]

theorem Consecutive.offset_bounds (h : Consecutive first events) (hmem : event ∈ events) :
    first ≤ event.offset ∧ event.offset < first + events.length := by
  have hoffset := List.mem_map_of_mem (f := (·.offset)) hmem
  rw [h] at hoffset
  exact List.mem_range'_1.mp hoffset

theorem Consecutive.increasing (h : Consecutive first events) :
    (events.map (·.offset)).Pairwise (· < ·) := by
  rw [h]
  exact List.pairwise_lt_range'

theorem Consecutive.drop (h : Consecutive first events) (n : ℕ) :
    Consecutive (first + n) (events.drop n) := by
  rw [Consecutive, List.map_drop, h, List.drop_range', List.length_drop, mul_comm, one_mul]

/-- **What is at an index or behind it has this offset or a later one.** -/
theorem Consecutive.drop_eq_filter (h : Consecutive first events) (c : ℕ) :
    events.drop (max c first - first) = events.filter (c ≤ ·.offset) := by
  induction events generalizing first with
  | nil => simp
  | cons event events ih =>
      obtain ⟨hfirst, hrest⟩ := consecutive_cons.mp h
      rcases Nat.lt_or_ge first c with hlt | hge
      · have hindex : max c first - first = max c (first + 1) - (first + 1) + 1 := by omega
        rw [hindex, List.drop_succ_cons, ih hrest, List.filter_cons_of_neg]
        simpa [hfirst] using hlt
      · have hall : ∀ e ∈ event :: events, decide (c ≤ e.offset) = true := fun e he => by
          have hbound := (h.offset_bounds he).1
          exact decide_eq_true (by omega)
        rw [Nat.max_eq_right hge, Nat.sub_self, List.drop_zero, List.filter_eq_self.mpr hall]

/-! ### The invariant -/

variable {consumer : String} {start : ℕ} {st : TopicState α} {input : TopicStep α}

/-- The buffer holds the last events that were inserted, and those in flight come after them. -/
structure Inv (consumer : String) (start : ℕ) (st : TopicState α) : Prop where
  capacity : 0 < st.topic.capacity
  inserted : Consecutive 0 st.inserted
  inFlight : Consecutive st.inserted.length st.inFlight
  writeOffset : st.topic.writeOffset = st.inserted.length + st.inFlight.length
  buffer : st.topic.buffer = st.inserted.drop (st.inserted.length - st.topic.capacity)
  base : st.topic.baseOffset = st.inserted.length - st.topic.capacity
  behind : st.topic.cursor consumer ≤ max start st.inserted.length
  increasing : (st.returned.map (·.offset)).Pairwise (· < ·)
  returned : ∀ event ∈ st.returned, event ∈ st.inserted ∧ event.offset < st.topic.cursor consumer
  accounted : ∀ event ∈ st.inserted, start ≤ event.offset →
    event ∈ st.returned ∨ event ∈ st.missed ∨
      event ∈ st.topic.buffer ∧ st.topic.cursor consumer ≤ event.offset

theorem inv_new (name : String) {capacity : ℕ} (hcapacity : 0 < capacity)
    (cursors : String → Option ℕ) :
    Inv consumer ((cursors consumer).getD 0)
      (new { (Topic.new name capacity : Topic α) with cursors := cursors }) where
  capacity := hcapacity
  inserted := consecutive_nil
  inFlight := consecutive_nil
  writeOffset := rfl
  buffer := List.drop_nil.symm
  base := (Nat.zero_sub capacity).symm
  behind := le_max_left _ _
  increasing := List.Pairwise.nil
  returned _ h := absurd h List.not_mem_nil
  accounted _ h := absurd h List.not_mem_nil

theorem Inv.consecutive_buffer (h : Inv consumer start st) :
    Consecutive st.topic.baseOffset st.topic.buffer := by
  have hdrop := h.inserted.drop (st.inserted.length - st.topic.capacity)
  rw [zero_add] at hdrop
  rw [h.base, h.buffer]
  exact hdrop

theorem Inv.length_buffer (h : Inv consumer start st) :
    st.topic.buffer.length = min st.inserted.length st.topic.capacity := by
  rw [h.buffer, List.length_drop]
  omega

theorem Inv.sound (h : Inv consumer start st) : Sound consumer start st where
  increasing := h.increasing
  genuine event hevent := (h.returned event hevent).1
  accounted := h.accounted
  oldest := by
    intro _ event hhead
    obtain ⟨rest, hbuffer⟩ := List.head?_eq_some_iff.mp hhead
    have hconsecutive := h.consecutive_buffer
    rw [hbuffer] at hconsecutive
    exact (consecutive_cons.mp hconsecutive).1.symm

theorem Inv.take (h : Inv consumer start st) (event : Event α) :
    Inv consumer start (st.step consumer (.take event)) where
  capacity := h.capacity
  inserted := h.inserted
  inFlight := h.inFlight.concat h.writeOffset
  writeOffset := by
    show st.topic.writeOffset + 1 = _
    rw [h.writeOffset]
    simp [step, Nat.add_assoc]
  buffer := h.buffer
  base := h.base
  behind := h.behind
  increasing := h.increasing
  returned := h.returned
  accounted := h.accounted

/-! ### Insertions in order -/

/-- The first event in flight is inserted. -/
theorem Inv.find?_inFlight (h : Inv consumer start st) {offset : ℕ}
    (horder : InOrder st (.insert offset))
    (hfind : st.inFlight.find? (·.offset = offset) = some event) :
    ∃ rest, st.inFlight = event :: rest ∧ event.offset = offset ∧
      st.inFlight.filter (·.offset ≠ offset) = rest := by
  have hconsecutive := h.inFlight
  have hmem := List.mem_of_find?_eq_some hfind
  have hoffset : event.offset = offset := by simpa using List.find?_some hfind
  have hbound := (hconsecutive.offset_bounds hmem).1
  change ∀ event ∈ st.inFlight, offset ≤ event.offset at horder
  cases hinFlight : st.inFlight with
  | nil =>
      rw [hinFlight] at hmem
      exact absurd hmem List.not_mem_nil
  | cons oldest rest =>
      rw [hinFlight] at hconsecutive hfind horder
      obtain ⟨holdest, hrest⟩ := consecutive_cons.mp hconsecutive
      have hle := horder oldest List.mem_cons_self
      have hfirst : oldest.offset = offset := by omega
      rw [List.find?_cons_of_pos (by simpa using hfirst)] at hfind
      obtain rfl := Option.some.inj hfind
      refine ⟨rest, rfl, hfirst, ?_⟩
      rw [List.filter_cons_of_neg (by simpa using hfirst), List.filter_eq_self]
      intro other hother
      have hlater := (hrest.offset_bounds hother).1
      exact decide_eq_true (by omega)

theorem cursor_insert (topic : Topic α) (event : Event α) :
    (topic.insert event).cursor consumer = topic.cursor consumer := by
  rw [Topic.insert]
  split_ifs <;> rfl

theorem buffer_insert (topic : Topic α) (event : Event α) : (topic.insert event).buffer =
    (if topic.capacity ≤ topic.buffer.length then topic.buffer.tail else topic.buffer) ++
      [event] := by
  rw [Topic.insert]
  split_ifs <;> rfl

theorem baseOffset_insert (topic : Topic α) (event : Event α) : (topic.insert event).baseOffset =
    if topic.capacity ≤ topic.buffer.length then event.offset - (topic.capacity - 1)
    else topic.baseOffset := by
  rw [Topic.insert]
  split_ifs <;> rfl

theorem capacity_insert (topic : Topic α) (event : Event α) :
    (topic.insert event).capacity = topic.capacity ∧
      (topic.insert event).writeOffset = topic.writeOffset := by
  rw [Topic.insert]
  split_ifs <;> exact ⟨rfl, rfl⟩

/-- The buffer after an insertion. -/
theorem Inv.buffer_insert (h : Inv consumer start st) (event : Event α) :
    (st.topic.insert event).buffer =
      (st.inserted ++ [event]).drop (st.inserted.length + 1 - st.topic.capacity) := by
  have hcapacity := h.capacity
  rw [TopicState.buffer_insert, h.length_buffer, h.buffer, List.drop_append_of_le_length (by omega)]
  split_ifs with hfull
  · have hindex : st.inserted.length + 1 - st.topic.capacity =
        st.inserted.length - st.topic.capacity + 1 := by omega
    rw [List.tail_drop, hindex]
  · have hindex : st.inserted.length + 1 - st.topic.capacity =
        st.inserted.length - st.topic.capacity := by omega
    rw [hindex]

theorem Inv.baseOffset_insert (h : Inv consumer start st)
    (hoffset : event.offset = st.inserted.length) :
    (st.topic.insert event).baseOffset = st.inserted.length + 1 - st.topic.capacity := by
  have hcapacity := h.capacity
  rw [TopicState.baseOffset_insert, h.length_buffer, h.base, hoffset]
  split_ifs <;> omega

/-- What was in the buffer is in it, or it was evicted; and then the consumer had reached it or
it is missed. -/
theorem mem_buffer_insert (topic : Topic α) (event : Event α) {old : Event α}
    (hold : old ∈ topic.buffer) (hcursor : topic.cursor consumer ≤ old.offset) :
    old ∈ (topic.insert event).buffer ∨
      old ∈ (if topic.capacity ≤ topic.buffer.length then topic.buffer.take 1 else []).filter
        (topic.cursor consumer ≤ ·.offset) := by
  rw [TopicState.buffer_insert]
  split_ifs
  · cases hbuffer : topic.buffer with
    | nil =>
        rw [hbuffer] at hold
        exact absurd hold List.not_mem_nil
    | cons oldest rest =>
        rw [hbuffer] at hold
        rcases List.mem_cons.mp hold with rfl | hrest
        · exact .inr (List.mem_filter.mpr ⟨by simp, decide_eq_true hcursor⟩)
        · exact .inl (List.mem_append_left _ hrest)
  · exact .inl (List.mem_append_left _ hold)

theorem Inv.insert (h : Inv consumer start st) {offset : ℕ} (horder : InOrder st (.insert offset)) :
    Inv consumer start (st.step consumer (.insert offset)) := by
  rw [step]
  cases hfind : st.inFlight.find? (·.offset = offset) with
  | none => exact h
  | some event =>
      obtain ⟨rest, hinFlight, rfl, hrest⟩ := h.find?_inFlight horder hfind
      have hconsecutive := h.inFlight
      rw [hinFlight] at hconsecutive
      obtain ⟨hoffset, hlater⟩ := consecutive_cons.mp hconsecutive
      -- the event is the next one, so the buffer stays the end of what was inserted
      have hlength : (st.inserted ++ [event]).length = st.inserted.length + 1 := by simp
      obtain ⟨hcapacity, hwrite⟩ := capacity_insert st.topic event
      refine ⟨hcapacity ▸ h.capacity, h.inserted.concat (by omega), ?_, ?_, ?_, ?_, ?_,
        h.increasing, fun old hold => ?_, fun old hold hstart => ?_⟩
      · dsimp only
        rw [hrest, hlength]
        exact hlater
      · dsimp only
        rw [hwrite, h.writeOffset, hrest, hlength, hinFlight, List.length_cons]
        omega
      · dsimp only
        rw [h.buffer_insert, hcapacity, hlength]
      · dsimp only
        rw [h.baseOffset_insert hoffset, hcapacity, hlength]
      · have hbehind := h.behind
        dsimp only
        rw [cursor_insert, hlength]
        omega
      · dsimp only
        rw [cursor_insert]
        obtain ⟨hmem, hlt⟩ := h.returned old hold
        exact ⟨List.mem_append_left _ hmem, hlt⟩
      · dsimp only
        rw [cursor_insert]
        rcases List.mem_append.mp hold with hmem | hnew
        · rcases h.accounted old hmem hstart with hreturned | hmissed | ⟨hbuffer, hcursor⟩
          · exact .inl hreturned
          · exact .inr (.inl (List.mem_append_left _ hmissed))
          · rcases mem_buffer_insert st.topic event hbuffer hcursor with hkept | hevicted
            · exact .inr (.inr ⟨hkept, hcursor⟩)
            · exact .inr (.inl (List.mem_append_right _ hevicted))
        · obtain rfl := List.mem_singleton.mp hnew
          have hbehind := h.behind
          refine .inr (.inr ⟨?_, by omega⟩)
          rw [TopicState.buffer_insert]
          exact List.mem_append_right _ (List.mem_singleton_self _)

/-! ### Consumption -/

/-- The position behind the events, or the old one if there are none. -/
def afterLast (cursor : ℕ) (events : List (Event α)) : ℕ :=
  (events.getLast?.map (·.offset + 1)).getD cursor

/-- **A call of the consumer gets the next events that it has not reached**, and goes behind
them. -/
theorem Inv.consume_eq (h : Inv consumer start st) (maxCount : ℕ) :
    ∃ cursors, (cursors consumer).getD 0 =
        afterLast (st.topic.cursor consumer) (unread st.topic consumer maxCount) ∧
      st.topic.consume consumer maxCount =
        ((unread st.topic consumer maxCount,
          afterLast (st.topic.cursor consumer) (unread st.topic consumer maxCount)),
          { st.topic with cursors := cursors }) := by
  rw [Topic.consume]
  split_ifs with hnothing
  · have hnone : unread st.topic consumer maxCount = [] := by
      refine List.take_eq_nil_iff.mpr (.inr (List.filter_eq_nil_iff.mpr fun event hevent => ?_))
      have hbound := (h.consecutive_buffer.offset_bounds hevent).2
      have hwrite := h.writeOffset
      rw [h.length_buffer, h.base] at hbound
      rcases hnothing with hend | hempty
      · simpa using (by omega : event.offset < st.topic.cursor consumer)
      · rw [hempty] at hevent
        exact absurd hevent List.not_mem_nil
    rw [hnone]
    exact ⟨st.topic.cursors, rfl, rfl⟩
  · have hevents : (st.topic.buffer.drop (max (st.topic.cursor consumer) st.topic.baseOffset -
        st.topic.baseOffset)).take maxCount = unread st.topic consumer maxCount := by
      rw [h.consecutive_buffer.drop_eq_filter, unread]
    refine ⟨Function.update st.topic.cursors consumer
      (some (afterLast (st.topic.cursor consumer) (unread st.topic consumer maxCount))), ?_, ?_⟩
    · rw [Function.update_self]
      rfl
    · dsimp only
      rw [hevents]
      rfl

/-- The events that are read come before the new position, and those that are left do not. -/
theorem afterLast_bounds {l : List (Event α)} (hsorted : (l.map (·.offset)).Pairwise (· < ·))
    (hcursor : ∀ event ∈ l, c ≤ event.offset) (n : ℕ) :
    (∀ event ∈ l.take n, event.offset < afterLast c (l.take n)) ∧
      (∀ event ∈ l.drop n, afterLast c (l.take n) ≤ event.offset) ∧
      c ≤ afterLast c (l.take n) ∧
      (afterLast c (l.take n) = c ∨ ∃ last ∈ l, afterLast c (l.take n) = last.offset + 1) := by
  rcases List.eq_nil_or_concat (l.take n) with hnil | ⟨init, last, hconcat⟩
  · rw [hnil]
    refine ⟨fun _ h => absurd h List.not_mem_nil, fun event hevent => ?_, le_refl c, .inl rfl⟩
    exact hcursor event (List.mem_of_mem_drop hevent)
  · rw [List.concat_eq_append] at hconcat
    have hafter : afterLast c (l.take n) = last.offset + 1 := by
      rw [hconcat, afterLast, List.getLast?_concat]
      rfl
    have hlast : last ∈ l := by
      refine List.mem_of_mem_take (i := n) ?_
      rw [hconcat]
      exact List.mem_append_right _ (List.mem_singleton_self last)
    rw [← List.take_append_drop n l, hconcat, List.map_append, List.map_append,
      List.pairwise_append, List.pairwise_append] at hsorted
    obtain ⟨⟨-, -, hinit⟩, -, hrest⟩ := hsorted
    rw [hafter, hconcat]
    refine ⟨fun event hevent => ?_, fun event hevent => ?_, ?_, .inr ⟨last, hlast, rfl⟩⟩
    · rcases List.mem_append.mp hevent with hmem | hmem
      · have hlt := hinit _ (List.mem_map_of_mem hmem) last.offset (by simp)
        omega
      · rw [List.mem_singleton.mp hmem]
        exact Nat.lt_succ_self _
    · have hlt := hrest last.offset (by simp) _ (List.mem_map_of_mem hevent)
      omega
    · have hle := hcursor last hlast
      omega

theorem Inv.consume (h : Inv consumer start st) (maxCount : ℕ) :
    Inv consumer start (st.step consumer (.consume maxCount)) := by
  obtain ⟨cursors, hcursors, heq⟩ := h.consume_eq maxCount
  have hsorted : ((st.topic.buffer.filter (st.topic.cursor consumer ≤ ·.offset)).map
      (·.offset)).Pairwise (· < ·) :=
    h.consecutive_buffer.increasing.sublist (List.filter_sublist.map _)
  obtain ⟨hread, hleft, hforward, hend⟩ := afterLast_bounds hsorted
    (fun event hevent => by simpa using (List.mem_filter.mp hevent).2) maxCount
  have hbuffered : ∀ event ∈ st.topic.buffer, event ∈ st.inserted := fun event hevent => by
    rw [h.buffer] at hevent
    exact List.mem_of_mem_drop hevent
  have hcursor : ({ st.topic with cursors := cursors } : Topic α).cursor consumer =
      afterLast (st.topic.cursor consumer) (unread st.topic consumer maxCount) := hcursors
  -- only the cursor and what was returned are other than before
  rw [step, heq]
  refine ⟨h.capacity, h.inserted, h.inFlight, h.writeOffset, h.buffer, h.base, ?_, ?_,
    fun event hevent => ?_, fun event hevent hstart => ?_⟩
  · dsimp only
    rw [hcursor, unread]
    have hbehind := h.behind
    rcases hend with hsame | ⟨last, hlast, hnext⟩
    · omega
    · have hbound := h.inserted.offset_bounds (hbuffered last (List.mem_of_mem_filter hlast))
      omega
  · dsimp only
    rw [List.map_append, List.pairwise_append]
    refine ⟨h.increasing, ?_, ?_⟩
    · rw [unread, List.map_take]
      exact hsorted.sublist (List.take_sublist _ _)
    · intro o ho o' ho'
      obtain ⟨old, hold, rfl⟩ := List.mem_map.mp ho
      obtain ⟨new, hnew, rfl⟩ := List.mem_map.mp ho'
      have hlt := (h.returned old hold).2
      have hge := (List.mem_filter.mp (List.mem_of_mem_take hnew)).2
      exact lt_of_lt_of_le hlt (of_decide_eq_true hge)
  · dsimp only
    rw [hcursor, unread]
    rcases List.mem_append.mp hevent with hold | hnew
    · obtain ⟨hmem, hlt⟩ := h.returned event hold
      exact ⟨hmem, lt_of_lt_of_le hlt hforward⟩
    · exact ⟨hbuffered event (List.mem_of_mem_filter (List.mem_of_mem_take hnew)),
        hread event hnew⟩
  · dsimp only
    rw [hcursor]
    rcases h.accounted event hevent hstart with hreturned | hmissed | ⟨hbuffer, hreach⟩
    · exact .inl (List.mem_append_left _ hreturned)
    · exact .inr (.inl hmissed)
    · have hunread : event ∈ st.topic.buffer.filter (st.topic.cursor consumer ≤ ·.offset) :=
        List.mem_filter.mpr ⟨hbuffer, decide_eq_true hreach⟩
      rw [← List.take_append_drop maxCount (st.topic.buffer.filter _)] at hunread
      rcases List.mem_append.mp hunread with htaken | hrest
      · exact .inl (List.mem_append_right _ htaken)
      · exact .inr (.inr ⟨hbuffer, hleft event hrest⟩)

/-! ### Every run -/

/-- A step in order keeps the invariant. -/
theorem Inv.step (h : Inv consumer start st) (horder : InOrder st input) :
    Inv consumer start (st.step consumer input) := by
  cases input with
  | take event => exact h.take event
  | insert offset => exact h.insert horder
  | consume maxCount => exact h.consume maxCount

theorem Inv.conforms (h : Inv consumer start st) (horder : InOrder st input) :
    Conforms consumer start st input where
  sound := (h.step horder).sound
  next := by
    rintro maxCount rfl
    obtain ⟨cursors, -, heq⟩ := h.consume_eq maxCount
    rw [heq]
  behind := by
    intro event hevent _ hstart
    have hbound := (h.inFlight.offset_bounds hevent).1
    have hbehind := h.behind
    omega

/-- **Nothing is lost and nothing comes twice, as long as events are inserted in the order of
their offsets.**  Any number of publishers on a new topic, one consumer that starts anywhere, and
any interleaving of their steps. -/
theorem lossless_of_inOrder (name : String) {capacity : ℕ} (hcapacity : 0 < capacity)
    (cursors : String → Option ℕ) {inputs : List (TopicStep α)}
    (horder : EachStep (step consumer)
      (new { (Topic.new name capacity : Topic α) with cursors := cursors }) inputs InOrder) :
    EachStep (step consumer) (new { (Topic.new name capacity : Topic α) with cursors := cursors })
      inputs (Conforms consumer ((cursors consumer).getD 0)) :=
  horder.imp (inv_new name hcapacity cursors) (fun _ _ h => h.step) fun _ _ h => h.conforms

/-- An event before it is published. -/
def draft (text : String) : Event String := ⟨"", 0, text⟩

/-- A topic with room for four events, and no consumer registered. -/
def metrics : TopicState String := new (Topic.new "social.metrics" 4)

theorem lossless_of_inOrder_two : EachStep (step "c") metrics
    [.take (draft "a"), .take (draft "b"), .insert 0, .consume 10, .insert 1, .consume 10]
    (Conforms "c" 0) := by
  refine lossless_of_inOrder "social.metrics" (by omega) (fun _ => none) ?_
  refine eachStep_cons.mpr ⟨trivial, eachStep_cons.mpr ⟨trivial, eachStep_cons.mpr ⟨?_,
    eachStep_cons.mpr ⟨trivial, eachStep_cons.mpr ⟨?_,
      eachStep_cons.mpr ⟨trivial, eachStep_nil⟩⟩⟩⟩⟩⟩
  · exact fun _ _ => Nat.zero_le _
  · intro event hevent
    obtain rfl := List.mem_singleton.mp (show event ∈ [⟨"social.metrics", 1, "b"⟩] from hevent)
    exact le_refl _

/-- **An event is lost** when the publisher that has drawn the first offset is overtaken: the
consumer has gone past it when it is inserted. -/
theorem overtaken_lost : ¬ EachStep (step "c") metrics
    [.take (draft "a"), .take (draft "b"), .insert 1, .consume 10, .insert 0]
    (Conforms "c" 0) := by
  intro h
  have hlast := (h [.take (draft "a"), .take (draft "b"), .insert 1, .consume 10] (.insert 0) []
    rfl).sound
  have hinserted := hlast.accounted ⟨"social.metrics", 0, "a"⟩ (by decide) (Nat.zero_le _)
  revert hinserted
  decide

end TopicState

end ClawDesk.Bus
