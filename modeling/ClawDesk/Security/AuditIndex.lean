import ClawDesk.Foundations.PositionIndex
import ClawDesk.Security.Audit

/-!
# The indexes of the audit log

A query goes through an index of absolute positions instead of the ring.  The entry at
absolute position `i` is entry `i - start` of the ring, where `start` is the number of
entries that were dropped.  Logging keeps the positions of each category and of each
type of actor (`Indexed.log`), so a query finds what a scan of the ring finds.
-/

namespace ClawDesk.Security

open Foundations

namespace AuditLogger

/-- Query entries by category using the secondary index. -/
def queryByCategory (logger : AuditLogger) (category : AuditCategory) : List AuditEntry :=
  lookup (logger.totalInserted - logger.entries.length) logger.entries
    (logger.idxCategory category)

/-- Query entries by actor type using the secondary index. -/
def queryByActor (logger : AuditLogger) (actorType : String) : List AuditEntry :=
  lookup (logger.totalInserted - logger.entries.length) logger.entries
    (logger.idxActor actorType)

/-- The ring holds the entries from absolute position `start` on, and the indexes hold
their positions. -/
structure Indexed (logger : AuditLogger) (start : ℕ) : Prop where
  total : logger.totalInserted = start + logger.entries.length
  length_le : logger.entries.length ≤ max 1 logger.maxEntries
  category : ∀ c, logger.idxCategory c = positions (·.category = c) start logger.entries
  actor : ∀ a, logger.idxActor a = positions (·.actor.label = a) start logger.entries

theorem indexed_new (maxEntries : ℕ) : (new maxEntries).Indexed 0 where
  total := rfl
  length_le := Nat.zero_le _
  category _ := rfl
  actor _ := rfl

/-- Pruning the index of a full ring gives the index of the ring without its oldest entry. -/
theorem positions_filter_of_full {logger : AuditLogger} {start : ℕ} {p : AuditEntry → Bool}
    (h : logger.Indexed start) (hfull : logger.maxEntries ≤ logger.entries.length) :
    (positions p start logger.entries).filter
        (logger.totalInserted - logger.maxEntries + 1 ≤ ·) =
      positions p (start + min 1 logger.entries.length) logger.entries.tail := by
  have htotal := h.total
  have hle := h.length_le
  by_cases hmax : logger.maxEntries = 0
  · -- the ring has no place: at most one entry is held, and everything is pruned
    have hbound : logger.totalInserted - logger.maxEntries + 1 =
        start + (logger.entries.length + 1) := by omega
    have htail : logger.entries.tail = [] := by
      apply List.eq_nil_of_length_eq_zero
      rw [List.length_tail]
      omega
    rw [hbound, filter_positions, htail, List.drop_eq_nil_of_le (Nat.le_succ _)]
    rfl
  · have hbound : logger.totalInserted - logger.maxEntries + 1 = start + 1 := by omega
    have hone : min 1 logger.entries.length = 1 := by omega
    rw [hbound, filter_positions, hone, List.drop_one]

/-- **Eviction** moves the start behind the entry that is dropped. -/
theorem Indexed.evict {logger : AuditLogger} {start : ℕ} (h : logger.Indexed start) :
    ∃ start', logger.evict.Indexed start' ∧
      logger.evict.entries.length + 1 ≤ max 1 logger.maxEntries := by
  have htotal := h.total
  have hle := h.length_le
  unfold AuditLogger.evict
  by_cases hfull : logger.maxEntries ≤ logger.entries.length
  · rw [if_pos hfull]
    have hlength : logger.entries.tail.length = logger.entries.length - 1 := List.length_tail
    refine ⟨start + min 1 logger.entries.length, ⟨?_, ?_, fun c => ?_, fun a => ?_⟩, ?_⟩
    · show logger.totalInserted = _ + logger.entries.tail.length
      omega
    · show logger.entries.tail.length ≤ max 1 logger.maxEntries
      omega
    · show (logger.idxCategory c).filter _ = _
      rw [h.category]
      exact positions_filter_of_full h hfull
    · show (logger.idxActor a).filter _ = _
      rw [h.actor]
      exact positions_filter_of_full h hfull
    · show logger.entries.tail.length + 1 ≤ _
      omega
  · rw [if_neg hfull]
    exact ⟨start, h, by omega⟩

/-- **The entry is appended** to the ring and to its two indexes. -/
theorem Indexed.push {logger : AuditLogger} {start : ℕ} (h : logger.Indexed start)
    (hroom : logger.entries.length + 1 ≤ max 1 logger.maxEntries) (entry : AuditEntry) :
    (logger.push entry).Indexed start := by
  have hnext : start + logger.entries.length = logger.totalInserted := h.total.symm
  have hlength : (logger.entries ++ [entry]).length = logger.entries.length + 1 :=
    List.length_append
  refine ⟨?_, ?_, fun c => ?_, fun a => ?_⟩
  · show logger.totalInserted + 1 = start + (logger.entries ++ [entry]).length
    omega
  · show (logger.entries ++ [entry]).length ≤ max 1 logger.maxEntries
    omega
  · show (if c = entry.category then _ else _) = positions _ start (logger.entries ++ [entry])
    rw [positions_concat, hnext, h.category]
    by_cases hc : entry.category = c
    · rw [if_pos hc.symm, if_pos (decide_eq_true hc)]
    · rw [if_neg (Ne.symm hc), if_neg (mt of_decide_eq_true hc), List.append_nil]
  · show (if a = entry.actor.label then _ else _) = positions _ start (logger.entries ++ [entry])
    rw [positions_concat, hnext, h.actor]
    by_cases ha : entry.actor.label = a
    · rw [if_pos ha.symm, if_pos (decide_eq_true ha)]
    · rw [if_neg (Ne.symm ha), if_neg (mt of_decide_eq_true ha), List.append_nil]

section Log

variable {sha256Hex : String → String} {showTime : ℤ → String}

theorem Indexed.log {logger : AuditLogger} {start : ℕ} (h : logger.Indexed start)
    (r : AuditRecord) : ∃ start', (logger.log sha256Hex showTime r).2.Indexed start' := by
  obtain ⟨start', hevict, hroom⟩ := h.evict
  rw [← evict_maxEntries] at hroom
  exact ⟨start', hevict.push hroom _⟩

theorem indexed_logAll (maxEntries : ℕ) (rs : List AuditRecord) :
    ∃ start, ((new maxEntries).logAll sha256Hex showTime rs).Indexed start := by
  induction rs using List.reverseRecOn with
  | nil => exact ⟨0, indexed_new maxEntries⟩
  | append_singleton rs r ih =>
      obtain ⟨start, h⟩ := ih
      rw [logAll_concat]
      exact h.log r

/-- **A query finds what a scan of the ring finds**, through every eviction. -/
theorem query_logAll (maxEntries : ℕ) (rs : List AuditRecord) (category : AuditCategory)
    (actorType : String) :
    ((new maxEntries).logAll sha256Hex showTime rs).queryByCategory category =
        ((new maxEntries).logAll sha256Hex showTime rs).entries.filter
          (·.category = category) ∧
      ((new maxEntries).logAll sha256Hex showTime rs).queryByActor actorType =
        ((new maxEntries).logAll sha256Hex showTime rs).entries.filter
          (·.actor.label = actorType) := by
  obtain ⟨start, h⟩ : ∃ start, ((new maxEntries).logAll sha256Hex showTime rs).Indexed start :=
    indexed_logAll maxEntries rs
  have hstart : ((new maxEntries).logAll sha256Hex showTime rs).totalInserted -
      ((new maxEntries).logAll sha256Hex showTime rs).entries.length = start := by
    rw [h.total, Nat.add_sub_cancel]
  constructor
  · rw [queryByCategory, hstart, h.category]
    exact lookup_positions _ _
  · rw [queryByActor, hstart, h.actor]
    exact lookup_positions _ _

end Log

end AuditLogger

end ClawDesk.Security
