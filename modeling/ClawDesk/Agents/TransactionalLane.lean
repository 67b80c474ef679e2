import Mathlib.Data.List.Induction
import Mathlib.Logic.Function.Basic

/-!
# The transactional session lane

A guard buffers the writes and deletes of one session until they are committed.
The two kinds go to two buffers, and a commit replays all writes before all
deletes.  So a commit agrees with the calls in the order they were made exactly
when no key is written after its last delete (`commit_programOrder_iff`).

A commit takes the operations out of the buffers before the writer has accepted
them, so a commit that fails has lost some, and a second one succeeds without them
(`commit_restartable_iff`).
-/

namespace ClawDesk.Agents

abbrev Bytes := List UInt8

/-- Errors from transactional lane operations. -/
inductive TransactionalLaneError where
  | watchdogTimeout (sessionId : String)
  | commitFailed (detail : String)
  | lockConflict (sessionId holder : String)
  deriving DecidableEq

/-- A write operation buffered in the transactional lane. -/
inductive WriteOp where
  | put (key value : Bytes)
  | delete (key : Bytes)
  deriving DecidableEq

/-- Summary of a committed transaction. -/
structure CommitSummary where
  puts : ℕ
  deletes : ℕ
  deriving DecidableEq

/-- A session lane guard, less the mutex it holds. -/
structure TransactionalLaneGuard where
  sessionId : String
  writeBuffer : List (Bytes × Bytes)
  deleteBuffer : List Bytes
  committed : Bool

namespace TransactionalLaneGuard

def new (sessionId : String) : TransactionalLaneGuard where
  sessionId := sessionId
  writeBuffer := []
  deleteBuffer := []
  committed := false

/-- Buffer a write operation. -/
def write (guard : TransactionalLaneGuard) (key value : Bytes) : TransactionalLaneGuard :=
  { guard with writeBuffer := guard.writeBuffer ++ [(key, value)] }

/-- Buffer a delete operation. -/
def delete (guard : TransactionalLaneGuard) (key : Bytes) : TransactionalLaneGuard :=
  { guard with deleteBuffer := guard.deleteBuffer ++ [key] }

/-- The buffers, taken out. -/
def drained (guard : TransactionalLaneGuard) : TransactionalLaneGuard :=
  { guard with
    writeBuffer := []
    deleteBuffer := [] }

def puts (guard : TransactionalLaneGuard) : List WriteOp :=
  guard.writeBuffer.map fun kv => .put kv.1 kv.2

def deletes (guard : TransactionalLaneGuard) : List WriteOp := guard.deleteBuffer.map .delete

/-- Discard all buffered operations. -/
def rollback (guard : TransactionalLaneGuard) : TransactionalLaneGuard :=
  { guard.drained with committed := true }

variable {σ ε : Type}

/-- Hand the operations to the writer one by one, up to the first error. -/
def feed (writer : WriteOp → σ → Except ε Unit × σ) : List WriteOp → σ → Except ε Unit × σ
  | [], s => (.ok (), s)
  | op :: ops, s =>
      match writer op s with
      | (.ok _, s) => feed writer ops s
      | (.error e, s) => (.error e, s)

/-- Commit all buffered operations via the provided write function.  A buffer that
is being drained is empty afterwards, also when the writer fails. -/
def commitWith (guard : TransactionalLaneGuard) (writer : WriteOp → σ → Except ε Unit × σ)
    (s : σ) : Except ε CommitSummary × TransactionalLaneGuard × σ :=
  match feed writer guard.puts s with
  | (.error e, s) => (.error e, { guard with writeBuffer := [] }, s)
  | (.ok _, s) =>
      match feed writer guard.deletes s with
      | (.error e, s) => (.error e, guard.drained, s)
      | (.ok _, s) =>
          (.ok
            { puts := guard.writeBuffer.length
              deletes := guard.deleteBuffer.length },
            { guard.drained with committed := true }, s)

/-- Commit all buffered operations via a batch writer. -/
def commitBatch (guard : TransactionalLaneGuard)
    (batchWriter : List WriteOp → σ → Except ε Unit × σ) (s : σ) :
    Except ε CommitSummary × TransactionalLaneGuard × σ :=
  match batchWriter (guard.puts ++ guard.deletes) s with
  | (.error e, s) => (.error e, guard.drained, s)
  | (.ok _, s) =>
      (.ok
        { puts := guard.writeBuffer.length
          deletes := guard.deleteBuffer.length },
        { guard.drained with committed := true }, s)

/-- The buffering call an operation stands for. -/
def buffer (guard : TransactionalLaneGuard) : WriteOp → TransactionalLaneGuard
  | .put key value => guard.write key value
  | .delete key => guard.delete key

/-- A guard on which the calls have been made in this order. -/
def buffered (sessionId : String) (ops : List WriteOp) : TransactionalLaneGuard :=
  ops.foldl buffer (new sessionId)

end TransactionalLaneGuard

/-! ### What the operations do to a store -/

/-- A key-value store. -/
abbrev KvStore := Bytes → Option Bytes

namespace WriteOp

def key : WriteOp → Bytes
  | put key _ => key
  | delete key => key

/-- What is stored under the key afterwards. -/
def value : WriteOp → Option Bytes
  | put _ value => some value
  | delete _ => none

def isDelete : WriteOp → Bool
  | put _ _ => false
  | delete _ => true

def apply (op : WriteOp) (store : KvStore) : KvStore := Function.update store op.key op.value

/-- The operations one by one. -/
def applyAll (ops : List WriteOp) (store : KvStore) : KvStore :=
  ops.foldl (fun store op => op.apply store) store

/-- A writer that always succeeds. -/
def storing {ε : Type} (op : WriteOp) (store : KvStore) : Except ε Unit × KvStore :=
  (.ok (), op.apply store)

def storingAll {ε : Type} (ops : List WriteOp) (store : KvStore) : Except ε Unit × KvStore :=
  (.ok (), applyAll ops store)

/-- The last operation on a key. -/
def lastOn (key : Bytes) (ops : List WriteOp) : Option WriteOp :=
  (ops.filter fun op => op.key = key).getLast?

/-- The last operation on every key that is deleted is a delete. -/
def NotRevived (ops : List WriteOp) : Prop :=
  ∀ key, .delete key ∈ ops → lastOn key ops = some (.delete key)

theorem applyAll_append (ops ops' : List WriteOp) (store : KvStore) :
    applyAll (ops ++ ops') store = applyAll ops' (applyAll ops store) :=
  List.foldl_append

theorem lastOn_append (key : Bytes) (ops ops' : List WriteOp) :
    lastOn key (ops ++ ops') = (lastOn key ops').or (lastOn key ops) := by
  rw [lastOn, List.filter_append, List.getLast?_append]
  rfl

/-- **The last operation on a key wins.** -/
theorem applyAll_eq (ops : List WriteOp) (store : KvStore) (key : Bytes) :
    applyAll ops store key = (lastOn key ops).elim (store key) value := by
  induction ops using List.reverseRecOn with
  | nil => rfl
  | append_singleton ops op ih =>
      rw [applyAll_append, lastOn_append]
      show Function.update (applyAll ops store) op.key op.value key = _
      by_cases h : op.key = key
      · subst h
        simp [lastOn]
      · rw [Function.update_of_ne (Ne.symm h), ih]
        simp [lastOn, h]

theorem lastOn_mem {key : Bytes} {ops : List WriteOp} {op : WriteOp}
    (h : lastOn key ops = some op) : op ∈ ops ∧ op.key = key := by
  simpa using List.mem_of_getLast? h

theorem exists_lastOn {ops : List WriteOp} {op : WriteOp} (h : op ∈ ops) :
    ∃ last, lastOn op.key ops = some last := by
  rw [← Option.isSome_iff_exists, lastOn, List.getLast?_isSome]
  exact List.ne_nil_of_mem (List.mem_filter.mpr ⟨h, by simp⟩)

theorem eq_delete_of_isDelete {op : WriteOp} (h : op.isDelete = true) : op = .delete op.key := by
  cases op with
  | put key value => simp [isDelete] at h
  | delete key => rfl

theorem value_eq_none_iff (op : WriteOp) : op.value = none ↔ op.isDelete = true := by
  cases op <;> simp [value, isDelete]

/-- Writes first, deletes after: a delete wins over every write of its key. -/
theorem lastOn_grouped (key : Bytes) (ops : List WriteOp) :
    lastOn key ((ops.filter fun op => !op.isDelete) ++ ops.filter fun op => op.isDelete) =
      if .delete key ∈ ops then some (.delete key) else lastOn key ops := by
  rw [lastOn_append]
  split_ifs with hmem
  · have hdelete : (.delete key : WriteOp) ∈ ops.filter fun op => op.isDelete :=
      List.mem_filter.mpr ⟨hmem, rfl⟩
    obtain ⟨last, hlast⟩ := exists_lastOn hdelete
    have hlast' : lastOn key (ops.filter fun op => op.isDelete) = some last := hlast
    obtain ⟨hlastmem, hkey⟩ := lastOn_mem hlast'
    have heq := eq_delete_of_isDelete (List.mem_filter.mp hlastmem).2
    rw [hlast', Option.some_or, heq, hkey]
  · have hnone : lastOn key (ops.filter fun op => op.isDelete) = none := by
      rw [lastOn, List.getLast?_eq_none_iff, List.filter_eq_nil_iff]
      intro op hop hkey
      obtain ⟨hop, hdelete⟩ := List.mem_filter.mp hop
      rw [eq_delete_of_isDelete hdelete, of_decide_eq_true hkey] at hop
      exact hmem hop
    rw [hnone, Option.none_or, lastOn, lastOn, List.filter_filter]
    congr 1
    refine List.filter_congr fun op hop => ?_
    by_cases hkey : op.key = key
    · have hput : op.isDelete = false := by
        by_contra hdelete
        rw [Bool.not_eq_false] at hdelete
        rw [eq_delete_of_isDelete hdelete, hkey] at hop
        exact hmem hop
      simp [hkey, hput]
    · simp [hkey]

/-- **Grouping is harmless exactly when no deleted key is written again.** -/
theorem applyAll_grouped_iff (ops : List WriteOp) (store : KvStore) :
    applyAll ((ops.filter fun op => !op.isDelete) ++ ops.filter fun op => op.isDelete) store =
      applyAll ops store ↔ NotRevived ops := by
  rw [funext_iff]
  refine forall_congr' fun key => ?_
  rw [applyAll_eq, applyAll_eq, lastOn_grouped]
  split_ifs with hmem
  · obtain ⟨last, hlast⟩ := exists_lastOn hmem
    have hlast' : lastOn key ops = some last := hlast
    rw [hlast', Option.elim_some, Option.elim_some]
    constructor
    · intro h _
      have hdelete := eq_delete_of_isDelete ((value_eq_none_iff last).mp h.symm)
      rw [hdelete, (lastOn_mem hlast').2]
    · intro h
      obtain rfl : last = .delete key := Option.some.inj (h hmem)
      rfl
  · exact ⟨fun _ h => absurd h hmem, fun _ => rfl⟩

end WriteOp

namespace TransactionalLaneGuard

open WriteOp

/-- What the buffers hold after a sequence of calls. -/
theorem puts_buffered (sessionId : String) (ops : List WriteOp) :
    (buffered sessionId ops).puts = ops.filter (fun op => !op.isDelete) ∧
      (buffered sessionId ops).deletes = ops.filter (fun op => op.isDelete) := by
  induction ops using List.reverseRecOn with
  | nil => exact ⟨rfl, rfl⟩
  | append_singleton ops op ih =>
      rw [buffered, List.foldl_append, ← buffered, List.filter_append, List.filter_append,
        ← ih.1, ← ih.2]
      cases op <;> simp [buffer, write, delete, puts, deletes, isDelete]

theorem feed_storing {ε : Type} (ops : List WriteOp) (store : KvStore) :
    feed (@storing ε) ops store = (.ok (), applyAll ops store) := by
  induction ops generalizing store with
  | nil => rfl
  | cons op ops ih => exact ih _

theorem commitWith_storing {ε : Type} (guard : TransactionalLaneGuard) (store : KvStore) :
    (guard.commitWith (@storing ε) store).2.2 =
      applyAll (guard.puts ++ guard.deletes) store := by
  rw [commitWith, feed_storing, applyAll_append]
  simp only [feed_storing]

theorem commitBatch_storing {ε : Type} (guard : TransactionalLaneGuard) (store : KvStore) :
    (guard.commitBatch (@storingAll ε) store).2.2 =
      applyAll (guard.puts ++ guard.deletes) store := rfl

/-- **A commit leaves the store as the calls one by one would have left it, exactly
when no key is written after its last delete.** -/
theorem commit_programOrder_iff {ε : Type} (sessionId : String) (ops : List WriteOp)
    (store : KvStore) :
    (((buffered sessionId ops).commitWith (@storing ε) store).2.2 = applyAll ops store ↔
      NotRevived ops) ∧
    (((buffered sessionId ops).commitBatch (@storingAll ε) store).2.2 = applyAll ops store ↔
      NotRevived ops) := by
  rw [commitWith_storing, commitBatch_storing, (puts_buffered sessionId ops).1,
    (puts_buffered sessionId ops).2]
  exact ⟨applyAll_grouped_iff ops store, applyAll_grouped_iff ops store⟩

/-- **A key that is deleted and then written is gone after the commit.** -/
theorem write_lost : ∃ ops : List WriteOp,
    ((buffered "s" ops).commitWith (@storing Unit) fun _ => none).2.2 ≠
        applyAll ops (fun _ => none) ∧
      ((buffered "s" ops).commitBatch (@storingAll Unit) fun _ => none).2.2 ≠
        applyAll ops (fun _ => none) := by
  refine ⟨[.delete [107], .put [107] [118]], fun h => ?_, fun h => ?_⟩
  · exact absurd (congrFun h [107]) (by decide)
  · exact absurd (congrFun h [107]) (by decide)

/-! ### Commits that fail -/

/-- Number of pending operations. -/
def pendingCount (guard : TransactionalLaneGuard) : ℕ :=
  guard.writeBuffer.length + guard.deleteBuffer.length

/-- The writer accepts the operations one after the other. -/
def Accepts (writer : WriteOp → σ → Except ε Unit × σ) : List WriteOp → σ → Prop
  | [], _ => True
  | op :: ops, s =>
      match writer op s with
      | (.ok _, s) => Accepts writer ops s
      | (.error _, _) => False

/-- After a commit that returns an error the guard is as it was, so that committing
it again stores every buffered operation. -/
structure Restartable (guard : TransactionalLaneGuard)
    (outcome : Except ε CommitSummary × TransactionalLaneGuard × σ) : Prop where
  unchanged : ∀ e, outcome.1 = .error e → outcome.2.1 = guard
  again : ∀ e, outcome.1 = .error e → ∀ store,
    (outcome.2.1.commitWith (@storing ε) store).2.2 =
      applyAll (guard.puts ++ guard.deletes) store

theorem Restartable.of_unchanged {guard : TransactionalLaneGuard}
    {outcome : Except ε CommitSummary × TransactionalLaneGuard × σ}
    (h : ∀ e, outcome.1 = .error e → outcome.2.1 = guard) : Restartable guard outcome where
  unchanged := h
  again e he store := by rw [h e he, commitWith_storing]

/-- Feeding fails exactly if some operation is not accepted. -/
theorem accepts_iff_feed (writer : WriteOp → σ → Except ε Unit × σ) (ops : List WriteOp)
    (s : σ) : Accepts writer ops s ↔ (feed writer ops s).1 = .ok () := by
  induction ops generalizing s with
  | nil => exact iff_of_true trivial rfl
  | cons op ops ih =>
      rw [Accepts, feed]
      split
      · next hop => rw [hop]; exact ih _
      · next hop => rw [hop]; exact iff_of_false id (by simp)

theorem accepts_append (writer : WriteOp → σ → Except ε Unit × σ) (ops ops' : List WriteOp)
    (s : σ) : Accepts writer (ops ++ ops') s ↔
      Accepts writer ops s ∧ Accepts writer ops' (feed writer ops s).2 := by
  induction ops generalizing s with
  | nil => exact (and_iff_right trivial).symm
  | cons op ops ih =>
      rw [List.cons_append, Accepts, Accepts, feed]
      split
      · next hop => rw [hop]; exact ih _
      · next hop => rw [hop]; exact (false_and _).symm ▸ Iff.rfl

theorem not_accepts_of_feed {writer : WriteOp → σ → Except ε Unit × σ} {ops : List WriteOp}
    {s s' : σ} {e : ε} (h : feed writer ops s = (.error e, s')) :
    ops ≠ [] ∧ ¬ Accepts writer ops s := by
  constructor
  · rintro rfl
    cases h
  · rw [accepts_iff_feed, h]
    intro hok
    cases hok

/-- A failed commit never leaves the guard as it was: the buffer that it was at is empty. -/
theorem commitWith_restartable_iff (guard : TransactionalLaneGuard)
    (writer : WriteOp → σ → Except ε Unit × σ) (s : σ) :
    Restartable guard (guard.commitWith writer s) ↔
      Accepts writer (guard.puts ++ guard.deletes) s := by
  rw [accepts_append]
  unfold commitWith
  split
  · next e s' hputs =>
      obtain ⟨hne, hnot⟩ := not_accepts_of_feed hputs
      refine iff_of_false (fun h => ?_) fun h => hnot h.1
      have hbuffer : guard.writeBuffer = [] :=
        (congrArg TransactionalLaneGuard.writeBuffer (h.unchanged e rfl)).symm
      exact hne (by rw [puts, hbuffer, List.map_nil])
  · next u s' hputs =>
      have haccepts := (accepts_iff_feed writer guard.puts s).mpr (by rw [hputs])
      rw [hputs, and_iff_right haccepts]
      split
      · next e s'' hdeletes =>
          obtain ⟨hne, hnot⟩ := not_accepts_of_feed hdeletes
          refine iff_of_false (fun h => ?_) hnot
          have hbuffer : guard.deleteBuffer = [] :=
            (congrArg TransactionalLaneGuard.deleteBuffer (h.unchanged e rfl)).symm
          exact hne (by rw [deletes, hbuffer, List.map_nil])
      · next hdeletes =>
          refine iff_of_true (.of_unchanged fun e he => by cases he) ?_
          rw [accepts_iff_feed, hdeletes]

/-- A batch that is refused is lost, unless it was empty. -/
theorem commitBatch_restartable_iff (guard : TransactionalLaneGuard)
    (batchWriter : List WriteOp → σ → Except ε Unit × σ) (s : σ) :
    Restartable guard (guard.commitBatch batchWriter s) ↔
      guard.pendingCount = 0 ∨ (batchWriter (guard.puts ++ guard.deletes) s).1 = .ok () := by
  unfold commitBatch
  split
  · next e s' hbatch =>
      rw [hbatch, or_iff_left (by simp)]
      constructor
      · intro h
        have hdrained : guard = guard.drained := (h.unchanged e rfl).symm
        rw [hdrained]
        rfl
      · intro h
        obtain ⟨hwrites, hdeletes⟩ := Nat.add_eq_zero_iff.mp h
        refine .of_unchanged fun _ _ => ?_
        rw [List.length_eq_zero_iff] at hwrites hdeletes
        show guard.drained = guard
        unfold drained
        rw [← hwrites, ← hdeletes]
  · next hbatch =>
      rw [hbatch]
      exact iff_of_true (.of_unchanged fun e he => by cases he) (.inr rfl)

/-- **A commit can be made again after an error exactly if there is none**, or, for a
batch, if there was nothing to commit. -/
theorem commit_restartable_iff (guard : TransactionalLaneGuard)
    (writer : WriteOp → σ → Except ε Unit × σ)
    (batchWriter : List WriteOp → σ → Except ε Unit × σ) (s : σ) :
    (Restartable guard (guard.commitWith writer s) ↔
      Accepts writer (guard.puts ++ guard.deletes) s) ∧
    (Restartable guard (guard.commitBatch batchWriter s) ↔
      guard.pendingCount = 0 ∨ (batchWriter (guard.puts ++ guard.deletes) s).1 = .ok ()) :=
  ⟨commitWith_restartable_iff guard writer s, commitBatch_restartable_iff guard batchWriter s⟩

/-- A writer that fails at its second call.  A second commit succeeds, and it stores
nothing. -/
theorem commit_error_loses : ∃ (guard : TransactionalLaneGuard)
    (writer : WriteOp → ℕ → Except Unit Unit × ℕ)
    (batchWriter : List WriteOp → ℕ → Except Unit Unit × ℕ),
    guard.writeBuffer = [([107, 49], [118, 49]), ([107, 50], [118, 50])] ∧
    (guard.commitWith writer 0).1 = .error () ∧
    (guard.commitBatch batchWriter 0).1 = .error () ∧
    ((guard.commitWith writer 0).2.1.commitWith (@storing Unit) fun _ => none).1 =
      .ok { puts := 0, deletes := 0 } ∧
    ¬ Restartable guard (guard.commitWith writer 0) ∧
    ¬ Restartable guard (guard.commitBatch batchWriter 0) := by
  refine ⟨buffered "s1" [.put [107, 49] [118, 49], .put [107, 50] [118, 50]],
    fun _ calls => (if calls = 1 then .error () else .ok (), calls + 1),
    fun _ calls => (.error (), calls + 1), rfl, rfl, rfl, rfl, fun h => ?_, fun h => ?_⟩
  · exact absurd (congrArg TransactionalLaneGuard.writeBuffer (h.unchanged () rfl)) (by decide)
  · exact absurd (congrArg TransactionalLaneGuard.writeBuffer (h.unchanged () rfl)) (by decide)

end TransactionalLaneGuard

end ClawDesk.Agents
