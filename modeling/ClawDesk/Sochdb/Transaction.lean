import ClawDesk.Foundations.TextStore
import ClawDesk.Foundations.WriteBuffer
import Mathlib.Data.String.Basic

/-!
# Transactional connections

Writes over a connection are buffered and applied one by one on commit, in the order of their
keys.  A commit is not atomic: a crash can leave the store with the first few writes applied
(`commitUpTo`).
-/

namespace ClawDesk.Sochdb

open Foundations

abbrev Bytes := List UInt8

/-- The key-value store.  Texts are compared by their characters, which is how their UTF-8
bytes compare. -/
abbrev SochStore := AList fun _ : String => Bytes

/-- The entries below a prefix, in key order. -/
def SochStore.scan (store : SochStore) (pre : String) : List (String × Bytes) :=
  Foundations.scan store fun k => startsWith k pre

theorem SochStore.mem_scan {store : SochStore} {pre k : String} {v : Bytes} :
    (k, v) ∈ store.scan pre ↔ store.lookup k = some v ∧ startsWith k pre = true :=
  Foundations.mem_scan

/-- A transaction that is still active. -/
structure TransactionalConn where
  inner : SochStore
  buffer : AList fun _ : String => PendingOp Bytes

/-- Result of a successful commit. -/
structure CommitResult where
  puts : ℕ
  deletes : ℕ
  deriving DecidableEq

namespace TransactionalConn

def begin (conn : SochStore) : TransactionalConn where
  inner := conn
  buffer := ∅

/-- Buffer a put operation. -/
def put (txn : TransactionalConn) (key : String) (value : Bytes) : TransactionalConn :=
  { txn with buffer := txn.buffer.insert key (.put value) }

/-- Buffer a delete operation. -/
def delete (txn : TransactionalConn) (key : String) : TransactionalConn :=
  { txn with buffer := txn.buffer.insert key .delete }

/-- The buffered operations as a commit goes through them. -/
def writes (txn : TransactionalConn) : List (String × PendingOp Bytes) :=
  Foundations.scan txn.buffer fun _ => true

/-- Apply all buffered writes sequentially. -/
def commit (txn : TransactionalConn) : SochStore × CommitResult :=
  (txn.writes.foldl applyWrite txn.inner,
    { puts := txn.writes.countP fun w => w.2.value.isSome
      deletes := txn.writes.countP fun w => w.2.value.isNone })

/-- What a crash leaves when the first `j` operations of a commit have been applied. -/
def commitUpTo (txn : TransactionalConn) (j : ℕ) : SochStore :=
  (txn.writes.take j).foldl applyWrite txn.inner

theorem commitUpTo_of_le {txn : TransactionalConn} {j : ℕ} (h : txn.writes.length ≤ j) :
    txn.commitUpTo j = txn.commit.1 := by
  unfold commitUpTo commit
  rw [List.take_of_length_le h]

@[simp] theorem inner_foldl_delete (txn : TransactionalConn) (ks : List String) :
    (ks.foldl delete txn).inner = txn.inner := by
  induction ks generalizing txn with
  | nil => rfl
  | cons k ks ih => exact ih (txn.delete k)

theorem buffer_foldl_delete (txn : TransactionalConn) (ks : List String) :
    (ks.foldl delete txn).buffer =
      (ks.map fun k => (k, PendingOp.delete)).foldl (fun b e => b.insert e.1 e.2) txn.buffer := by
  induction ks generalizing txn with
  | nil => rfl
  | cons k ks ih => exact ih (txn.delete k)

/-! ### Transactions that only delete -/

variable {conn : SochStore} {ks : List String}

theorem mem_writes_deletes {w : String × PendingOp Bytes} :
    w ∈ (ks.foldl delete (begin conn)).writes ↔ w.1 ∈ ks ∧ w.2 = .delete := by
  have hbuffer {txn : TransactionalConn} {op : PendingOp Bytes} {k : String} :
      (ks.foldl delete txn).buffer.lookup k = some op ↔
        (k ∈ ks ∧ op = .delete) ∨ (k ∉ ks ∧ txn.buffer.lookup k = some op) := by
    induction ks generalizing txn with
    | nil => simp
    | cons k' ks ih =>
        rw [List.foldl_cons, ih, List.mem_cons]
        show _ ∨ (_ ∧ (txn.buffer.insert k' .delete).lookup k = some op) ↔ _
        rcases eq_or_ne k k' with rfl | hne
        · by_cases hk : k ∈ ks <;> simp [AList.lookup_insert, hk, eq_comm]
        · simp [AList.lookup_insert_ne hne, hne]
  obtain ⟨k, op⟩ := w
  rw [writes, mem_scan, hbuffer]
  simp [begin]

theorem lookup_commit_deletes (k : String) :
    (ks.foldl delete (begin conn)).commit.1.lookup k =
      if k ∈ ks then none else conn.lookup k := by
  have hinner : (ks.foldl delete (begin conn)).inner = conn := by
    rw [inner_foldl_delete]
    rfl
  show ((ks.foldl delete (begin conn)).writes.foldl applyWrite _).lookup k = _
  split
  case isTrue h =>
    exact lookup_applyWrites_of_mem (nodup_keys_scan _ _) (mem_writes_deletes.mpr ⟨h, rfl⟩)
  case isFalse h =>
    rw [lookup_applyWrites_of_notMem, hinner]
    intro hmem
    obtain ⟨w, hw, rfl⟩ := List.mem_map.mp hmem
    exact h (mem_writes_deletes.mp hw).1

end TransactionalConn

end ClawDesk.Sochdb
