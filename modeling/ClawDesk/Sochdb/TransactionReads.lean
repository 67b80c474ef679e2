import ClawDesk.Foundations.Fold
import ClawDesk.Sochdb.Transaction
import Mathlib.Data.Finset.Card
import Mathlib.Data.List.Lex

/-!
# Reads of a transaction

The keys are bytes here, and the backend lists the entries below a prefix in an order of its own.
A transaction answers reads from its buffer first.  A scan puts what the backend lists into an
ordered map and the buffered operations on top.

Both are what the store would answer after a commit (`get_eq`, `scan_perm`), whatever operations
came before, and a scan comes in the order of the keys.
-/

namespace ClawDesk.Sochdb.TransactionReads

open Foundations

/-- Bytes are compared as numbers. -/
scoped instance linearOrderUInt8 : LinearOrder UInt8 where
  le_refl := UInt8.le_refl
  le_trans _ _ _ := UInt8.le_trans
  le_antisymm _ _ := UInt8.le_antisymm
  le_total := UInt8.le_total
  lt_iff_le_not_ge _ _ := by
    rw [UInt8.not_le]
    exact ⟨fun h => ⟨UInt8.le_of_lt h, h⟩, fun h => h.2⟩
  toDecidableLE := inferInstance

/-- An operation of a transaction on a key. -/
abbrev Op := Bytes × PendingOp Bytes

/-- `key.starts_with(prefix)`. -/
def startsWith (key pre : Bytes) : Bool := pre.isPrefixOf key

/-- The underlying connection: a store, and the order in which it lists entries. -/
structure Connection where
  store : AList fun _ : Bytes => Bytes
  listing : HashOrder (Bytes × Bytes)

namespace Connection

def get (conn : Connection) (key : Bytes) : Option Bytes := conn.store.lookup key

def scan (conn : Connection) (pre : Bytes) : List (Bytes × Bytes) :=
  conn.listing.order ((conn.store.entries.map fun e => (e.1, e.2)).filter fun e =>
    startsWith e.1 pre)

/-- A put or a delete. -/
def apply (conn : Connection) (write : Op) : Connection :=
  { conn with store := applyWrite conn.store write }

end Connection

/-- A transaction that is still active. -/
structure TransactionalConn where
  inner : Connection
  buffer : AList fun _ : Bytes => PendingOp Bytes

namespace TransactionalConn

def begin (conn : Connection) : TransactionalConn where
  inner := conn
  buffer := ∅

def put (txn : TransactionalConn) (key value : Bytes) : TransactionalConn :=
  { txn with buffer := txn.buffer.insert key (.put value) }

def delete (txn : TransactionalConn) (key : Bytes) : TransactionalConn :=
  { txn with buffer := txn.buffer.insert key .delete }

/-- Read a key: the buffer first, then the underlying connection. -/
def get (txn : TransactionalConn) (key : Bytes) : Option Bytes :=
  match txn.buffer.lookup key with
  | some (.put value) => some value
  | some .delete => none
  | none => txn.inner.get key

/-- The buffered operations in the order of their keys. -/
def writes (txn : TransactionalConn) : List Op := Foundations.scan txn.buffer fun _ => true

/-- Scan by prefix: the buffered operations on top of what the connection lists. -/
def scan (txn : TransactionalConn) (pre : Bytes) : List (Bytes × Bytes) :=
  let base := txn.inner.scan pre
  let merged : AList fun _ : Bytes => Bytes := base.foldl (fun m e => m.insert e.1 e.2) ∅
  let merged := txn.writes.foldl
    (fun m write => if startsWith write.1 pre then applyWrite m write else m) merged
  Foundations.scan merged fun _ => true

/-- Apply all buffered writes sequentially. -/
def commit (txn : TransactionalConn) : Connection × CommitResult :=
  (txn.writes.foldl Connection.apply txn.inner,
    { puts := txn.writes.countP fun w => w.2.value.isSome
      deletes := txn.writes.countP fun w => w.2.value.isNone })

/-- Discard all buffered writes, and say how many. -/
def rollback (txn : TransactionalConn) : Connection × ℕ := (txn.inner, txn.buffer.entries.length)

/-! ### A transaction after some operations -/

/-- One operation. -/
def write (txn : TransactionalConn) : Op → TransactionalConn
  | (key, .put value) => txn.put key value
  | (key, .delete) => txn.delete key

/-- The transaction after the operations `ops`, none of which has been committed. -/
def issued (conn : Connection) (ops : List Op) : TransactionalConn := ops.foldl write (begin conn)

/-- The last operation on a key. -/
def lastOp (ops : List Op) (key : Bytes) : Option (PendingOp Bytes) :=
  (ops.reverse.find? fun write => write.1 = key).map Prod.snd

variable {conn : Connection} {txn : TransactionalConn} {ops : List Op} {key pre : Bytes}
  {op : PendingOp Bytes}

@[simp] theorem buffer_write {w : Op} : (txn.write w).buffer = txn.buffer.insert w.1 w.2 := by
  obtain ⟨key, _ | _⟩ := w <;> rfl

@[simp] theorem inner_write {w : Op} : (txn.write w).inner = txn.inner := by
  obtain ⟨key, _ | _⟩ := w <;> rfl

theorem issued_append {w : Op} : issued conn (ops ++ [w]) = (issued conn ops).write w :=
  List.foldl_append

theorem lastOp_append {w : Op} :
    lastOp (ops ++ [w]) key = if w.1 = key then some w.2 else lastOp ops key := by
  rw [lastOp, List.reverse_append, List.reverse_singleton, List.singleton_append,
    List.find?_cons]
  by_cases hkey : w.1 = key <;> simp [hkey, lastOp]

/-- Nothing is written before the commit. -/
theorem inner_issued : (issued conn ops).inner = conn := by
  induction ops using List.reverseRecOn with
  | nil => rfl
  | append_singleton ops w ih => rw [issued_append, inner_write, ih]

/-- The buffer keeps the last operation on each key. -/
theorem lookup_buffer_issued : (issued conn ops).buffer.lookup key = lastOp ops key := by
  induction ops using List.reverseRecOn with
  | nil => exact AList.lookup_empty _
  | append_singleton ops w ih =>
      rw [issued_append, buffer_write, lastOp_append]
      split
      case isTrue hkey =>
        subst hkey
        exact AList.lookup_insert _
      case isFalse hkey =>
        rw [AList.lookup_insert_ne (Ne.symm hkey), ih]

theorem lastOp_isSome_iff : (lastOp ops key).isSome ↔ key ∈ ops.map Prod.fst := by
  rw [lastOp, Option.isSome_map, List.find?_isSome]
  simp

/-! ### Reads -/

theorem store_foldl_apply {writes : List Op} :
    (writes.foldl Connection.apply conn).store = writes.foldl applyWrite conn.store ∧
      (writes.foldl Connection.apply conn).listing = conn.listing := by
  induction writes generalizing conn with
  | nil => exact ⟨rfl, rfl⟩
  | cons write writes ih => exact ih

/-- What a key has after the commit. -/
theorem get_commit : txn.commit.1.get key =
    (txn.buffer.lookup key).elim (txn.inner.get key) PendingOp.value := by
  rw [Connection.get, commit, store_foldl_apply.1, writes, lookup_applyWrites_scan]
  rfl

/-- **A key reads as after the commit.** -/
theorem get_eq : txn.get key = txn.commit.1.get key := by
  rw [get_commit, get]
  split <;> simp_all [PendingOp.value]

theorem Connection.mem_scan {conn : Connection} {value : Bytes} :
    (key, value) ∈ conn.scan pre ↔ conn.get key = some value ∧ startsWith key pre = true := by
  rw [Connection.scan, (conn.listing.perm _).mem_iff, List.mem_filter, List.mem_map]
  refine and_congr_left' ⟨?_, fun h => ⟨⟨key, value⟩, AList.mem_lookup_iff.mp h, rfl⟩⟩
  rintro ⟨⟨key', value'⟩, hmem, heq⟩
  obtain ⟨rfl, rfl⟩ := Prod.mk.inj heq
  exact AList.mem_lookup_iff.mpr hmem

theorem Connection.nodup_keys_scan {conn : Connection} :
    ((conn.scan pre).map Prod.fst).Nodup := by
  have hkeys : ((conn.store.entries.map fun e => (e.1, e.2)).map Prod.fst).Nodup := by
    rw [List.map_map]
    exact conn.store.nodupKeys
  rw [Connection.scan, ((conn.listing.perm _).map _).nodup_iff]
  exact hkeys.sublist (List.filter_sublist.map _)

theorem mem_scan {value : Bytes} :
    (key, value) ∈ txn.scan pre ↔ txn.get key = some value ∧ startsWith key pre = true := by
  have hmerged : (txn.writes.foldl (fun m write => if startsWith write.1 pre then
      applyWrite m write else m) ((txn.inner.scan pre).foldl (fun m e => m.insert e.1 e.2)
        (∅ : AList fun _ : Bytes => Bytes))).lookup key =
      if startsWith key pre then txn.get key else none := by
    have hbase : ((txn.inner.scan pre).foldl (fun m e => m.insert e.1 e.2)
        (∅ : AList fun _ : Bytes => Bytes)).lookup key =
          if startsWith key pre then txn.inner.get key else none := by
      refine Option.ext fun value => ?_
      rw [lookup_buffer Connection.nodup_keys_scan, Connection.mem_scan, AList.lookup_empty]
      split <;> simp_all
    have hfilter : (Foundations.scan txn.buffer fun _ => true).filter
        (fun write => startsWith write.1 pre) =
          Foundations.scan txn.buffer fun key => startsWith key pre := filter_scan
    rw [← List.foldl_filter, writes, hfilter, lookup_applyWrites_scan, hbase, get_eq, get_commit]
    split <;> rfl
  rw [scan, Foundations.mem_scan, hmerged]
  split <;> simp_all

theorem pairwise_scan : (txn.scan pre).Pairwise fun a b => a.1 < b.1 := by
  rw [scan]
  exact Foundations.pairwise_scan _ _

/-- **A scan lists, in the order of the keys, what the connection lists after the commit.** -/
theorem scan_perm : (txn.scan pre).Perm (txn.commit.1.scan pre) := by
  have hnodup : (txn.scan pre).Nodup := pairwise_scan.imp fun h heq => h.ne (congrArg Prod.fst heq)
  rw [List.perm_ext_iff_of_nodup hnodup (Connection.nodup_keys_scan.of_map _)]
  rintro ⟨key, value⟩
  rw [mem_scan, Connection.mem_scan, get_eq]

/-- …and the same list, if the connection lists in the order of the keys. -/
theorem scan_eq_of_pairwise (h : (txn.commit.1.scan pre).Pairwise fun a b => a.1 < b.1) :
    txn.scan pre = txn.commit.1.scan pre :=
  scan_perm.eq_of_pairwise (fun _ _ _ _ hab hba => absurd hab hba.not_gt) pairwise_scan h

/-! ### What a commit writes -/

/-- A key that has not been written keeps what it has. -/
theorem get_commit_of_notMem (h : key ∉ ops.map Prod.fst) :
    (issued conn ops).commit.1.get key = conn.get key := by
  have hnone : lastOp ops key = none := by
    rw [← Option.not_isSome_iff_eq_none, lastOp_isSome_iff]
    exact h
  rw [get_commit, lookup_buffer_issued, hnone, inner_issued]
  rfl

/-- The operations of a kind that a commit applies, by the keys they are the last ones on. -/
theorem countP_writes (kind : PendingOp Bytes → Bool) :
    (issued conn ops).writes.countP (fun w => kind w.2) =
      ((ops.map Prod.fst).toFinset.filter fun key => ((lastOp ops key).any kind)).card := by
  have hnodup : (((issued conn ops).writes.filter fun w => kind w.2).map Prod.fst).Nodup :=
    (nodup_keys_scan _ _).sublist (List.filter_sublist.map _)
  rw [List.countP_eq_length_filter, ← List.length_map (f := Prod.fst),
    ← List.toFinset_card_of_nodup hnodup]
  congr 1
  ext key
  rw [List.mem_toFinset, List.mem_map, Finset.mem_filter, List.mem_toFinset, ← lastOp_isSome_iff]
  constructor
  · rintro ⟨⟨key', op⟩, hmem, rfl⟩
    obtain ⟨hwrites, hkind⟩ := List.mem_filter.mp hmem
    have hlast : lastOp ops key' = some op := by
      rw [← lookup_buffer_issued]
      exact (Foundations.mem_scan.mp hwrites).1
    simp [hlast, hkind]
  · rintro ⟨hsome, hany⟩
    obtain ⟨op, hlast⟩ := Option.isSome_iff_exists.mp hsome
    refine ⟨(key, op), List.mem_filter.mpr ⟨?_, by simpa [hlast] using hany⟩, rfl⟩
    exact Foundations.mem_scan.mpr ⟨by rw [lookup_buffer_issued, hlast], rfl⟩

/-- **Whatever has been put and deleted, reads are those of the store after the commit, the store
is what it was up to the commit and after a rollback, and a commit changes the written keys only
and counts those it puts and those it deletes.** -/
theorem reads_and_commit (conn : Connection) (ops : List Op) :
    (∀ key, (issued conn ops).get key = (issued conn ops).commit.1.get key) ∧
    (∀ pre, ((issued conn ops).scan pre).Pairwise (fun a b => a.1 < b.1) ∧
      ((issued conn ops).scan pre).Perm ((issued conn ops).commit.1.scan pre) ∧
      (((issued conn ops).commit.1.scan pre).Pairwise (fun a b => a.1 < b.1) →
        (issued conn ops).scan pre = (issued conn ops).commit.1.scan pre)) ∧
    (issued conn ops).inner = conn ∧ (issued conn ops).rollback.1 = conn ∧
    (∀ key, key ∉ ops.map Prod.fst → (issued conn ops).commit.1.get key = conn.get key) ∧
    (issued conn ops).commit.2.puts = ((ops.map Prod.fst).toFinset.filter fun key =>
      ((lastOp ops key).any fun op => op.value.isSome)).card ∧
    (issued conn ops).commit.2.deletes = ((ops.map Prod.fst).toFinset.filter fun key =>
      ((lastOp ops key).any fun op => op.value.isNone)).card :=
  ⟨fun _ => get_eq, fun _ => ⟨pairwise_scan, scan_perm, scan_eq_of_pairwise⟩, inner_issued,
    inner_issued, fun _ => get_commit_of_notMem, countP_writes fun op => op.value.isSome,
    countP_writes fun op => op.value.isNone⟩

end TransactionalConn

end ClawDesk.Sochdb.TransactionReads
