import ClawDesk.Sochdb.CompactionIntegrity

/-!
# Crashes in a compaction

The commit of a compaction goes through its writes in the order of their keys: first the
manifest, then the deletes, then the epoch, and the summary last
(`writes_compactionTxn`).
-/

namespace ClawDesk.Sochdb

open Foundations

variable {serde : Serde} {session : String} {input : CompactionInput} {store : SochStore}
  {k mk sk : String} {v : Bytes} {summary : String} {j : ℕ}

/-! ### Keys in order -/

theorem startsWith_area {area : String}
    (h : startsWith k ("sessions/" ++ session ++ area) = true) :
    ∃ rest, k = "sessions/" ++ session ++ (area ++ rest) := by
  obtain ⟨rest, rfl⟩ := startsWith_iff.mp h
  exact ⟨rest, String.append_assoc⟩

/-- The areas of a session are ordered like their names. -/
theorem area_lt (session : String) {s t : String} (h : s.toList < t.toList) :
    "sessions/" ++ session ++ s < "sessions/" ++ session ++ t := by
  rw [String.lt_iff_toList_lt, String.toList_append, String.toList_append (t := t)]
  exact List.append_left_lt h

theorem lt_of_manifest_of_message (hm : startsWith mk (manifestsPrefix session) = true)
    (hk : startsWith k (messagesPrefix session) = true) : mk < k := by
  obtain ⟨a, rfl⟩ := startsWith_area hm
  obtain ⟨b, rfl⟩ := startsWith_area hk
  refine area_lt session ?_
  rw [String.toList_append, String.toList_append]
  exact List.Lex.cons (List.Lex.cons (List.Lex.rel (by decide)))

theorem lt_epoch_of_manifest (hm : startsWith mk (manifestsPrefix session) = true) :
    mk < epochKey session := by
  obtain ⟨a, rfl⟩ := startsWith_area hm
  refine area_lt session ?_
  rw [String.toList_append]
  exact List.Lex.cons (List.Lex.cons (List.Lex.rel (by decide)))

theorem lt_epoch_of_message (hk : startsWith k (messagesPrefix session) = true) :
    k < epochKey session := by
  obtain ⟨a, rfl⟩ := startsWith_area hk
  refine area_lt session ?_
  rw [String.toList_append]
  exact List.Lex.cons (List.Lex.cons (List.Lex.cons (List.Lex.rel (by decide))))

theorem epoch_lt_of_summary (hs : startsWith sk (summariesPrefix session) = true) :
    epochKey session < sk := by
  obtain ⟨b, rfl⟩ := startsWith_area hs
  refine area_lt session ?_
  rw [String.toList_append]
  exact List.Lex.cons (List.Lex.rel (by decide))

theorem startsWith_manifestKey (session : String) (epoch : ℕ) :
    startsWith (manifestKey session epoch) (manifestsPrefix session) = true :=
  startsWith_append _ _

theorem startsWith_summaryKey (session : String) (ts : ℤ) :
    startsWith (summaryKey session ts) (summariesPrefix session) = true :=
  startsWith_append _ _

/-! ### The writes of a compaction -/

theorem startsWith_of_mem_compactedKeys (h : k ∈ compactedKeys session store) :
    startsWith k (messagesPrefix session) = true := by
  obtain ⟨⟨k, v⟩, hmem, rfl⟩ := List.mem_map.mp h
  exact (SochStore.mem_scan.mp (List.mem_of_mem_take hmem)).2

theorem pairwise_compactedKeys (session : String) (store : SochStore) :
    (compactedKeys session store).Pairwise (· < ·) := by
  unfold compactedKeys coldEntries
  rw [List.pairwise_map]
  exact (pairwise_scan store _).sublist (List.take_sublist _ _)

@[simp] theorem newManifest_compactedKeys :
    (newManifest serde session input store).compactedKeys = compactedKeys session store := by
  simp only [newManifest]

@[simp] theorem newManifest_summaryKey :
    (newManifest serde session input store).summaryKey = summaryKey session input.ts := by
  simp only [newManifest]

section Writes

variable (serde session input store summary)

def manifestWrite : String × PendingOp Bytes :=
  (manifestKey session (nextEpoch store session),
    .put (manifestToVec (newManifest serde session input store)))

def messageDeletes : List (String × PendingOp Bytes) :=
  (compactedKeys session store).map fun k => (k, .delete)

def epochWrite : String × PendingOp Bytes :=
  (epochKey session, .put (toLeBytes (nextEpoch store session)))

def summaryWrite : String × PendingOp Bytes :=
  (summaryKey session input.ts, .put (asBytes summary))

theorem buffer_compactionTxn :
    (compactionTxn serde session input store summary).buffer =
      ([summaryWrite session input summary, manifestWrite serde session input store] ++
        messageDeletes session store ++ [epochWrite session store]).foldl
          (fun b e => b.insert e.1 e.2) ∅ := by
  rw [List.foldl_append, List.foldl_append]
  unfold compactionTxn messageDeletes
  rw [TransactionalConn.put]
  simp only [TransactionalConn.buffer_foldl_delete, newManifest_compactedKeys]
  rfl

theorem pairwise_writes :
    (manifestWrite serde session input store :: (messageDeletes session store ++
      [epochWrite session store, summaryWrite session input summary])).Pairwise
        fun a b => a.1 < b.1 := by
  have hmanifest := startsWith_manifestKey session (nextEpoch store session)
  have hsummary := epoch_lt_of_summary (startsWith_summaryKey session input.ts)
  have hdelete {w : String × PendingOp Bytes} (hw : w ∈ messageDeletes session store) :
      startsWith w.1 (messagesPrefix session) = true := by
    obtain ⟨k, hk, rfl⟩ := List.mem_map.mp hw
    exact startsWith_of_mem_compactedKeys hk
  have hdeletes : (messageDeletes session store).Pairwise fun a b => a.1 < b.1 := by
    rw [messageDeletes, List.pairwise_map]
    exact pairwise_compactedKeys session store
  rw [List.pairwise_cons, List.pairwise_append, List.pairwise_pair]
  refine ⟨?_, hdeletes, hsummary, ?_⟩
  · have hepoch : manifestKey session (nextEpoch store session) < epochKey session :=
      lt_epoch_of_manifest hmanifest
    intro w hw
    rcases List.mem_append.mp hw with hw | hw
    · exact lt_of_manifest_of_message hmanifest (hdelete hw)
    · rcases List.mem_pair.mp hw with rfl | rfl
      · exact hepoch
      · exact hepoch.trans hsummary
  · intro w hw w' hw'
    have hepoch := lt_epoch_of_message (hdelete hw)
    rcases List.mem_pair.mp hw' with rfl | rfl
    · exact hepoch
    · exact hepoch.trans hsummary

/-- **The manifest is written first and the summary last.** -/
theorem writes_compactionTxn :
    (compactionTxn serde session input store summary).writes =
      manifestWrite serde session input store :: (messageDeletes session store ++
        [epochWrite session store, summaryWrite session input summary]) := by
  unfold TransactionalConn.writes
  rw [buffer_compactionTxn]
  refine scan_buffer ?_ (pairwise_writes serde session input store summary)
  rw [List.append_assoc, List.cons_append, List.cons_append, List.nil_append]
  refine (List.Perm.swap _ _ _).trans (List.Perm.cons _ ?_)
  have hlast := List.perm_append_singleton (summaryWrite session input summary)
    (messageDeletes session store ++ [epochWrite session store])
  rw [List.append_assoc, List.singleton_append] at hlast
  exact hlast.symm

theorem mem_take_writes {w : String × PendingOp Bytes} :
    w ∈ (compactionTxn serde session input store summary).writes.take j ↔
      (w = manifestWrite serde session input store ∧ 1 ≤ j) ∨
      w ∈ (messageDeletes session store).take (j - 1) ∨
      (w = epochWrite session store ∧ (compactedKeys session store).length + 2 ≤ j) ∨
      (w = summaryWrite session input summary ∧
        (compactedKeys session store).length + 3 ≤ j) := by
  have hpair {a b : String × PendingOp Bytes} {n : ℕ} :
      w ∈ [a, b].take n ↔ (w = a ∧ 1 ≤ n) ∨ (w = b ∧ 2 ≤ n) := by
    match n with
    | 0 => simp
    | 1 => simp
    | n + 2 => simp
  have hlength : (messageDeletes session store).length = (compactedKeys session store).length :=
    List.length_map _
  rw [writes_compactionTxn]
  cases j with
  | zero => simp
  | succ j =>
      rw [List.take_succ_cons, List.mem_cons, List.take_append, List.mem_append, hpair, hlength,
        Nat.add_sub_cancel]
      have hone : 1 ≤ j - (compactedKeys session store).length ↔
          (compactedKeys session store).length + 2 ≤ j + 1 := by omega
      have htwo : 2 ≤ j - (compactedKeys session store).length ↔
          (compactedKeys session store).length + 3 ≤ j + 1 := by omega
      rw [hone, htwo]
      simp

/-- The keys that a transaction writes. -/
theorem key_of_mem_take_writes {op : PendingOp Bytes}
    (h : (k, op) ∈ (compactionTxn serde session input store summary).writes.take j) :
    (k = manifestKey session (nextEpoch store session) ∧ 1 ≤ j) ∨
      k ∈ (compactedKeys session store).take (j - 1) ∨ k = epochKey session ∨
      (k = summaryKey session input.ts ∧ (compactedKeys session store).length + 3 ≤ j) := by
  rw [mem_take_writes, messageDeletes, ← List.map_take] at h
  rcases h with ⟨heq, hj⟩ | hmem | ⟨heq, -⟩ | ⟨heq, hj⟩
  · exact .inl ⟨congrArg Prod.fst heq, hj⟩
  · obtain ⟨k', hk', heq⟩ := List.mem_map.mp hmem
    obtain rfl : k' = k := congrArg Prod.fst heq
    exact .inr (.inl hk')
  · exact .inr (.inr (.inl (congrArg Prod.fst heq)))
  · exact .inr (.inr (.inr ⟨congrArg Prod.fst heq, hj⟩))

theorem lookup_commitUpTo_of_mem {op : PendingOp Bytes}
    (h : (k, op) ∈ (compactionTxn serde session input store summary).writes.take j) :
    ((compactionTxn serde session input store summary).commitUpTo j).lookup k = op.value := by
  refine lookup_applyWrites_of_mem ?_ h
  rw [List.Nodup, List.pairwise_map]
  have horder := (pairwise_writes serde session input store summary).sublist
    (List.take_sublist j _)
  rw [← writes_compactionTxn] at horder
  exact horder.imp ne_of_lt

theorem lookup_commitUpTo_of_notMem
    (h : ∀ op, (k, op) ∉ (compactionTxn serde session input store summary).writes.take j) :
    ((compactionTxn serde session input store summary).commitUpTo j).lookup k =
      store.lookup k := by
  have hinner : (compactionTxn serde session input store summary).inner = store := by
    unfold compactionTxn
    rw [TransactionalConn.put, TransactionalConn.inner_foldl_delete]
    rfl
  unfold TransactionalConn.commitUpTo
  rw [lookup_applyWrites_of_notMem, hinner]
  intro hmem
  obtain ⟨⟨k, op⟩, hw, rfl⟩ := List.mem_map.mp hmem
  exact h op hw

end Writes

/-! ### What a crash leaves -/

theorem lookup_crashed_message (hk : startsWith k (messagesPrefix session) = true) :
    ((compactionTxn serde session input store summary).commitUpTo j).lookup k =
      if k ∈ (compactedKeys session store).take (j - 1) then none else store.lookup k := by
  split
  case isTrue h =>
    have hmem : (k, PendingOp.delete) ∈
        (compactionTxn serde session input store summary).writes.take j := by
      rw [mem_take_writes, messageDeletes, ← List.map_take]
      exact Or.inr (Or.inl (List.mem_map_of_mem h))
    exact lookup_commitUpTo_of_mem serde session input store summary hmem
  case isFalse h =>
    refine lookup_commitUpTo_of_notMem serde session input store summary fun op hmem => ?_
    have hepoch := lt_epoch_of_message hk
    rcases key_of_mem_take_writes serde session input store summary hmem with
      ⟨rfl, -⟩ | hk' | rfl | ⟨rfl, -⟩
    · exact lt_irrefl _ (lt_of_manifest_of_message
        (startsWith_manifestKey session (nextEpoch store session)) hk)
    · exact h hk'
    · exact lt_irrefl _ hepoch
    · have hlt := epoch_lt_of_summary (startsWith_summaryKey session input.ts)
      exact lt_irrefl _ (hepoch.trans hlt)

theorem lookup_crashed_summary (hs : startsWith sk (summariesPrefix session) = true) :
    ((compactionTxn serde session input store summary).commitUpTo j).lookup sk =
      if sk = summaryKey session input.ts ∧ (compactedKeys session store).length + 3 ≤ j then
        some (asBytes summary)
      else store.lookup sk := by
  have hepoch := epoch_lt_of_summary hs
  split
  case isTrue h =>
    have hmem : (sk, PendingOp.put (asBytes summary)) ∈
        (compactionTxn serde session input store summary).writes.take j := by
      rw [mem_take_writes, h.1]
      exact Or.inr (Or.inr (Or.inr ⟨rfl, h.2⟩))
    exact lookup_commitUpTo_of_mem serde session input store summary hmem
  case isFalse h =>
    refine lookup_commitUpTo_of_notMem serde session input store summary fun op hmem => ?_
    rcases key_of_mem_take_writes serde session input store summary hmem with
      ⟨rfl, -⟩ | hk | rfl | hsummary
    · have hlt := lt_epoch_of_manifest
        (startsWith_manifestKey session (nextEpoch store session))
      exact lt_irrefl _ (hlt.trans hepoch)
    · have hlt := lt_epoch_of_message (startsWith_of_mem_compactedKeys (List.mem_of_mem_take hk))
      exact lt_irrefl _ (hlt.trans hepoch)
    · exact lt_irrefl _ hepoch
    · exact h hsummary

theorem lookup_crashed_manifest (hm : startsWith mk (manifestsPrefix session) = true) :
    ((compactionTxn serde session input store summary).commitUpTo j).lookup mk =
      if mk = manifestKey session (nextEpoch store session) ∧ 1 ≤ j then
        some (manifestToVec (newManifest serde session input store))
      else store.lookup mk := by
  have hepoch := lt_epoch_of_manifest hm
  split
  case isTrue h =>
    have hmem : (mk, PendingOp.put (manifestToVec (newManifest serde session input store))) ∈
        (compactionTxn serde session input store summary).writes.take j := by
      rw [mem_take_writes, h.1]
      exact Or.inl ⟨rfl, h.2⟩
    exact lookup_commitUpTo_of_mem serde session input store summary hmem
  case isFalse h =>
    refine lookup_commitUpTo_of_notMem serde session input store summary fun op hmem => ?_
    rcases key_of_mem_take_writes serde session input store summary hmem with
      hmanifest | hk | rfl | ⟨rfl, -⟩
    · exact h hmanifest
    · exact lt_irrefl _ (lt_of_manifest_of_message hm
        (startsWith_of_mem_compactedKeys (List.mem_of_mem_take hk)))
    · exact lt_irrefl _ hepoch
    · have hlt := epoch_lt_of_summary (startsWith_summaryKey session input.ts)
      exact lt_irrefl _ (hepoch.trans hlt)

end ClawDesk.Sochdb
