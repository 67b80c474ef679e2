import ClawDesk.Sochdb.CompactionCrash

/-!
# Recovery of a compaction

Recovery leaves exactly the messages that no manifest with a stored summary covers, and what is
covered stays covered (`lookup_checked_message`, `covered_checked_iff`).  It brings nothing
back.  So a crashed compaction is safe exactly when each message it has deleted is covered
without the summary that it writes last (`crash_safe_iff`).
-/

namespace ClawDesk.Sochdb

open Foundations

section Recovery

variable {serde : Serde} {session : String} {input : CompactionInput} {store : SochStore}
  {k mk sk : String} {v bytes : Bytes} {m : CompactionManifest} {summary : String} {j : ℕ}

/-! ### Manifests of a session -/

/-- A manifest that can be read is stored under the key. -/
def HasManifest (serde : Serde) (session : String) (store : SochStore) (mk : String)
    (m : CompactionManifest) : Prop :=
  ∃ bytes, (mk, bytes) ∈ store.scan (manifestsPrefix session) ∧ serde.manifest bytes = some m

/-- A manifest whose summary is stored covers the message. -/
def Covered (serde : Serde) (session : String) (store : SochStore) (k : String) : Prop :=
  ∃ mk m, HasManifest serde session store mk m ∧ k ∈ m.compactedKeys ∧
    isStored store m.summaryKey = true

/-- Manifests only name messages and summaries of the session. -/
def WellFormed (serde : Serde) (session : String) (store : SochStore) : Prop :=
  ∀ {mk m}, HasManifest serde session store mk m →
    (∀ k ∈ m.compactedKeys, startsWith k (messagesPrefix session) = true) ∧
      startsWith m.summaryKey (summariesPrefix session) = true

/-! ### The repair pass -/

/-- The keys that a repair pass deletes for one manifest. -/
def repairedBy (serde : Serde) (store : SochStore) (entry : String × Bytes) : List String :=
  match serde.manifest entry.2 with
  | none => [entry.1]
  | some m =>
      if isStored store m.summaryKey then m.compactedKeys.filter (isStored store) else [entry.1]

def repairedKeys (serde : Serde) (session : String) (store : SochStore) : List String :=
  (store.scan (manifestsPrefix session)).flatMap (repairedBy serde store)

theorem repairEntry_eq (acc : TransactionalConn × ℕ) (entry : String × Bytes) :
    repairEntry serde store acc entry =
      ((repairedBy serde store entry).foldl TransactionalConn.delete acc.1,
        acc.2 + (repairedBy serde store entry).length) := by
  have hkeys (ks : List String) : ks.foldl (fun acc ck =>
      if isStored store ck then (acc.1.delete ck, acc.2 + 1) else acc) acc =
        ((ks.filter (isStored store)).foldl TransactionalConn.delete acc.1,
          acc.2 + (ks.filter (isStored store)).length) := by
    induction ks generalizing acc with
    | nil => rfl
    | cons ck ks ih =>
        rw [List.foldl_cons, ih, List.filter_cons]
        split
        · simp only [List.foldl_cons, List.length_cons]
          rw [Nat.add_right_comm, Nat.add_assoc]
        · rfl
  unfold repairEntry repairedBy
  cases serde.manifest entry.2 with
  | none => rfl
  | some m =>
      cases hsummary : isStored store m.summaryKey with
      | true =>
          simp only [hsummary, if_true]
          exact hkeys _
      | false =>
          simp only [hsummary, Bool.false_eq_true, if_false]
          rfl

theorem repairTxn_eq :
    repairTxn serde session store =
      ((repairedKeys serde session store).foldl TransactionalConn.delete
        (TransactionalConn.begin store), (repairedKeys serde session store).length) := by
  have hfold (entries : List (String × Bytes)) (acc : TransactionalConn × ℕ) :
      entries.foldl (repairEntry serde store) acc =
        ((entries.flatMap (repairedBy serde store)).foldl TransactionalConn.delete acc.1,
          acc.2 + (entries.flatMap (repairedBy serde store)).length) := by
    induction entries generalizing acc with
    | nil => rfl
    | cons entry entries ih =>
        rw [List.foldl_cons, ih, repairEntry_eq, List.flatMap_cons, List.foldl_append,
          List.length_append, Nat.add_assoc]
  unfold repairTxn repairedKeys
  rw [hfold, Nat.zero_add]

theorem lookup_repairIntegrity (k : String) :
    (repairIntegrity serde session store).1.lookup k =
      if k ∈ repairedKeys serde session store then none else store.lookup k := by
  unfold repairIntegrity
  rw [repairTxn_eq]
  show (if 0 < (repairedKeys serde session store).length then _ else store).lookup k = _
  split
  case isTrue => exact TransactionalConn.lookup_commit_deletes k
  case isFalse h =>
    rw [List.eq_nil_of_length_eq_zero (Nat.eq_zero_of_not_pos h), if_neg List.not_mem_nil]

/-! ### The validation pass -/

def isOrphaned (serde : Serde) (store : SochStore) (entry : String × Bytes) : Bool :=
  (serde.manifest entry.2).any fun m =>
    isStored store m.summaryKey && m.compactedKeys.any (isStored store)

def isMissing (serde : Serde) (store : SochStore) (entry : String × Bytes) : Bool :=
  (serde.manifest entry.2).any fun m => !isStored store m.summaryKey

theorem validateEntry_counts (serde : Serde) (store : SochStore)
    (acc : IntegrityReport × List (ℤ × ℤ × ℕ))
    (entry : String × Bytes) :
    (validateEntry serde store acc entry).1.orphaned =
        acc.1.orphaned + (if isOrphaned serde store entry then 1 else 0) ∧
      (validateEntry serde store acc entry).1.missingSummaries =
        acc.1.missingSummaries + (if isMissing serde store entry then 1 else 0) := by
  unfold validateEntry isOrphaned isMissing
  cases serde.manifest entry.2 with
  | none => exact ⟨rfl, rfl⟩
  | some m =>
      have hany : m.compactedKeys.any (isStored store) =
          decide (0 < m.compactedKeys.countP (isStored store)) := by
        rw [Bool.eq_iff_iff, List.any_eq_true, decide_eq_true_iff, List.countP_pos_iff]
      simp only [Option.any_some, hany]
      by_cases hsummary : isStored store m.summaryKey = false
      · simp [hsummary]
      · by_cases horphaned : 0 < m.compactedKeys.countP (isStored store) <;>
          simp [hsummary, horphaned]

theorem validateIntegrity_counts :
    (validateIntegrity serde session store).orphaned =
        (store.scan (manifestsPrefix session)).countP (isOrphaned serde store) ∧
      (validateIntegrity serde session store).missingSummaries =
        (store.scan (manifestsPrefix session)).countP (isMissing serde store) := by
  have hfold (entries : List (String × Bytes)) (acc : IntegrityReport × List (ℤ × ℤ × ℕ)) :
      (entries.foldl (validateEntry serde store) acc).1.orphaned =
          acc.1.orphaned + entries.countP (isOrphaned serde store) ∧
        (entries.foldl (validateEntry serde store) acc).1.missingSummaries =
          acc.1.missingSummaries + entries.countP (isMissing serde store) := by
    induction entries generalizing acc with
    | nil => exact ⟨rfl, rfl⟩
    | cons entry entries ih =>
        obtain ⟨horphaned, hmissing⟩ := validateEntry_counts serde store acc entry
        rw [List.foldl_cons, (ih _).1, (ih _).2, horphaned, hmissing, List.countP_cons,
          List.countP_cons]
        omega
  unfold validateIntegrity
  rw [(hfold _ _).1, (hfold _ _).2, Nat.zero_add, Nat.zero_add]
  exact ⟨rfl, rfl⟩

/-! ### The checked store -/

theorem mem_repairedKeys : k ∈ repairedKeys serde session store ↔
    (∃ bytes, (k, bytes) ∈ store.scan (manifestsPrefix session) ∧ serde.manifest bytes = none) ∨
    (∃ m, HasManifest serde session store k m ∧ isStored store m.summaryKey = false) ∨
    (Covered serde session store k ∧ isStored store k = true) := by
  unfold repairedKeys repairedBy
  rw [List.mem_flatMap]
  constructor
  · rintro ⟨⟨mk, bytes⟩, hentry, hk⟩
    dsimp only at hk
    cases hm : serde.manifest bytes with
    | none =>
        rw [hm, List.mem_singleton] at hk
        exact Or.inl ⟨bytes, hk ▸ hentry, hm⟩
    | some m =>
        simp only [hm] at hk
        cases hsummary : isStored store m.summaryKey with
        | false =>
            simp only [hsummary, Bool.false_eq_true, if_false, List.mem_singleton] at hk
            exact Or.inr (Or.inl ⟨m, ⟨bytes, hk ▸ hentry, hm⟩, hsummary⟩)
        | true =>
            simp only [hsummary, if_true, List.mem_filter] at hk
            exact Or.inr (Or.inr ⟨⟨mk, m, ⟨bytes, hentry, hm⟩, hk.1, hsummary⟩, hk.2⟩)
  · rintro (⟨bytes, hentry, hm⟩ | ⟨m, ⟨bytes, hentry, hm⟩, hsummary⟩ |
      ⟨⟨mk, m, ⟨bytes, hentry, hm⟩, hk, hsummary⟩, hstored⟩)
    · refine ⟨(k, bytes), hentry, ?_⟩
      simp only [hm, List.mem_singleton]
    · refine ⟨(k, bytes), hentry, ?_⟩
      simp only [hm, hsummary, Bool.false_eq_true, if_false, List.mem_singleton]
    · refine ⟨(mk, bytes), hentry, ?_⟩
      simp only [hm, hsummary, if_true, List.mem_filter]
      exact ⟨hk, hstored⟩

/-- Is there something for a repair to do? -/
def NeedsRepair (serde : Serde) (session : String) (store : SochStore) : Prop :=
  0 < (validateIntegrity serde session store).orphaned ∨
    0 < (validateIntegrity serde session store).missingSummaries

theorem needsRepair_of_missing {mk : String} (hm : HasManifest serde session store mk m)
    (hsummary : isStored store m.summaryKey = false) : NeedsRepair serde session store := by
  obtain ⟨bytes, hentry, hread⟩ := hm
  refine Or.inr ?_
  rw [validateIntegrity_counts.2, List.countP_pos_iff]
  refine ⟨(mk, bytes), hentry, ?_⟩
  rw [isMissing, hread, Option.any_some, hsummary]
  rfl

theorem needsRepair_of_covered (hcovered : Covered serde session store k)
    (hstored : isStored store k = true) : NeedsRepair serde session store := by
  obtain ⟨mk, m, ⟨bytes, hentry, hread⟩, hk, hsummary⟩ := hcovered
  refine Or.inl ?_
  rw [validateIntegrity_counts.1, List.countP_pos_iff]
  refine ⟨(mk, bytes), hentry, ?_⟩
  rw [isOrphaned, hread, Option.any_some, hsummary, Bool.true_and]
  exact List.any_eq_true.mpr ⟨k, hk, hstored⟩

instance : Decidable (NeedsRepair serde session store) := inferInstanceAs (Decidable (_ ∨ _))

theorem lookup_checked (k : String) :
    (integrityCheckedContext serde session store).1.lookup k =
      if NeedsRepair serde session store ∧ k ∈ repairedKeys serde session store then none
      else store.lookup k := by
  show (if NeedsRepair serde session store then (repairIntegrity serde session store).1
    else store).lookup k = _
  by_cases hrepair : NeedsRepair serde session store
  · rw [if_pos hrepair, lookup_repairIntegrity]
    simp only [hrepair, true_and]
  · rw [if_neg hrepair, if_neg fun h => hrepair h.1]

theorem startsWith_of_hasManifest (hm : HasManifest serde session store mk m) :
    startsWith mk (manifestsPrefix session) = true :=
  (SochStore.mem_scan.mp hm.choose_spec.1).2

/-- Only manifests, and messages that are covered, are deleted. -/
theorem kind_of_mem_repairedKeys (h : k ∈ repairedKeys serde session store) :
    startsWith k (manifestsPrefix session) = true ∨ Covered serde session store k := by
  rcases mem_repairedKeys.mp h with ⟨bytes, hentry, -⟩ | ⟨m, hm, -⟩ | ⟨hcovered, -⟩
  · exact Or.inl (SochStore.mem_scan.mp hentry).2
  · exact Or.inl (startsWith_of_hasManifest hm)
  · exact Or.inr hcovered

theorem not_manifest_of_message (hk : startsWith k (messagesPrefix session) = true) :
    ¬ startsWith k (manifestsPrefix session) = true := fun hm =>
  lt_irrefl k (lt_of_manifest_of_message hm hk)

/-- **Recovery leaves the messages that are not covered.** -/
theorem lookup_checked_message (hk : startsWith k (messagesPrefix session) = true) :
    (integrityCheckedContext serde session store).1.lookup k = some v ↔
      store.lookup k = some v ∧ ¬ Covered serde session store k := by
  rw [lookup_checked]
  split
  case isTrue h =>
    have hcovered := (kind_of_mem_repairedKeys h.2).resolve_left (not_manifest_of_message hk)
    exact iff_of_false (by simp) fun hboth => hboth.2 hcovered
  case isFalse h =>
    refine (and_iff_left_of_imp fun hv hcovered => h ?_).symm
    have hstored : isStored store k = true := by rw [isStored, hv, Option.isSome_some]
    exact ⟨needsRepair_of_covered hcovered hstored,
      mem_repairedKeys.mpr (Or.inr (Or.inr ⟨hcovered, hstored⟩))⟩

theorem isStored_checked_summary (hwf : WellFormed serde session store)
    (hs : startsWith sk (summariesPrefix session) = true) :
    isStored (integrityCheckedContext serde session store).1 sk = isStored store sk := by
  have hepoch := epoch_lt_of_summary hs
  unfold isStored
  rw [lookup_checked, if_neg]
  rintro ⟨-, hmem⟩
  rcases kind_of_mem_repairedKeys hmem with hm | ⟨mk, m, hm, hkey, -⟩
  · exact lt_asymm (lt_epoch_of_manifest hm) hepoch
  · exact lt_asymm (lt_epoch_of_message ((hwf hm).1 sk hkey)) hepoch

/-- A manifest stays unless its summary is missing. -/
theorem hasManifest_checked_iff (hwf : WellFormed serde session store) :
    HasManifest serde session (integrityCheckedContext serde session store).1 mk m ↔
      HasManifest serde session store mk m ∧ isStored store m.summaryKey = true := by
  constructor
  · rintro ⟨bytes, hentry, hread⟩
    rw [SochStore.mem_scan, lookup_checked] at hentry
    obtain ⟨hlookup, hprefix⟩ := hentry
    split at hlookup
    case isTrue => cases hlookup
    case isFalse h =>
      have hm : HasManifest serde session store mk m :=
        ⟨bytes, SochStore.mem_scan.mpr ⟨hlookup, hprefix⟩, hread⟩
      refine ⟨hm, ?_⟩
      by_contra hsummary
      rw [Bool.not_eq_true] at hsummary
      exact h ⟨needsRepair_of_missing hm hsummary,
        mem_repairedKeys.mpr (Or.inr (Or.inl ⟨m, hm, hsummary⟩))⟩
  · rintro ⟨⟨bytes, hentry, hread⟩, hsummary⟩
    obtain ⟨hlookup, hprefix⟩ := SochStore.mem_scan.mp hentry
    have hone {bytes' : Bytes} (h : (mk, bytes') ∈ store.scan (manifestsPrefix session)) :
        bytes' = bytes :=
      Option.some.inj ((SochStore.mem_scan.mp h).1.symm.trans hlookup)
    refine ⟨bytes, SochStore.mem_scan.mpr ⟨?_, hprefix⟩, hread⟩
    rw [lookup_checked, if_neg, hlookup]
    rintro ⟨-, hmem⟩
    rcases mem_repairedKeys.mp hmem with ⟨bytes', hentry', hread'⟩ |
      ⟨m', ⟨bytes', hentry', hread'⟩, hsummary'⟩ | ⟨⟨mk', m', hm', hk, -⟩, -⟩
    · rw [hone hentry', hread] at hread'
      cases hread'
    · rw [hone hentry', hread] at hread'
      obtain rfl := Option.some.inj hread'
      exact absurd hsummary (by rw [hsummary']; decide)
    · exact not_manifest_of_message ((hwf hm').1 mk hk) hprefix

/-- **Recovery covers what was covered.** -/
theorem covered_checked_iff (hwf : WellFormed serde session store) :
    Covered serde session (integrityCheckedContext serde session store).1 k ↔
      Covered serde session store k := by
  constructor
  · rintro ⟨mk, m, hm, hk, hsummary⟩
    rw [hasManifest_checked_iff hwf] at hm
    exact ⟨mk, m, hm.1, hk, hm.2⟩
  · rintro ⟨mk, m, hm, hk, hsummary⟩
    refine ⟨mk, m, (hasManifest_checked_iff hwf).mpr ⟨hm, hsummary⟩, hk, ?_⟩
    rw [isStored_checked_summary hwf (hwf hm).2, hsummary]

/-! ### Safety -/

/-- Every message is still stored or covered by a stored summary, and not both. -/
def Safe (serde : Serde) (session : String) (before after : SochStore) : Prop :=
  ∀ k v, startsWith k (messagesPrefix session) = true → before.lookup k = some v →
    Xor (after.lookup k = some v) (Covered serde session after k)

/-- **Recovery removes what is stored twice, and brings nothing back.** -/
theorem safe_checked_iff {before : SochStore} (hwf : WellFormed serde session store) :
    Safe serde session before (integrityCheckedContext serde session store).1 ↔
      ∀ k v, startsWith k (messagesPrefix session) = true → before.lookup k = some v →
        store.lookup k = some v ∨ Covered serde session store k := by
  refine forall₄_congr fun k v hk hv => ?_
  rw [lookup_checked_message hk, covered_checked_iff hwf, Xor]
  tauto

/-! ### Stores of a session -/

/-- The stores that a session can have.  Manifests are only put by compactions, whose commit
may be cut short. -/
inductive Reachable (serde : Serde) (session : String) : SochStore → Prop where
  | empty : Reachable serde session ∅
  | put {store : SochStore} {k : String} (v : Bytes) (hstore : Reachable serde session store)
      (hk : startsWith k (manifestsPrefix session) = false) :
      Reachable serde session (store.insert k v)
  | delete {store : SochStore} (k : String) (hstore : Reachable serde session store) :
      Reachable serde session (store.erase k)
  | compact {store : SochStore} (input : CompactionInput) (j : ℕ)
      (hstore : Reachable serde session store) :
      Reachable serde session (crashedCompaction serde session input store j)

theorem hasManifest_crashed_iff : HasManifest serde session
    ((compactionTxn serde session input store summary).commitUpTo j) mk m ↔
    (m = newManifest serde session input store ∧
      mk = manifestKey session (nextEpoch store session) ∧ 1 ≤ j) ∨
    (HasManifest serde session store mk m ∧
      ¬ (mk = manifestKey session (nextEpoch store session) ∧ 1 ≤ j)) := by
  constructor
  · rintro ⟨bytes, hentry, hread⟩
    obtain ⟨hlookup, hprefix⟩ := SochStore.mem_scan.mp hentry
    rw [lookup_crashed_manifest hprefix] at hlookup
    split at hlookup
    case isTrue h =>
      obtain rfl := Option.some.inj hlookup
      rw [serde.manifest_toVec] at hread
      exact Or.inl ⟨(Option.some.inj hread).symm, h⟩
    case isFalse h =>
      exact Or.inr ⟨⟨bytes, SochStore.mem_scan.mpr ⟨hlookup, hprefix⟩, hread⟩, h⟩
  · rintro (⟨rfl, h⟩ | ⟨⟨bytes, hentry, hread⟩, h⟩)
    · have hprefix := startsWith_manifestKey session (nextEpoch store session)
      refine ⟨_, SochStore.mem_scan.mpr ⟨?_, h.1 ▸ hprefix⟩, serde.manifest_toVec _⟩
      rw [lookup_crashed_manifest (h.1 ▸ hprefix), if_pos h]
    · obtain ⟨hlookup, hprefix⟩ := SochStore.mem_scan.mp hentry
      refine ⟨bytes, SochStore.mem_scan.mpr ⟨?_, hprefix⟩, hread⟩
      rw [lookup_crashed_manifest hprefix, if_neg h, hlookup]

theorem isStored_crashed_summary (hs : startsWith sk (summariesPrefix session) = true) :
    isStored ((compactionTxn serde session input store summary).commitUpTo j) sk = true ↔
      (sk = summaryKey session input.ts ∧ (compactedKeys session store).length + 3 ≤ j) ∨
        isStored store sk = true := by
  unfold isStored
  rw [lookup_crashed_summary hs]
  split
  case isTrue h => exact iff_of_true rfl (Or.inl h)
  case isFalse h => exact (or_iff_right h).symm

theorem wellFormed_crashed (hwf : WellFormed serde session store) :
    WellFormed serde session
      ((compactionTxn serde session input store summary).commitUpTo j) := by
  intro mk m hm
  rcases hasManifest_crashed_iff.mp hm with ⟨rfl, -⟩ | ⟨hm, -⟩
  · rw [newManifest_compactedKeys, newManifest_summaryKey]
    exact ⟨fun k hk => startsWith_of_mem_compactedKeys hk, startsWith_summaryKey session _⟩
  · exact hwf hm

theorem wellFormed_crashedCompaction (hwf : WellFormed serde session store) :
    WellFormed serde session (crashedCompaction serde session input store j) := by
  unfold crashedCompaction
  split
  · exact hwf
  · exact wellFormed_crashed hwf

/-- Manifests only name messages and summaries of the session, in every run. -/
theorem Reachable.wellFormed (h : Reachable serde session store) :
    WellFormed serde session store := by
  induction h with
  | empty =>
      rintro mk m ⟨bytes, hentry, -⟩
      have hlookup := (SochStore.mem_scan.mp hentry).1
      rw [AList.lookup_empty] at hlookup
      cases hlookup
  | put v hstore hk ih =>
      rintro mk m ⟨bytes, hentry, hread⟩
      obtain ⟨hlookup, hprefix⟩ := SochStore.mem_scan.mp hentry
      rw [AList.lookup_insert_ne] at hlookup
      · exact ih ⟨bytes, SochStore.mem_scan.mpr ⟨hlookup, hprefix⟩, hread⟩
      · rintro rfl
        rw [hk] at hprefix
        cases hprefix
  | delete k hstore ih =>
      rintro mk m ⟨bytes, hentry, hread⟩
      obtain ⟨hlookup, hprefix⟩ := SochStore.mem_scan.mp hentry
      rcases eq_or_ne mk k with rfl | hne
      · rw [AList.lookup_erase] at hlookup
        cases hlookup
      · rw [AList.lookup_erase_ne hne] at hlookup
        exact ih ⟨bytes, SochStore.mem_scan.mpr ⟨hlookup, hprefix⟩, hread⟩
  | compact input j hstore ih => exact wellFormed_crashedCompaction ih

/-- A repair only deletes, so a session can go on after one that was itself cut short. -/
theorem Reachable.repair (h : Reachable serde session store) (j : ℕ) :
    Reachable serde session ((repairTxn serde session store).1.commitUpTo j) := by
  rw [repairTxn_eq]
  have hwrites (writes : List (String × PendingOp Bytes)) {store : SochStore}
      (hstore : Reachable serde session store) (hdelete : ∀ w ∈ writes, w.2 = .delete) :
      Reachable serde session (writes.foldl applyWrite store) := by
    induction writes generalizing store with
    | nil => exact hstore
    | cons w writes ih =>
        obtain ⟨k, op⟩ := w
        obtain rfl : op = .delete := hdelete _ List.mem_cons_self
        exact ih (hstore.delete k) fun w hw => hdelete w (List.mem_cons_of_mem _ hw)
  unfold TransactionalConn.commitUpTo
  rw [TransactionalConn.inner_foldl_delete]
  exact hwrites _ h fun w hw =>
    (TransactionalConn.mem_writes_deletes.mp (List.mem_of_mem_take hw)).2

/-- A manifest under another key covers the message without the summary that is written. -/
def CoveredElsewhere (serde : Serde) (session : String) (store : SochStore) (k : String) : Prop :=
  ∃ mk m, mk ≠ manifestKey session (nextEpoch store session) ∧
    HasManifest serde session store mk m ∧ k ∈ m.compactedKeys ∧
      isStored store m.summaryKey = true

/-- The deletes that were applied are made good for: by the summary of this compaction, by one
that is already stored under its key, or by other manifests. -/
def DeletesCovered (serde : Serde) (session : String) (input : CompactionInput)
    (store : SochStore) (j : ℕ) : Prop :=
  (compactedKeys session store).length + 3 ≤ j ∨
    isStored store (summaryKey session input.ts) = true ∨
      ∀ k ∈ (compactedKeys session store).take (j - 1), CoveredElsewhere serde session store k

theorem covered_crashed_iff (hwf : WellFormed serde session store) (hj : 1 ≤ j)
    (hk : k ∈ compactedKeys session store) :
    Covered serde session ((compactionTxn serde session input store summary).commitUpTo j) k ↔
      (compactedKeys session store).length + 3 ≤ j ∨
        isStored store (summaryKey session input.ts) = true ∨
          CoveredElsewhere serde session store k := by
  have hsummary := startsWith_summaryKey session input.ts
  constructor
  · rintro ⟨mk, m, hm, hkey, hstored⟩
    rcases hasManifest_crashed_iff.mp hm with ⟨rfl, -⟩ | ⟨hm, hother⟩
    · rw [newManifest_summaryKey, isStored_crashed_summary hsummary] at hstored
      rcases hstored with ⟨-, hlate⟩ | hstored
      · exact Or.inl hlate
      · exact Or.inr (Or.inl hstored)
    · rw [isStored_crashed_summary (hwf hm).2] at hstored
      rcases hstored with ⟨-, hlate⟩ | hstored
      · exact Or.inl hlate
      · exact Or.inr (Or.inr ⟨mk, m, fun heq => hother ⟨heq, hj⟩, hm, hkey, hstored⟩)
  · have hnew (h : (compactedKeys session store).length + 3 ≤ j ∨
        isStored store (summaryKey session input.ts) = true) :
        Covered serde session
          ((compactionTxn serde session input store summary).commitUpTo j) k := by
      refine ⟨manifestKey session (nextEpoch store session), newManifest serde session input store,
        hasManifest_crashed_iff.mpr (Or.inl ⟨rfl, rfl, hj⟩), ?_, ?_⟩
      · rwa [newManifest_compactedKeys]
      · rw [newManifest_summaryKey, isStored_crashed_summary hsummary]
        exact h.imp_left fun hlate => ⟨rfl, hlate⟩
    rintro (hlate | hstored | ⟨mk, m, hne, hm, hkey, hstored⟩)
    · exact hnew (Or.inl hlate)
    · exact hnew (Or.inr hstored)
    · refine ⟨mk, m, hasManifest_crashed_iff.mpr (Or.inr ⟨hm, fun h => hne h.1⟩), hkey, ?_⟩
      rw [isStored_crashed_summary (hwf hm).2]
      exact Or.inr hstored

theorem safe_crashed_iff (hwf : WellFormed serde session store) :
    Safe serde session store (integrityCheckedContext serde session
        ((compactionTxn serde session input store summary).commitUpTo j)).1 ↔
      DeletesCovered serde session input store j := by
  rw [safe_checked_iff (wellFormed_crashed hwf)]
  have hdeleted {k : String} (h : k ∈ (compactedKeys session store).take (j - 1)) :
      1 ≤ j ∧ k ∈ compactedKeys session store := by
    refine ⟨?_, List.mem_of_mem_take h⟩
    by_contra hj
    rw [show j - 1 = 0 by omega, List.take_zero] at h
    exact List.not_mem_nil h
  constructor
  · intro hsafe
    rw [DeletesCovered, or_iff_not_imp_left, or_iff_not_imp_left]
    intro hearly hunstored k htake
    obtain ⟨hj, hk⟩ := hdeleted htake
    obtain ⟨⟨k, v⟩, hmem, rfl⟩ := List.mem_map.mp hk
    obtain ⟨hv, hprefix⟩ := SochStore.mem_scan.mp (List.mem_of_mem_take hmem)
    have hcovered := hsafe k v hprefix hv
    rw [lookup_crashed_message hprefix, if_pos htake] at hcovered
    rcases (covered_crashed_iff hwf hj hk).mp (hcovered.resolve_left (by simp)) with
      hlate | hstored | helse
    · exact absurd hlate hearly
    · exact absurd hstored hunstored
    · exact helse
  · intro h k v hprefix hv
    rw [lookup_crashed_message hprefix]
    split
    case isTrue htake =>
      obtain ⟨hj, hk⟩ := hdeleted htake
      refine Or.inr ((covered_crashed_iff hwf hj hk).mpr ?_)
      exact h.imp_right (Or.imp_right fun hall => hall k htake)
    case isFalse => exact Or.inl hv

/-- A compaction that is not cut short is a crash after all writes. -/
theorem crashedCompaction_of_le (hj : (compactedKeys session store).length + 3 ≤ j) :
    crashedCompaction serde session input store j =
      (atomicCompactSession serde session input store).1 := by
  unfold crashedCompaction atomicCompactSession
  cases compactionSummary serde session input store with
  | none => rfl
  | some summary =>
      refine TransactionalConn.commitUpTo_of_le ?_
      rw [writes_compactionTxn, List.length_cons, List.length_append, messageDeletes,
        List.length_map]
      exact hj

/-- **A compaction that is not cut short is safe.** -/
theorem atomicCompactSession_safe (hwf : WellFormed serde session store) :
    Safe serde session store (integrityCheckedContext serde session
      (atomicCompactSession serde session input store).1).1 := by
  rw [← crashedCompaction_of_le (le_refl _)]
  unfold crashedCompaction
  cases compactionSummary serde session input store with
  | none => exact (safe_checked_iff hwf).mpr fun k v _ hv => Or.inl hv
  | some summary => exact (safe_crashed_iff hwf).mpr (Or.inl (le_refl _))

/-- **A compaction that runs to its end loses nothing**, whatever was cut short before it, the
repair right before it included: each message is stored or covered afterwards, and not both. -/
theorem complete_compaction_safe (hreachable : Reachable serde session store)
    (input : CompactionInput) (j : ℕ) :
    Safe serde session ((repairTxn serde session store).1.commitUpTo j)
      (integrityCheckedContext serde session (atomicCompactSession serde session input
        ((repairTxn serde session store).1.commitUpTo j)).1).1 :=
  atomicCompactSession_safe (hreachable.repair j).wellFormed

/-- **A crashed compaction is safe exactly when each deleted message is covered without the
summary written last.** -/
theorem crash_safe_iff (hreachable : Reachable serde session store) :
    Safe serde session store (integrityCheckedContext serde session
        (crashedCompaction serde session input store j)).1 ↔
      compactionSummary serde session input store = none ∨
        DeletesCovered serde session input store j := by
  have hwf : WellFormed serde session store := hreachable.wellFormed
  unfold crashedCompaction
  cases compactionSummary serde session input store with
  | none =>
      rw [safe_checked_iff hwf]
      exact iff_of_true (fun k v _ hv => Or.inl hv) (Or.inl rfl)
  | some summary =>
      rw [safe_crashed_iff hwf]
      exact (or_iff_right (by simp)).symm

end Recovery

/-! ### A session with one message too many -/

namespace LongSession

variable {k mk : String} {v : Bytes} {m : CompactionManifest}

def session : String := "webchat:alice"

/-- A message of a batch, whose messages have one timestamp. -/
def messageKey (seq : ℕ) : String :=
  messagesPrefix session ++ ("00000001714564800000/" ++ String.ofList (decimal 10 seq))

def hello : Bytes :=
  asBytes (Json.object
    [("role", .string "user"), ("content", .string "hello"),
      ("timestamp", .string "2024-05-01T12:00:00Z"), ("model", .null), ("token_count", .null),
      ("tool_call_id", .null), ("tool_name", .null)]).render

noncomputable def serde : Serde where
  manifest := manifestReader
  message bytes := if bytes = hello then some ⟨.user, "hello"⟩ else none
  manifest_toVec := manifestReader_toVec

def input : CompactionInput where
  ts := 1714564900000
  compactedAt := "2024-05-01T12:01:40Z"
  summarizer := some fun _ => "Greetings."

def messages : ℕ → SochStore
  | 0 => ∅
  | n + 1 => (messages n).insert (messageKey n) hello

theorem startsWith_messageKey (seq : ℕ) :
    startsWith (messageKey seq) (messagesPrefix session) = true :=
  startsWith_append _ _

theorem reachable_messages (n : ℕ) : Reachable serde session (messages n) := by
  induction n with
  | zero => exact .empty
  | succ n ih =>
      refine ih.put hello ?_
      exact Bool.eq_false_of_not_eq_true (not_manifest_of_message (startsWith_messageKey n))

theorem messageKey_lt {i n : ℕ} (hn : n < 10 ^ 10) (h : i < n) : messageKey i < messageKey n := by
  unfold messageKey
  simp only [String.lt_iff_toList_lt, String.toList_append, String.toList_ofList]
  exact List.append_left_lt (List.append_left_lt (decimal_lt_decimal hn h))

theorem lookup_messages {n : ℕ} (hn : n ≤ 10 ^ 10) :
    (messages n).lookup k = some v ↔ ∃ i < n, k = messageKey i ∧ v = hello := by
  induction n with
  | zero =>
      show (∅ : SochStore).lookup k = some v ↔ _
      simp
  | succ n ih =>
      rw [messages]
      rcases eq_or_ne k (messageKey n) with rfl | hne
      · rw [AList.lookup_insert, Option.some.injEq]
        constructor
        · rintro rfl
          exact ⟨n, Nat.lt_succ_self n, rfl, rfl⟩
        · rintro ⟨-, -, -, rfl⟩
          rfl
      · rw [AList.lookup_insert_ne hne, ih (by omega)]
        constructor
        · rintro ⟨i, hi, h⟩
          exact ⟨i, Nat.lt_succ_of_lt hi, h⟩
        · rintro ⟨i, hi, rfl, h⟩
          rcases Nat.lt_succ_iff_lt_or_eq.mp hi with hi | rfl
          · exact ⟨i, hi, rfl, h⟩
          · exact absurd rfl hne

theorem scan_messages {n : ℕ} (hn : n ≤ 10 ^ 10) :
    (messages n).scan (messagesPrefix session) =
      (List.range n).map fun i => (messageKey i, hello) := by
  refine scan_eq ?_ fun k v => ?_
  · rw [List.pairwise_map]
    refine List.pairwise_lt_range.imp_of_mem fun _ hb h => ?_
    exact messageKey_lt (lt_of_lt_of_le (List.mem_range.mp hb) hn) h
  · rw [lookup_messages hn, List.mem_map]
    constructor
    · rintro ⟨i, hi, heq⟩
      obtain ⟨rfl, rfl⟩ := Prod.mk.inj heq
      exact ⟨⟨i, List.mem_range.mp hi, rfl, rfl⟩, startsWith_messageKey i⟩
    · rintro ⟨⟨i, hi, rfl, rfl⟩, -⟩
      exact ⟨i, List.mem_range.mpr hi, rfl⟩

theorem compactedKeys_messages {n : ℕ} (hn : n ≤ 10 ^ 10) :
    compactedKeys session (messages n) = (List.range (n - 200)).map messageKey := by
  unfold compactedKeys coldEntries
  rw [scan_messages hn]
  simp only [List.length_map, List.length_range, hotTierSize]
  rw [← List.map_take, List.take_range, List.map_map, Nat.min_eq_left (Nat.sub_le n 200)]
  rfl

/-- No manifest is stored yet. -/
theorem not_hasManifest {n : ℕ} (hn : n ≤ 10 ^ 10) :
    ¬ HasManifest serde session (messages n) mk m := by
  rintro ⟨bytes, hentry, -⟩
  obtain ⟨hlookup, hprefix⟩ := SochStore.mem_scan.mp hentry
  obtain ⟨i, -, rfl, -⟩ := (lookup_messages hn).mp hlookup
  exact not_manifest_of_message (startsWith_messageKey i) hprefix

theorem not_stored_summary {n : ℕ} (hn : n ≤ 10 ^ 10) (ts : ℤ) :
    ¬ isStored (messages n) (summaryKey session ts) = true := by
  intro hstored
  obtain ⟨v, hv⟩ := Option.isSome_iff_exists.mp hstored
  obtain ⟨i, -, hkey, -⟩ := (lookup_messages hn).mp hv
  have hlt := (lt_epoch_of_message (startsWith_messageKey i)).trans
    (epoch_lt_of_summary (startsWith_summaryKey session ts))
  exact hlt.ne' hkey

theorem not_safe {n : ℕ} (hn : n ≤ 10 ^ 10) (hlong : hotTierSize < n) :
    ¬ Safe serde session (messages n) (integrityCheckedContext serde session
      (crashedCompaction serde session input (messages n) 2)).1 := by
  have hsummary : compactionSummary serde session input (messages n) = some "Greetings." := by
    unfold compactionSummary
    rw [scan_messages hn, List.length_map, List.length_range, if_neg hlong.not_ge]
    simp only [summarize, input]
  unfold hotTierSize at hlong
  simp only [crashedCompaction, hsummary]
  rw [safe_crashed_iff (reachable_messages n).wellFormed, DeletesCovered,
    compactedKeys_messages hn, List.length_map, List.length_range, ← List.map_take,
    List.take_range]
  rintro (hlate | hstored | helse)
  · omega
  · exact not_stored_summary hn input.ts hstored
  · have hzero : 0 ∈ List.range (min (2 - 1) (n - 200)) := List.mem_range.mpr (by omega)
    obtain ⟨mk, m, -, hm, -⟩ := helse (messageKey 0) (List.mem_map_of_mem hzero)
    exact not_hasManifest hn hm

/-- A crash right after the manifest loses nothing. -/
theorem crash_safe_iff_manifest_only :
    Safe serde session (messages 201) (integrityCheckedContext serde session
      (crashedCompaction serde session input (messages 201) 1)).1 := by
  refine (crash_safe_iff (reachable_messages 201)).mpr (Or.inr (Or.inr (Or.inr ?_)))
  rw [Nat.sub_self, List.take_zero]
  exact fun k hk => absurd hk List.not_mem_nil

theorem complete_compaction_safe_long :
    Safe serde session ((repairTxn serde session (messages 201)).1.commitUpTo 0)
      (integrityCheckedContext serde session (atomicCompactSession serde session input
        ((repairTxn serde session (messages 201)).1.commitUpTo 0)).1).1 :=
  complete_compaction_safe (reachable_messages 201) input 0

/-- A crash after the first delete loses the message. -/
theorem first_message_lost :
    Reachable serde session (messages 201) ∧
      hotTierSize < ((messages 201).scan (messagesPrefix session)).length ∧
        ¬ Safe serde session (messages 201) (integrityCheckedContext serde session
          (crashedCompaction serde session input (messages 201) 2)).1 := by
  have hn : 201 ≤ 10 ^ 10 := by norm_num
  have hlong : hotTierSize < 201 := Nat.lt_succ_self 200
  refine ⟨reachable_messages 201, ?_, not_safe hn hlong⟩
  rw [scan_messages hn, List.length_map, List.length_range]
  exact hlong

end LongSession

end ClawDesk.Sochdb
