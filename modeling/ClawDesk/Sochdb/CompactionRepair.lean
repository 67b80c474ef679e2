import ClawDesk.Sochdb.CompactionRecovery

/-!
# What a repair does to any store

A repair deletes the manifests that cannot be read, those whose summary is not stored, and the
stored keys that a manifest with a stored summary lists (`Deletes`); everything else stays.  After
it no listed key is stored any more.

What a manifest lists is deleted whatever it is, and may be the summary of a manifest that stays.
Where this does not happen, a validation finds nothing afterwards and a second repair has nothing
to do, and only there (`repair_exact`).  The manifests of a compaction list messages only.
-/

namespace ClawDesk.Sochdb

open Foundations

section Repair

variable {serde : Serde} {session : String} {store : SochStore} {k mk : String} {v : Bytes}
  {m : CompactionManifest}

/-- A manifest that cannot be read is stored under the key. -/
def CorruptManifest (serde : Serde) (session : String) (store : SochStore) (k : String) : Prop :=
  ∃ bytes, (k, bytes) ∈ store.scan (manifestsPrefix session) ∧ serde.manifest bytes = none

/-- A manifest whose summary is not stored is stored under the key. -/
def DanglingManifest (serde : Serde) (session : String) (store : SochStore) (k : String) : Prop :=
  ∃ m, HasManifest serde session store k m ∧ isStored store m.summaryKey = false

/-- A repair deletes the key. -/
def Deletes (serde : Serde) (session : String) (store : SochStore) (k : String) : Prop :=
  CorruptManifest serde session store k ∨ DanglingManifest serde session store k ∨
    Covered serde session store k ∧ isStored store k = true

/-- No manifest that stays loses its summary. -/
def KeepsSummaries (serde : Serde) (session : String) (store : SochStore) : Prop :=
  ∀ mk m, HasManifest serde session store mk m → ¬ Deletes serde session store mk →
    ¬ Deletes serde session store m.summaryKey

/-! ### The repaired store -/

/-- **Only these keys are deleted.** -/
theorem lookup_repair_iff : (repairIntegrity serde session store).1.lookup k = some v ↔
    store.lookup k = some v ∧ ¬ Deletes serde session store k := by
  have hmem : k ∈ repairedKeys serde session store ↔ Deletes serde session store k :=
    mem_repairedKeys
  rw [lookup_repairIntegrity, ← hmem]
  split <;> simp_all

theorem isStored_repair : isStored (repairIntegrity serde session store).1 k = true ↔
    isStored store k = true ∧ ¬ Deletes serde session store k := by
  simp only [isStored, Option.isSome_iff_exists, lookup_repair_iff, exists_and_right]

theorem mem_scan_repair {pre : String} :
    (k, v) ∈ (repairIntegrity serde session store).1.scan pre ↔
      (k, v) ∈ store.scan pre ∧ ¬ Deletes serde session store k := by
  rw [SochStore.mem_scan, SochStore.mem_scan, lookup_repair_iff, and_right_comm]

theorem hasManifest_repair :
    HasManifest serde session (repairIntegrity serde session store).1 mk m ↔
      HasManifest serde session store mk m ∧ ¬ Deletes serde session store mk := by
  constructor
  · rintro ⟨bytes, hentry, hread⟩
    obtain ⟨hentry, hkept⟩ := mem_scan_repair.mp hentry
    exact ⟨⟨bytes, hentry, hread⟩, hkept⟩
  · rintro ⟨⟨bytes, hentry, hread⟩, hkept⟩
    exact ⟨bytes, mem_scan_repair.mpr ⟨hentry, hkept⟩, hread⟩

/-- A manifest only stays with its summary stored. -/
theorem stored_of_kept (hm : HasManifest serde session store mk m)
    (hkept : ¬ Deletes serde session store mk) : isStored store m.summaryKey = true := by
  by_contra hsummary
  exact hkept (.inr (.inl ⟨m, hm, Bool.eq_false_of_not_eq_true hsummary⟩))

/-- What a manifest that stays lists is gone. -/
theorem not_stored_repair (hm : HasManifest serde session store mk m)
    (hkept : ¬ Deletes serde session store mk) (hk : k ∈ m.compactedKeys) :
    ¬ isStored (repairIntegrity serde session store).1 k = true := by
  rw [isStored_repair]
  rintro ⟨hstored, hnot⟩
  exact hnot (.inr (.inr ⟨⟨mk, m, hm, hk, stored_of_kept hm hkept⟩, hstored⟩))

/-! ### The validation afterwards -/

theorem orphaned_repair : (validateIntegrity serde session
    (repairIntegrity serde session store).1).orphaned = 0 := by
  rw [validateIntegrity_counts.1, List.countP_eq_zero]
  rintro ⟨mk, bytes⟩ hentry horphaned
  obtain ⟨m, hread, horphan⟩ := (Option.any_eq_true _ _).mp horphaned
  obtain ⟨hm, hkept⟩ := hasManifest_repair.mp ⟨bytes, hentry, hread⟩
  obtain ⟨k, hk, hstored⟩ := List.any_eq_true.mp (Bool.and_eq_true_iff.mp horphan).2
  exact not_stored_repair hm hkept hk hstored

theorem missing_repair_iff : (validateIntegrity serde session
    (repairIntegrity serde session store).1).missingSummaries = 0 ↔
      KeepsSummaries serde session store := by
  rw [validateIntegrity_counts.2, List.countP_eq_zero]
  constructor
  · intro hnone mk m hm hkept hdeleted
    obtain ⟨bytes, hentry, hread⟩ := hasManifest_repair.mpr ⟨hm, hkept⟩
    have hgone : isStored (repairIntegrity serde session store).1 m.summaryKey = false :=
      Bool.eq_false_of_not_eq_true fun h => (isStored_repair.mp h).2 hdeleted
    refine hnone (mk, bytes) hentry ?_
    rw [isMissing, hread, Option.any_some, hgone]
    rfl
  · rintro hkeeps ⟨mk, bytes⟩ hentry hmissing
    obtain ⟨m, hread, hgone⟩ := (Option.any_eq_true _ _).mp hmissing
    obtain ⟨hm, hkept⟩ := hasManifest_repair.mp ⟨bytes, hentry, hread⟩
    have hstored := isStored_repair.mpr ⟨stored_of_kept hm hkept, hkeeps mk m hm hkept⟩
    rw [hstored] at hgone
    cases hgone

/-! ### A second repair -/

/-- A repair that deletes nothing. -/
theorem repair_eq_self_iff : repairIntegrity serde session store = (store, 0) ↔
    ∀ k, ¬ Deletes serde session store k := by
  have hnil : repairedKeys serde session store = [] ↔ ∀ k, ¬ Deletes serde session store k := by
    rw [List.eq_nil_iff_forall_not_mem]
    exact forall_congr' fun k => not_congr mem_repairedKeys
  rw [← hnil, repairIntegrity, repairTxn_eq]
  constructor
  · exact fun h => List.eq_nil_of_length_eq_zero (Prod.mk.inj h).2
  · intro h
    rw [h]
    rfl

theorem repair_repair_iff : repairIntegrity serde session (repairIntegrity serde session store).1 =
    ((repairIntegrity serde session store).1, 0) ↔ KeepsSummaries serde session store := by
  rw [repair_eq_self_iff]
  constructor
  · intro hnone mk m hm hkept hdeleted
    refine hnone mk (.inr (.inl ⟨m, hasManifest_repair.mpr ⟨hm, hkept⟩, ?_⟩))
    exact Bool.eq_false_of_not_eq_true fun h => (isStored_repair.mp h).2 hdeleted
  · rintro hkeeps k (⟨bytes, hentry, hread⟩ | ⟨m, hm, hgone⟩ | ⟨⟨mk, m, hm, hk, -⟩, hstored⟩)
    · obtain ⟨hentry, hkept⟩ := mem_scan_repair.mp hentry
      exact hkept (.inl ⟨bytes, hentry, hread⟩)
    · obtain ⟨hm, hkept⟩ := hasManifest_repair.mp hm
      have hstored := isStored_repair.mpr ⟨stored_of_kept hm hkept, hkeeps k m hm hkept⟩
      rw [hstored] at hgone
      cases hgone
    · obtain ⟨hm, hkept⟩ := hasManifest_repair.mp hm
      exact not_stored_repair hm hkept hk hstored

/-! ### Manifests of compactions -/

theorem deletes_message_iff (hk : startsWith k (messagesPrefix session) = true) :
    Deletes serde session store k ↔ Covered serde session store k ∧ isStored store k = true := by
  have hnot := not_manifest_of_message hk
  constructor
  · rintro (⟨bytes, hentry, -⟩ | ⟨m, hm, -⟩ | hcovered)
    · exact absurd (SochStore.mem_scan.mp hentry).2 hnot
    · exact absurd (startsWith_of_hasManifest hm) hnot
    · exact hcovered
  · exact fun hcovered => .inr (.inr hcovered)

/-- Manifests that list messages only are deleted if they are corrupt or dangling only. -/
theorem deletes_manifest (hwf : WellFormed serde session store)
    (hk : startsWith k (manifestsPrefix session) = true) (h : Deletes serde session store k) :
    CorruptManifest serde session store k ∨ DanglingManifest serde session store k := by
  rcases h with hcorrupt | hdangling | ⟨⟨mk, m, hm, hlisted, -⟩, -⟩
  · exact .inl hcorrupt
  · exact .inr hdangling
  · exact absurd hk (not_manifest_of_message ((hwf hm).1 k hlisted))

theorem keepsSummaries_of_wellFormed (hwf : WellFormed serde session store) :
    KeepsSummaries serde session store := by
  intro mk m hm _ hdeleted
  have hepoch := epoch_lt_of_summary (hwf hm).2
  rcases hdeleted with ⟨bytes, hentry, -⟩ | ⟨m', hm', -⟩ | ⟨⟨mk', m', hm', hlisted, -⟩, -⟩
  · exact lt_asymm (lt_epoch_of_manifest (SochStore.mem_scan.mp hentry).2) hepoch
  · exact lt_asymm (lt_epoch_of_manifest (startsWith_of_hasManifest hm')) hepoch
  · exact lt_asymm (lt_epoch_of_message ((hwf hm').1 _ hlisted)) hepoch

end Repair

/-- **A repair deletes corrupt manifests, manifests whose summary is not stored, and the stored keys
that a manifest with a stored summary lists, and nothing else.  Afterwards no manifest is orphaned,
and none misses its summary, and a second repair does nothing, exactly if no manifest that stays
loses its summary.  It is so for manifests that list messages only.** -/
theorem repair_exact (serde : Serde) (session : String) (store : SochStore) :
    (∀ k v, (repairIntegrity serde session store).1.lookup k = some v ↔
      store.lookup k = some v ∧ ¬ Deletes serde session store k) ∧
    (∀ k, startsWith k (messagesPrefix session) = true →
      (Deletes serde session store k ↔ Covered serde session store k ∧ isStored store k = true)) ∧
    (validateIntegrity serde session (repairIntegrity serde session store).1).orphaned = 0 ∧
    ((validateIntegrity serde session
      (repairIntegrity serde session store).1).missingSummaries = 0 ↔
        KeepsSummaries serde session store) ∧
    (repairIntegrity serde session (repairIntegrity serde session store).1 =
      ((repairIntegrity serde session store).1, 0) ↔ KeepsSummaries serde session store) ∧
    (WellFormed serde session store → KeepsSummaries serde session store ∧
      ∀ k, startsWith k (manifestsPrefix session) = true → Deletes serde session store k →
        CorruptManifest serde session store k ∨ DanglingManifest serde session store k) :=
  ⟨fun _ _ => lookup_repair_iff, fun _ => deletes_message_iff, orphaned_repair, missing_repair_iff,
    repair_repair_iff, fun hwf => ⟨keepsSummaries_of_wellFormed hwf,
      fun _ => deletes_manifest hwf⟩⟩

/-! ### A manifest that lists its summary -/

namespace LongSession

def selfListing : CompactionManifest where
  epoch := 1
  sessionId := session
  compactedAt := "2024-05-01T12:01:40Z"
  compactedKeys := [summaryKey session 0]
  summaryKey := summaryKey session 0
  sourceDigest := ""
  messageCount := 1
  rangeStartMs := 0
  rangeEndMs := 0

/-- A summary, and a manifest that says the summary has been compacted. -/
def selfListingStore : SochStore :=
  ((∅ : SochStore).insert (summaryKey session 0) (asBytes "Greetings.")).insert
    (manifestKey session 1) (manifestToVec selfListing)

theorem summaryKey_ne : summaryKey session 0 ≠ manifestKey session 1 := fun heq =>
  lt_asymm (lt_epoch_of_manifest (startsWith_manifestKey session 1))
    (heq ▸ epoch_lt_of_summary (startsWith_summaryKey session 0))

theorem isStored_selfListing : isStored selfListingStore (summaryKey session 0) = true := by
  rw [isStored, selfListingStore, AList.lookup_insert_ne summaryKey_ne, AList.lookup_insert]
  rfl

theorem mem_scan_selfListing {k : String} {bytes : Bytes} :
    (k, bytes) ∈ selfListingStore.scan (manifestsPrefix session) ↔
      k = manifestKey session 1 ∧ bytes = manifestToVec selfListing := by
  rw [SochStore.mem_scan]
  constructor
  · rintro ⟨hlookup, hprefix⟩
    by_cases hk : k = manifestKey session 1
    · subst hk
      exact ⟨rfl, Option.some.inj (hlookup.symm.trans (AList.lookup_insert _))⟩
    · rw [selfListingStore, AList.lookup_insert_ne hk] at hlookup
      by_cases hsummary : k = summaryKey session 0
      · subst hsummary
        exact absurd (lt_epoch_of_manifest hprefix)
          (lt_asymm (epoch_lt_of_summary (startsWith_summaryKey session 0)))
      · rw [AList.lookup_insert_ne hsummary, AList.lookup_empty] at hlookup
        cases hlookup
  · rintro ⟨rfl, rfl⟩
    exact ⟨AList.lookup_insert _, startsWith_manifestKey session 1⟩

theorem hasManifest_selfListing {mk : String} {m : CompactionManifest} :
    HasManifest serde session selfListingStore mk m ↔
      mk = manifestKey session 1 ∧ m = selfListing := by
  constructor
  · rintro ⟨bytes, hentry, hread⟩
    obtain ⟨rfl, rfl⟩ := mem_scan_selfListing.mp hentry
    exact ⟨rfl, Option.some.inj (hread.symm.trans (manifestReader_toVec selfListing))⟩
  · rintro ⟨rfl, rfl⟩
    exact ⟨_, mem_scan_selfListing.mpr ⟨rfl, rfl⟩, manifestReader_toVec selfListing⟩

/-- The summary is deleted though it is neither a message nor a manifest, and is missed
afterwards. -/
theorem summary_deleted :
    isStored selfListingStore (summaryKey session 0) = true ∧
      isStored (repairIntegrity serde session selfListingStore).1 (summaryKey session 0) = false ∧
      (validateIntegrity serde session
        (repairIntegrity serde session selfListingStore).1).missingSummaries ≠ 0 := by
  have hdeleted : Deletes serde session selfListingStore (summaryKey session 0) :=
    .inr (.inr ⟨⟨_, _, hasManifest_selfListing.mpr ⟨rfl, rfl⟩, List.mem_singleton_self _,
      isStored_selfListing⟩, isStored_selfListing⟩)
  have hkept : ¬ Deletes serde session selfListingStore (manifestKey session 1) := by
    rintro (⟨bytes, hentry, hread⟩ | ⟨m, hm, hgone⟩ | ⟨⟨mk, m, hm, hk, -⟩, -⟩)
    · obtain ⟨-, rfl⟩ := mem_scan_selfListing.mp hentry
      exact absurd (hread.symm.trans (manifestReader_toVec selfListing)) (by simp)
    · obtain ⟨-, rfl⟩ := hasManifest_selfListing.mp hm
      exact absurd (hgone.symm.trans isStored_selfListing) (by decide)
    · obtain ⟨-, rfl⟩ := hasManifest_selfListing.mp hm
      exact summaryKey_ne (List.mem_singleton.mp hk).symm
  refine ⟨isStored_selfListing, Bool.eq_false_of_not_eq_true fun h =>
    (isStored_repair.mp h).2 hdeleted, fun hnone => ?_⟩
  exact missing_repair_iff.mp hnone _ _ (hasManifest_selfListing.mpr ⟨rfl, rfl⟩) hkept hdeleted

end LongSession

end ClawDesk.Sochdb
