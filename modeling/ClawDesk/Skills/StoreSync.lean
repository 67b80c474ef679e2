import ClawDesk.Foundations.Fold
import Mathlib.Data.List.AList
import Mathlib.Data.List.Nodup

/-!
# Synchronisation of the skill store

The catalog of the skill store is brought up to date with a remote one.  What is
missing is added, what has another version is replaced, and what the remote
catalog does not list is pruned.  A Merkle root over the identifiers and versions
of the remote catalog tells whether it is the one of the last synchronisation.

Where it is, the catalog is taken to be fresh, without a look at the store.  So a
synchronisation after local changes does what it should just where the short cut is
not taken, or the store mirrors the remote catalog anyway (`sync_conforms_iff`).

The JSON reader and SHA-256 are parameters.
-/

namespace ClawDesk.Skills

open ClawDesk.Foundations

/-! ### The store -/

/-- Installation state of a store skill. -/
inductive InstallState where
  | available
  | installing
  | installed
  | active
  | updateAvailable
  | failed
  deriving DecidableEq

/-- A skill listing in the store catalog, without the texts and figures on display. -/
structure StoreEntry where
  skillId : String
  version : String
  installState : InstallState
  deriving DecidableEq

/-- The skill store backend: all entries in the catalog, keyed by skill ID string. -/
structure StoreBackend where
  catalog : AList fun _ : String => StoreEntry

namespace StoreBackend

def new : StoreBackend := ⟨∅⟩

/-- Add or update an entry in the catalog. -/
def upsert (store : StoreBackend) (entry : StoreEntry) : StoreBackend :=
  ⟨store.catalog.insert entry.skillId entry⟩

/-- Get a specific entry. -/
def get (store : StoreBackend) (skillId : String) : Option StoreEntry :=
  store.catalog.lookup skillId

/-- Update the install state of a skill. -/
def setInstallState (store : StoreBackend) (skillId : String) (state : InstallState) :
    Option Unit × StoreBackend :=
  match store.catalog.lookup skillId with
  | none => (none, store)
  | some entry => (some (), ⟨store.catalog.insert skillId { entry with installState := state }⟩)

/-- All keys in the catalog. -/
def allKeys (store : StoreBackend) : List String := store.catalog.keys

/-- Remove an entry from the catalog; true if the entry existed. -/
def remove (store : StoreBackend) (skillId : String) : Bool × StoreBackend :=
  ((store.catalog.lookup skillId).isSome, ⟨store.catalog.erase skillId⟩)

variable {store : StoreBackend} {entry : StoreEntry} {k skillId : String}

theorem get_upsert : (store.upsert entry).get k =
    if k = entry.skillId then some entry else store.get k := by
  unfold upsert get
  split_ifs with h
  · rw [h, AList.lookup_insert]
  · exact AList.lookup_insert_ne h

theorem get_remove : (store.remove skillId).2.get k =
    if k = skillId then none else store.get k := by
  unfold remove get
  split_ifs with h
  · rw [h, AList.lookup_erase]
  · exact AList.lookup_erase_ne h

theorem mem_allKeys : k ∈ store.allKeys ↔ (store.get k).isSome :=
  AList.lookup_isSome.symm

end StoreBackend

/-! ### The Merkle root -/

section Merkle

-- `Sha256::digest`
variable (sha256 : List UInt8 → List UInt8)

def textBytes (s : String) : List UInt8 := s.toUTF8.data.toList

/-- A hexadecimal digit. -/
def hexDigit (n : ℕ) : Char := if n < 10 then Char.ofNat (48 + n) else Char.ofNat (87 + n)

/-- `hex::encode`. -/
def hexEncode (bytes : List UInt8) : String :=
  String.ofList (bytes.flatMap fun b => [hexDigit (b.toNat / 16), hexDigit (b.toNat % 16)])

/-- The hash of an entry. -/
def leafHash (e : StoreEntry) : List UInt8 :=
  sha256 (textBytes e.skillId ++ textBytes ":" ++ textBytes e.version)

/-- The nodes above a level of the tree; an odd node is hashed with itself. -/
def nextLevel : List (List UInt8) → List (List UInt8)
  | [] => []
  | [a] => [sha256 (a ++ a)]
  | a :: b :: rest => sha256 (a ++ b) :: nextLevel rest

theorem length_nextLevel (level : List (List UInt8)) :
    (nextLevel sha256 level).length = (level.length + 1) / 2 := by
  fun_induction nextLevel sha256 level with
  | case1 => simp
  | case2 a => simp
  | case3 a b rest ih =>
      simp only [List.length_cons, ih]
      omega

/-- The root above a level of the tree. -/
def merkleTop (level : List (List UInt8)) : List UInt8 :=
  if level.length ≤ 1 then level.headD [] else merkleTop (nextLevel sha256 level)
  termination_by level.length
  decreasing_by
    rw [length_nextLevel]
    omega

/-- Compute the Merkle root of a set of store entries. -/
def computeMerkleRoot (entries : List StoreEntry) : String :=
  if entries.isEmpty then String.ofList (List.replicate 64 '0')
  else
    hexEncode (merkleTop sha256
      ((entries.map (leafHash sha256)).mergeSort fun a b => decide (a ≤ b)))

end Merkle

/-! ### The delta -/

/-- An entry whose version differs from the local one, with the local install state
preserved. -/
def updateOf (store : StoreBackend) (entry : StoreEntry) : Option StoreEntry :=
  match store.get entry.skillId with
  | none => none
  | some existing =>
      if existing.version ≠ entry.version then
        some { entry with installState := existing.installState }
      else none

/-- Compute the delta between a remote catalog and the local store: what to add, what to
update, and what to prune. -/
def computeDelta (remote : List StoreEntry) (store : StoreBackend) :
    List StoreEntry × List StoreEntry × List String :=
  let toAdd := remote.filter fun entry => (store.get entry.skillId).isNone
  let toUpdate := remote.filterMap (updateOf store)
  let remoteIds := remote.map StoreEntry.skillId
  let toPrune := store.allKeys.filter fun k => k ∉ remoteIds
  (toAdd, toUpdate, toPrune)

/-- Result of a catalog sync operation. -/
structure SyncResult where
  added : ℕ
  updated : ℕ
  pruned : ℕ
  wasFresh : Bool
  merkleRoot : String
  etag : Option String
  warnings : List String
  deriving DecidableEq

/-- Add or update some entries. -/
def upsertAll (store : StoreBackend) (entries : List StoreEntry) : StoreBackend :=
  entries.foldl StoreBackend.upsert store

/-- Remove some keys, and count those that were there. -/
def removeAll (store : StoreBackend) (keys : List String) : ℕ × StoreBackend :=
  keys.foldl (fun (acc : ℕ × StoreBackend) key =>
    (if (acc.2.remove key).1 then acc.1 + 1 else acc.1, (acc.2.remove key).2)) (0, store)

/-- Apply a sync delta to the local store. -/
def applyDelta (store : StoreBackend) (toAdd toUpdate : List StoreEntry) (toPrune : List String)
    (pruneEnabled : Bool) : SyncResult × StoreBackend :=
  let store := upsertAll (upsertAll store toAdd) toUpdate
  let pruning := if pruneEnabled then removeAll store toPrune else (0, store)
  ({ added := toAdd.length, updated := toUpdate.length, pruned := pruning.1, wasFresh := false,
     merkleRoot := "", etag := none, warnings := [] }, pruning.2)

section Delta

variable {store : StoreBackend} {remote entries : List StoreEntry} {keys : List String} {k : String}

/-- The identifiers in a catalog are distinct. -/
def DistinctIds (entries : List StoreEntry) : Prop :=
  entries.Pairwise fun e e' => e.skillId ≠ e'.skillId

theorem get_upsertAll_of_ne (h : ∀ e ∈ entries, e.skillId ≠ k) :
    (upsertAll store entries).get k = store.get k := by
  induction entries generalizing store with
  | nil => rfl
  | cons entry entries ih =>
      obtain ⟨hne, h⟩ := List.forall_mem_cons.mp h
      rw [upsertAll, List.foldl_cons, ← upsertAll, ih h, StoreBackend.get_upsert,
        if_neg (Ne.symm hne)]

theorem get_upsertAll_of_mem {e : StoreEntry} (hdistinct : DistinctIds entries)
    (he : e ∈ entries) : (upsertAll store entries).get e.skillId = some e := by
  induction entries generalizing store with
  | nil => exact absurd he List.not_mem_nil
  | cons entry entries ih =>
      obtain ⟨hnew, hdistinct⟩ := List.pairwise_cons.mp hdistinct
      rw [upsertAll, List.foldl_cons, ← upsertAll]
      rcases List.mem_cons.mp he with rfl | he
      · rw [get_upsertAll_of_ne fun e' he' => (hnew e' he').symm, StoreBackend.get_upsert,
          if_pos rfl]
      · exact ih hdistinct he

/-- What is there after some keys have been removed. -/
theorem get_removeAll : (removeAll store keys).2.get k =
    if k ∈ keys then none else store.get k := by
  unfold removeAll
  generalize 0 = count
  induction keys generalizing store count with
  | nil => simp
  | cons key keys ih =>
      rw [List.foldl_cons, ih, StoreBackend.get_remove]
      by_cases hk : k = key
      · simp [hk]
      · simp [hk]

/-- What a remote entry becomes in the store. -/
def merged (store : StoreBackend) (entry : StoreEntry) : StoreEntry :=
  match store.get entry.skillId with
  | none => entry
  | some existing =>
      if existing.version ≠ entry.version then
        { entry with installState := existing.installState }
      else existing

theorem updateOf_eq_some_iff {e u : StoreEntry} : updateOf store e = some u ↔
    ∃ existing, store.get e.skillId = some existing ∧ existing.version ≠ e.version ∧
      u = { e with installState := existing.installState } := by
  unfold updateOf
  cases store.get e.skillId with
  | none => simp
  | some existing => simp [eq_comm]

theorem mem_toAdd {e : StoreEntry} :
    e ∈ (computeDelta remote store).1 ↔ e ∈ remote ∧ store.get e.skillId = none := by
  unfold computeDelta
  simp

theorem mem_toUpdate {u : StoreEntry} : u ∈ (computeDelta remote store).2.1 ↔
    ∃ e ∈ remote, ∃ existing, store.get e.skillId = some existing ∧
      existing.version ≠ e.version ∧ u = { e with installState := existing.installState } := by
  unfold computeDelta
  simp only [List.mem_filterMap, updateOf_eq_some_iff]

theorem mem_toPrune : k ∈ (computeDelta remote store).2.2 ↔
    (store.get k).isSome ∧ ∀ e ∈ remote, e.skillId ≠ k := by
  unfold computeDelta
  simp [StoreBackend.mem_allKeys]

theorem distinctIds_toAdd (hdistinct : DistinctIds remote) :
    DistinctIds (computeDelta remote store).1 :=
  hdistinct.filter _

theorem distinctIds_toUpdate (hdistinct : DistinctIds remote) :
    DistinctIds (computeDelta remote store).2.1 := by
  refine List.Pairwise.filterMap _ (fun e e' hne u hu u' hu' => ?_) hdistinct
  obtain ⟨_, -, -, rfl⟩ := updateOf_eq_some_iff.mp hu
  obtain ⟨_, -, -, rfl⟩ := updateOf_eq_some_iff.mp hu'
  exact hne

theorem eq_of_skillId_eq (hdistinct : DistinctIds remote) {e e' : StoreEntry} (he : e ∈ remote)
    (he' : e' ∈ remote) (h : e.skillId = e'.skillId) : e = e' := by
  have : Std.Symm fun e e' : StoreEntry => e.skillId ≠ e'.skillId := ⟨fun _ _ => Ne.symm⟩
  by_contra hne
  exact hdistinct.forall he he' hne h

/-- The store after the delta to a remote catalog has been applied, with pruning. -/
def mirrored (store : StoreBackend) (remote : List StoreEntry) : StoreBackend :=
  let (toAdd, toUpdate, toPrune) := computeDelta remote store
  (applyDelta store toAdd toUpdate toPrune true).2

theorem get_mirrored : (mirrored store remote).get k =
    if k ∈ (computeDelta remote store).2.2 then none
    else (upsertAll (upsertAll store (computeDelta remote store).1)
      (computeDelta remote store).2.1).get k :=
  get_removeAll

theorem get_mirrored_of_ne (h : ∀ e ∈ remote, e.skillId ≠ k) :
    (mirrored store remote).get k = none := by
  rw [get_mirrored]
  split_ifs with hprune
  · rfl
  have hnone : store.get k = none := by
    rw [mem_toPrune] at hprune
    cases hget : store.get k with
    | none => rfl
    | some x => exact absurd ⟨by rw [hget]; rfl, h⟩ hprune
  rw [get_upsertAll_of_ne, get_upsertAll_of_ne, hnone]
  · intro e he
    exact h e (mem_toAdd.mp he).1
  · intro u hu
    obtain ⟨e, he, _, -, -, rfl⟩ := mem_toUpdate.mp hu
    exact h e he

/-- A remote entry is there afterwards, with the local install state if there was one. -/
theorem get_mirrored_of_mem (hdistinct : DistinctIds remote) {e : StoreEntry} (he : e ∈ remote) :
    (mirrored store remote).get e.skillId = some (merged store e) := by
  have hprune : e.skillId ∉ (computeDelta remote store).2.2 := by
    rw [mem_toPrune]
    exact fun h => h.2 e he rfl
  rw [get_mirrored, if_neg hprune]
  have hupdate : ∀ u ∈ (computeDelta remote store).2.1, u.skillId = e.skillId →
      ∃ existing, store.get e.skillId = some existing ∧ existing.version ≠ e.version := by
    intro u hu hid
    obtain ⟨e', he', existing, hget, hversion, rfl⟩ := mem_toUpdate.mp hu
    obtain rfl := eq_of_skillId_eq hdistinct he' he hid
    exact ⟨existing, hget, hversion⟩
  have hadd : ∀ a ∈ (computeDelta remote store).1, a.skillId = e.skillId →
      store.get e.skillId = none := by
    intro a ha hid
    rw [← hid]
    exact (mem_toAdd.mp ha).2
  unfold merged
  cases hget : store.get e.skillId with
  | none =>
      rw [get_upsertAll_of_ne, get_upsertAll_of_mem (distinctIds_toAdd hdistinct)
        (mem_toAdd.mpr ⟨he, hget⟩)]
      intro u hu hid
      obtain ⟨existing, hsome, -⟩ := hupdate u hu hid
      exact absurd (hsome.symm.trans hget) (Option.some_ne_none _)
  | some existing =>
      have hkept : (upsertAll store (computeDelta remote store).1).get e.skillId =
          some existing := by
        rw [get_upsertAll_of_ne, hget]
        intro a ha hid
        exact absurd (hget.symm.trans (hadd a ha hid)) (Option.some_ne_none _)
      dsimp only
      by_cases hversion : existing.version ≠ e.version
      · rw [if_pos hversion]
        exact get_upsertAll_of_mem (distinctIds_toUpdate hdistinct)
          (mem_toUpdate.mpr ⟨e, he, existing, hget, hversion, rfl⟩)
      · rw [if_neg hversion, get_upsertAll_of_ne, hkept]
        intro u hu hid
        obtain ⟨x, hx, hne⟩ := hupdate u hu hid
        obtain rfl := Option.some.inj (hget.symm.trans hx)
        exact hversion hne

/-- The store holds exactly the remote identifiers, each with the remote version. -/
def Mirrors (store : StoreBackend) (remote : List StoreEntry) : Prop :=
  ∀ k version, (∃ e, store.get k = some e ∧ e.version = version) ↔
    ∃ e ∈ remote, e.skillId = k ∧ e.version = version

theorem merged_version {e : StoreEntry} : (merged store e).version = e.version := by
  unfold merged
  cases store.get e.skillId with
  | none => rfl
  | some existing =>
      dsimp only
      split_ifs with h
      · rfl
      · exact not_not.mp h

/-- What was there keeps its install state. -/
theorem installState_mirrored (hdistinct : DistinctIds remote) {e e' : StoreEntry}
    (he : store.get k = some e) (he' : (mirrored store remote).get k = some e') :
    e'.installState = e.installState := by
  by_cases h : ∃ r ∈ remote, r.skillId = k
  · obtain ⟨r, hr, rfl⟩ := h
    rw [get_mirrored_of_mem hdistinct hr] at he'
    obtain rfl := Option.some.inj he'
    unfold merged
    rw [he]
    dsimp only
    split_ifs <;> rfl
  · rw [get_mirrored_of_ne fun r hr hid => h ⟨r, hr, hid⟩] at he'
    exact absurd he'.symm (Option.some_ne_none _)

theorem mirrors_mirrored (hdistinct : DistinctIds remote) :
    Mirrors (mirrored store remote) remote := by
  intro k version
  constructor
  · rintro ⟨e, hget, rfl⟩
    by_cases h : ∃ r ∈ remote, r.skillId = k
    · obtain ⟨r, hr, rfl⟩ := h
      obtain rfl := Option.some.inj ((get_mirrored_of_mem hdistinct hr).symm.trans hget)
      exact ⟨r, hr, rfl, merged_version.symm⟩
    · rw [get_mirrored_of_ne fun r hr hid => h ⟨r, hr, hid⟩] at hget
      exact absurd hget.symm (Option.some_ne_none _)
  · rintro ⟨r, hr, rfl, rfl⟩
    exact ⟨merged store r, get_mirrored_of_mem hdistinct hr, merged_version⟩

/-- Nothing is to be done for a store that mirrors the catalog. -/
theorem computeDelta_of_mirrors (h : Mirrors store remote) :
    computeDelta remote store = ([], [], []) := by
  have hthere : ∀ r ∈ remote, ∃ e, store.get r.skillId = some e ∧ e.version = r.version :=
    fun r hr => (h r.skillId r.version).mpr ⟨r, hr, rfl, rfl⟩
  have hadd : (computeDelta remote store).1 = [] := by
    rw [List.eq_nil_iff_forall_not_mem]
    intro r hr
    obtain ⟨hr, hnone⟩ := mem_toAdd.mp hr
    obtain ⟨e, he, -⟩ := hthere r hr
    exact absurd (he.symm.trans hnone) (Option.some_ne_none _)
  have hupdate : (computeDelta remote store).2.1 = [] := by
    rw [List.eq_nil_iff_forall_not_mem]
    intro u hu
    obtain ⟨r, hr, existing, hget, hversion, -⟩ := mem_toUpdate.mp hu
    obtain ⟨e, he, heq⟩ := hthere r hr
    obtain rfl := Option.some.inj (hget.symm.trans he)
    exact hversion heq
  have hprune : (computeDelta remote store).2.2 = [] := by
    rw [List.eq_nil_iff_forall_not_mem]
    intro k hk
    obtain ⟨hsome, hnot⟩ := mem_toPrune.mp hk
    obtain ⟨e, he⟩ := Option.isSome_iff_exists.mp hsome
    obtain ⟨r, hr, hid, -⟩ := (h k e.version).mp ⟨e, he, rfl⟩
    exact hnot r hr hid
  exact Prod.ext hadd (Prod.ext hupdate hprune)

end Delta

/-! ### The synchronisation -/

/-- Sync configuration. -/
structure SyncConfig where
  verifyMerkle : Bool
  pruneRemoved : Bool

/-- What is remembered of the last synchronisation. -/
structure SyncState where
  lastEtag : Option String
  lastMerkleRoot : Option String
  lastSyncAt : Option String

/-- Errors during catalog sync. -/
inductive SyncError where
  /-- Failed to parse remote catalog JSON. -/
  | parseFailed (error : String)
  /-- Network error during fetch. -/
  | networkError (error : String)
  /-- Merkle root mismatch (possible tampering). -/
  | merkleRootMismatch (expected actual : String)
  deriving DecidableEq

section Sync

-- `Sha256::digest`, and `serde_json::from_str` on a remote catalog
variable (sha256 : List UInt8 → List UInt8) (fromStr : String → Except String (List StoreEntry))

/-- What a call is given: the payload, the ETag, the configuration, and the time. -/
structure SyncCall where
  remoteJson : String
  etag : Option String
  config : SyncConfig
  now : String

/-- What a synchronisation reads and writes. -/
structure SkillStore where
  store : StoreBackend
  syncState : SyncState

/-- The result of a call that finds nothing to do. -/
def freshResult (merkleRoot : String) (etag : Option String) : SyncResult :=
  { added := 0, updated := 0, pruned := 0, wasFresh := true, merkleRoot := merkleRoot,
    etag := etag, warnings := [] }

/-- The root is that of the last synchronisation, and settles that the catalog is fresh. -/
def rootUnchanged (config : SyncConfig) (syncState : SyncState) (merkleRoot : String) : Bool :=
  config.verifyMerkle && syncState.lastMerkleRoot == some merkleRoot

/-- Full sync pipeline: parse remote, compute delta, verify Merkle, apply. -/
def syncFromRemotePayload (s : SkillStore) (call : SyncCall) :
    Except SyncError SyncResult × SkillStore :=
  match fromStr call.remoteJson with
  | .error e => (.error (.parseFailed e), s)
  | .ok remoteEntries =>
      let merkleRoot := computeMerkleRoot sha256 remoteEntries
      if rootUnchanged call.config s.syncState merkleRoot then
        (.ok (freshResult merkleRoot call.etag), s)
      else
        let (toAdd, toUpdate, toPrune) := computeDelta remoteEntries s.store
        let syncState : SyncState := ⟨call.etag, some merkleRoot, some call.now⟩
        if toAdd.isEmpty && toUpdate.isEmpty && toPrune.isEmpty then
          (.ok (freshResult merkleRoot call.etag), ⟨s.store, syncState⟩)
        else
          let (result, store) :=
            applyDelta s.store toAdd toUpdate toPrune call.config.pruneRemoved
          (.ok { result with merkleRoot := merkleRoot, etag := call.etag }, ⟨store, syncState⟩)

variable {sha256 fromStr} {s : SkillStore} {call : SyncCall} {remote : List StoreEntry}

/-- The short cut is taken: the root of the remote catalog is that of the last
synchronisation. -/
def ShortCut (sha256 : List UInt8 → List UInt8) (s : SkillStore) (config : SyncConfig)
    (remote : List StoreEntry) : Prop :=
  config.verifyMerkle = true ∧
    s.syncState.lastMerkleRoot = some (computeMerkleRoot sha256 remote)

theorem rootUnchanged_iff :
    rootUnchanged call.config s.syncState (computeMerkleRoot sha256 remote) = true ↔
      ShortCut sha256 s call.config remote := by
  simp [rootUnchanged, ShortCut]

/-- Where the short cut is taken nothing changes. -/
theorem sync_of_shortCut (hparse : fromStr call.remoteJson = .ok remote)
    (h : ShortCut sha256 s call.config remote) :
    syncFromRemotePayload sha256 fromStr s call =
      (.ok (freshResult (computeMerkleRoot sha256 remote) call.etag), s) := by
  unfold syncFromRemotePayload
  rw [hparse]
  exact if_pos (rootUnchanged_iff.mpr h)

/-- Where it is not taken, the store comes to mirror the remote catalog. -/
theorem sync_store (hparse : fromStr call.remoteJson = .ok remote)
    (h : ¬ ShortCut sha256 s call.config remote) (hprune : call.config.pruneRemoved = true) :
    (syncFromRemotePayload sha256 fromStr s call).2 =
      ⟨mirrored s.store remote,
        ⟨call.etag, some (computeMerkleRoot sha256 remote), some call.now⟩⟩ := by
  have hroot : ¬ rootUnchanged call.config s.syncState (computeMerkleRoot sha256 remote) = true :=
    fun hunchanged => h (rootUnchanged_iff.mp hunchanged)
  unfold syncFromRemotePayload mirrored
  rw [hparse]
  dsimp only
  rw [if_neg hroot]
  obtain ⟨toAdd, toUpdate, toPrune⟩ := computeDelta remote s.store
  dsimp only
  split_ifs with hempty
  · simp only [Bool.and_eq_true, List.isEmpty_iff] at hempty
    obtain ⟨⟨rfl, rfl⟩, rfl⟩ := hempty
    rfl
  · rw [hprune]

/-- A call finds nothing to do for a store that mirrors the remote catalog. -/
theorem sync_of_mirrors (hparse : fromStr call.remoteJson = .ok remote)
    (h : Mirrors s.store remote) :
    (syncFromRemotePayload sha256 fromStr s call).1 =
        .ok (freshResult (computeMerkleRoot sha256 remote) call.etag) ∧
      (syncFromRemotePayload sha256 fromStr s call).2.store = s.store := by
  by_cases hshort : ShortCut sha256 s call.config remote
  · rw [sync_of_shortCut hparse hshort]
    exact ⟨rfl, rfl⟩
  · have hroot : ¬ rootUnchanged call.config s.syncState (computeMerkleRoot sha256 remote) = true :=
      fun h => hshort (rootUnchanged_iff.mp h)
    unfold syncFromRemotePayload
    rw [hparse]
    dsimp only
    rw [if_neg hroot, computeDelta_of_mirrors h]
    exact ⟨rfl, rfl⟩

/-- What happens to the store. -/
inductive StoreOp where
  | upsert (entry : StoreEntry)
  | remove (skillId : String)
  | setInstallState (skillId : String) (state : InstallState)
  | sync (call : SyncCall)

variable (sha256 fromStr) in
/-- The store and the sync state after one of these. -/
def SkillStore.step (s : SkillStore) : StoreOp → SkillStore
  | .upsert entry => { s with store := s.store.upsert entry }
  | .remove skillId => { s with store := (s.store.remove skillId).2 }
  | .setInstallState skillId state => { s with store := (s.store.setInstallState skillId state).2 }
  | .sync call => (syncFromRemotePayload sha256 fromStr s call).2

/-- A call prunes, and its payload is a catalog with distinct identifiers. -/
def Allowed (fromStr : String → Except String (List StoreEntry)) (_ : SkillStore) :
    StoreOp → Prop
  | .sync call => call.config.pruneRemoved = true ∧
      ∃ remote, fromStr call.remoteJson = .ok remote ∧ DistinctIds remote
  | _ => True

variable (sha256 fromStr) in
/-- What is promised of a call: the store mirrors the remote catalog, what was there keeps its
install state, and the same call once more finds nothing to do. -/
structure Synced (s : SkillStore) (call : SyncCall) (remote : List StoreEntry) : Prop where
  mirrors : Mirrors (syncFromRemotePayload sha256 fromStr s call).2.store remote
  installState : ∀ k e e', s.store.get k = some e →
    (syncFromRemotePayload sha256 fromStr s call).2.store.get k = some e' →
      e'.installState = e.installState
  repeated : ∀ etag now,
    let after := (syncFromRemotePayload sha256 fromStr s call).2
    let again := syncFromRemotePayload sha256 fromStr after { call with etag := etag, now := now }
    again.2.store = after.store ∧ ∃ result, again.1 = .ok result ∧ result.wasFresh = true

variable (sha256 fromStr) in
/-- The calls do what they promise. -/
def Conforms (s : SkillStore) : StoreOp → Prop
  | .sync call => ∀ remote, fromStr call.remoteJson = .ok remote →
      Synced sha256 fromStr s call remote
  | _ => True

variable (sha256 fromStr) in
/-- Where the short cut is taken, the store mirrors the remote catalog already. -/
def Regular (s : SkillStore) : StoreOp → Prop
  | .sync call => ∀ remote, fromStr call.remoteJson = .ok remote →
      ShortCut sha256 s call.config remote → Mirrors s.store remote
  | _ => True

theorem repeated_of_mirrors (hparse : fromStr call.remoteJson = .ok remote)
    (h : Mirrors s.store remote) (etag : Option String) (now : String) :
    let again := syncFromRemotePayload sha256 fromStr s { call with etag := etag, now := now }
    again.2.store = s.store ∧ ∃ result, again.1 = .ok result ∧ result.wasFresh = true := by
  have hagain : (syncFromRemotePayload sha256 fromStr s { call with etag := etag, now := now }).1 =
        .ok (freshResult (computeMerkleRoot sha256 remote) etag) ∧
      (syncFromRemotePayload sha256 fromStr s { call with etag := etag, now := now }).2.store =
        s.store :=
    sync_of_mirrors hparse h
  exact ⟨hagain.2, _, hagain.1, rfl⟩

/-- Which calls do what they promise. -/
theorem synced_iff (hparse : fromStr call.remoteJson = .ok remote)
    (hprune : call.config.pruneRemoved = true) (hdistinct : DistinctIds remote) :
    Synced sha256 fromStr s call remote ↔
      (ShortCut sha256 s call.config remote → Mirrors s.store remote) := by
  by_cases hshort : ShortCut sha256 s call.config remote
  · have hafter := sync_of_shortCut hparse hshort
    constructor
    · intro h _
      have := h.mirrors
      rwa [hafter] at this
    · intro h
      refine ⟨?_, ?_, ?_⟩
      · rw [hafter]
        exact h hshort
      · rw [hafter]
        intro k e e' he he'
        rw [Option.some.inj (he.symm.trans he')]
      · rw [hafter]
        exact repeated_of_mirrors hparse (h hshort)
  · refine iff_of_true ?_ fun h => absurd h hshort
    have hafter := sync_store hparse hshort hprune
    refine ⟨?_, ?_, ?_⟩
    · rw [hafter]
      exact mirrors_mirrored hdistinct
    · rw [hafter]
      intro k e e' he he'
      exact installState_mirrored hdistinct he he'
    · rw [hafter]
      exact repeated_of_mirrors hparse (mirrors_mirrored hdistinct)

/-- **Which runs of local changes and calls do what is promised.** -/
theorem sync_conforms_iff (start : SkillStore) (ops : List StoreOp)
    (hallowed : EachStep (SkillStore.step sha256 fromStr) start ops (Allowed fromStr)) :
    EachStep (SkillStore.step sha256 fromStr) start ops (Conforms sha256 fromStr) ↔
      EachStep (SkillStore.step sha256 fromStr) start ops (Regular sha256 fromStr) := by
  refine eachStep_congr (fun _ => True) hallowed trivial (fun _ _ _ _ _ => trivial) ?_
  rintro s (_ | _ | _ | call) - hallowed
  · exact Iff.rfl
  · exact Iff.rfl
  · exact Iff.rfl
  · obtain ⟨hprune, remote, hparse, hdistinct⟩ := hallowed
    refine forall_congr' fun remote' => forall_congr' fun hparse' => ?_
    obtain rfl := Except.ok.inj (hparse.symm.trans hparse')
    exact synced_iff hparse hprune hdistinct

end Sync

/-! ### A skill that does not come back -/

namespace Removed

def alpha : StoreEntry := ⟨"store/alpha", "1.0", .available⟩

/-- A remote catalog with one skill. -/
def call : SyncCall := ⟨"[alpha]", some "v1", ⟨true, true⟩, "2026-01-01T00:00:00Z"⟩

def fromStr (s : String) : Except String (List StoreEntry) :=
  if s = "[alpha]" then .ok [alpha] else .error "expected value"

def digest (bytes : List UInt8) : List UInt8 := bytes.take 32

def start : SkillStore := ⟨.new, ⟨none, none, none⟩⟩

/-- The skill is synchronised, removed by hand, and synchronised once more. -/
def ops : List StoreOp := [.sync call, .remove "store/alpha", .sync call]

theorem distinct : DistinctIds [alpha] := List.pairwise_singleton _ _

theorem allowed : EachStep (SkillStore.step digest fromStr) start ops (Allowed fromStr) := by
  have hcall : ∀ s, Allowed fromStr s (.sync call) := fun _ => ⟨rfl, [alpha], rfl, distinct⟩
  rw [ops, eachStep_cons, eachStep_cons, eachStep_cons]
  exact ⟨hcall _, trivial, hcall _, eachStep_nil⟩

theorem notShortCut : ¬ ShortCut digest start call.config [alpha] :=
  fun h => absurd h.2.symm (Option.some_ne_none _)

/-- The root is still that of the catalog, the skill is not there. -/
theorem removed_not_conforms :
    ¬ EachStep (SkillStore.step digest fromStr) start ops (Conforms digest fromStr) := by
  intro h
  have hlast := h [.sync call, .remove "store/alpha"] (.sync call) [] rfl [alpha] rfl
  set s := [StoreOp.sync call, .remove "store/alpha"].foldl (SkillStore.step digest fromStr) start
    with hs
  have hafter : s = ⟨((mirrored start.store [alpha]).remove "store/alpha").2,
      ⟨call.etag, some (computeMerkleRoot digest [alpha]), some call.now⟩⟩ := by
    have hfirst : (syncFromRemotePayload digest fromStr start call).2 =
        ⟨mirrored start.store [alpha],
          ⟨call.etag, some (computeMerkleRoot digest [alpha]), some call.now⟩⟩ :=
      sync_store rfl notShortCut rfl
    rw [hs, List.foldl_cons, List.foldl_cons, List.foldl_nil]
    show SkillStore.mk
      ((syncFromRemotePayload digest fromStr start call).2.store.remove "store/alpha").2
      (syncFromRemotePayload digest fromStr start call).2.syncState = _
    rw [hfirst]
  have hshort : ShortCut digest s call.config [alpha] := by
    rw [hafter]
    exact ⟨rfl, rfl⟩
  have hmirrors := hlast.mirrors
  rw [sync_of_shortCut rfl hshort] at hmirrors
  obtain ⟨e, he, -⟩ := (hmirrors "store/alpha" "1.0").mpr ⟨alpha, by simp, rfl, rfl⟩
  rw [hafter, StoreBackend.get_remove, if_pos rfl] at he
  exact absurd he.symm (Option.some_ne_none _)

/-- The same run, as the theorem puts it. -/
theorem sync_conforms_iff_removed :
    EachStep (SkillStore.step digest fromStr) start ops (Conforms digest fromStr) ↔
      EachStep (SkillStore.step digest fromStr) start ops (Regular digest fromStr) :=
  sync_conforms_iff start ops allowed

end Removed

end ClawDesk.Skills
