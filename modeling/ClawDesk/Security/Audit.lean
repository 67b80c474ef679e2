import ClawDesk.Foundations.Json
import Mathlib.Data.Int.Notation
import Mathlib.Data.List.Induction

/-!
# The audit log

Every entry stores the hash of its own data and of the hash before it, so the
entries form a chain that begins at a fixed value.  The log is a ring: a full log
drops its oldest entry for the next one.  Verification starts at the oldest entry
retained, and takes the fixed value for the hash before it.

Once an entry has been dropped, the entry that is now the oldest follows a hash
that is no longer there.  So a log nobody has touched verifies as long as it has
not dropped anything, and afterwards only by a coincidence of two hashes
(`verifyChain_iff`).
-/

namespace ClawDesk.Security

open Foundations

inductive AuditCategory where
  | authentication
  | configChange
  | toolExecution
  | fileAccess
  | messageSend
  | messageReceive
  | sessionLifecycle
  | pluginLifecycle
  | securityAlert
  | adminAction
  deriving DecidableEq

/-- Who performed the audited action. -/
inductive AuditActor where
  | agent (id : String)
  | user (senderId channel : String)
  | system
  | plugin (name : String)
  | cron (taskId : String)

/-- Outcome of an audited action. -/
inductive AuditOutcome where
  | success
  | denied
  | failed
  | blocked

/-- A structured audit log entry.  The field `prevHash` holds the hash of the entry
itself, which is the one before the next entry. -/
structure AuditEntry where
  id : String
  timestamp : ℤ
  category : AuditCategory
  action : String
  actor : AuditActor
  target : Option String
  detail : Json
  outcome : AuditOutcome
  prevHash : String

/-- What `log` is called with, and the id and the time it draws. -/
structure AuditRecord where
  id : String
  timestamp : ℤ
  category : AuditCategory
  action : String
  actor : AuditActor
  target : Option String
  detail : Json
  outcome : AuditOutcome

/-- Hash-chain verification result. -/
structure ChainVerification where
  valid : Bool
  entriesChecked : ℕ
  firstInvalid : Option ℕ
  deriving DecidableEq

/-- The logger: the ring, the indexes of absolute positions, and the count of all
entries ever inserted. -/
structure AuditLogger where
  entries : List AuditEntry
  idxCategory : AuditCategory → List ℕ
  idxActor : String → List ℕ
  totalInserted : ℕ
  maxEntries : ℕ

/-- The hash before the first entry. -/
def genesis : String := String.ofList (List.replicate 64 '0')

/-- The actor type label for an entry. -/
def AuditActor.label : AuditActor → String
  | agent _ => "agent"
  | user _ _ => "user"
  | system => "system"
  | plugin _ => "plugin"
  | cron _ => "cron"

namespace AuditLogger

def new (maxEntries : ℕ) : AuditLogger where
  entries := []
  idxCategory := fun _ => []
  idxActor := fun _ => []
  totalInserted := 0
  maxEntries := maxEntries

/-- Remove stale index entries pointing before the ring's start. -/
def pruneIndexes (logger : AuditLogger) (minAbsolute : ℕ) : AuditLogger :=
  { logger with
    idxCategory := fun c => (logger.idxCategory c).filter (minAbsolute ≤ ·)
    idxActor := fun a => (logger.idxActor a).filter (minAbsolute ≤ ·) }

/-- Evict the oldest entry if at capacity. -/
def evict (logger : AuditLogger) : AuditLogger :=
  if logger.maxEntries ≤ logger.entries.length then
    { logger with entries := logger.entries.tail }.pruneIndexes
      (logger.totalInserted - logger.maxEntries + 1)
  else logger

/-- Append the entry and update the secondary indexes. -/
def push (logger : AuditLogger) (entry : AuditEntry) : AuditLogger :=
  { logger with
    entries := logger.entries ++ [entry]
    idxCategory := fun c =>
      if c = entry.category then logger.idxCategory c ++ [logger.totalInserted]
      else logger.idxCategory c
    idxActor := fun a =>
      if a = entry.actor.label then logger.idxActor a ++ [logger.totalInserted]
      else logger.idxActor a
    totalInserted := logger.totalInserted + 1 }

section Chain

variable (sha256Hex : String → String) (showTime : ℤ → String)

/-- `H(id:timestamp:action:prev_hash)`, for any hash function `H` and any way to print
a time. -/
def chainHash (id : String) (timestamp : ℤ) (action prevHash : String) : String :=
  sha256Hex (id ++ ":" ++ showTime timestamp ++ ":" ++ action ++ ":" ++ prevHash)

/-- The entry that is made of a record after the hash `prevHash`. -/
def entryAfter (prevHash : String) (r : AuditRecord) : AuditEntry where
  id := r.id
  timestamp := r.timestamp
  category := r.category
  action := r.action
  actor := r.actor
  target := r.target
  detail := r.detail
  outcome := r.outcome
  prevHash := chainHash sha256Hex showTime r.id r.timestamp r.action prevHash

/-- Log an audit entry with hash chaining and index updates. -/
def log (logger : AuditLogger) (r : AuditRecord) : AuditEntry × AuditLogger :=
  let prevHash := (logger.entries.getLast?.map (·.prevHash)).getD genesis
  let entry := entryAfter sha256Hex showTime prevHash r
  (entry, logger.evict.push entry)

/-- The loop of `verify_chain` from the `i`-th entry on, after the hash `prevHash`. -/
def verifyFrom (prevHash : String) (i checked : ℕ) : List AuditEntry → ChainVerification
  | [] => ⟨true, checked, none⟩
  | entry :: rest =>
      if chainHash sha256Hex showTime entry.id entry.timestamp entry.action prevHash ≠
          entry.prevHash then
        ⟨false, checked, some i⟩
      else verifyFrom entry.prevHash (i + 1) (checked + 1) rest

/-- Verify hash chain integrity. -/
def verifyChain (logger : AuditLogger) : ChainVerification :=
  if logger.entries.isEmpty then ⟨true, 0, none⟩
  else verifyFrom sha256Hex showTime genesis 0 0 logger.entries

/-- Log the records one after another. -/
def logAll (logger : AuditLogger) (rs : List AuditRecord) : AuditLogger :=
  rs.foldl (fun logger r => (logger.log sha256Hex showTime r).2) logger

/-! ### The chain of all entries ever logged -/

/-- The entries that are made of the records after the hash `prevHash`. -/
def chain : String → List AuditRecord → List AuditEntry
  | _, [] => []
  | prevHash, r :: rs =>
      entryAfter sha256Hex showTime prevHash r ::
        chain (entryAfter sha256Hex showTime prevHash r).prevHash rs

/-- The hash of the last of them. -/
def hashAfter (prevHash : String) (rs : List AuditRecord) : String :=
  rs.foldl (fun h r => (entryAfter sha256Hex showTime h r).prevHash) prevHash

/-- Nothing has been dropped, or the oldest entry retained would have the same hash at
the beginning of the log. -/
def Anchored (maxEntries : ℕ) (rs : List AuditRecord) : Prop :=
  rs.length ≤ maxEntries ∨
    ∃ before r after, rs = before ++ r :: after ∧ after.length + 1 = maxEntries ∧
      chainHash sha256Hex showTime r.id r.timestamp r.action genesis =
        chainHash sha256Hex showTime r.id r.timestamp r.action
          (hashAfter sha256Hex showTime genesis before)

variable {sha256Hex : String → String} {showTime : ℤ → String} {prevHash : String}
  {rs rs' : List AuditRecord}

@[simp] theorem length_chain (rs : List AuditRecord) :
    (chain sha256Hex showTime prevHash rs).length = rs.length := by
  induction rs generalizing prevHash with
  | nil => rfl
  | cons r rs ih => simp [chain, ih]

theorem chain_append : chain sha256Hex showTime prevHash (rs ++ rs') =
    chain sha256Hex showTime prevHash rs ++
      chain sha256Hex showTime (hashAfter sha256Hex showTime prevHash rs) rs' := by
  induction rs generalizing prevHash with
  | nil => rfl
  | cons r rs ih => exact congrArg (_ :: ·) ih

/-- What is left of a chain is the chain of what is left, after another hash. -/
theorem drop_chain (k : ℕ) : (chain sha256Hex showTime prevHash rs).drop k =
    chain sha256Hex showTime (hashAfter sha256Hex showTime prevHash (rs.take k)) (rs.drop k) := by
  induction k generalizing prevHash rs with
  | zero => rfl
  | succ k ih =>
      cases rs with
      | nil => rfl
      | cons r rs => exact ih

theorem getLast_chain (rs : List AuditRecord) :
    ((chain sha256Hex showTime prevHash rs).getLast?.map (·.prevHash)).getD prevHash =
      hashAfter sha256Hex showTime prevHash rs := by
  induction rs using List.reverseRecOn with
  | nil => rfl
  | append_singleton rs r _ =>
      rw [chain_append]
      simp [chain, hashAfter]

/-- **A chain verifies from the hash it follows.** -/
theorem verifyFrom_chain (rs : List AuditRecord) (i checked : ℕ) :
    verifyFrom sha256Hex showTime prevHash i checked (chain sha256Hex showTime prevHash rs) =
      ⟨true, checked + rs.length, none⟩ := by
  induction rs generalizing prevHash i checked with
  | nil => rfl
  | cons r rs ih =>
      have hfits : ¬ chainHash sha256Hex showTime r.id r.timestamp r.action prevHash ≠
          (entryAfter sha256Hex showTime prevHash r).prevHash := not_not.mpr rfl
      rw [chain, verifyFrom]
      exact (if_neg hfits).trans (by rw [ih, List.length_cons, Nat.add_assoc, Nat.add_comm 1])

/-! ### What the ring retains -/

@[simp] theorem evict_entries (logger : AuditLogger) :
    logger.evict.entries = if logger.maxEntries ≤ logger.entries.length then
      logger.entries.tail else logger.entries := by
  unfold evict
  split_ifs <;> rfl

@[simp] theorem evict_maxEntries (logger : AuditLogger) :
    logger.evict.maxEntries = logger.maxEntries := by
  unfold evict
  split_ifs <;> rfl

theorem logAll_concat (logger : AuditLogger) (rs : List AuditRecord) (r : AuditRecord) :
    logger.logAll sha256Hex showTime (rs ++ [r]) =
      ((logger.logAll sha256Hex showTime rs).log sha256Hex showTime r).2 :=
  List.foldl_append

theorem maxEntries_logAll (logger : AuditLogger) (rs : List AuditRecord) :
    (logger.logAll sha256Hex showTime rs).maxEntries = logger.maxEntries := by
  induction rs using List.reverseRecOn with
  | nil => rfl
  | append_singleton rs r ih =>
      rw [logAll_concat]
      exact (evict_maxEntries _).trans ih

/-- **The ring retains the end of the chain**: a ring without a place still holds the last
entry. -/
theorem entries_logAll (maxEntries : ℕ) (rs : List AuditRecord) :
    ((new maxEntries).logAll sha256Hex showTime rs).entries =
      (chain sha256Hex showTime genesis rs).drop (rs.length - max 1 maxEntries) := by
  induction rs using List.reverseRecOn with
  | nil => simp [logAll, new, chain]
  | append_singleton rs r ih =>
      rw [logAll_concat]
      show (evict _).entries ++ [entryAfter sha256Hex showTime _ r] = _
      -- the entry is made after the last hash of the whole chain
      have hlast : ((((new maxEntries).logAll sha256Hex showTime rs).entries.getLast?).map
          (·.prevHash)).getD genesis = hashAfter sha256Hex showTime genesis rs := by
        rw [← getLast_chain, ih, List.getLast?_drop]
        split_ifs with hlen
        · obtain rfl : rs = [] := by
            rw [length_chain] at hlen
            exact List.eq_nil_of_length_eq_zero (by omega)
          rfl
        · rfl
      rw [hlast, evict_entries, maxEntries_logAll, ih, chain_append, List.length_append]
      show (if maxEntries ≤ _ then _ else _) ++ _ = _
      rw [List.length_drop, length_chain, List.length_singleton]
      have hle :
          rs.length + 1 - max 1 maxEntries ≤ (chain sha256Hex showTime genesis rs).length := by
        rw [length_chain]
        omega
      split_ifs with hfull
      · rw [List.tail_drop]
        -- an empty ring without a place drops nothing
        have hdrop : (chain sha256Hex showTime genesis rs).drop (rs.length - max 1 maxEntries + 1) =
            (chain sha256Hex showTime genesis rs).drop (rs.length + 1 - max 1 maxEntries) := by
          rcases rs with _ | ⟨r', rs⟩
          · simp [chain]
          · congr 1
            simp only [List.length_cons] at hfull ⊢
            omega
        rw [hdrop, List.drop_append_of_le_length hle]
        rfl
      · rw [List.drop_append_of_le_length hle]
        congr 2
        omega

/-- The verdict on a ring that is not empty: either its oldest entry fits the
beginning, and then all of it is valid, or that entry is the first invalid one. -/
theorem verifyChain_of_split {maxEntries : ℕ} {before after : List AuditRecord} {r : AuditRecord}
    (hpos : 1 ≤ maxEntries) (hbefore : before.length = (before ++ r :: after).length - maxEntries) :
    ((new maxEntries).logAll sha256Hex showTime (before ++ r :: after)).verifyChain sha256Hex
        showTime =
      if chainHash sha256Hex showTime r.id r.timestamp r.action genesis =
          chainHash sha256Hex showTime r.id r.timestamp r.action
            (hashAfter sha256Hex showTime genesis before)
      then ⟨true, after.length + 1, none⟩ else ⟨false, 0, some 0⟩ := by
  have hentries : ((new maxEntries).logAll sha256Hex showTime (before ++ r :: after)).entries = _ :=
    entries_logAll _ _
  rw [Nat.max_eq_right hpos, ← hbefore, drop_chain, List.drop_left, List.take_left,
    chain] at hentries
  rw [verifyChain, hentries, List.isEmpty_cons, verifyFrom]
  show (if _ then _ else if chainHash _ _ r.id r.timestamp r.action genesis ≠ _ then _ else _) = _
  rw [verifyFrom_chain, ite_not, Nat.add_comm]
  rfl

/-- **An untouched log verifies as long as nothing has been dropped from it**, and
afterwards exactly when the hash of the oldest entry does not depend on the hash that
was dropped. -/
theorem verifyChain_iff {maxEntries : ℕ} (hpos : 1 ≤ maxEntries) (rs : List AuditRecord) :
    ((new maxEntries).logAll sha256Hex showTime rs).verifyChain sha256Hex showTime =
        ⟨true, ((new maxEntries).logAll sha256Hex showTime rs).entries.length, none⟩ ↔
      Anchored sha256Hex showTime maxEntries rs := by
  have hlength : ((new maxEntries).logAll sha256Hex showTime rs).entries.length =
      rs.length - (rs.length - maxEntries) := by
    rw [entries_logAll, Nat.max_eq_right hpos, List.length_drop, length_chain]
  obtain ⟨before, rest, rfl, hbefore⟩ : ∃ before rest, rs = before ++ rest ∧
      before.length = rs.length - maxEntries :=
    ⟨rs.take (rs.length - maxEntries), rs.drop (rs.length - maxEntries),
      (List.take_append_drop _ _).symm, by simp⟩
  cases rest with
  | nil =>
      -- nothing was logged
      obtain rfl : before = [] := by
        rw [List.append_nil] at hbefore
        exact List.eq_nil_of_length_eq_zero (by omega)
      exact iff_of_true rfl (.inl (Nat.zero_le _))
  | cons r after =>
      rw [verifyChain_of_split hpos hbefore, hlength]
      have hafter : (before ++ r :: after).length - ((before ++ r :: after).length - maxEntries) =
          after.length + 1 := by
        rw [← hbefore, List.length_append, List.length_cons]
        omega
      rw [hafter]
      constructor
      · intro h
        by_cases hfits : chainHash sha256Hex showTime r.id r.timestamp r.action genesis =
            chainHash sha256Hex showTime r.id r.timestamp r.action
              (hashAfter sha256Hex showTime genesis before)
        · by_cases hfull : (before ++ r :: after).length ≤ maxEntries
          · exact .inl hfull
          · refine .inr ⟨before, r, after, rfl, ?_, hfits⟩
            omega
        · rw [if_neg hfits] at h
          simp at h
      · rintro (hle | ⟨before', r', after', hsplit, hlen, hfits⟩)
        · obtain rfl : before = [] := List.eq_nil_of_length_eq_zero (by omega)
          exact if_pos rfl
        · have hsame : before.length = before'.length := by
            have htotal := congrArg List.length hsplit
            simp only [List.length_append, List.length_cons] at htotal hbefore
            omega
          obtain ⟨rfl, hrest⟩ := List.append_inj hsplit hsame
          obtain ⟨rfl, -⟩ := List.cons.inj hrest
          exact if_pos hfits

end Chain

/-! ### Two entries -/

/-- A record of an action of the system. -/
def sample (id : String) : AuditRecord where
  id := id
  timestamp := 0
  category := .messageSend
  action := "msg"
  actor := .system
  target := none
  detail := .null
  outcome := .success

theorem verifyChain_iff_whole :
    ((new 2).logAll (fun text => text) (fun _ => "t") [sample "1", sample "2"]).verifyChain
      (fun text => text) (fun _ => "t") = ⟨true, 2, none⟩ :=
  (verifyChain_iff (by decide) [sample "1", sample "2"]).mpr (.inl (by decide))

/-- **An untouched log of one place does not verify after its second entry.** -/
theorem untouched_invalid :
    ((new 1).logAll (fun text => text) (fun _ => "t") [sample "1", sample "2"]).verifyChain
      (fun text => text) (fun _ => "t") = ⟨false, 0, some 0⟩ := by
  decide

end AuditLogger

end ClawDesk.Security
