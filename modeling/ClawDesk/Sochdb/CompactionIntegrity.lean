import ClawDesk.Foundations.IpAddress
import ClawDesk.Sochdb.Manifest
import Mathlib.Data.BitVec
import Mathlib.Data.Nat.Digits.Defs

/-!
# Session compaction

The messages of a session beyond the newest ones are replaced by a summary, and a manifest says
which messages the summary stands for.  All of this goes through one transaction
(`atomicCompactSession`).  A crash in its commit leaves some of it (`crashedCompaction`), and
the next context is only built after a check that repairs the session
(`integrityCheckedContext`).
-/

namespace ClawDesk.Sochdb

open Foundations

/-- Maximum number of messages kept verbatim in the hot tier. -/
def hotTierSize : ℕ := 200

/-- Agent message role in a conversation. -/
inductive Role where
  | user
  | assistant
  | system
  | tool
  | toolResult
  deriving DecidableEq

/-- The name that debug output shows. -/
def Role.debug : Role → String
  | .user => "User"
  | .assistant => "Assistant"
  | .system => "System"
  | .tool => "Tool"
  | .toolResult => "ToolResult"

/-- What a compaction reads of a message. -/
structure AgentMessage where
  role : Role
  content : String
  deriving DecidableEq

/-- The JSON library: what it reads from some bytes. -/
structure Serde where
  manifest : Bytes → Option CompactionManifest
  message : Bytes → Option AgentMessage
  manifest_toVec : ∀ m, manifest (manifestToVec m) = some m

/-! ### Keys of a session -/

def messagesPrefix (session : String) : String := "sessions/" ++ session ++ "/messages/"

def manifestsPrefix (session : String) : String := "sessions/" ++ session ++ "/manifests/"

def summariesPrefix (session : String) : String := "sessions/" ++ session ++ "/summaries/"

def epochKey (session : String) : String := "sessions/" ++ session ++ "/meta/compaction_epoch"

def summaryKey (session : String) (ts : ℤ) : String := summariesPrefix session ++ intText ts

def manifestKey (session : String) (epoch : ℕ) : String :=
  manifestsPrefix session ++ String.ofList (decimal 20 epoch)

/-! ### Helpers -/

/-- Eight bytes, the lowest first. -/
def toLeBytes (n : ℕ) : Bytes := (List.range 8).map fun i => UInt8.ofNat (n / 256 ^ i)

def fromLeBytes (bytes : Bytes) : ℕ := Nat.ofDigits 256 (bytes.map UInt8.toNat)

/-- Resolve the next compaction epoch for a session. -/
def nextEpoch (store : SochStore) (session : String) : ℕ :=
  match store.lookup (epochKey session) with
  | some bytes => if bytes.length = 8 then (fromLeBytes bytes + 1) % 2 ^ 64 else 1
  | none => 1

def fnv1a64 (data : Bytes) (seed : BitVec 64) : BitVec 64 :=
  data.foldl (fun hash b => (hash ^^^ b.toBitVec.setWidth 64) * 0x100000001b3#64) seed

/-- 16 hexadecimal digits. -/
def hex16 (n : BitVec 64) : String := String.ofList ((Nat.toDigits 16 n.toNat).leftpad 16 '0')

/-- FNV-1a, run twice with different seeds. -/
def sha256Hex (input : String) : String :=
  hex16 (fnv1a64 (asBytes input) 0xcbf29ce484222325#64) ++
    hex16 (fnv1a64 (asBytes input) 0x6c62272e07bb0142#64)

/-- `str::parse::<i64>`. -/
def parseI64 (s : List Char) : Option ℤ :=
  let negative := s.head? = some '-'
  let text := if negative ∨ s.head? = some '+' then s.tail else s
  if text ≠ [] ∧ text.all (isDigit 10) then
    let value : ℤ := if negative then -numberOf 10 text else numberOf 10 text
    if -2 ^ 63 ≤ value ∧ value < 2 ^ 63 then some value else none
  else none

/-- What follows the last slash. -/
def lastSegment (key : String) : List Char := (key.toList.reverse.takeWhile (· ≠ '/')).reverse

/-- `&s[..n]`; nothing where this panics, off a character boundary. -/
def sliceTo (s : String) (n : ℕ) : Option String :=
  if h : (⟨n⟩ : String.Pos.Raw).IsValid s then some (s.extract s.startPos (s.pos ⟨n⟩ h)) else none

/-! ### Compaction -/

/-- What a compaction takes from outside: the readings of the clock and the summariser. -/
structure CompactionInput where
  ts : ℤ
  compactedAt : String
  summarizer : Option (String → String)

section Model

variable (serde : Serde) (session : String) (input : CompactionInput)

/-- The messages beyond the newest ones. -/
def coldEntries (store : SochStore) : List (String × Bytes) :=
  let results := store.scan (messagesPrefix session)
  results.take (results.length - hotTierSize)

def compactedKeys (store : SochStore) : List String := (coldEntries session store).map Prod.fst

def coldText (cold : List (String × Bytes)) : String :=
  cold.foldl (fun text e =>
    match serde.message e.2 with
    | some msg =>
        (if text.isEmpty then text else text ++ "\n") ++ s!"{msg.role.debug}: {msg.content}"
    | none => text) ""

/-- First and last timestamp, as far as the keys have one. -/
def rangeMs (cold : List (String × Bytes)) : ℤ × ℤ :=
  cold.foldl (fun range e =>
    match parseI64 (lastSegment e.1) with
    | some ts => (min range.1 ts, max range.2 ts)
    | none => range) (2 ^ 63 - 1, -2 ^ 63)

/-- The summary; nothing where cutting the text panics. -/
def summarize (coldCount : ℕ) (text : String) : Option String :=
  match input.summarizer with
  | some f => some (f text)
  | none =>
      if 2000 < text.utf8ByteSize then
        (sliceTo text 2000).map fun head => s!"[Summary of {coldCount} messages] {head}..."
      else some s!"[Summary of {coldCount} messages] {text}"

def newManifest (store : SochStore) : CompactionManifest :=
  let cold := coldEntries session store
  { epoch := nextEpoch store session
    sessionId := session
    compactedAt := input.compactedAt
    compactedKeys := compactedKeys session store
    summaryKey := summaryKey session input.ts
    sourceDigest := sha256Hex (coldText serde cold)
    messageCount := cold.length
    rangeStartMs := (rangeMs cold).1
    rangeEndMs := (rangeMs cold).2 }

/-- All mutations of a compaction, buffered. -/
def compactionTxn (store : SochStore) (summary : String) : TransactionalConn :=
  let manifest := newManifest serde session input store
  let txn := ((TransactionalConn.begin store).put manifest.summaryKey (asBytes summary)).put
    (manifestKey session manifest.epoch) (manifestToVec manifest)
  (manifest.compactedKeys.foldl TransactionalConn.delete txn).put (epochKey session)
    (toLeBytes manifest.epoch)

/-- Is there something to compact, and a summary of it? -/
def compactionSummary (store : SochStore) : Option String :=
  if (store.scan (messagesPrefix session)).length ≤ hotTierSize then none
  else
    let cold := coldEntries session store
    summarize input cold.length (coldText serde cold)

/-- Perform compaction within a single transaction.  Returns the messages compacted and the
manifest. -/
def atomicCompactSession (store : SochStore) : SochStore × ℕ × Option CompactionManifest :=
  match compactionSummary serde session input store with
  | none => (store, 0, none)
  | some summary =>
      ((compactionTxn serde session input store summary).commit.1,
        (coldEntries session store).length, some (newManifest serde session input store))

/-- What a crash after the first `j` operations of the commit leaves. -/
def crashedCompaction (store : SochStore) (j : ℕ) : SochStore :=
  match compactionSummary serde session input store with
  | none => store
  | some summary => (compactionTxn serde session input store summary).commitUpTo j

/-! ### Integrity -/

/-- Result of an integrity validation pass. -/
structure IntegrityReport where
  manifestsChecked : ℕ
  valid : ℕ
  /-- Orphaned manifests (messages still exist). -/
  orphaned : ℕ
  /-- Missing summaries (data loss). -/
  missingSummaries : ℕ
  /-- Overlapping coverage between manifests. -/
  overlapping : ℕ
  cleanedKeys : List String
  deriving DecidableEq

/-- Is something stored under the key? -/
def isStored (store : SochStore) (key : String) : Bool := (store.lookup key).isSome

/-- One manifest of a validation pass, with the ranges seen so far. -/
def validateEntry (store : SochStore) (acc : IntegrityReport × List (ℤ × ℤ × ℕ))
    (entry : String × Bytes) : IntegrityReport × List (ℤ × ℤ × ℕ) :=
  let report := { acc.1 with manifestsChecked := acc.1.manifestsChecked + 1 }
  match serde.manifest entry.2 with
  | none => (report, acc.2)
  | some m =>
      if isStored store m.summaryKey = false then
        ({ report with missingSummaries := report.missingSummaries + 1 }, acc.2)
      else
        let orphanedMsgs := m.compactedKeys.countP (isStored store)
        let report :=
          if 0 < orphanedMsgs then { report with orphaned := report.orphaned + 1 }
          else { report with valid := report.valid + 1 }
        let overlaps := acc.2.countP fun r => m.rangeStartMs ≤ r.2.1 ∧ r.1 ≤ m.rangeEndMs
        ({ report with overlapping := report.overlapping + overlaps },
          acc.2 ++ [(m.rangeStartMs, m.rangeEndMs, m.epoch)])

/-- Validate referential integrity of a session's compaction history. -/
def validateIntegrity (store : SochStore) : IntegrityReport :=
  ((store.scan (manifestsPrefix session)).foldl (validateEntry serde store)
    (⟨0, 0, 0, 0, 0, []⟩, [])).1

/-- One manifest of a repair pass. -/
def repairEntry (store : SochStore) (acc : TransactionalConn × ℕ) (entry : String × Bytes) :
    TransactionalConn × ℕ :=
  match serde.manifest entry.2 with
  -- a corrupt manifest is removed
  | none => (acc.1.delete entry.1, acc.2 + 1)
  | some m =>
      if isStored store m.summaryKey then
        -- the summary takes precedence over messages that are still there
        m.compactedKeys.foldl (fun acc ck =>
          if isStored store ck then (acc.1.delete ck, acc.2 + 1) else acc) acc
      else (acc.1.delete entry.1, acc.2 + 1)

/-- The transaction of a repair pass, and how many keys it cleans. -/
def repairTxn (store : SochStore) : TransactionalConn × ℕ :=
  (store.scan (manifestsPrefix session)).foldl (repairEntry serde store)
    (TransactionalConn.begin store, 0)

/-- Repair a session by removing orphaned manifests and cleaning up dangling references. -/
def repairIntegrity (store : SochStore) : SochStore × ℕ :=
  let (txn, cleaned) := repairTxn serde session store
  (if 0 < cleaned then txn.commit.1 else store, cleaned)

/-- The integrity check before a context is built. -/
def integrityCheckedContext (store : SochStore) : SochStore × IntegrityReport :=
  let report := validateIntegrity serde session store
  (if 0 < report.orphaned ∨ 0 < report.missingSummaries then
      (repairIntegrity serde session store).1
    else store, report)

end Model

end ClawDesk.Sochdb
