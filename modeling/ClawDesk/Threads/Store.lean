import ClawDesk.Foundations.Program
import ClawDesk.Threads.Keys
import Mathlib.Data.List.AList
import Mathlib.Data.List.Sort
import Mathlib.Data.String.Basic

/-!
# The thread store

The procedures of the store are programs over single accesses to one key-value store, whose
operations succeed.  Ids that are drawn and readings of the clock are arguments.
-/

namespace ClawDesk.Threads

open Foundations

/-- A single access to the key-value store. -/
inductive Access where
  | get (k : Key)
  | put (k : Key) (v : k.Val)
  | delete (k : Key)
  | scan (pre : List Char)

@[reducible] def Access.Res : Access → Type
  | get k => Option k.Val
  | put _ _ => Unit
  | delete _ => Unit
  | scan _ => List (Sigma Key.Val)

abbrev Proc (α : Type) : Type := Prog Access Access.Res α

abbrev ask (e : Access) : Proc e.Res := Prog.ask e

/-- Everything that is stored. -/
abbrev World := AList Key.Val

/-- The entries whose keys start with `pre`, in the order of the keys. -/
def World.scan (w : World) (pre : List Char) : List (Sigma Key.Val) :=
  (w.entries.filter fun e => e.1.startsWith pre).insertionSort fun a b => a.1.text ≤ b.1.text

/-- How an access is answered, and what it leaves. -/
def World.serve : (e : Access) → World → e.Res × World
  | .get k, w => (w.lookup k, w)
  | .put k v, w => ((), w.insert k v)
  | .delete k, w => ((), w.erase k)
  | .scan pre, w => (w.scan pre, w)

/-! ### Counters -/

/-- Read a u64 counter. -/
def readCounter (c : Counter) : Proc ℕ := do
  let value ← ask (.get (.counter c))
  return value.getD 0

/-- Increment a u64 counter. -/
def incrementCounter (c : Counter) : Proc Unit := do
  let current ← readCounter c
  ask (.put (.counter c) ((current + 1) % 2 ^ 64))

/-- Decrement a counter by `n`. -/
def decrementCounterBy (c : Counter) (n : ℕ) : Proc Unit := do
  let current ← readCounter c
  ask (.put (.counter c) (current - n))

def decrementCounter (c : Counter) : Proc Unit := decrementCounterBy c 1

/-! ### Threads -/

/-- The metadata of a thread that is created. -/
def newMeta (id : Uuid) (now : Instant) (agentId title : String) (model : Option String) :
    ThreadMeta where
  id := id
  agentId := agentId
  title := title
  createdAt := now
  updatedAt := now
  messageCount := 0
  model := model
  pinned := false
  archived := false
  tags := []
  spawnMode := "standalone"
  parentThreadId := none
  capabilities := []
  skills := []

/-- Create a new thread and return its metadata. -/
def createThread (id : Uuid) (now : Instant) (agentId title : String) (model : Option String) :
    Proc ThreadMeta := do
  let metadata := newMeta id now agentId title model
  ask (.put (.thread id) metadata)
  ask (.put (.idxAgentThread agentId (timestampMicros now) id) ())
  ask (.put (.idxThreadAgent id) agentId)
  incrementCounter .threads
  return metadata

/-- Get thread metadata by id. -/
def getThread (id : Uuid) : Proc (Option ThreadMeta) := ask (.get (.thread id))

/-- Write a thread's metadata, and its entry in the agent index in place of the old one. -/
def putThread (id : Uuid) (oldUpdated : Instant) (metadata : ThreadMeta) : Proc Unit := do
  ask (.put (.thread id) metadata)
  ask (.delete (.idxAgentThread metadata.agentId (timestampMicros oldUpdated) id))
  ask (.put (.idxAgentThread metadata.agentId (timestampMicros metadata.updatedAt) id) ())

inductive ThreadStoreError where
  | threadNotFound (id : Uuid)

/-- Update thread metadata.  The updater changes anything but the time of the update. -/
def updateThread (id : Uuid) (updater : ThreadMeta → ThreadMeta) (now : Instant) :
    Proc (Except ThreadStoreError ThreadMeta) := do
  match ← getThread id with
  | none => return .error (.threadNotFound id)
  | some metadata =>
      let updated := { updater metadata with updatedAt := now }
      putThread id metadata.updatedAt updated
      return .ok updated

/-- Delete one key of a thread's namespace, with the message's attachment. -/
def deleteMessageKey : Key → Proc Unit
  | .message t ts m => do
      if let some msg ← ask (.get (.message t ts m)) then
        if msg.hasAttachment then
          ask (.delete (.attachment msg.id))
      ask (.delete (.message t ts m))
  | k => ask (.delete k)

def deleteMessageKeys : List (Sigma Key.Val) → Proc Unit
  | [] => return
  | e :: entries => do
      deleteMessageKey e.1
      deleteMessageKeys entries

/-- Delete a thread and cascade-delete all its messages, attachments, and secondary index
entries. -/
def deleteThread (id : Uuid) : Proc Bool := do
  match ← getThread id with
  | none => return false
  | some metadata =>
      let entries ← ask (.scan (Key.threadMessagesPrefix id))
      deleteMessageKeys entries
      ask (.delete (.idxAgentThread metadata.agentId (timestampMicros metadata.updatedAt) id))
      ask (.delete (.idxThreadAgent id))
      ask (.delete (.thread id))
      decrementCounter .threads
      decrementCounterBy .messages entries.length
      return true

/-! ### Messages -/

/-- Update thread's `updated_at` and increment `message_count`. -/
def touchThread (id : Uuid) (now : Instant) : Proc Unit := do
  match ← getThread id with
  | none => return
  | some metadata =>
      putThread id metadata.updatedAt
        { metadata with messageCount := (metadata.messageCount + 1) % 2 ^ 64, updatedAt := now }

/-- What a caller hands over to append a message, with the id drawn for it and the readings of
the clock for the message and for its thread. -/
structure NewMessage where
  id : Uuid
  threadId : Uuid
  role : MessageRole
  content : String
  metadata : Option Json
  now : Instant
  touched : Instant

def NewMessage.message (m : NewMessage) (hasAttachment : Bool) : Message where
  id := m.id
  threadId := m.threadId
  role := m.role
  content := m.content
  timestampUs := timestampMicros m.now
  metadata := m.metadata
  hasAttachment := hasAttachment

def NewMessage.key (m : NewMessage) : Key := .message m.threadId (timestampMicros m.now) m.id

/-- Append a message to a thread's namespace. -/
def appendMessage (m : NewMessage) : Proc Message := do
  ask (.put (.message m.threadId (timestampMicros m.now) m.id) (m.message false))
  touchThread m.threadId m.touched
  incrementCounter .messages
  return m.message false

/-- Append a message with an attachment blob. -/
def appendMessageWithAttachment (m : NewMessage) (attachment : List UInt8) : Proc Message := do
  ask (.put (.message m.threadId (timestampMicros m.now) m.id) (m.message true))
  ask (.put (.attachment m.id) attachment)
  touchThread m.threadId m.touched
  incrementCounter .messages
  return m.message true

/-- Delete a single message from a thread. -/
def deleteMessage (threadId : Uuid) (timestampUs : ℕ) (msgId : Uuid) : Proc Bool := do
  match ← ask (.get (.message threadId timestampUs msgId)) with
  | none => return false
  | some msg =>
      if msg.hasAttachment then
        ask (.delete (.attachment msgId))
      ask (.delete (.message threadId timestampUs msgId))
      if let some metadata ← getThread threadId then
        ask (.put (.thread threadId) { metadata with messageCount := metadata.messageCount - 1 })
      decrementCounter .messages
      return true

/-! ### Listing -/

/-- Lightweight summary returned by list operations. -/
structure ThreadSummary where
  id : Uuid
  agentId : String
  title : String
  updatedAt : Instant
  messageCount : ℕ
  pinned : Bool
  archived : Bool
  deriving DecidableEq

def ThreadMeta.summary (m : ThreadMeta) : ThreadSummary where
  id := m.id
  agentId := m.agentId
  title := m.title
  updatedAt := m.updatedAt
  messageCount := m.messageCount
  pinned := m.pinned
  archived := m.archived

inductive SortOrder where
  | updatedDesc
  | createdAsc
  | createdDesc
  deriving DecidableEq

/-- Query parameters for listing threads. -/
structure ThreadQuery where
  agentId : Option String
  includeArchived : Bool
  limit : Option ℕ
  offset : ℕ
  sort : SortOrder

/-- Fetch the metadata that index entries point to. -/
def fetchThreads : List (Sigma Key.Val) → Proc (List ThreadMeta)
  | [] => return []
  | e :: entries =>
      match Key.extractThreadId e.1.text with
      | none => fetchThreads entries
      | some id => do
          let metadata ← getThread id
          let rest ← fetchThreads entries
          return metadata.toList ++ rest

/-- The metadata among some entries. -/
def threadMetas (entries : List (Sigma Key.Val)) : List ThreadMeta :=
  entries.filterMap fun
    | ⟨.thread _, metadata⟩ => some metadata
    | _ => none

/-- The comparison of the chosen order; the texts of times are ordered like the times. -/
def SortOrder.le : SortOrder → ThreadSummary → ThreadSummary → Bool
  | .createdAsc, a, b => a.updatedAt ≤ b.updatedAt
  | _, a, b => b.updatedAt ≤ a.updatedAt

/-- The threads of an agent, by its index, or all threads. -/
def rawThreads : Option String → Proc (List ThreadMeta)
  | some agent => do
      let entries ← ask (.scan (Key.idxAgentPrefix agent))
      fetchThreads entries
  | none => do
      let entries ← ask (.scan Key.threadsPrefix)
      return threadMetas entries

/-- List threads, optionally filtered by agent and/or archive status. -/
def listThreads (query : ThreadQuery) : Proc (List ThreadSummary) := do
  let metas ← rawThreads query.agentId
  let shown := metas.filter fun m => query.includeArchived || !m.archived
  let summaries := (shown.map ThreadMeta.summary).mergeSort query.sort.le
  -- pinned threads always come first
  let summaries := summaries.mergeSort fun a b => !b.pinned || a.pinned
  let start := min query.offset summaries.length
  let stop := (query.limit.map fun l => min (start + l) summaries.length).getD summaries.length
  return (summaries.take stop).drop start

end ClawDesk.Threads
