import ClawDesk.Agents.Pipeline
import Mathlib.Data.Rat.Defs

/-!
# Core types of the durable runtime

The lifecycle of a durable workflow execution: creation, lease, journaled
execution, checkpoint, completion.

Instants are nanoseconds since the epoch, durations are nanoseconds.  Counters
of the source are unsigned machine integers that only ever grow by one or are
added to; they are naturals here.
-/

namespace ClawDesk.Runtime

open Foundations (Json)
open Agents

/-! ## Identifiers -/

/-- Unique identifier of a workflow run.  `RunId::new` prints a random UUID, whose
hyphenated form has no `:` in it; the colon is what separates the parts of a
store key. -/
structure RunId where
  text : String
  noColon : ':' ∉ text.toList
  deriving DecidableEq

/-- Identity of a worker. -/
abbrev WorkerId := String

/-- A point in time, in nanoseconds. -/
abbrev Instant := ℤ

/-- `chrono::Duration::seconds(secs as i64)`, in nanoseconds.  The cast wraps. -/
def durationSeconds (secs : ℕ) : ℤ :=
  (BitVec.ofNat 64 secs).toInt * 1000000000

/-! ## Errors -/

inductive StorageError where
  | openFailed (detail : String)
  | transactionConflict (key : String)
  | serializationFailed (detail : String)
  | notFound (key : String)
  | walCorruption (detail : String)
  | io (detail : String)
  deriving DecidableEq

def StorageError.display : StorageError → String
  | openFailed detail => "database open failed: " ++ detail
  | transactionConflict key => "transaction conflict on key " ++ key
  | serializationFailed detail => "serialization failed: " ++ detail
  | notFound key => "key not found: " ++ key
  | walCorruption detail => "WAL corruption detected: " ++ detail
  | io detail => "I/O error: " ++ detail

inductive AgentError where
  | cancelled
  | toolFailed (tool detail : String)
  | concurrencyConflict (key : String)
  | allProvidersExhausted
  | contextAssemblyFailed (detail : String)
  | maxIterations (limit : ℕ)
  deriving DecidableEq

def AgentError.display : AgentError → String
  | cancelled => "cancelled"
  | toolFailed tool detail => "tool execution failed: " ++ tool ++ ": " ++ detail
  | concurrencyConflict key => "concurrency conflict on session " ++ key
  | allProvidersExhausted => "all providers exhausted"
  | contextAssemblyFailed detail => "context assembly failed: " ++ detail
  | maxIterations limit => "max iterations reached: " ++ toString limit

/-- Errors of the layers around the runtime.  The variants no function of the
runtime tells apart are kept as their text. -/
inductive ClawDeskError where
  | storage (e : StorageError)
  | provider (detail : String)
  | agent (e : AgentError)
  | other (detail : String)
  deriving DecidableEq

def ClawDeskError.display : ClawDeskError → String
  | storage e => "storage: " ++ e.display
  | provider detail => "provider: " ++ detail
  | agent e => "agent: " ++ e.display
  | other detail => detail

/-- Errors specific to the durable runtime layer. -/
inductive RuntimeError where
  | runNotFound (runId : RunId)
  | leaseConflict (runId : RunId) (holder : WorkerId)
  | staleLease (runId : RunId) (expectedFence actualFence : ℕ)
  | terminalState (runId : RunId) (state : String)
  | checkpointCorrupted (detail : String)
  | journalCorrupted (seq : ℕ) (detail : String)
  | deadlineExceeded (runId : RunId)
  | storage (e : StorageError)
  | agent (detail : String)
  deriving DecidableEq

def RuntimeError.display : RuntimeError → String
  | runNotFound runId => "run not found: " ++ runId.text
  | leaseConflict runId holder =>
      "lease conflict: run " ++ runId.text ++ " is held by worker " ++ holder
  | staleLease runId expectedFence actualFence =>
      "lease expired for run " ++ runId.text ++ " (fence expected=" ++ toString expectedFence ++
        ", actual=" ++ toString actualFence ++ ")"
  | terminalState runId state => "run " ++ runId.text ++ " is in terminal state: " ++ state
  | checkpointCorrupted detail => "checkpoint deserialization failed: " ++ detail
  | journalCorrupted seq detail =>
      "journal entry deserialization failed at seq " ++ toString seq ++ ": " ++ detail
  | deadlineExceeded runId => "run " ++ runId.text ++ " exceeded deadline"
  | storage e => "storage error: " ++ e.display
  | agent detail => "agent error: " ++ detail

/-- `impl From<RuntimeError> for ClawDeskError`. -/
def RuntimeError.toClawDeskError : RuntimeError → ClawDeskError
  | storage e => .storage e
  | other => .agent (.contextAssemblyFailed other.display)

/-- Classification of errors for retry decisions. -/
inductive ErrorClass where
  | clientError
  | serverError
  | rateLimited
  | toolError
  | contextOverflow
  | maxIterations
  | leaseExpired
  | unknown
  deriving DecidableEq

def ErrorClass.classify : ClawDeskError → ErrorClass
  | .agent (.maxIterations _) => .maxIterations
  | .agent .cancelled => .clientError
  | .agent (.contextAssemblyFailed _) => .contextOverflow
  | .agent .allProvidersExhausted => .serverError
  | .agent (.toolFailed _ _) => .toolError
  | .agent (.concurrencyConflict _) => .unknown
  | .provider _ => .serverError
  | .storage _ => .serverError
  | .other _ => .unknown

/-! ## Retry policy -/

structure RetryPolicy where
  maxAttempts : ℕ
  initialBackoffSecs : ℕ
  maxBackoffSecs : ℕ
  backoffMultiplier : ℚ
  nonRetryable : List ErrorClass

def RetryPolicy.shouldRetry (policy : RetryPolicy) (error : ErrorClass) : Bool :=
  error ∉ policy.nonRetryable

/-- Default policy for agent loop execution. -/
def RetryPolicy.defaultAgent : RetryPolicy where
  maxAttempts := 3
  initialBackoffSecs := 5
  maxBackoffSecs := 300
  backoffMultiplier := 2
  nonRetryable := [.clientError, .maxIterations, .contextOverflow]

/-- Default policy for pipeline execution. -/
def RetryPolicy.defaultPipeline : RetryPolicy where
  maxAttempts := 2
  initialBackoffSecs := 10
  maxBackoffSecs := 600
  backoffMultiplier := 2
  nonRetryable := [.clientError, .maxIterations]

/-- No retries: fail immediately. -/
def RetryPolicy.none : RetryPolicy where
  maxAttempts := 0
  initialBackoffSecs := 0
  maxBackoffSecs := 0
  backoffMultiplier := 1
  nonRetryable := []

/-! ## Runs -/

/-- Why a run is suspended. -/
inductive SuspendReason where
  | humanGate (prompt : String) (timeoutSecs : ℕ)
  | a2aResponse (taskId : String)
  | userInput (prompt : String)
  deriving DecidableEq

/-- Run lifecycle states. -/
inductive RunState where
  | pending
  | running (workerId : WorkerId)
  | suspended (reason : SuspendReason)
  | completed (output : Json)
  | failed (error : String) (attempts : ℕ)
  | cancelled (reason : String)

/-- Short label for indexing. -/
def RunState.label : RunState → String
  | pending => "pending"
  | running _ => "running"
  | suspended _ => "suspended"
  | completed _ => "completed"
  | failed _ _ => "failed"
  | cancelled _ => "cancelled"

/-- Agent configuration; the model is the only field the runtime reads. -/
structure AgentConfig where
  model : String

/-- What kind of workflow a run represents. -/
inductive WorkflowType where
  | agentLoop (config : AgentConfig) (sessionKey : String)
  | pipeline (pipeline : AgentPipeline)
  | a2aTask (taskId : String)

/-- A durable execution of an agent workflow. -/
structure WorkflowRun where
  id : RunId
  workflowType : WorkflowType
  state : RunState
  retryPolicy : RetryPolicy
  /-- How many times this run has been attempted (first attempt = 1). -/
  attempt : ℕ
  parentRunId : Option RunId
  /-- Worker that currently owns this run. -/
  workerId : Option WorkerId
  createdAt : Instant
  updatedAt : Instant
  deadline : Option Instant
  totalInputTokens : ℕ
  totalOutputTokens : ℕ
  totalToolCalls : ℕ
  /-- Journal sequence counter. -/
  nextSeq : ℕ

/-- `WorkflowRun::new`, for the identifier and the clock reading it draws. -/
def WorkflowRun.new (id : RunId) (now : Instant) (workflowType : WorkflowType)
    (retryPolicy : RetryPolicy) : WorkflowRun where
  id := id
  workflowType := workflowType
  state := .pending
  retryPolicy := retryPolicy
  attempt := 0
  parentRunId := none
  workerId := none
  createdAt := now
  updatedAt := now
  deadline := none
  totalInputTokens := 0
  totalOutputTokens := 0
  totalToolCalls := 0
  nextSeq := 0

/-- Allocate the next journal sequence number. -/
def WorkflowRun.takeSeq (run : WorkflowRun) : ℕ × WorkflowRun :=
  (run.nextSeq, { run with nextSeq := run.nextSeq + 1 })

def RunState.isTerminal : RunState → Bool
  | completed _ | failed _ _ | cancelled _ => true
  | pending | running _ | suspended _ => false

def WorkflowRun.isTerminal (run : WorkflowRun) : Bool := run.state.isTerminal

/-! ## Messages, checkpoints, journal -/

inductive MessageRole where
  | user
  | assistant
  | system
  | tool
  deriving DecidableEq

structure ChatMessage where
  role : MessageRole
  content : String
  cachedTokens : Option ℕ
  deriving DecidableEq

def ChatMessage.new (role : MessageRole) (content : String) : ChatMessage where
  role := role
  content := content
  cachedTokens := none

inductive FinishReason where
  | stop
  | toolUse
  | maxTokens
  | contentFilter
  deriving DecidableEq

/-- The part of an agent's response the runtime reads. -/
structure AgentResponse where
  content : String
  totalRounds : ℕ
  inputTokens : ℕ
  outputTokens : ℕ
  finishReason : FinishReason
  toolMessages : List ChatMessage
  deriving DecidableEq

/-- Snapshot of an LLM response for journal storage; the snapshots the runtime
takes carry no tool calls and no cache usage. -/
structure LlmSnapshot where
  content : String
  model : String
  inputTokens : ℕ
  outputTokens : ℕ
  finishReason : FinishReason
  deriving DecidableEq

/-- The unit of durable side-effect.  Of the entries that are never appended here
only the fields a lookup reads are kept. -/
inductive JournalEntry where
  | llmCall (seq round requestHash : ℕ) (response : LlmSnapshot)
      (startedAt completedAt : Instant)
  | toolExecution (seq round : ℕ) (toolCallId : String)
  | compaction (seq round : ℕ)
  | gateDecision (seq stepIndex : ℕ) (prompt : String) (approved : Bool)
      (decidedBy : String) (decidedAt : Instant)
  deriving DecidableEq

/-- The sequence number of an entry. -/
def JournalEntry.seq : JournalEntry → ℕ
  | llmCall seq .. => seq
  | toolExecution seq .. => seq
  | compaction seq .. => seq
  | gateDecision seq .. => seq

/-- Serialized context guard state. -/
structure GuardSnapshot where
  estimatedTokens : ℕ
  compactionCount : ℕ
  circuitBreakerFailures : ℕ

/-- Minimal state snapshot for crash recovery. -/
inductive Checkpoint where
  | agentLoop (round : ℕ) (messages : List ChatMessage) (systemPrompt : String)
      (totalInputTokens totalOutputTokens : ℕ) (guardState : GuardSnapshot)
  | pipelineStep (stepIndex : ℕ) (stepResults : List StepResult) (context : Json)

/-! ## Leases -/

/-- Worker lease for distributed execution safety. -/
structure Lease where
  runId : RunId
  workerId : WorkerId
  acquiredAt : Instant
  expiresAt : Instant
  ttlSecs : ℕ
  fenceToken : ℕ
  deriving DecidableEq

/-- Is the lease valid at the clock reading `now`? -/
def Lease.isValid (lease : Lease) (now : Instant) : Bool :=
  decide (now < lease.expiresAt)

/-- Is the lease held by the given worker? -/
def Lease.isHeldBy (lease : Lease) (workerId : WorkerId) (now : Instant) : Bool :=
  decide (lease.workerId = workerId) && lease.isValid now

/-- Create a new lease with a specific fence token. -/
def Lease.new (runId : RunId) (workerId : WorkerId) (ttlSecs fenceToken : ℕ)
    (now : Instant) : Lease where
  runId := runId
  workerId := workerId
  acquiredAt := now
  expiresAt := now + durationSeconds ttlSecs
  ttlSecs := ttlSecs
  fenceToken := fenceToken

/-- Renew the lease, keeping the same fence token. -/
def Lease.renew (lease : Lease) (ttlSecs : ℕ) (now : Instant) : Lease where
  runId := lease.runId
  workerId := lease.workerId
  acquiredAt := lease.acquiredAt
  expiresAt := now + durationSeconds ttlSecs
  ttlSecs := ttlSecs
  fenceToken := lease.fenceToken

/-! ## Dead letters -/

/-- An entry in the dead letter queue: a permanently failed run. -/
structure DeadLetterEntry where
  runId : RunId
  workflowType : WorkflowType
  error : String
  attempts : ℕ
  firstAttemptAt : Instant
  lastAttemptAt : Instant
  lastCheckpoint : Option Checkpoint
  totalInputTokens : ℕ
  totalOutputTokens : ℕ

end ClawDesk.Runtime
