import ClawDesk.Runtime.Checkpoint
import ClawDesk.Runtime.Journal
import ClawDesk.Runtime.Lease

/-!
# The durable agent runner

One agent run under a lease: the run record is saved when it starts and when it
ends, the answer is journaled and checkpointed in between.

The fence token is validated once, before the agent is asked.  What follows the
agent's answer (the journal entry, the checkpoint, the final record) is written
without looking at the lease or at the stored record again.
-/

namespace ClawDesk.Runtime

open Foundations

/-- Orchestrates a durable execution of an agent workflow. -/
structure DurableAgentRunner where
  leaseManager : LeaseManager
  workerId : WorkerId

/-- The journal entry for an agent's answer. -/
def llmCallEntry (seq : ℕ) (config : AgentConfig) (response : AgentResponse)
    (startedAt completedAt : Instant) : JournalEntry :=
  .llmCall seq response.totalRounds 0
    { content := response.content
      model := config.model
      inputTokens := response.inputTokens
      outputTokens := response.outputTokens
      finishReason := response.finishReason }
    startedAt completedAt

/-- Add the tokens of an answer to the run's account. -/
def WorkflowRun.addTokens (run : WorkflowRun) (response : AgentResponse) : WorkflowRun :=
  { run with
    totalInputTokens := run.totalInputTokens + response.inputTokens
    totalOutputTokens := run.totalOutputTokens + response.outputTokens }

/-- The checkpoint after an agent's answer. -/
def agentCheckpoint (run : WorkflowRun) (history : List ChatMessage) (systemPrompt : String)
    (response : AgentResponse) : Checkpoint :=
  .agentLoop response.totalRounds
    (history ++ response.toolMessages ++ [ChatMessage.new .assistant response.content])
    systemPrompt run.totalInputTokens run.totalOutputTokens
    { estimatedTokens := 0
      compactionCount := 0
      circuitBreakerFailures := 0 }

/-- The state of a run that is to be tried again. -/
def retrying (run : WorkflowRun) (delay : String) (error : ClawDeskError) : RunState :=
  .suspended (.userInput ("Retrying after " ++ delay ++ " (attempt " ++
    toString (run.attempt + 1) ++ "/" ++ toString run.retryPolicy.maxAttempts ++ "): " ++
    error.display))

/-- `run.updated_at = Utc::now(); save_run(&run)`, in a new state. -/
def saveAs (run : WorkflowRun) (state : RunState) : Proc (Except RuntimeError Unit) :=
  (ask .clock).bind fun now =>
    CheckpointStore.saveRun { run with state := state, updatedAt := now }

namespace DurableAgentRunner

variable (runner : DurableAgentRunner)

/-- Has the run's deadline passed?  The clock is read only if there is one. -/
def checkDeadline (run : WorkflowRun) : Proc Bool :=
  match run.deadline with
  | none => .ret false
  | some deadline => (ask .clock).bind fun now => .ret (decide (deadline < now))

/-- The part of `execute_with_durability` after the agent has answered: journal,
checkpoint, renew. -/
def recordResponse (run : WorkflowRun) (config : AgentConfig) (history : List ChatMessage)
    (systemPrompt : String) (fenceToken : ℕ) (response : AgentResponse) :
    Proc (WorkflowRun × Except ClawDeskError String) :=
  let seq := run.takeSeq.1
  let run := run.takeSeq.2
  (ask .clock).bind fun completedAt =>
    (ActivityJournal.append run.id
        (llmCallEntry seq config response run.updatedAt completedAt)).bind fun
      | .error e => .ret (run, .error e.toClawDeskError)
      | .ok _ =>
          let run := run.addTokens response
          (CheckpointStore.saveCheckpoint run.id
              (agentCheckpoint run history systemPrompt response)).bind fun
            | .error e => .ret (run, .error e.toClawDeskError)
            | .ok _ =>
                (runner.leaseManager.renew run.id runner.workerId fenceToken).bind fun _ =>
                  .ret (run, .ok response.content)

/-- Core execution with durability wrapping.  The run comes back with what has
been counted up to the point of failure. -/
def executeWithDurability (run : WorkflowRun) (config : AgentConfig)
    (history : List ChatMessage) (systemPrompt : String) (fenceToken : ℕ) :
    Proc (WorkflowRun × Except ClawDeskError String) :=
  (checkDeadline run).bind fun late =>
    if late then .ret (run, .error (.agent .cancelled))
    else
      (LeaseManager.validateFence run.id fenceToken).bind fun
        | .error e => .ret (run, .error (.agent (.contextAssemblyFailed e.display)))
        | .ok _ =>
            (ask (.createRunner config)).bind fun
              | .error e => .ret (run, .error e)
              | .ok _ =>
                  (ask (.runAgent config history systemPrompt)).bind fun
                    | .error e => .ret (run, .error e)
                    | .ok response =>
                        runner.recordResponse run config history systemPrompt fenceToken response

/-- Save the run as suspended for a retry, or as failed. -/
def saveFailure (run : WorkflowRun) (error : ClawDeskError) : Proc (Except RuntimeError Unit) :=
  if run.attempt < run.retryPolicy.maxAttempts ∧
      run.retryPolicy.shouldRetry (ErrorClass.classify error) = true then
    (ask (.printDelay run.retryPolicy run.attempt)).bind fun delay =>
      saveAs run (retrying run delay error)
  else saveAs run (.failed error.display run.attempt)

/-- Handle a failed execution: apply the retry policy, then release the lease,
whatever the release answers. -/
def handleFailure (run : WorkflowRun) (error : ClawDeskError) (fenceToken : ℕ) :
    Proc (Except RuntimeError Unit) :=
  (saveFailure run error).andThen fun _ =>
    (LeaseManager.release run.id runner.workerId fenceToken).bind fun _ => .ret (.ok ())

/-- The end of `start` and `resume`: execute, then mark the run completed or
handle the failure. -/
def executeAndFinish (run : WorkflowRun) (config : AgentConfig) (history : List ChatMessage)
    (systemPrompt : String) (fenceToken : ℕ) : Proc (Except RuntimeError (RunId × String)) :=
  (runner.executeWithDurability run config history systemPrompt fenceToken).bind fun
    | (run, .ok content) =>
        (saveAs run (.completed (.object [("content", .string content)]))).andThen fun _ =>
          (LeaseManager.release run.id runner.workerId fenceToken).andThen fun _ =>
            .ret (.ok (run.id, content))
    | (run, .error e) =>
        (runner.handleFailure run e fenceToken).andThen fun _ => .ret (.error (.agent e.display))

/-- Start a new durable agent execution. -/
def start (config : AgentConfig) (sessionKey : String) (history : List ChatMessage)
    (systemPrompt : String) (retryPolicy : RetryPolicy) :
    Proc (Except RuntimeError (RunId × String)) :=
  (ask .clock).bind fun created =>
  (ask .newRunId).bind fun runId =>
  (ask .clock).bind fun updated =>
    let run := { WorkflowRun.new runId created (.agentLoop config sessionKey) retryPolicy with
      workerId := some runner.workerId
      state := .running runner.workerId
      attempt := 1
      updatedAt := updated }
    (CheckpointStore.saveRun run).andThen fun _ =>
      (runner.leaseManager.acquire run.id runner.workerId).andThen fun lease =>
        runner.executeAndFinish run config history systemPrompt lease.fenceToken

/-- What a resumed run goes on from: its configuration, and the messages, the
prompt and the token counts of its checkpoint. -/
def resumePoint (run : WorkflowRun) :
    Option Checkpoint → Option (WorkflowRun × AgentConfig × List ChatMessage × String) :=
  fun checkpoint =>
    match run.workflowType, checkpoint with
    | .agentLoop config _, some (.agentLoop _ messages systemPrompt inputTokens outputTokens _) =>
        some ({ run with
          totalInputTokens := inputTokens
          totalOutputTokens := outputTokens }, config, messages, systemPrompt)
    | .agentLoop config _, none => some (run, config, [], "")
    | _, _ => none

/-- Resume a previously suspended or crashed run from its checkpoint. -/
def resume (runId : RunId) : Proc (Except RuntimeError (RunId × String)) :=
  (CheckpointStore.loadRun runId).andThen fun
    | none => .ret (.error (.runNotFound runId))
    | some run =>
        if run.isTerminal then .ret (.error (.terminalState runId run.state.label))
        else
          (runner.leaseManager.acquire runId runner.workerId).andThen fun lease =>
            (CheckpointStore.loadCheckpoint runId).andThen fun checkpoint =>
              match resumePoint run checkpoint with
              | none =>
                  .ret (.error (.checkpointCorrupted "resume called on non-AgentLoop workflow"))
              | some (run, config, history, systemPrompt) =>
                  (ask .clock).bind fun now =>
                    let run := { run with
                      state := .running runner.workerId
                      workerId := some runner.workerId
                      attempt := run.attempt + 1
                      updatedAt := now }
                    (CheckpointStore.saveRun run).andThen fun _ =>
                      runner.executeAndFinish run config history systemPrompt lease.fenceToken

/-- Release whatever lease the run's worker holds, as `cancel` does at its end. -/
def releaseHeld (runId : RunId) : Option WorkerId → Proc (Except RuntimeError Unit)
  | none => .ret (.ok ())
  | some workerId =>
      (LeaseManager.loadLease runId).bind fun
        | .ok (some lease) =>
            (LeaseManager.release runId workerId lease.fenceToken).bind fun _ => .ret (.ok ())
        | _ => .ret (.ok ())

/-- Cancel a running workflow. -/
def cancel (runId : RunId) (reason : String) : Proc (Except RuntimeError Unit) :=
  (CheckpointStore.loadRun runId).andThen fun
    | none => .ret (.error (.runNotFound runId))
    | some run =>
        if run.isTerminal then .ret (.error (.terminalState runId run.state.label))
        else
          (saveAs run (.cancelled reason)).andThen fun _ => releaseHeld runId run.workerId

end DurableAgentRunner

end ClawDesk.Runtime
