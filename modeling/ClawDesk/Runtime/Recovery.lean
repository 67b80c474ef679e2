import ClawDesk.Runtime.DurableRunner

/-!
# The recovery manager

`scan_and_recover` looks for leases that have run out.  The run of each is put
back to pending if its retry policy allows another attempt, and otherwise moved
to the dead letter queue and marked failed.  A lease that has run out is nobody's
any more, so the release that recovery begins with does not delete it.
-/

namespace ClawDesk.Runtime

open Foundations

namespace DeadLetterQueue

/-- Add a failed run to the dead letter queue. -/
def enqueue (entry : DeadLetterEntry) : Proc (Except RuntimeError Unit) :=
  (putEntry (.dlq entry.runId) entry).andThen fun _ => .ret (.ok ())

/-- Load a specific entry. -/
def get (runId : RunId) : Proc (Except RuntimeError (Option DeadLetterEntry)) :=
  getEntry (.dlq runId)

/-- Remove an entry, whatever the store answers. -/
def remove (runId : RunId) : Proc (Except RuntimeError Unit) :=
  (ask (.delete (.dlq runId))).bind fun _ => .ret (.ok ())

end DeadLetterQueue

/-- Outcome of a single run recovery attempt. -/
inductive RecoveryAction where
  | requeued (runId : RunId) (attempt : ℕ)
  | deadLettered (runId : RunId) (attempts : ℕ)
  | alreadyTerminal (runId : RunId)
  | orphaned (runId : RunId)

namespace RecoveryManager

/-- The dead letter entry of a run whose lease has expired. -/
def deadLetter (runId : RunId) (lease : Lease) (run : WorkflowRun)
    (checkpoint : Option Checkpoint) : DeadLetterEntry where
  runId := runId
  workflowType := run.workflowType
  error := "lease expired after " ++ toString run.attempt ++ " attempts (worker: " ++
    lease.workerId ++ ")"
  attempts := run.attempt
  firstAttemptAt := run.createdAt
  lastAttemptAt := run.updatedAt
  lastCheckpoint := checkpoint
  totalInputTokens := run.totalInputTokens
  totalOutputTokens := run.totalOutputTokens

/-- Attempt to recover a single orphaned run. -/
def recoverRun (runId : RunId) (lease : Lease) : Proc (Except RuntimeError RecoveryAction) :=
  (LeaseManager.release runId lease.workerId lease.fenceToken).bind fun _ =>
    (CheckpointStore.loadRun runId).andThen fun
      | none => .ret (.ok (.orphaned runId))
      | some run =>
          if run.isTerminal then .ret (.ok (.alreadyTerminal runId))
          else if run.attempt < run.retryPolicy.maxAttempts ∧
              run.retryPolicy.shouldRetry .leaseExpired = true then
            (saveAs { run with workerId := none } .pending).andThen fun _ =>
              .ret (.ok (.requeued runId run.attempt))
          else
            (CheckpointStore.loadCheckpoint runId).andThen fun checkpoint =>
              (DeadLetterQueue.enqueue (deadLetter runId lease run checkpoint)).andThen fun _ =>
                (saveAs run (.failed "lease expired, moved to DLQ" run.attempt)).andThen fun _ =>
                  .ret (.ok (.deadLettered runId run.attempt))

/-- Recover each run in turn; the first error ends the scan. -/
def recoverAll : List (RunId × Lease) → List RecoveryAction →
    Proc (Except RuntimeError (List RecoveryAction))
  | [], actions => .ret (.ok actions)
  | (runId, lease) :: rest, actions =>
      (recoverRun runId lease).andThen fun action => recoverAll rest (actions ++ [action])

/-- Scan for all orphaned runs (expired leases) and recover them. -/
def scanAndRecover : Proc (Except RuntimeError (List RecoveryAction)) :=
  LeaseManager.scanExpired.andThen fun expired => recoverAll expired []

/-- Retry a run from the dead letter queue: set it back to pending and remove the
entry. -/
def retryFromDlq (runId : RunId) : Proc (Except RuntimeError Unit) :=
  (DeadLetterQueue.get runId).andThen fun
    | none => .ret (.error (.runNotFound runId))
    | some _ =>
        (CheckpointStore.loadRun runId).andThen fun
          | none => .ret (.error (.runNotFound runId))
          | some run =>
              (saveAs { run with workerId := none } .pending).andThen fun _ =>
                DeadLetterQueue.remove runId

end RecoveryManager

end ClawDesk.Runtime
