import ClawDesk.Runtime.Checkpoint
import ClawDesk.Runtime.Journal
import ClawDesk.Runtime.Lease

/-!
# The pipeline executor

`execute` walks the steps of a pipeline in order, saves a checkpoint after each,
and applies the pipeline's error policy when one fails.

It is written in two layers.  `DagProg` is a program over the operations of the
executor's collaborators (`DagOp`): save a run, renew a lease, execute one step.
`DagOp.run` is the program of the runtime that carries out each of them, so that
`DagExecutor.execute` is `pipelineLoop` and what surrounds it with every
collaborator put in its place.  What holds along every path of the upper layer
holds of the whole (`Prog.Trace.of_expand`).
-/

namespace ClawDesk.Runtime

open Foundations (Prog Json)
open Agents

/-! ### Executing one step -/

/-- A step has completed, or waits for a human. -/
inductive StepExecution where
  | completed (result : StepResult)
  | suspended (reason : SuspendReason)

/-- Executes pipelines with durable per-step checkpointing. -/
structure DagExecutor where
  leaseManager : LeaseManager
  workerId : WorkerId

/-- `chrono::Duration::milliseconds(ms as i64)`, in nanoseconds.  The cast wraps. -/
def durationMillis (ms : ℕ) : ℤ := (BitVec.ofNat 64 ms).toInt * 1000000

/-- A result that failed with nothing to show. -/
def StepResult.failure (stepIndex durationMs : ℕ) (error : String) : StepResult where
  stepIndex := stepIndex
  success := false
  output := .null
  durationMs := durationMs
  error := some error
  subResults := []

/-- What the previous output contributes as a prompt. -/
def promptOf : Json → String
  | .string s => s
  | .null => ""
  | other => other.render

/-- Transform a context: `$.field` looks a field up, anything else is a template. -/
def transform (expression : String) (context : Json) : Json :=
  if ['$', '.'].isPrefixOf expression.toList then
    (context.get (String.ofList (expression.toList.drop 2))).getD .null
  else .string (expression.replace "\x7binput\x7d" context.render)

/-- The agent branch of `execute_step`. -/
def executeAgent (agentId : String) (timeoutSecs : ℕ) (run : WorkflowRun) (stepIdx : ℕ)
    (context : Json) : Proc (WorkflowRun × Except RuntimeError StepExecution) :=
  (ask (.agentConfig agentId)).bind fun registered =>
    let config : AgentConfig := registered.getD { model := agentId }
    (ask (.createRunner config)).bind fun
      | .error e => .ret (run, .error (.agent e.display))
      | .ok _ =>
          (ask (.runAgentWithin timeoutSecs config
              [ChatMessage.new .user (promptOf context)] "")).bind fun
            | none => .ret (run, .error (.deadlineExceeded run.id))
            | some (.error e) => .ret (run, .error (.agent e.display))
            | some (.ok response) =>
                (ask .elapsedMs).bind fun durationMs =>
                (ask .clock).bind fun now =>
                (ask .clock).bind fun completedAt =>
                  let (seq, run) := run.takeSeq
                  let entry := JournalEntry.llmCall seq response.totalRounds 0
                    { content := response.content
                      model := config.model
                      inputTokens := response.inputTokens
                      outputTokens := response.outputTokens
                      finishReason := response.finishReason }
                    (now - durationMillis durationMs) completedAt
                  (ActivityJournal.append run.id entry).bind fun
                    | .error e => .ret (run, .error e)
                    | .ok _ =>
                        .ret ({ run with
                          totalInputTokens := run.totalInputTokens + response.inputTokens
                          totalOutputTokens := run.totalOutputTokens + response.outputTokens },
                          .ok (.completed
                            { stepIndex := stepIdx
                              success := true
                              output := .object [("content", .string response.content)]
                              durationMs := durationMs
                              error := none
                              subResults := [] }))

/-- The gate branch of `execute_step`. -/
def executeGate (prompt : String) (timeoutSecs : ℕ) (defaultAction : GateDefault)
    (run : WorkflowRun) (stepIdx : ℕ) : Proc (WorkflowRun × Except RuntimeError StepExecution) :=
  (ask .clock).bind fun decidedAt =>
    let (seq, run) := run.takeSeq
    (ActivityJournal.append run.id
        (.gateDecision seq stepIdx prompt false "pending" decidedAt)).bind fun
      | .error e => .ret (run, .error e)
      | .ok _ =>
          match defaultAction with
          | .proceed => .ret (run, .ok (.completed
              { stepIndex := stepIdx
                success := true
                output := .object [("gate", .string "auto_approved")]
                durationMs := 0
                error := none
                subResults := [] }))
          | .abort => .ret (run, .error (.agent "gate aborted pipeline"))
          | .skip => .ret (run, .ok (.suspended (.humanGate prompt timeoutSecs)))

mutual

/-- Execute a single pipeline step. -/
def executeStep : PipelineStep → WorkflowRun → ℕ → Json →
    Proc (WorkflowRun × Except RuntimeError StepExecution)
  | .agent agentId timeoutSecs, run, stepIdx, context =>
      executeAgent agentId timeoutSecs run stepIdx context
  | .gate prompt timeoutSecs defaultAction, run, stepIdx, _ =>
      executeGate prompt timeoutSecs defaultAction run stepIdx
  | .transform expression, run, stepIdx, context =>
      (ask .elapsedMs).bind fun durationMs =>
        .ret (run, .ok (.completed
          { stepIndex := stepIdx
            success := true
            output := transform expression context
            durationMs := durationMs
            error := none
            subResults := [] }))
  | .parallel branches, run, stepIdx, context =>
      (executeBranches branches 0 [] run context).bind fun
        | (run, .error reason) => .ret (run, .ok (.suspended reason))
        | (run, .ok subResults) =>
            (ask .elapsedMs).bind fun durationMs =>
              .ret (run, .ok (.completed
                { stepIndex := stepIdx
                  success := subResults.all (·.success)
                  output := .array (subResults.map (·.output))
                  durationMs := durationMs
                  error := none
                  subResults := subResults }))
  | .router _ (some step), run, stepIdx, context => executeStep step run stepIdx context
  | .router ((_, step) :: _) none, run, stepIdx, context => executeStep step run stepIdx context
  | .router [] none, run, _, _ => .ret (run, .error (.agent "no route matched"))

/-- The branches of a parallel step, one after another; a branch that waits for a
human ends the step. -/
def executeBranches : List PipelineStep → ℕ → List StepResult → WorkflowRun → Json →
    Proc (WorkflowRun × Except SuspendReason (List StepResult))
  | [], _, subResults, run, _ => .ret (run, .ok subResults)
  | branch :: rest, i, subResults, run, context =>
      (executeStep branch run i context).bind fun
        | (run, .ok (.completed r)) =>
            executeBranches rest (i + 1) (subResults ++ [r]) run context
        | (run, .ok (.suspended reason)) => .ret (run, .error reason)
        | (run, .error e) =>
            executeBranches rest (i + 1) (subResults ++ [StepResult.failure i 0 e.display])
              run context

end

/-- What a step execution promises: the attempt counter of the run is not touched,
and a completed step carries its own index and no error. -/
def StepContract (run : WorkflowRun) (stepIdx : ℕ) :
    WorkflowRun × Except RuntimeError StepExecution → Prop
  | (run', outcome) => run'.attempt = run.attempt ∧
      ∀ result, outcome = .ok (.completed result) →
        result.stepIndex = stepIdx ∧ result.error = none

theorem executeAgent_contract (agentId : String) (timeoutSecs : ℕ) (run : WorkflowRun)
    (stepIdx : ℕ) (context : Json) :
    (executeAgent agentId timeoutSecs run stepIdx context).Ensures (StepContract run stepIdx) := by
  refine .ask fun registered => .ask ?_
  rintro (e | -)
  · exact ⟨rfl, nofun⟩
  refine .ask ?_
  rintro (- | e | response)
  · exact ⟨rfl, nofun⟩
  · exact ⟨rfl, nofun⟩
  refine .ask fun durationMs => .ask fun now => .ask fun completedAt => ?_
  refine .bind (Prog.ensures_true _) ?_
  rintro (e | -) -
  · exact ⟨rfl, nofun⟩
  · refine ⟨rfl, ?_⟩
    rintro result ⟨⟩
    exact ⟨rfl, rfl⟩

theorem executeGate_contract (prompt : String) (timeoutSecs : ℕ) (defaultAction : GateDefault)
    (run : WorkflowRun) (stepIdx : ℕ) :
    (executeGate prompt timeoutSecs defaultAction run stepIdx).Ensures
      (StepContract run stepIdx) := by
  refine .ask fun decidedAt => .bind (Prog.ensures_true _) ?_
  rintro (e | -) -
  · exact ⟨rfl, nofun⟩
  cases defaultAction with
  | proceed =>
      refine ⟨rfl, ?_⟩
      rintro result ⟨⟩
      exact ⟨rfl, rfl⟩
  | abort => exact ⟨rfl, nofun⟩
  | skip => exact ⟨rfl, nofun⟩

mutual

/-- **Every step execution keeps the contract.** -/
theorem executeStep_contract : ∀ (step : PipelineStep) (run : WorkflowRun) (stepIdx : ℕ)
    (context : Json), (executeStep step run stepIdx context).Ensures (StepContract run stepIdx)
  | .agent agentId timeoutSecs, run, stepIdx, context => by
      rw [executeStep]
      exact executeAgent_contract agentId timeoutSecs run stepIdx context
  | .gate prompt timeoutSecs defaultAction, run, stepIdx, _ => by
      rw [executeStep]
      exact executeGate_contract prompt timeoutSecs defaultAction run stepIdx
  | .transform expression, run, stepIdx, context => by
      rw [executeStep]
      refine .ask fun durationMs => ⟨rfl, ?_⟩
      rintro result ⟨⟩
      exact ⟨rfl, rfl⟩
  | .parallel branches, run, stepIdx, context => by
      rw [executeStep]
      refine .bind (executeBranches_contract branches 0 [] run context) ?_
      rintro ⟨run', reason | subResults⟩ hattempt
      · exact ⟨hattempt, nofun⟩
      · refine .ask fun durationMs => ⟨hattempt, ?_⟩
        rintro result ⟨⟩
        exact ⟨rfl, rfl⟩
  | .router _ (some step), run, stepIdx, context => by
      rw [executeStep]
      exact executeStep_contract step run stepIdx context
  | .router ((_, step) :: _) none, run, stepIdx, context => by
      rw [executeStep]
      exact executeStep_contract step run stepIdx context
  | .router [] none, run, _, _ => by
      rw [executeStep]
      exact ⟨rfl, nofun⟩

theorem executeBranches_contract : ∀ (branches : List PipelineStep) (i : ℕ)
    (subResults : List StepResult) (run : WorkflowRun) (context : Json),
    (executeBranches branches i subResults run context).Ensures
      fun result => result.1.attempt = run.attempt
  | [], _, _, _, _ => by
      rw [executeBranches]
      rfl
  | branch :: rest, i, subResults, run, context => by
      rw [executeBranches]
      refine .bind (executeStep_contract branch run i context) ?_
      rintro ⟨run', e | result | reason⟩ ⟨hattempt, -⟩
      · exact hattempt ▸ executeBranches_contract rest (i + 1) _ run' context
      · exact hattempt ▸ executeBranches_contract rest (i + 1) _ run' context
      · exact hattempt

end

/-- The operations of a step execution: it appends to journals and asks agents. -/
def OnStep : Op → Prop
  | .put (.journal _ _) _ => True
  | .clock => True
  | .elapsedMs => True
  | .agentConfig _ => True
  | .createRunner _ => True
  | .runAgentWithin _ _ _ _ => True
  | _ => False

/-- A step execution asks nothing else, and hands back the run it was given. -/
def StepOnly {β : Type} (run : WorkflowRun) (p : Proc (WorkflowRun × β)) : Prop :=
  p.Asks OnStep ∧ p.Ensures fun result => result.1.id = run.id

theorem append_onStep (runId : RunId) (entry : JournalEntry) :
    (ActivityJournal.append runId entry).Asks OnStep :=
  .andThen (.ask trivial fun _ => trivial) fun _ => trivial

theorem executeAgent_onStep (agentId : String) (timeoutSecs : ℕ) (run : WorkflowRun)
    (stepIdx : ℕ) (context : Json) :
    StepOnly run (executeAgent agentId timeoutSecs run stepIdx context) := by
  constructor
  · refine .ask trivial fun registered => .ask trivial ?_
    rintro (e | -)
    · trivial
    refine .ask trivial ?_
    rintro (- | e | response)
    · trivial
    · trivial
    refine .ask trivial fun durationMs => .ask trivial fun now => .ask trivial fun done => ?_
    refine (append_onStep _ _).bind ?_
    rintro (e | -) <;> trivial
  · refine .ask fun registered => .ask ?_
    rintro (e | -)
    · rfl
    refine .ask ?_
    rintro (- | e | response)
    · rfl
    · rfl
    refine .ask fun durationMs => .ask fun now => .ask fun done => ?_
    refine .bind (Prog.ensures_true _) ?_
    rintro (e | -) - <;> rfl

theorem executeGate_onStep (prompt : String) (timeoutSecs : ℕ) (defaultAction : GateDefault)
    (run : WorkflowRun) (stepIdx : ℕ) :
    StepOnly run (executeGate prompt timeoutSecs defaultAction run stepIdx) := by
  constructor
  · refine .ask trivial fun decidedAt => (append_onStep _ _).bind ?_
    rintro (e | -)
    · trivial
    · cases defaultAction <;> trivial
  · refine .ask fun decidedAt => .bind (Prog.ensures_true _) ?_
    rintro (e | -) -
    · rfl
    · cases defaultAction <;> rfl

mutual

theorem executeStep_onStep : ∀ (step : PipelineStep) (run : WorkflowRun) (stepIdx : ℕ)
    (context : Json), StepOnly run (executeStep step run stepIdx context)
  | .agent agentId timeoutSecs, run, stepIdx, context => by
      rw [executeStep]
      exact executeAgent_onStep agentId timeoutSecs run stepIdx context
  | .gate prompt timeoutSecs defaultAction, run, stepIdx, _ => by
      rw [executeStep]
      exact executeGate_onStep prompt timeoutSecs defaultAction run stepIdx
  | .transform expression, run, stepIdx, context => by
      rw [executeStep]
      exact ⟨.ask trivial fun _ => trivial, .ask fun _ => rfl⟩
  | .parallel branches, run, stepIdx, context => by
      rw [executeStep]
      obtain ⟨hasks, hid⟩ := executeBranches_onStep branches 0 [] run context
      constructor
      · refine hasks.bind ?_
        rintro ⟨run', reason | subResults⟩
        · trivial
        · exact .ask trivial fun _ => trivial
      · refine hid.bind ?_
        rintro ⟨run', reason | subResults⟩ hrun
        · exact hrun
        · exact .ask fun _ => hrun
  | .router _ (some step), run, stepIdx, context => by
      rw [executeStep]
      exact executeStep_onStep step run stepIdx context
  | .router ((_, step) :: _) none, run, stepIdx, context => by
      rw [executeStep]
      exact executeStep_onStep step run stepIdx context
  | .router [] none, run, _, _ => by
      rw [executeStep]
      exact ⟨trivial, rfl⟩

theorem executeBranches_onStep : ∀ (branches : List PipelineStep) (i : ℕ)
    (subResults : List StepResult) (run : WorkflowRun) (context : Json),
    StepOnly run (executeBranches branches i subResults run context)
  | [], _, _, _, _ => by
      rw [executeBranches]
      exact ⟨trivial, rfl⟩
  | branch :: rest, i, subResults, run, context => by
      rw [executeBranches]
      obtain ⟨hasks, hid⟩ := executeStep_onStep branch run i context
      constructor
      · refine hasks.bind ?_
        rintro ⟨run', e | result | reason⟩
        · exact (executeBranches_onStep rest (i + 1) _ run' context).1
        · exact (executeBranches_onStep rest (i + 1) _ run' context).1
        · trivial
      · refine hid.bind ?_
        rintro ⟨run', e | result | reason⟩ hrun
        · exact hrun ▸ (executeBranches_onStep rest (i + 1) _ run' context).2
        · exact hrun ▸ (executeBranches_onStep rest (i + 1) _ run' context).2
        · exact hrun

end

/-! ### The executor's collaborators -/

/-- How a step ended, with what the executor records about it. -/
inductive StepOutcome where
  | completed (result : StepResult)
  | suspended (reason : SuspendReason)
  | failed (error : String) (durationMs : ℕ)

/-- The operations `execute` asks its collaborators for. -/
inductive DagOp where
  | clock
  | newRunId
  | elapsedMs
  | sleep (ms : ℕ)
  | saveRun (run : WorkflowRun)
  | acquire (runId : RunId)
  | renew (runId : RunId) (fence : ℕ)
  | release (runId : RunId) (fence : ℕ)
  | loadCheckpoint (runId : RunId)
  | saveCheckpoint (runId : RunId) (checkpoint : Checkpoint)
  | step (run : WorkflowRun) (pipelineStep : PipelineStep) (stepIdx : ℕ) (context : Json)

@[reducible] def DagOp.Res : DagOp → Type
  | clock => Instant
  | newRunId => RunId
  | elapsedMs => ℕ
  | sleep _ => Unit
  | saveRun _ => Except RuntimeError Unit
  | acquire _ => Except RuntimeError Lease
  | renew _ _ => Except RuntimeError Lease
  | release _ _ => Except RuntimeError Unit
  | loadCheckpoint _ => Except RuntimeError (Option Checkpoint)
  | saveCheckpoint _ _ => Except RuntimeError Unit
  | step _ _ _ _ => WorkflowRun × StepOutcome

/-- Execute a step; a failed one is timed. -/
def timedStep (step : PipelineStep) (run : WorkflowRun) (stepIdx : ℕ) (context : Json) :
    Proc (WorkflowRun × StepOutcome) :=
  (executeStep step run stepIdx context).bind fun
    | (run, .ok (.completed result)) => .ret (run, .completed result)
    | (run, .ok (.suspended reason)) => .ret (run, .suspended reason)
    | (run, .error e) =>
        (ask .elapsedMs).bind fun durationMs => .ret (run, .failed e.display durationMs)

theorem timedStep_contract (step : PipelineStep) (run : WorkflowRun) (stepIdx : ℕ)
    (context : Json) : (timedStep step run stepIdx context).Ensures fun result =>
      result.1.attempt = run.attempt ∧ ∀ r, result.2 = .completed r →
        r.stepIndex = stepIdx ∧ r.error = none := by
  refine .bind (executeStep_contract step run stepIdx context) ?_
  rintro ⟨run', e | result | reason⟩ ⟨hattempt, hresult⟩
  · exact fun _ => ⟨hattempt, nofun⟩
  · refine ⟨hattempt, ?_⟩
    rintro r ⟨⟩
    exact hresult _ rfl
  · exact ⟨hattempt, nofun⟩

theorem timedStep_onStep (step : PipelineStep) (run : WorkflowRun) (stepIdx : ℕ)
    (context : Json) : StepOnly run (timedStep step run stepIdx context) := by
  obtain ⟨hasks, hid⟩ := executeStep_onStep step run stepIdx context
  constructor
  · refine hasks.bind ?_
    rintro ⟨run', e | result | reason⟩
    · exact .ask trivial fun _ => trivial
    · trivial
    · trivial
  · refine hid.bind ?_
    rintro ⟨run', e | result | reason⟩ hrun
    · exact .ask fun _ => hrun
    · exact hrun
    · exact hrun

/-- The part of the runtime that carries out each operation. -/
def DagOp.run (ex : DagExecutor) : (e : DagOp) → Proc e.Res
  | clock => ask .clock
  | newRunId => ask .newRunId
  | elapsedMs => ask .elapsedMs
  | sleep ms => ask (.sleep ms)
  | saveRun run => CheckpointStore.saveRun run
  | acquire runId => ex.leaseManager.acquire runId ex.workerId
  | renew runId fence => ex.leaseManager.renew runId ex.workerId fence
  | release runId fence => LeaseManager.release runId ex.workerId fence
  | loadCheckpoint runId => CheckpointStore.loadCheckpoint runId
  | saveCheckpoint runId checkpoint => CheckpointStore.saveCheckpoint runId checkpoint
  | .step run pipelineStep stepIdx context => timedStep pipelineStep run stepIdx context

abbrev DagProg (α : Type) : Type := Prog DagOp DagOp.Res α

/-- Ask a collaborator. -/
abbrev call (e : DagOp) : DagProg e.Res := Prog.ask e

/-! ### The loop over the steps -/

/-- What `execute` carries from step to step. -/
structure Progress where
  run : WorkflowRun
  fence : ℕ
  stepResults : List StepResult
  context : Json
  errors : List String

/-- A step has completed: its output is the new context. -/
def Progress.complete (st : Progress) (run : WorkflowRun) (fence : ℕ) (result : StepResult) :
    Progress where
  run := run
  fence := fence
  stepResults := st.stepResults ++ [result]
  context := result.output
  errors := st.errors

/-- A step has failed: a result that says so is recorded, the context stays. -/
def Progress.fail (st : Progress) (run : WorkflowRun) (fence stepIdx durationMs : ℕ)
    (error : String) : Progress where
  run := run
  fence := fence
  stepResults := st.stepResults ++ [StepResult.failure stepIdx durationMs error]
  context := st.context
  errors := st.errors ++ [error]

/-- The failed result is popped and the attempt counted. -/
def Progress.retry (st : Progress) : Progress :=
  { st with
    run := { st.run with attempt := st.run.attempt + 1 }
    stepResults := st.stepResults.dropLast }

/-- `base_delay.min(30_000)`, where `base_delay` is `backoff_ms * 2u64.pow(attempt - 1)`. -/
def retryDelay (backoffMs attempt : ℕ) : ℕ :=
  min (backoffMs * (2 ^ (attempt - 1) % 2 ^ 64) % 2 ^ 64) 30000

/-- Suspend the run at a gate: store it as suspended, and a checkpoint at the
current position. -/
def suspendRun (st : Progress) (stepIdx : ℕ) (reason : SuspendReason) :
    DagProg (Except RuntimeError Progress) :=
  (call .clock).bind fun now =>
    let run := { st.run with state := .suspended reason, updatedAt := now }
    (call (.saveRun run)).andThen fun _ =>
      (call (.saveCheckpoint run.id (.pipelineStep stepIdx st.stepResults st.context))).andThen
        fun _ => .ret (.error (.agent "pipeline suspended at gate"))

/-- Execute each step in turn. -/
def pipelineLoop (policy : ErrorPolicy) :
    List (PipelineStep × ℕ) → Progress → DagProg (Except RuntimeError Progress)
  | [], st => .ret (.ok st)
  | (step, stepIdx) :: rest, st =>
      (call (.renew st.run.id st.fence)).andThen fun renewed =>
        (call (.step st.run step stepIdx st.context)).bind fun
          | (run, .completed result) =>
              let st := st.complete run renewed.fenceToken result
              (call (.saveCheckpoint run.id
                  (.pipelineStep (stepIdx + 1) st.stepResults st.context))).andThen fun _ =>
                pipelineLoop policy rest st
          | (run, .suspended reason) =>
              suspendRun { st with run := run, fence := renewed.fenceToken } stepIdx reason
          | (run, .failed error durationMs) =>
              let st := st.fail run renewed.fenceToken stepIdx durationMs error
              match policy with
              | .failFast => .ret (.ok st)
              | .continueOnError => pipelineLoop policy rest st
              | .retry maxAttempts backoffMs =>
                  -- `max_attempts as u32` keeps the low 32 bits.
                  if run.attempt < maxAttempts % 2 ^ 32 then
                    (call (.sleep (retryDelay backoffMs (run.attempt + 1)))).bind fun _ =>
                      (call (.saveCheckpoint run.id
                          (.pipelineStep stepIdx st.stepResults st.context))).bind fun _ =>
                        -- `continue` goes on to the next step, not to this one again.
                        pipelineLoop policy rest st.retry
                  else .ret (.ok st)

/-- Mark the run completed or failed, release the lease, and return the result. -/
def finishRun (pipeline : AgentPipeline) (st : Progress) :
    DagProg (Except RuntimeError PipelineResult) :=
  (call .elapsedMs).bind fun totalDurationMs =>
    let result : PipelineResult :=
      { pipelineName := pipeline.name
        success := st.errors.isEmpty
        steps := st.stepResults
        finalOutput := st.context
        totalDurationMs := totalDurationMs
        errors := st.errors }
    let state : RunState :=
      if result.success then .completed result.toJson
      else .failed "pipeline step(s) failed" st.run.attempt
    (call .clock).bind fun now =>
      (call (.saveRun { st.run with state := state, updatedAt := now })).andThen fun _ =>
        (call (.release st.run.id st.fence)).bind fun _ => .ret (.ok result)

/-- The steps from `start` on, with their indices. -/
def stepsFrom (pipeline : AgentPipeline) (start : ℕ) : List (PipelineStep × ℕ) :=
  pipeline.steps.zipIdx.drop start

/-- Run the loop from a position and finish the run. -/
def runFrom (pipeline : AgentPipeline) (run : WorkflowRun) (fence : ℕ)
    (start : ℕ) (stepResults : List StepResult) (context : Json) :
    DagProg (Except RuntimeError PipelineResult) :=
  (pipelineLoop pipeline.errorPolicy (stepsFrom pipeline start)
    { run := run
      fence := fence
      stepResults := stepResults
      context := context
      errors := [] }).andThen (finishRun pipeline)

namespace DagExecutor

/-- `execute` over its collaborators. -/
def executeWith (ex : DagExecutor) (pipeline : AgentPipeline) (retryPolicy : RetryPolicy) :
    DagProg (Except RuntimeError PipelineResult) :=
  (call .clock).bind fun created =>
  (call .newRunId).bind fun runId =>
  (call .clock).bind fun updated =>
    let run := { WorkflowRun.new runId created (.pipeline pipeline) retryPolicy with
      state := .running ex.workerId
      workerId := some ex.workerId
      attempt := 1
      updatedAt := updated }
    (call (.saveRun run)).andThen fun _ =>
      (call (.acquire runId)).andThen fun lease =>
        (call (.loadCheckpoint runId)).andThen fun
          | some (.pipelineStep stepIndex stepResults context) =>
              runFrom pipeline run lease.fenceToken stepIndex stepResults context
          | _ => runFrom pipeline run lease.fenceToken 0 [] .null

/-- Execute a pipeline durably, creating a run and managing its lifecycle. -/
def execute (ex : DagExecutor) (pipeline : AgentPipeline) (retryPolicy : RetryPolicy) :
    Proc (Except RuntimeError PipelineResult) :=
  (ex.executeWith pipeline retryPolicy).expand (DagOp.run ex)

end DagExecutor

end ClawDesk.Runtime
